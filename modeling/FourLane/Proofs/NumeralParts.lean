import FourLane.Proofs.ByteOffsets
import FourLane.Proofs.HexadecimalReading
import Mathlib

/-!
# Parts of numerals in bytes

Digits, signs and marks are bytes of their own, and no other character has such a byte. So the loops
over them stop in front of characters, and they find the same parts in the bytes of a text as in its
characters. An exponent is a number of 32 bits that saturates. Its digits are counted in 32 bits too,
and this count does not saturate: past the last number it is a fault, or wraps around where that is
not checked.
-/
namespace FourLane

/-! ### Numbers of 32 bits -/

/-- The nearest number of 32 bits. -/
def saturate (n : Int) : Int32 := Int32.ofInt (Numeral.clamp n)

def countUp (checked : Bool) (count : Int32) : Except ScanFault Int32 :=
  if checked ∧ count = Int32.maxValue then .error .overflow else .ok (count + 1)

def exponentStep (exponent : Int32) (b : UInt8) : Int32 :=
  saturate ((saturate (exponent.toInt * 10)).toInt + (b - byteOf '0').toNat)

/-- The digits of an exponent, with the number and the count so far. -/
def exponentLoop (checked : Bool) : List UInt8 → Int32 → Int32 → Except ScanFault (Int32 × Int32)
  | [], exponent, count => return (exponent, count)
  | b :: bs, exponent, count => do
    exponentLoop checked bs (exponentStep exponent b) (← countUp checked count)

/-- The exponent that digits spell, or none without digits. -/
def exponentOf (checked : Bool) (digits : List UInt8) : Except ScanFault (Option Int32) := do
  let (exponent, count) ← exponentLoop checked digits 0 0
  return if 0 < count then some exponent else none

/-! ### Parts of a numeral -/

def isDigitByte (b : UInt8) : Bool := 48 ≤ b.toNat ∧ b.toNat ≤ 57

/-- How many digits there are from an offset on. -/
def digitsFrom (text : String) (start : Nat) : Except ScanFault Nat := do
  let bytes ← bytesFrom text (min start (bytesOf text).length)
  return (bytes.takeWhile isDigitByte).length

def exponentFrom (checked : Bool) (text : String) (start : Nat) :
    Except ScanFault (Option Int32) := do
  let bytes ← bytesFrom text (min start (bytesOf text).length)
  exponentOf checked (bytes.takeWhile isDigitByte)

def signAt (text : String) (pos : Nat) : Bool × Nat :=
  if (bytesOf text)[pos]? = some (byteOf '-') then (true, pos + 1)
  else if (bytesOf text)[pos]? = some (byteOf '+') then (false, pos + 1)
  else (false, pos)

def letterAt (lower upper : Char) (text : String) (pos : Nat) : Bool :=
  (bytesOf text)[pos]? = some (byteOf lower) ∨ (bytesOf text)[pos]? = some (byteOf upper)

/-- Collects the hexadecimal digits from an offset on, and gives the offset behind them. -/
def hexLoop (text : String) (mantissa : Binary .double) (pos : Nat) : Binary .double × Nat :=
  if h : pos < (bytesOf text).length then
    match hexDigit? (Char.ofNat (bytesOf text)[pos].toNat) with
    | some digit => hexLoop text ((mantissa.mul (.ofNat 16)).add (.ofNat digit)) (pos + 1)
    | none => (mantissa, pos)
  else (mantissa, pos)
termination_by (bytesOf text).length - pos

variable {text : String} {pos : Nat} {rest : List Char} {checked : Bool}

/-! ### Results up to an overflow -/

/-- The result is the given one, unless the text has more bytes than a count of 32 bits can hold.
Even then a checked count is right or its overflow is found. -/
def ScansTo {α : Type} (checked : Bool) (size : Nat) (r : Except ScanFault α) (a : α) : Prop :=
  r = .ok a ∨ 2 ^ 31 ≤ size ∧ if checked then r = .error .overflow else ∃ a', r = .ok a'

namespace ScansTo

variable {α β : Type} {size : Nat} {r : Except ScanFault α} {a : α}

theorem mono {size' : Nat} (h : ScansTo checked size r a) (hle : size ≤ size') :
    ScansTo checked size' r a :=
  h.imp id fun ⟨hsize, hr⟩ => ⟨hsize.trans hle, hr⟩

theorem bind {f : α → Except ScanFault β} {b : β} (h : ScansTo checked size r a)
    (hf : f a = .ok b) (hall : ∀ a', ∃ b', f a' = .ok b') : ScansTo checked size (r >>= f) b := by
  rcases h with rfl | ⟨hsize, hr⟩
  · exact .inl hf
  · refine .inr ⟨hsize, ?_⟩
    cases checked with
    | true =>
      rw [if_pos rfl] at hr
      rw [hr]
      rfl
    | false =>
      obtain ⟨a', rfl⟩ := hr
      exact hall a'

theorem of_lt (h : ScansTo checked size r a) (hsize : size < 2 ^ 31) : r = .ok a :=
  h.resolve_right fun hlong => absurd hsize (Nat.not_lt.mpr hlong.1)

end ScansTo

/-! ### Saturation and counting -/

theorem clamp_bounds (n : Int) : -2 ^ 31 ≤ Numeral.clamp n ∧ Numeral.clamp n < 2 ^ 31 := by
  unfold Numeral.clamp
  omega

theorem toInt_saturate (n : Int) : (saturate n).toInt = Numeral.clamp n :=
  Int32.toInt_ofInt_of_le (clamp_bounds n).1 (clamp_bounds n).2

theorem saturate_toInt (n : Int32) : saturate n.toInt = n := by
  have hclamp : Numeral.clamp n.toInt = n.toInt := by
    have hlow := n.le_toInt
    have hhigh := n.toInt_lt
    unfold Numeral.clamp
    omega
  rw [saturate, hclamp, Int32.ofInt_toInt]

theorem countUp_of_lt {k : Nat} (h : k + 1 < 2 ^ 31) :
    countUp checked (Int32.ofNat k) = .ok (Int32.ofNat (k + 1)) := by
  have hne : Int32.ofNat k ≠ Int32.maxValue := by
    intro heq
    have hk := congrArg Int32.toInt heq
    rw [Int32.toInt_ofNat_of_lt (by omega), Int32.toInt_maxValue] at hk
    omega
  rw [countUp, if_neg fun hover => hne hover.2, Int32.ofNat_add]
  rfl

theorem countUp_last : countUp true (Int32.ofNat (2 ^ 31 - 1)) = .error .overflow := rfl

theorem exponentLoop_of_lt (bytes : List UInt8) (exponent : Int32) {k : Nat}
    (h : k + bytes.length < 2 ^ 31) :
    exponentLoop checked bytes exponent (Int32.ofNat k) =
      .ok (bytes.foldl exponentStep exponent, Int32.ofNat (k + bytes.length)) := by
  induction bytes generalizing exponent k with
  | nil => rfl
  | cons b bs ih =>
    rw [List.length_cons] at h
    rw [exponentLoop, countUp_of_lt (by omega)]
    refine (ih _ (by omega)).trans ?_
    rw [List.length_cons, Nat.add_assoc, Nat.add_comm 1]
    rfl

theorem exponentLoop_overflow (bytes : List UInt8) (exponent : Int32) {k : Nat} (hk : k < 2 ^ 31)
    (h : 2 ^ 31 ≤ k + bytes.length) :
    exponentLoop true bytes exponent (Int32.ofNat k) = .error .overflow := by
  -- The count is at the last number while there are still bytes.
  induction bytes generalizing exponent k with
  | nil => exact absurd hk (Nat.not_lt.mpr h)
  | cons b bs ih =>
    rw [exponentLoop]
    by_cases hlast : k + 1 < 2 ^ 31
    · rw [countUp_of_lt hlast]
      exact ih _ hlast (by rw [List.length_cons] at h; omega)
    · obtain rfl : k = 2 ^ 31 - 1 := by omega
      rw [countUp_last]
      rfl

theorem exists_exponentLoop (bytes : List UInt8) (exponent count : Int32) :
    ∃ r, exponentLoop false bytes exponent count = .ok r := by
  induction bytes generalizing exponent count with
  | nil => exact ⟨_, rfl⟩
  | cons b bs ih => exact ih _ (count + 1)

theorem scansTo_exponentOf (digits : List UInt8) :
    ScansTo checked digits.length (exponentOf checked digits)
      (if digits = [] then none else some (digits.foldl exponentStep 0)) := by
  by_cases h : digits.length < 2 ^ 31
  · left
    have hloop := @exponentLoop_of_lt checked digits 0 0 (by omega)
    rw [Nat.zero_add] at hloop
    have hcount : 0 < Int32.ofNat digits.length ↔ ¬ digits = [] :=
      (Int32.ofNat_lt_iff_lt (by decide : 0 < 2 ^ 31) h).trans List.length_pos_iff
    rw [exponentOf]
    change (exponentLoop checked digits 0 (Int32.ofNat 0) >>= _) = _
    rw [hloop]
    change Except.ok (if 0 < Int32.ofNat digits.length then _ else _) = _
    simp only [hcount, ite_not]
  · right
    refine ⟨by omega, ?_⟩
    rw [exponentOf]
    cases checked with
    | true =>
      have hloop := exponentLoop_overflow digits 0 (by decide : 0 < 2 ^ 31) (by omega)
      change (exponentLoop true digits 0 (Int32.ofNat 0) >>= _) = _
      rw [hloop]
      rfl
    | false =>
      obtain ⟨r, hloop⟩ := exists_exponentLoop digits 0 0
      rw [hloop]
      exact ⟨_, rfl⟩

/-! ### Digits -/

theorem lt_of_toLower {c letter : Char} (h : c.toLower = letter) (hletter : letter.toNat < 128) :
    c.toNat < 128 := by
  rw [← h, toNat_toLower] at hletter
  split_ifs at hletter <;> omega

theorem lt_of_isDigit {c : Char} (h : c.isDigit = true) : c.toNat < 128 := by
  have hle : c.toNat ≤ 57 := (Char.isDigit_iff_toNat.mp h).2
  omega

theorem agrees_digit : Agrees isDigitByte Char.isDigit := by
  have huniform : Uniform fun n => 48 ≤ n ∧ n ≤ 57 := by
    intro n hn
    omega
  intro c b hb
  refine (huniform.agrees c b hb).trans (Bool.eq_iff_iff.mpr ?_)
  rw [Char.isDigit_iff_toNat, decide_eq_true_iff]
  rfl

theorem takeWhile_isDigitByte_encode (cs : List Char) :
    (encode cs).takeWhile isDigitByte = (cs.takeWhile Char.isDigit).map byteOf := by
  rw [agrees_digit.takeWhile_encode,
    encode_of_lt fun c hc => lt_of_isDigit (List.mem_takeWhile_imp hc)]

theorem isSome_hexDigit?_iff (c : Char) : (hexDigit? c).isSome = true ↔
    48 ≤ c.toNat ∧ c.toNat ≤ 57 ∨ 97 ≤ c.toNat ∧ c.toNat ≤ 102 ∨ 65 ≤ c.toNat ∧ c.toNat ≤ 70 := by
  have hle (a b : Char) : a ≤ b ↔ a.toNat ≤ b.toNat := Iff.rfl
  unfold hexDigit?
  simp only [hle, Char.reduceToNat]
  split_ifs <;> simp <;> omega

theorem toNat_ofNat_byte (b : UInt8) : (Char.ofNat b.toNat).toNat = b.toNat := by
  have hlt := b.toNat_lt
  rw [Char.toNat_ofNat, if_pos (.inl (by omega))]

theorem ofNat_byteOf {c : Char} (h : c.toNat < 128) : Char.ofNat (byteOf c).toNat = c := by
  rw [← Char.toNat_inj, toNat_ofNat_byte, toNat_byteOf h]

theorem lt_of_isHexDigit {c : Char} (h : isHexDigit c = true) : c.toNat < 128 := by
  rw [isHexDigit_eq, isSome_hexDigit?_iff] at h
  omega

/-- A byte is that of a hexadecimal digit, or it is none of the bytes of one. -/
theorem agrees_hexDigit :
    Agrees (fun b => (hexDigit? (Char.ofNat b.toNat)).isSome) isHexDigit := by
  have huniform : Uniform fun n => 48 ≤ n ∧ n ≤ 57 ∨ 97 ≤ n ∧ n ≤ 102 ∨ 65 ≤ n ∧ n ≤ 70 := by
    intro n hn
    omega
  intro c b hb
  rw [Bool.eq_iff_iff, isHexDigit_eq, isSome_hexDigit?_iff, isSome_hexDigit?_iff, toNat_ofNat_byte]
  exact huniform.mem_utf8EncodeChar hb

namespace InFront

theorem bytesFrom_eq (h : InFront text pos rest) :
    bytesFrom text (min pos (bytesOf text).length) = .ok (encode rest) := by
  have hle : pos ≤ (bytesOf text).length := by
    rw [h.length_bytesOf]
    omega
  rw [Nat.min_eq_left hle, bytesFrom, if_pos hle, h.drop_bytesOf]

theorem behind_digits (h : InFront text pos rest) :
    InFront text (pos + (rest.takeWhile Char.isDigit).length) (rest.dropWhile Char.isDigit) :=
  h.dropWhile @lt_of_isDigit

theorem behind_hexDigits (h : InFront text pos rest) :
    InFront text (pos + (rest.takeWhile isHexDigit).length) (rest.dropWhile isHexDigit) :=
  h.dropWhile @lt_of_isHexDigit

theorem digitsFrom_eq (h : InFront text pos rest) :
    digitsFrom text pos = .ok (rest.takeWhile Char.isDigit).length := by
  rw [digitsFrom, h.bytesFrom_eq]
  change Except.ok _ = _
  rw [takeWhile_isDigitByte_encode, List.length_map]

theorem scansTo_exponentFrom (h : InFront text pos rest) :
    ScansTo checked text.utf8ByteSize (exponentFrom checked text pos)
      (if rest.takeWhile Char.isDigit = [] then none
      else some (((rest.takeWhile Char.isDigit).map byteOf).foldl exponentStep 0)) := by
  have hscans : ScansTo checked _ _ _ :=
    scansTo_exponentOf ((rest.takeWhile Char.isDigit).map byteOf)
  simp only [List.map_eq_nil_iff, List.length_map] at hscans
  rw [exponentFrom, h.bytesFrom_eq]
  change ScansTo _ _ (exponentOf checked ((encode rest).takeWhile isDigitByte)) _
  rw [takeWhile_isDigitByte_encode]
  have hlength := h.behind_digits.length_bytesOf
  rw [FourLane.length_bytesOf] at hlength
  exact hscans.mono (by omega)

theorem hexLoop_cons {c : Char} (h : InFront text pos (c :: rest)) (m : Binary .double) :
    hexLoop text m pos =
      if isHexDigit c then hexLoop text ((m.mul (.ofNat 16)).add (.ofNat (digitValue c))) (pos + 1)
      else (m, pos) := by
  obtain ⟨b, hb, hget⟩ := h.exists_getElem?
  obtain ⟨hlt, rfl⟩ := List.getElem?_eq_some_iff.mp hget
  have hagrees := agrees_hexDigit c _ hb
  rw [hexLoop, dif_pos hlt]
  by_cases hc : isHexDigit c = true
  · rw [utf8EncodeChar_of_lt (lt_of_isHexDigit hc), List.mem_singleton] at hb
    have hdigit : hexDigit? c = some (digitValue c) := by
      rw [isHexDigit_eq] at hc
      obtain ⟨d, hd⟩ := Option.isSome_iff_exists.mp hc
      rw [digitValue_eq hc, hd]
      rfl
    rw [if_pos hc, hb]
    change (match hexDigit? (Char.ofNat (byteOf c).toNat) with | some d => _ | none => _) = _
    rw [ofNat_byteOf (lt_of_isHexDigit hc), hdigit]
  · rw [if_neg hc]
    rw [Bool.not_eq_true, ← hagrees, Option.isSome_eq_false_iff, Option.isNone_iff_eq_none] at hc
    rw [hc]

/-- The loop over the hexadecimal digits of a text collects those of its characters. -/
theorem hexLoop_mantissa (h : InFront text pos rest) (digits : List Char) :
    hexLoop text (Numeral.mantissa digits) pos =
      (Numeral.mantissa (digits ++ rest.takeWhile isHexDigit),
        pos + (rest.takeWhile isHexDigit).length) := by
  induction rest generalizing pos digits with
  | nil =>
    have hlength : (bytesOf text).length = pos := h.length_bytesOf
    rw [hexLoop, dif_neg (by omega), List.takeWhile_nil, List.append_nil]
    rfl
  | cons c cs ih =>
    rw [h.hexLoop_cons]
    by_cases hc : isHexDigit c = true
    · rw [if_pos hc, ← Numeral.mantissa_concat, ih (h.cons (lt_of_isHexDigit hc)),
        List.takeWhile_cons_of_pos hc, List.append_assoc, List.length_cons, Nat.add_assoc,
        Nat.add_comm 1]
      rfl
    · rw [if_neg hc, List.takeWhile_cons_of_neg hc, List.append_nil]
      rfl

/-! ### Signs and letters -/

theorem exists_signAt (h : InFront text pos rest) :
    ∃ sign, rest = sign ++ (splitSign rest).2 ∧ SignText (splitSign rest).1 sign ∧
      signAt text pos = ((splitSign rest).1, pos + sign.length) ∧
      InFront text (pos + sign.length) (splitSign rest).2 := by
  rw [signAt]
  simp only [h.getElem?_bytesOf_eq_iff (by decide : '-'.toNat < 128),
    h.getElem?_bytesOf_eq_iff (by decide : '+'.toNat < 128)]
  unfold splitSign
  split
  · exact ⟨['-'], rfl, .minus, if_pos rfl, h.cons (by decide)⟩
  · exact ⟨['+'], rfl, .plus, rfl, h.cons (by decide)⟩
  · rename_i hminus hplus
    refine ⟨[], rfl, .none, ?_, h⟩
    rw [if_neg, if_neg]
    · rfl
    · exact fun hhead => hplus _ (List.eq_cons_of_mem_head? hhead)
    · exact fun hhead => hminus _ (List.eq_cons_of_mem_head? hhead)

theorem letterAt_iff (h : InFront text pos rest) (lower upper : Char)
    (hletter : 97 ≤ lower.toNat ∧ lower.toNat ≤ 122 ∧ upper.toNat + 32 = lower.toNat) :
    letterAt lower upper text pos = true ↔ ∃ c ∈ rest.head?, c.toLower = lower := by
  rw [letterAt, decide_eq_true_iff, h.getElem?_bytesOf_eq_iff (by omega),
    h.getElem?_bytesOf_eq_iff (by omega)]
  simp only [toLower_eq_iff _ lower upper hletter, Option.mem_def]
  constructor
  · rintro (hhead | hhead)
    · exact ⟨_, hhead, .inl rfl⟩
    · exact ⟨_, hhead, .inr rfl⟩
  · rintro ⟨c, hhead, rfl | rfl⟩
    · exact .inl hhead
    · exact .inr hhead

end InFront

/-! ### Exponents -/

theorem toInt_foldl_exponentStep {digits : List Char} (h : ∀ c ∈ digits, c.isDigit = true)
    (n : Int32) :
    ((digits.map byteOf).foldl exponentStep n).toInt =
      digits.foldl (fun n c => Numeral.clamp (Numeral.clamp (n * 10) + digitValue c)) n.toInt := by
  induction digits generalizing n with
  | nil => rfl
  | cons c cs ih =>
    have hc := h c List.mem_cons_self
    have hdigit : (byteOf c - byteOf '0').toNat = digitValue c := by
      have hbyte := toNat_byteOf (lt_of_isDigit hc)
      have hle : 48 ≤ c.toNat := (Char.isDigit_iff_toNat.mp hc).1
      rw [UInt8.toNat_sub_of_le, hbyte, digitValue, if_pos hc]
      · rfl
      · rw [UInt8.le_iff_toNat_le, hbyte]
        exact hle
    have hstep : (exponentStep n (byteOf c)).toInt =
        Numeral.clamp (Numeral.clamp (n.toInt * 10) + digitValue c) := by
      rw [exponentStep, toInt_saturate, toInt_saturate, hdigit]
    rw [List.map_cons, List.foldl_cons, List.foldl_cons,
      ih (fun d hd => h d (List.mem_cons_of_mem c hd)), hstep]

end FourLane
