import FourLane.Proofs.ByteTokens
import FourLane.Proofs.DecimalSlices
import Mathlib

/-!
# Numbers from bytes

The scanner of this module finds the numeral at the start of a text by offsets into its bytes. It cuts
off a sign, tries the words on the first three bytes, which may end within a character, then counts
digits behind `0x`, and at last cuts out a decimal numeral to be read as a whole. Wherever it cuts, it
stands in front of a character. What it reads is what `readNumber` reads, as long as the digits of an
exponent can be counted.
-/
namespace FourLane

/-! ### Kinds of numerals -/

/-- Whether a text begins with the bytes of a word, in capitals or not. A text whose characters have
no boundary there does not. -/
def beginsWith (word : String) (text : String) : Bool :=
  match slice text 0 word.utf8ByteSize with
  | .ok head => head.toList.map Char.toLower == word.toList
  | .error _ => false

def wordNumber? (body : String) : Option Lane :=
  if beginsWith "inf" body then some (.infinite false)
  else if beginsWith "nan" body then some (.nan false)
  else none

def scaleAt (checked : Bool) (body : String) (stop : Nat) (scale : Int32) :
    Except ScanFault Int32 :=
  if letterAt 'p' 'P' body stop then do
    let (negative, start) := signAt body (stop + 1)
    match ← exponentFrom checked body start with
    | some exponent =>
      return saturate
        (if negative then scale.toInt - exponent.toInt else scale.toInt + exponent.toInt)
    | none => return scale
  else return scale

def scaledNumber (checked : Bool) (body : String) (mantissa : Binary .double) (stop : Nat)
    (scale : Int32) : Except ScanFault (Option Lane) := do
  let scale ← scaleAt checked body stop scale
  return some ((mantissa.mul (Numeral.powTwo scale.toInt)).convert .single)

def hexadecimalFrom? (checked : Bool) (body : String) (start : Nat) :
    Except ScanFault (Option Lane) :=
  let (whole, point) := hexLoop body (.zero false) start
  if (bytesOf body)[point]? = some (byteOf '.') then
    let (all, stop) := hexLoop body whole (point + 1)
    let places := stop - (point + 1)
    if point - start + places = 0 then return none
    else scaledNumber checked body all stop (saturate (-4 * (saturate places).toInt))
  else if point - start = 0 then return none
  else scaledNumber checked body whole point 0

def hexadecimalNumber? (checked : Bool) (body : String) : Except ScanFault (Option Lane) :=
  if (bytesOf body).length < 2 then return none
  else do
    let zero ← byteAt body 0
    let x ← byteAt body 1
    if zero ≠ byteOf '0' ∨ x ≠ byteOf 'x' ∧ x ≠ byteOf 'X' then return none
    else hexadecimalFrom? checked body 2

def cutSign (text : String) : Except ScanFault (Bool × String) :=
  if (bytesOf text)[0]? = some (byteOf '-') then do
    return (true, ← slice text 1 (bytesOf text).length)
  else if (bytesOf text)[0]? = some (byteOf '+') then do
    return (false, ← slice text 1 (bytesOf text).length)
  else return (false, text)

def magnitudeOf (checked : Bool) (body : String) : Except ScanFault Lane :=
  match wordNumber? body with
  | some x => return x
  | none => do
    match ← hexadecimalNumber? checked body with
    | some x => return x
    | none => decimalNumber body

/-- The number at the start of a text, or a zero. -/
def scanNumber (checked : Bool) (text : String) : Except ScanFault Lane := do
  let (negative, body) ← cutSign text
  let magnitude ← magnitudeOf checked body
  return if negative then magnitude.neg else magnitude

variable {text body : String} {pos : Nat} {cs rest : List Char} {checked : Bool}

/-! ### Hexadecimal numerals -/

/-- The number that the digits of an exponent stand for within 32 bits. -/
def Exponent.shift (e : Exponent) : Int :=
  e.digits.foldl (fun n c => Numeral.clamp (Numeral.clamp (n * 10) + digitValue c)) 0

def Exponent.moves (e : Exponent) (start : Int) : Int :=
  if e.negative then start - e.shift else start + e.shift

theorem InFront.scansTo_scaleAt (h : InFront body pos rest) (scale : Int32) :
    ScansTo checked body.utf8ByteSize (scaleAt checked body pos scale)
      (saturate ((Numeral.exponentAt 'p' rest).moves scale.toInt)) := by
  have hnone : saturate (({} : Exponent).moves scale.toInt) = scale := by
    change saturate (scale.toInt + 0) = scale
    rw [Int.add_zero, saturate_toInt]
  have hletter := h.letterAt_iff 'p' 'P' (by decide)
  rw [scaleAt]
  cases rest with
  | nil =>
    rw [if_neg (by simp [hletter])]
    exact .inl (congrArg _ hnone.symm)
  | cons c cs =>
    rw [exponentAt_cons]
    by_cases hc : c.toLower = 'p'
    · obtain ⟨sign, -, -, hsign, hstart⟩ := (h.cons (lt_of_toLower hc (by decide))).exists_signAt
      rw [if_pos (hletter.mpr ⟨c, rfl, hc⟩), hsign]
      refine hstart.scansTo_exponentFrom.bind ?_ ?_
      · by_cases hnil : (splitSign cs).2.takeWhile Char.isDigit = []
        · rw [if_pos hnil, if_neg fun hmark => hmark.2 hnil, hnone]
          rfl
        · rw [if_neg hnil, if_pos ⟨hc, hnil⟩]
          change Except.ok (saturate (if (splitSign cs).1 = true then _ else _)) = _
          rw [toInt_foldl_exponentStep fun d hd => List.mem_takeWhile_imp hd]
          rfl
      · intro exponent
        cases exponent with
        | none => exact ⟨_, rfl⟩
        | some exponent => exact ⟨_, rfl⟩
    · have hno : ¬ letterAt 'p' 'P' body pos = true := by simp [hletter, hc]
      rw [if_neg hno, if_neg fun hmark => hc hmark.1]
      exact .inl (congrArg _ hnone.symm)

theorem value_hexadecimal (whole places : List Char) (e : Exponent) :
    (Numeral.hexadecimal whole places e).value =
      ((Numeral.mantissa (whole ++ places)).mul (Numeral.powTwo
        (saturate (e.moves (saturate (-4 * (saturate places.length).toInt)).toInt)).toInt)).convert
          .single := by
  rw [toInt_saturate, toInt_saturate, toInt_saturate]
  rfl

theorem InFront.scansTo_scaledNumber (h : InFront body pos rest) (whole places : List Char) :
    ScansTo checked body.utf8ByteSize
      (scaledNumber checked body (Numeral.mantissa (whole ++ places)) pos
        (saturate (-4 * (saturate places.length).toInt)))
      (some (Numeral.hexadecimal whole places (Numeral.exponentAt 'p' rest)).value) := by
  rw [value_hexadecimal]
  exact (h.scansTo_scaleAt _).bind rfl fun _ => ⟨_, rfl⟩

theorem InFront.scansTo_hexadecimalFrom? (h : InFront body pos cs) :
    ScansTo checked body.utf8ByteSize (hexadecimalFrom? checked body pos)
      ((Numeral.splitDigits isHexDigit cs).map fun (whole, places, rest) =>
        (Numeral.hexadecimal whole places (Numeral.exponentAt 'p' rest)).value) := by
  have hpoint := h.behind_hexDigits
  have hwhole : hexLoop body (.zero false) pos =
      (Numeral.mantissa (cs.takeWhile isHexDigit), pos + (cs.takeWhile isHexDigit).length) :=
    h.hexLoop_mantissa []
  rw [hexadecimalFrom?, hwhole, splitDigits_eq]
  simp only [hpoint.getElem?_bytesOf_eq_iff (by decide : '.'.toNat < 128), Nat.add_sub_cancel_left]
  by_cases hhead : (cs.dropWhile isHexDigit).head? = some '.'
  · obtain ⟨more, hmore⟩ := List.head?_eq_some_iff.mp hhead
    rw [hmore] at hpoint
    have hplaces := hpoint.cons (by decide)
    rw [if_pos hhead, if_pos hhead, hmore, hplaces.hexLoop_mantissa, List.tail_cons]
    simp only [Nat.add_sub_cancel_left]
    by_cases hzero : (cs.takeWhile isHexDigit).length + (more.takeWhile isHexDigit).length = 0
    · rw [if_pos hzero, if_pos hzero]
      exact .inl rfl
    · rw [if_neg hzero, if_neg hzero]
      exact hplaces.behind_hexDigits.scansTo_scaledNumber _ _
  · rw [if_neg hhead, if_neg hhead]
    by_cases hzero : (cs.takeWhile isHexDigit).length = 0
    · rw [if_pos hzero, if_pos hzero]
      exact .inl rfl
    · -- Without a point there are no places, and the scale of none is zero.
      have hscale : saturate (-4 * (saturate ([] : List Char).length).toInt) = 0 := rfl
      have hscans : ScansTo checked _ _ _ :=
        hpoint.scansTo_scaledNumber (cs.takeWhile isHexDigit) []
      rw [List.append_nil, hscale] at hscans
      rw [if_neg hzero, if_neg hzero]
      exact hscans

/-- The first two bytes are looked at only where they are. -/
theorem hexadecimalNumber?_eq (body : String) :
    hexadecimalNumber? checked body =
      if (bytesOf body)[0]? = some (byteOf '0') ∧ letterAt 'x' 'X' body 1 = true then
        hexadecimalFrom? checked body 2
      else .ok none := by
  simp only [hexadecimalNumber?, letterAt, decide_eq_true_iff]
  by_cases hshort : (bytesOf body).length < 2
  · rw [if_pos hshort, if_neg]
    · rfl
    · simp [List.getElem?_eq_none (show (bytesOf body).length ≤ 1 by omega)]
  · rw [if_neg hshort, byteAt_of_lt (by omega), byteAt_of_lt (by omega),
      List.getElem?_eq_getElem (by omega), List.getElem?_eq_getElem (by omega)]
    simp only [Option.some_inj]
    change (if (bytesOf body)[0] ≠ byteOf '0' ∨
      (bytesOf body)[1] ≠ byteOf 'x' ∧ (bytesOf body)[1] ≠ byteOf 'X' then _ else _) = _
    rw [← ite_not]
    exact if_congr (by tauto) rfl rfl

theorem scansTo_hexadecimalNumber? (body : String) :
    ScansTo checked body.utf8ByteSize (hexadecimalNumber? checked body)
      ((Numeral.hexadecimal? body.toList).map Numeral.value) := by
  have hstart := InFront.start body
  have hletter {cs : List Char} (h : InFront body 1 cs) := h.letterAt_iff 'x' 'X' (by decide)
  simp only [hexadecimalNumber?_eq, hstart.getElem?_bytesOf_eq_iff (by decide : '0'.toNat < 128)]
  by_cases h : body.toList.head? = some '0' ∧ letterAt 'x' 'X' body 1 = true
  · obtain ⟨ds, hds⟩ := List.head?_eq_some_iff.mp h.1
    rw [hds] at hstart
    have hx := hstart.cons (by decide)
    obtain ⟨x, hhead, hmark⟩ := (hletter hx).mp h.2
    obtain ⟨cs, rfl⟩ := List.head?_eq_some_iff.mp hhead
    rw [if_pos h, hds, Numeral.hexadecimal?, if_pos hmark, Option.map_map]
    exact (hx.cons (lt_of_toLower hmark (by decide))).scansTo_hexadecimalFrom?
  · have hnone : Numeral.hexadecimal? body.toList = none := by
      by_contra hsome
      obtain ⟨n, hn⟩ := Option.ne_none_iff_exists'.mp hsome
      obtain ⟨x, cs, -, -, -, hbody, hmark, -⟩ := (Numeral.hexadecimal?_eq_some_iff _ _).mp hn
      rw [hbody] at h hstart
      exact h ⟨rfl, (hletter (hstart.cons (by decide))).mpr ⟨x, rfl, hmark⟩⟩
    rw [if_neg h, hnone]
    exact .inl rfl

/-! ### Words -/

theorem prefix_of_slice {head : String} {stop : Nat} (h : slice text 0 stop = .ok head) :
    head.toList <+: text.toList := by
  have hvalid : String.Pos.Raw.IsValid text ⟨stop⟩ := by
    rw [slice] at h
    split_ifs at h with hvalid
    exact hvalid.2.2
  obtain ⟨rest, before, htext, rfl⟩ := InFront.exists_of_isValid hvalid
  have hstart := InFront.start text
  rw [htext] at hstart
  have hslice := hstart.slice_eq
  rw [Nat.zero_add, h] at hslice
  cases hslice
  rw [String.toList_ofList, htext]
  exact List.prefix_append before rest

theorem beginsWith_eq {word : String} (hword : ∀ c ∈ word.toList, c.toNat < 128) (body : String) :
    beginsWith word body = Numeral.startsWith word.toList body.toList := by
  rw [Bool.eq_iff_iff, Numeral.startsWith_iff, beginsWith]
  constructor
  · intro h
    split at h
    · rename_i head hslice
      exact ⟨head.toList, prefix_of_slice hslice, beq_iff_eq.mp h⟩
    · cases h
  · rintro ⟨part, ⟨more, hbody⟩, hpart⟩
    -- The part has one byte for each of its characters, so the slice ends where it ends.
    have hsize : String.utf8Len part = word.utf8ByteSize := by
      have hlt : ∀ c ∈ part, c.toNat < 128 := fun c hc =>
        lt_of_toLower rfl (hword _ (by rw [← hpart]; exact List.mem_map_of_mem hc))
      rw [← String.ofList_toList (s := word), String.utf8ByteSize_ofList, utf8Len_of_lt hword,
        utf8Len_of_lt hlt, ← hpart, List.length_map]
    have hstart := InFront.start body
    rw [← hbody] at hstart
    have hslice := hstart.slice_eq
    rw [Nat.zero_add, hsize] at hslice
    rw [hslice]
    dsimp only
    rw [String.toList_ofList, hpart, beq_self_eq_true]

theorem wordNumber?_eq (body : String) :
    wordNumber? body =
      if Numeral.startsWith ['i', 'n', 'f'] body.toList then some (.infinite false)
      else if Numeral.startsWith ['n', 'a', 'n'] body.toList then some (.nan false)
      else none := by
  have hinf : "inf".toList = ['i', 'n', 'f'] := by simp
  have hnan : "nan".toList = ['n', 'a', 'n'] := by simp
  rw [wordNumber?, beginsWith_eq (by simp), beginsWith_eq (by simp), hinf, hnan]

/-! ### Numbers -/

theorem cutSign_eq (text : String) :
    cutSign text = .ok ((splitSign text.toList).1, String.ofList (splitSign text.toList).2) := by
  have hstart := InFront.start text
  have hbehind {c : Char} {cs : List Char} (htext : text.toList = c :: cs) (hc : c.toNat < 128) :
      slice text 1 (bytesOf text).length = .ok (String.ofList cs) := by
    rw [htext] at hstart
    have hcs : InFront text 1 (cs ++ []) := by
      rw [List.append_nil]
      exact hstart.cons hc
    rw [(hstart.cons hc).length_bytesOf]
    exact hcs.slice_eq
  rw [cutSign]
  simp only [hstart.getElem?_bytesOf_eq_iff (by decide : '-'.toNat < 128),
    hstart.getElem?_bytesOf_eq_iff (by decide : '+'.toNat < 128)]
  by_cases hminus : text.toList.head? = some '-'
  · obtain ⟨cs, hcs⟩ := List.head?_eq_some_iff.mp hminus
    rw [if_pos hminus, hbehind hcs (by decide), hcs]
    rfl
  · rw [if_neg hminus]
    by_cases hplus : text.toList.head? = some '+'
    · obtain ⟨cs, hcs⟩ := List.head?_eq_some_iff.mp hplus
      rw [if_pos hplus, hbehind hcs (by decide), hcs]
      rfl
    · have hsplit : splitSign text.toList = (false, text.toList) := by
        rw [splitSign.eq_3]
        · exact fun cs hcs => hminus (by rw [hcs]; rfl)
        · exact fun cs hcs => hplus (by rw [hcs]; rfl)
      rw [if_neg hplus, hsplit, String.ofList_toList]
      rfl

theorem scansTo_magnitudeOf (body : String) :
    ScansTo checked body.utf8ByteSize (magnitudeOf checked body)
      (((Numeral.ofText? body.toList).map Numeral.value).getD (.zero false)) := by
  rw [magnitudeOf, wordNumber?_eq, Numeral.ofText?]
  by_cases hinf : Numeral.startsWith ['i', 'n', 'f'] body.toList = true
  · rw [if_pos hinf, if_pos hinf]
    exact .inl rfl
  · rw [if_neg hinf, if_neg hinf]
    by_cases hnan : Numeral.startsWith ['n', 'a', 'n'] body.toList = true
    · rw [if_pos hnan, if_pos hnan]
      exact .inl rfl
    · rw [if_neg hnan, if_neg hnan]
      refine (scansTo_hexadecimalNumber? body).bind ?_ ?_
      · cases Numeral.hexadecimal? body.toList with
        | none => exact decimalNumber_eq body
        | some n => rfl
      · intro found
        cases found with
        | none => exact ⟨_, decimalNumber_eq body⟩
        | some x => exact ⟨x, rfl⟩

theorem scansTo_scanNumber (text : String) :
    ScansTo checked text.utf8ByteSize (scanNumber checked text) (readNumber text.toList) := by
  have hsize : (String.ofList (splitSign text.toList).2).utf8ByteSize ≤ text.utf8ByteSize := by
    obtain ⟨sign, htext, -⟩ := longest_splitSign text.toList
    have hlength := congrArg String.utf8Len htext
    rw [String.utf8Len_append] at hlength
    rw [String.utf8ByteSize_ofList, ← String.ofList_toList (s := text), String.utf8ByteSize_ofList,
      String.toList_ofList]
    omega
  have hmagnitude : ScansTo checked _ _ _ :=
    (scansTo_magnitudeOf (String.ofList (splitSign text.toList).2)).mono hsize
  rw [String.toList_ofList] at hmagnitude
  rw [scanNumber, cutSign_eq]
  exact hmagnitude.bind rfl fun _ => ⟨_, rfl⟩

/-! ### The reader -/

/-- The tokens of a text and the number at its start can be found by offsets into its bytes. No index
is out of range, and both ends of every slice are boundaries of characters, except that the first
three bytes may end within one and then are no word. The count of the digits of an exponent can
overflow only in a text of 2 ^ 31 bytes or more. -/
theorem bytes_scanned_within_characters (text : String) :
    (∀ n, ∃ pos span stop, offsetAfter text n = .ok pos ∧ nextSpan text pos = .ok (span, stop) ∧
      nextToken text pos = .ok ((TokenStream.ofString text).nth n, stop) ∧
      ∀ first last, span = .atom first last → first < last ∧ last ≤ text.utf8ByteSize ∧
        String.Pos.Raw.IsValid text ⟨first⟩ ∧ String.Pos.Raw.IsValid text ⟨last⟩) ∧
    (text.utf8ByteSize < 2 ^ 31 →
      ∀ checked, scanNumber checked text = .ok (readNumber text.toList)) ∧
    (scanNumber true text = .ok (readNumber text.toList) ∨
      scanNumber true text = .error .overflow) ∧
    ∃ x, scanNumber false text = .ok x := by
  refine ⟨?_, ?_, ?_, ?_⟩
  · intro n
    obtain ⟨pos, span, stop, hpos, hspan, htoken, hatom⟩ := nextToken_offsetAfter text n
    refine ⟨pos, span, stop, hpos, hspan, htoken, fun first last hfirst => ?_⟩
    obtain ⟨hlt, hvalid, hvalid'⟩ := hatom first last hfirst
    obtain ⟨rest, hrest⟩ := InFront.exists_of_isValid hvalid'
    have hlength := hrest.length_bytesOf
    rw [length_bytesOf] at hlength
    exact ⟨hlt, by omega, hvalid, hvalid'⟩
  · exact fun hsize checked => (scansTo_scanNumber text).of_lt hsize
  · exact (scansTo_scanNumber text).imp_right fun hlong => hlong.2
  · rcases @scansTo_scanNumber false text with hscan | ⟨-, hscan⟩
    · exact ⟨_, hscan⟩
    · exact hscan

/-- The first three bytes behind the sign end within a character, so that they are rejected as a
word. The text is an atom, and it is no number. -/
theorem bytes_scanned_within_characters_straddled :
    slice "in€" 0 3 = .error .slice ∧ "+in€".utf8ByteSize < 2 ^ 31 ∧
      scanNumber true "+in€" = .ok (.zero false) ∧
      ∃ first last stop, nextSpan "+in€" 0 = .ok (.atom first last, stop) ∧
        first < last ∧ last ≤ "+in€".utf8ByteSize ∧
        String.Pos.Raw.IsValid "+in€" ⟨first⟩ ∧ String.Pos.Raw.IsValid "+in€" ⟨last⟩ := by
  obtain ⟨htokens, hnumber, -, -⟩ := bytes_scanned_within_characters "+in€"
  refine ⟨if_neg (by decide), by decide, hnumber (by decide) true, ?_⟩
  obtain ⟨pos, span, stop, hpos, hspan, htoken, hatom⟩ := htokens 0
  cases hpos
  have hfirst : (TokenStream.ofString "+in€").nth 0 = .atom "+in€" := rfl
  rw [nextToken, hspan, hfirst] at htoken
  cases span with
  | atom first last => exact ⟨first, last, stop, hspan, hatom first last rfl⟩
  | openParen => cases htoken
  | closeParen => cases htoken
  | endOfInput => cases htoken

end FourLane
