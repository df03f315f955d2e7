import FourLane.Proofs.NumeralParts
import Mathlib

/-!
# Decimal numerals cut out of a text

A decimal numeral is found by offsets into the bytes of a text. It is then cut out and read as a
whole, and a slice that is no numeral as a whole would be read as a zero. That never happens: the
scanner cuts out the numeral at the start of the text and nothing more. So what is read of a text is
the longest numeral there, and a zero only stands for a text without one.
-/
namespace FourLane

/-- The decimal numeral that a text is as a whole. -/
def wholeDecimal? (text : List Char) : Option Numeral :=
  match Numeral.splitDigits Char.isDigit text with
  | none => none
  | some (whole, places, []) => some (.decimal whole places {})
  | some (whole, places, c :: cs) =>
    let (negative, digits) := splitSign cs
    if c.toLower = 'e' ∧ digits ≠ [] ∧ digits.all Char.isDigit then
      some (.decimal whole places ⟨negative, digits⟩)
    else none

def exponentStop (body : String) (stop : Nat) : Except ScanFault Nat :=
  if letterAt 'e' 'E' body stop then do
    let (_, start) := signAt body (stop + 1)
    let digits ← digitsFrom body start
    return if digits = 0 then stop else start + digits
  else return stop

def decimalUpTo (body : String) (stop : Nat) : Except ScanFault String := do
  slice body 0 (← exponentStop body stop)

/-- The slice that is read as a decimal numeral, if a text starts with digits. -/
def decimalSlice? (body : String) : Except ScanFault (Option String) := do
  let whole ← digitsFrom body 0
  if (bytesOf body)[whole]? = some (byteOf '.') then
    let places ← digitsFrom body (whole + 1)
    if whole + places = 0 then return none
    else return some (← decimalUpTo body (whole + 1 + places))
  else if whole = 0 then return none
  else return some (← decimalUpTo body whole)

def decimalNumber (body : String) : Except ScanFault Lane := do
  match ← decimalSlice? body with
  | some numeral => return ((wholeDecimal? numeral.toList).map Numeral.value).getD (.zero false)
  | none => return .zero false

variable {body : String} {pos : Nat} {rest whole places : List Char}

/-! ### Texts that are numerals as a whole -/

theorem ScaledText.wholeDecimal? {text : List Char} {exponent : Exponent}
    (h : ScaledText Char.isDigit 'e' whole places exponent text) :
    wholeDecimal? text = some (.decimal whole places exponent) := by
  obtain ⟨digits, tail, rfl, hdigits, htail⟩ := h
  rw [FourLane.wholeDecimal?,
    hdigits.splitDigits_append marks_decimal.point (htail.head marks_decimal)]
  cases htail with
  | absent => rfl
  | @present c negative sign digits hmark hsign hdigits hne =>
    have hsplit : splitSign (sign ++ digits) = (negative, digits) :=
      hsign.splitSign_append fun d hd => sign_ne_of_isDigit (hdigits d (List.mem_of_mem_head? hd))
    dsimp only
    rw [hsplit]
    exact if_pos ⟨(marks_decimal.letter c).mpr hmark, hne, List.all_eq_true.mpr hdigits⟩

theorem wholeDecimal?_eq_some_iff (text : List Char) (n : Numeral) :
    wholeDecimal? text = some n ↔ ∃ whole places exponent, n = .decimal whole places exponent ∧
      ScaledText Char.isDigit 'e' whole places exponent text := by
  constructor
  · intro h
    rw [wholeDecimal?] at h
    split at h
    · cases h
    · rename_i whole places hsplit
      obtain ⟨digits, htext, hdigits⟩ := exists_digitsText hsplit
      cases h
      exact ⟨whole, places, {}, rfl, digits, [], htext, hdigits, .absent⟩
    · rename_i whole places c cs hsplit
      obtain ⟨digits, htext, hdigits⟩ := exists_digitsText hsplit
      obtain ⟨sign, hcs, hsign, -⟩ := longest_splitSign cs
      dsimp only at h
      split_ifs at h with hmark
      obtain ⟨hc, hne, hall⟩ := hmark
      cases h
      have htail : ExponentText 'e' _ (c :: (sign ++ (splitSign cs).2)) :=
        .present ((marks_decimal.letter c).mp hc) hsign (List.all_eq_true.mp hall) hne
      rw [← hcs] at htail
      exact ⟨whole, places, _, rfl, digits, c :: cs, htext, hdigits, htail⟩
  · rintro ⟨whole, places, exponent, rfl, h⟩
    exact h.wholeDecimal?

/-! ### Offsets -/

theorem splitDigits_eq (isDigit : Char → Bool) (cs : List Char) :
    Numeral.splitDigits isDigit cs =
      if (cs.dropWhile isDigit).head? = some '.' then
        if (cs.takeWhile isDigit).length +
            ((cs.dropWhile isDigit).tail.takeWhile isDigit).length = 0 then none
        else some (cs.takeWhile isDigit, (cs.dropWhile isDigit).tail.takeWhile isDigit,
          (cs.dropWhile isDigit).tail.dropWhile isDigit)
      else if (cs.takeWhile isDigit).length = 0 then none
      else some (cs.takeWhile isDigit, [], cs.dropWhile isDigit) := by
  rw [Numeral.splitDigits]
  split
  · rename_i rest hrest
    simp [hrest]
  · rename_i hpoint
    have hhead : (cs.dropWhile isDigit).head? ≠ some '.' :=
      fun hhead => hpoint _ (List.eq_cons_of_mem_head? hhead)
    rw [if_neg hhead]
    simp

theorem ExponentText.utf8Len_eq {exponent : Exponent} {tail : List Char}
    (h : ExponentText 'e' exponent tail) : String.utf8Len tail = tail.length := by
  apply utf8Len_of_lt
  cases h with
  | absent => simp
  | present hmark hsign hdigits hne =>
    intro d hd
    rcases List.mem_cons.mp hd with rfl | hd
    · exact lt_of_toLower ((marks_decimal.letter d).mpr hmark) (by decide)
    · rcases List.mem_append.mp hd with hd | hd
      · rcases hsign.mem d hd with rfl | rfl <;> decide
      · exact lt_of_isDigit (hdigits d hd)

theorem InFront.exists_exponentStop (h : InFront body pos rest) :
    ∃ tail more, rest = tail ++ more ∧ ExponentText 'e' (Numeral.exponentAt 'e' rest) tail ∧
      exponentStop body pos = .ok (pos + tail.length) := by
  have hletter := h.letterAt_iff 'e' 'E' (by decide)
  rw [exponentStop]
  cases rest with
  | nil =>
    rw [if_neg (by simp [hletter])]
    exact ⟨[], [], rfl, .absent, rfl⟩
  | cons c cs =>
    rw [exponentAt_cons]
    by_cases hc : c.toLower = 'e'
    · obtain ⟨sign, hcs, hsign, hsignAt, hstart⟩ :=
        (h.cons (lt_of_toLower hc (by decide))).exists_signAt
      rw [if_pos (hletter.mpr ⟨c, rfl, hc⟩), hsignAt]
      dsimp only
      rw [hstart.digitsFrom_eq]
      by_cases hnil : (splitSign cs).2.takeWhile Char.isDigit = []
      · rw [if_neg fun hmark => hmark.2 hnil, hnil]
        exact ⟨[], c :: cs, rfl, .absent, rfl⟩
      · rw [if_pos ⟨hc, hnil⟩]
        refine ⟨c :: (sign ++ (splitSign cs).2.takeWhile Char.isDigit),
          (splitSign cs).2.dropWhile Char.isDigit, ?_,
          .present ((marks_decimal.letter c).mp hc) hsign (fun d hd => List.mem_takeWhile_imp hd)
            hnil, ?_⟩
        · rw [List.cons_append, List.append_assoc, List.takeWhile_append_dropWhile, ← hcs]
        · change Except.ok (if _ = 0 then _ else _) = _
          rw [if_neg (mt List.length_eq_zero_iff.mp hnil), List.length_cons, List.length_append]
          exact congrArg Except.ok (by omega)
    · have hno : ¬ letterAt 'e' 'E' body pos = true := by simp [hletter, hc]
      rw [if_neg hno, if_neg fun hmark => hc hmark.1]
      exact ⟨[], c :: cs, rfl, .absent, rfl⟩

/-! ### Slices -/

theorem InFront.exists_decimalUpTo (h : InFront body pos rest)
    (hsplit : Numeral.splitDigits Char.isDigit body.toList = some (whole, places, rest)) :
    ∃ numeral, decimalUpTo body pos = .ok numeral ∧ numeral.toList <+: body.toList ∧
      ScaledText Char.isDigit 'e' whole places (Numeral.exponentAt 'e' rest) numeral.toList := by
  obtain ⟨digits, hbody, hdigits⟩ := exists_digitsText hsplit
  obtain ⟨tail, more, hrest, htail, hstop⟩ := h.exists_exponentStop
  have hslice : slice body 0 (pos + tail.length) = .ok (String.ofList (digits ++ tail)) := by
    obtain ⟨before, hbefore, rfl⟩ := h
    obtain rfl : before = digits := List.append_cancel_right (hbefore.symm.trans hbody)
    have hstart := InFront.start body
    rw [hbody, hrest, ← List.append_assoc] at hstart
    have hslice := hstart.slice_eq
    rwa [Nat.zero_add, String.utf8Len_append, htail.utf8Len_eq] at hslice
  refine ⟨String.ofList (digits ++ tail), ?_, ?_, ?_⟩
  · rw [decimalUpTo, hstop]
    exact hslice
  · rw [String.toList_ofList, hbody, hrest, ← List.append_assoc]
    exact List.prefix_append _ _
  · rw [String.toList_ofList]
    exact ⟨digits, tail, rfl, hdigits, htail⟩

theorem decimalSlice?_cases (body : String) :
    (Numeral.splitDigits Char.isDigit body.toList = none ∧ decimalSlice? body = .ok none) ∨
    ∃ whole places rest numeral,
      Numeral.splitDigits Char.isDigit body.toList = some (whole, places, rest) ∧
      decimalSlice? body = .ok (some numeral) ∧ numeral.toList <+: body.toList ∧
      ScaledText Char.isDigit 'e' whole places (Numeral.exponentAt 'e' rest) numeral.toList := by
  have hstart := InFront.start body
  have hpoint := hstart.behind_digits
  rw [Nat.zero_add] at hpoint
  have hsplit := splitDigits_eq Char.isDigit body.toList
  generalize hcut : decimalSlice? body = cut
  rw [decimalSlice?, hstart.digitsFrom_eq] at hcut
  change (if _ then _ else _) = _ at hcut
  simp only [hpoint.getElem?_bytesOf_eq_iff (by decide : '.'.toNat < 128)] at hcut
  by_cases hhead : (body.toList.dropWhile Char.isDigit).head? = some '.'
  · obtain ⟨more, hmore⟩ := List.head?_eq_some_iff.mp hhead
    rw [hmore] at hpoint
    have hplaces := hpoint.cons (by decide)
    rw [if_pos hhead, hmore, List.tail_cons] at hsplit
    rw [if_pos hhead, hplaces.digitsFrom_eq] at hcut
    change (if _ then _ else _) = _ at hcut
    split_ifs at hsplit hcut with hzero
    · exact .inl ⟨hsplit, hcut.symm⟩
    · obtain ⟨numeral, hslice, hnumeral⟩ := hplaces.behind_digits.exists_decimalUpTo hsplit
      rw [hslice] at hcut
      exact .inr ⟨_, _, _, numeral, hsplit, hcut.symm, hnumeral⟩
  · rw [if_neg hhead] at hsplit hcut
    split_ifs at hsplit hcut with hzero
    · exact .inl ⟨hsplit, hcut.symm⟩
    · obtain ⟨numeral, hslice, hnumeral⟩ := hpoint.exists_decimalUpTo hsplit
      rw [hslice] at hcut
      exact .inr ⟨_, _, _, numeral, hsplit, hcut.symm, hnumeral⟩

/-- A slice is always a numeral as a whole, so that no zero stands in for it. -/
theorem exists_decimalSlice? (body : String) :
    ∃ cut, decimalSlice? body = .ok cut ∧
      Numeral.decimal? body.toList = cut.bind (fun numeral => wholeDecimal? numeral.toList) ∧
      ∀ numeral ∈ cut, numeral.toList <+: body.toList ∧ ∃ whole places exponent,
        ScaledText Char.isDigit 'e' whole places exponent numeral.toList ∧
        wholeDecimal? numeral.toList = some (.decimal whole places exponent) := by
  rw [Numeral.decimal?]
  rcases decimalSlice?_cases body with ⟨hsplit, hslice⟩ |
    ⟨whole, places, rest, numeral, hsplit, hslice, hstarts, htext⟩
  · exact ⟨none, hslice, by rw [hsplit]; rfl, by simp⟩
  · refine ⟨some numeral, hslice, ?_, ?_⟩
    · rw [hsplit]
      exact htext.wholeDecimal?.symm
    · rintro _ ⟨⟩
      exact ⟨hstarts, whole, places, _, htext, htext.wholeDecimal?⟩

theorem decimalNumber_eq (body : String) :
    decimalNumber body =
      .ok (((Numeral.decimal? body.toList).map Numeral.value).getD (.zero false)) := by
  obtain ⟨cut, hslice, hdecimal, -⟩ := exists_decimalSlice? body
  rw [decimalNumber, hslice, hdecimal]
  cases cut with
  | none => rfl
  | some numeral => rfl

/-! ### The longest numeral -/

open Numeral

/-- The number at the start of a text is that of the longest numeral there, rounded once if the
numeral is decimal. Without a numeral it is a zero. Where a slice is cut out behind the sign to be
read as a whole, the grammar of the texts that can be read so has it, and what is read is the
decimal numeral there. -/
theorem readNumber_longest (text : List Char) :
    (∀ part, Longest (fun t => ∃ negative n, SignedText negative n t) text part →
      readNumber text = readNumber part ∧
      (∃ n, SignedText (splitSign text).1 n part ∧ ofText? (splitSign text).2 = some n) ∧
      ∀ negative whole places exponent, SignedText negative (.decimal whole places exponent) part →
        (readNumber text).IsNearest (Binary.signed negative
          (Nat.ofDigitChars 10 (whole ++ places) 0 * 10 ^ (exponent.value - places.length)))) ∧
    ((∀ part, part <+: text → ¬ ∃ negative n, SignedText negative n part) →
      (readNumber text).isZero = true) ∧
    (∃ cut, decimalSlice? (String.ofList (splitSign text).2) = .ok cut ∧
      decimal? (splitSign text).2 = cut.bind (fun numeral => wholeDecimal? numeral.toList) ∧
      ∀ numeral ∈ cut, numeral.toList <+: (splitSign text).2 ∧ ∃ whole places exponent,
        ScaledText Char.isDigit 'e' whole places exponent numeral.toList ∧
        wholeDecimal? numeral.toList = some (.decimal whole places exponent)) ∧
    ∀ spelled n, wholeDecimal? spelled = some n ↔ ∃ whole places exponent,
      n = .decimal whole places exponent ∧
      ScaledText Char.isDigit 'e' whole places exponent spelled := by
  refine ⟨?_, ?_, ?_, wholeDecimal?_eq_some_iff⟩
  · intro part hpart
    obtain ⟨negative, n, hn⟩ := hpart.holds
    obtain ⟨n', hn'⟩ := hn.exists_ofText? hpart.starts
    obtain ⟨part', hsigned, hlongest⟩ := longest_signed hn'
    obtain rfl : part = part' := hpart.unique hlongest
    have hread : readNumber text = readNumber part := by
      rw [hsigned.readNumber, readNumber_eq, hn']
      rfl
    refine ⟨hread, ⟨n', hsigned, hn'⟩, ?_⟩
    intro negative' whole places exponent hdecimal
    rw [hread, hdecimal.readNumber]
    obtain ⟨sign, body, -, -, hbody⟩ := hdecimal
    cases hbody with
    | decimal h => exact h.isNearest.signed negative'
  · intro hnone
    cases hread : ofText? (splitSign text).2 with
    | some n =>
      obtain ⟨part, hsigned, hlongest⟩ := longest_signed hread
      exact absurd ⟨_, _, hsigned⟩ (hnone part hlongest.starts)
    | none =>
      rw [readNumber_eq, hread]
      cases (splitSign text).1 <;> rfl
  · have hslice := exists_decimalSlice? (String.ofList (splitSign text).2)
    rwa [String.toList_ofList] at hslice

theorem readNumber_longest_point_one :
    Longest (fun t => ∃ negative n, SignedText negative n t) "-0.1e+x".toList "-0.1".toList ∧
      readNumber "-0.1e+x".toList = readNumber "-0.1".toList ∧
      (readNumber "-0.1e+x".toList).IsNearest (-(1 / 10)) := by
  have hspelled : SignedText true (.decimal ['0'] ['1'] {}) "-0.1".toList :=
    ⟨['-'], ['0', '.', '1'], rfl, .minus, .decimal ⟨['0', '.', '1'], [], rfl,
      .point (List.forall_mem_singleton.mpr rfl) (List.forall_mem_singleton.mpr rfl) (by simp),
      .absent⟩⟩
  have hread : ofText? (splitSign "-0.1e+x".toList).2 = some (.decimal ['0'] ['1'] {}) := rfl
  obtain ⟨part, ⟨sign, body, hpart, hsign, hbody⟩, hlongest⟩ := longest_signed hread
  obtain rfl : part = "-0.1".toList := by
    change SignText true sign at hsign
    cases hsign with
    | minus =>
      cases hbody with
      | decimal h =>
        obtain ⟨digits, tail, rfl, hdigits, htail⟩ := h
        cases hdigits with
        | point hwhole hplaces hne =>
          cases htail with
          | absent => exact hpart
          | present hmark hsign hdigits hne => exact absurd rfl hne
  obtain ⟨hpart, -, hnearest⟩ := (readNumber_longest "-0.1e+x".toList).1 _ hlongest
  have h := hnearest true ['0'] ['1'] {} hspelled
  refine ⟨hlongest, hpart, ?_⟩
  have hdigits : Nat.ofDigitChars 10 ['0', '1'] 0 = 1 := rfl
  have hexponent : Exponent.value {} = 0 := rfl
  convert h using 1
  norm_num [Binary.signed, hdigits, hexponent]

end FourLane
