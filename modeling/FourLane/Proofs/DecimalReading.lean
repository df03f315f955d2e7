import FourLane.Numeral
import FourLane.Proofs.NearestMagnitude
import Mathlib.Data.List.Basic
import Mathlib.Data.List.TakeWhile

/-!
# Reading decimals

A decimal numeral is read as the lane nearest to its value; the powers of ten that are too large or
too small to be computed change nothing. A decimal that is written in positional notation is read
as the lane nearest to it.
-/
namespace FourLane

open FloatFormat

namespace Lane

theorem scale_single : single.scale = 149 := by decide

theorem units_infinity_le (digits e : Nat) (hdigits : digits ≠ 0) (he : 39 < e) :
    single.units single.infinity * 1 ≤ digits * 10 ^ e * 2 ^ single.scale := by
  have hpow : 10 ^ 39 ≤ 10 ^ e := Nat.pow_le_pow_right (by decide) (by omega)
  have hdigits' : 10 ^ e ≤ digits * 10 ^ e := Nat.le_mul_of_pos_left _ (Nat.pos_of_ne_zero hdigits)
  calc single.units single.infinity * 1
      ≤ 10 ^ 39 * 2 ^ single.scale := by decide +kernel
    _ ≤ digits * 10 ^ e * 2 ^ single.scale := Nat.mul_le_mul_right _ (hpow.trans hdigits')

/-- A decimal of so few digits and so many places is below half the least positive lane. -/
theorem roundsTo_zero (digits k : Nat) (h : digits.log2 + 152 < 3 * (k + 1)) :
    single.RoundsTo (digits * 2 ^ single.scale) (10 ^ (k + 1)) 0 := by
  have hhalf : single.halfway 0 = 1 := by decide
  have hdouble : 2 * (digits * 2 ^ single.scale) = digits * 2 ^ (single.scale + 1) := by ring
  have hlt : digits * 2 ^ (single.scale + 1) < 10 ^ (k + 1) :=
    calc digits * 2 ^ (single.scale + 1)
        < 2 ^ (digits.log2 + 1) * 2 ^ (single.scale + 1) :=
          Nat.mul_lt_mul_of_pos_right Nat.lt_log2_self (Nat.two_pow_pos _)
      _ = 2 ^ (digits.log2 + 1 + (single.scale + 1)) := (Nat.pow_add 2 _ _).symm
      _ ≤ 2 ^ (3 * (k + 1)) := Nat.pow_le_pow_right (by decide) (by rw [scale_single]; omega)
      _ = 8 ^ (k + 1) := Nat.pow_mul 2 3 (k + 1)
      _ ≤ 10 ^ (k + 1) := Nat.pow_le_pow_left (by decide) _
  refine ⟨by simp, ?_, fun _ => rfl⟩
  rw [hdouble, hhalf, Nat.one_mul]
  exact hlt.le

theorem ofUnits_eq_zero {num den : Nat} (hden : 0 < den) (h : single.RoundsTo num den 0) :
    Binary.ofUnits false num den = (.zero false : Lane) :=
  Binary.ofUnits_eq (.zero false) ((nearest_eq hden h).trans (Nat.zero_min _))

/-- A decimal is read as the lane nearest to it, however large or small it is. -/
theorem ofDecimal_eq (digits : Nat) (e : Int) :
    ofDecimal digits e =
      .ofUnits false (digits * 10 ^ e.toNat * 2 ^ single.scale) (10 ^ (-e).toNat) := by
  cases e with
  | ofNat e =>
    have hpos : (Int.ofNat e).toNat = e := by simp
    have hneg : (-Int.ofNat e).toNat = 0 := by simp
    rw [ofDecimal, hpos, hneg, Nat.pow_zero]
    split_ifs with hdigits he
    · rw [hdigits, Nat.zero_mul, Nat.zero_mul]
      exact (ofUnits_eq_zero Nat.one_pos ⟨by simp, by simp, fun _ => rfl⟩).symm
    · exact (Binary.ofUnits_eq (.infinite false)
        (nearest_eq_infinity Nat.one_pos (units_infinity_le digits e hdigits he))).symm
    · rfl
  | negSucc k =>
    have hpos : (Int.negSucc k).toNat = 0 := by simp
    have hneg : (-Int.negSucc k).toNat = k + 1 := by simp
    rw [ofDecimal, hpos, hneg, Nat.pow_zero, Nat.mul_one]
    split_ifs with h
    · exact (ofUnits_eq_zero (Nat.pow_pos (by decide)) (roundsTo_zero digits k h)).symm
    · rfl

end Lane

theorem toLower_of_lt {c : Char} (h : c.toNat < 'A'.toNat) : c.toLower = c := by
  refine dif_neg fun hcapital => ?_
  have hle : 'A'.toNat ≤ c.toNat := UInt32.le_iff_toNat_le.mp hcapital.1
  omega

namespace Numeral

theorem digitsValue_eq {cs : List Char} (h : ∀ c ∈ cs, c.isDigit) :
    digitsValue 10 cs = Nat.ofDigitChars 10 cs 0 := by
  rw [digitsValue, Nat.ofDigitChars_eq_foldl]
  refine List.foldl_ext _ _ _ fun n c hc => ?_
  rw [digitValue, if_pos (h c hc), Nat.mul_comm]

theorem startsWith_of_lt {w : Char} {word text : List Char} (hw : 'A'.toNat ≤ w.toNat)
    (h : ∀ c ∈ text, c.toNat < 'A'.toNat) : startsWith (w :: word) text = false := by
  cases text with
  | nil => rfl
  | cons c cs =>
    have hc := h c (by simp)
    have hne : c ≠ w := by
      rintro rfl
      omega
    simp [startsWith, toLower_of_lt hc, hne]

theorem hexadecimal?_of_lt {text : List Char} (h : ∀ c ∈ text, c.toNat < 'A'.toNat) :
    hexadecimal? text = none := by
  fun_cases hexadecimal? text with
  | case1 x cs hx =>
    have hlt := h x (by simp)
    rw [toLower_of_lt hlt] at hx
    exact absurd (hx ▸ hlt) (by decide)
  | case2 => rfl
  | case3 => rfl

/-- Only decimal numerals have no letters. -/
theorem ofText?_of_lt {text : List Char} (h : ∀ c ∈ text, c.toNat < 'A'.toNat) :
    ofText? text = decimal? text := by
  rw [ofText?, startsWith_of_lt (by decide) h, startsWith_of_lt (by decide) h, hexadecimal?_of_lt h]
  rfl

theorem splitDigits_of_isDigit {whole : List Char} (h : ∀ c ∈ whole, c.isDigit) (hne : whole ≠ []) :
    splitDigits Char.isDigit whole = some (whole, [], []) := by
  rw [splitDigits, List.takeWhile_eq_self_iff.mpr h, List.dropWhile_eq_nil_iff.mpr h]
  simp [hne]

theorem splitDigits_point {whole places : List Char} (hwhole : ∀ c ∈ whole, c.isDigit)
    (hplaces : ∀ c ∈ places, c.isDigit) (hne : whole ≠ []) :
    splitDigits Char.isDigit (whole ++ '.' :: places) = some (whole, places, []) := by
  rw [splitDigits, List.takeWhile_append_of_pos hwhole, List.dropWhile_append_of_pos hwhole]
  simp [hne, List.takeWhile_eq_self_iff.mpr hplaces, List.dropWhile_eq_nil_iff.mpr hplaces]

theorem decimalExponent_of_places (places : Nat) : decimalExponent places {} = -places := by
  simp [decimalExponent, digitsValue]

end Numeral

theorem splitSign_of_isDigit {c : Char} (h : c.isDigit) (cs : List Char) :
    splitSign (c :: cs) = (false, c :: cs) := by
  rw [splitSign]
  · rintro _ ⟨⟩
    exact absurd h (by decide)
  · rintro _ ⟨⟩
    exact absurd h (by decide)

/-- Digits with decimal places, and a point only before decimal places. -/
def positional (whole places : List Char) : List Char :=
  whole ++ if places = [] then [] else '.' :: places

theorem mem_positional {whole places : List Char} (hwhole : ∀ c ∈ whole, c.isDigit)
    (hplaces : ∀ c ∈ places, c.isDigit) {c : Char} (hc : c ∈ positional whole places) :
    c.isDigit ∨ c = '.' := by
  rcases List.mem_append.mp hc with hc | hc
  · exact .inl (hwhole c hc)
  · split_ifs at hc with h
    · simp at hc
    · exact (List.mem_cons.mp hc).symm.imp_left (hplaces c)

theorem decimal?_positional {whole places : List Char} (hwhole : ∀ c ∈ whole, c.isDigit)
    (hplaces : ∀ c ∈ places, c.isDigit) (hne : whole ≠ []) :
    Numeral.decimal? (positional whole places) = some (.decimal whole places {}) := by
  rw [Numeral.decimal?, positional]
  split_ifs with h
  · rw [List.append_nil, Numeral.splitDigits_of_isDigit hwhole hne, h]
    rfl
  · rw [Numeral.splitDigits_point hwhole hplaces hne]
    rfl

theorem readNumber_positional {whole places : List Char} (hwhole : ∀ c ∈ whole, c.isDigit)
    (hplaces : ∀ c ∈ places, c.isDigit) (hne : whole ≠ []) :
    readNumber (positional whole places) =
      Lane.ofDecimal (Nat.ofDigitChars 10 (whole ++ places) 0) (-places.length) := by
  have hsign : splitSign (positional whole places) = (false, positional whole places) := by
    obtain ⟨c, cs, rfl⟩ := List.exists_cons_of_ne_nil hne
    exact splitSign_of_isDigit (hwhole c (by simp)) _
  have hlt : ∀ c ∈ positional whole places, c.toNat < 'A'.toNat := by
    intro c hc
    rcases mem_positional hwhole hplaces hc with hdigit | rfl
    · exact Nat.lt_of_le_of_lt (Char.isDigit_iff_toNat.mp hdigit).2 (by decide)
    · decide
  have hdigits : ∀ c ∈ whole ++ places, c.isDigit :=
    List.forall_mem_append.mpr ⟨hwhole, hplaces⟩
  rw [readNumber, hsign]
  simp [Numeral.ofText?_of_lt hlt, decimal?_positional hwhole hplaces hne, Numeral.value,
    Numeral.digitsValue_eq hdigits, Numeral.decimalExponent_of_places]

namespace Decimal

/-- The decimal is written with these digits before the point and behind it, as many behind it as
its exponent asks for. -/
structure Written (d : Decimal) (whole places : List Char) : Prop where
  whole_digits : ∀ c ∈ whole, c.isDigit
  places_digits : ∀ c ∈ places, c.isDigit
  whole_ne_nil : whole ≠ []
  text : d.text.toList = positional whole places
  length : places.length = (-d.exponent).toNat
  value : Nat.ofDigitChars 10 (whole ++ places) 0 = d.digits * 10 ^ d.exponent.toNat

theorem isDigit_of_mem_zeros (n : Nat) : ∀ c ∈ List.replicate n '0', c.isDigit := fun _ hc =>
  List.eq_of_mem_replicate hc ▸ rfl

theorem written_whole (digits zeros : Nat) :
    Written ⟨digits, .ofNat zeros⟩ (Nat.toDigits 10 digits ++ List.replicate zeros '0') [] where
  whole_digits := List.forall_mem_append.mpr
    ⟨fun _ => Nat.isDigit_of_mem_toDigits (by decide) (by decide), isDigit_of_mem_zeros zeros⟩
  places_digits := by simp
  whole_ne_nil := by simp [Nat.toDigits_ne_nil]
  text := by simp [Decimal.text, positional]
  length := by simp
  value := by
    rw [List.append_nil, Nat.ofDigitChars_append, Nat.ofDigitChars_ten_toDigits,
      Nat.ofDigitChars_replicate_zero, Nat.mul_comm]
    rfl

/-- Zeros in front of the digits leave at least one digit before the point. -/
theorem written_places (digits p : Nat) (padded : List Char)
    (hpadded : List.replicate (p + 1 + 1 - (Nat.toDigits 10 digits).length) '0' ++
      Nat.toDigits 10 digits = padded) :
    Written ⟨digits, .negSucc p⟩ (padded.take (padded.length - (p + 1)))
      (padded.drop (padded.length - (p + 1))) := by
  have hlong : p + 1 < padded.length := by
    rw [← hpadded, List.length_append, List.length_replicate]
    omega
  have hall : ∀ c ∈ padded, c.isDigit := by
    rw [← hpadded]
    exact List.forall_mem_append.mpr
      ⟨isDigit_of_mem_zeros _, fun _ => Nat.isDigit_of_mem_toDigits (by decide) (by decide)⟩
  have hlength : (padded.drop (padded.length - (p + 1))).length = p + 1 := by
    rw [List.length_drop]
    omega
  refine ⟨fun c hc => hall c (List.mem_of_mem_take hc),
    fun c hc => hall c (List.mem_of_mem_drop hc), ?_, ?_, by simpa using hlength, ?_⟩
  · refine List.ne_nil_of_length_pos ?_
    rw [List.length_take]
    omega
  · have hne : padded.drop (padded.length - (p + 1)) ≠ [] := List.ne_nil_of_length_pos (by omega)
    rw [positional, if_neg hne]
    simp [text, hpadded]
  · rw [List.take_append_drop, ← hpadded, Nat.ofDigitChars_append,
      Nat.ofDigitChars_replicate_zero, Nat.mul_zero, Nat.ofDigitChars_ten_toDigits]
    simp

theorem exists_written (d : Decimal) : ∃ whole places, d.Written whole places := by
  obtain ⟨digits, exponent⟩ := d
  cases exponent with
  | ofNat zeros => exact ⟨_, _, written_whole digits zeros⟩
  | negSucc p => exact ⟨_, _, written_places digits p _ rfl⟩

theorem readNumber_text (d : Decimal) :
    readNumber d.text.toList = Lane.ofDecimal d.digits d.exponent := by
  obtain ⟨whole, places, h⟩ := d.exists_written
  have hlength := h.length
  have hexponent : (-(places.length : Int)).toNat = 0 := by omega
  have hplaces : (- -(places.length : Int)).toNat = (-d.exponent).toNat := by omega
  rw [h.text, readNumber_positional h.whole_digits h.places_digits h.whole_ne_nil, h.value,
    Lane.ofDecimal_eq, Lane.ofDecimal_eq, hexponent, hplaces, Nat.pow_zero, Nat.mul_one]

end Decimal
end FourLane
