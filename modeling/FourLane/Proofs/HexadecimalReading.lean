import FourLane.Proofs.ExactResults
import FourLane.Proofs.LongestNumeral
import Mathlib

/-!
# Reading hexadecimal numerals

The digits of a hexadecimal numeral are collected in double precision, multiplied by a power of two
and converted to a lane. As long as the digits fit a double, the product is exact or so far out of
range that its lane is an infinity or a zero in any case. So the numeral is rounded once, however
large its exponent is.
-/
namespace FourLane

open FloatFormat

def hexValue (digits : List Char) : Nat :=
  digits.foldl (fun n c => 16 * n + (hexDigit? c).getD 0) 0

theorem hexValue_concat (digits : List Char) (c : Char) :
    hexValue (digits ++ [c]) = 16 * hexValue digits + (hexDigit? c).getD 0 := by
  simp [hexValue]

theorem digitValue_eq {c : Char} (h : (hexDigit? c).isSome = true) :
    digitValue c = (hexDigit? c).getD 0 := by
  have hle (a b : Char) : a ≤ b ↔ a.toNat ≤ b.toNat := Iff.rfl
  have hdigit : c.isDigit = true ↔ 48 ≤ c.toNat ∧ c.toNat ≤ 57 := Char.isDigit_iff_toNat
  unfold digitValue
  unfold hexDigit? at h ⊢
  simp only [hdigit, hle, toNat_toLower, Char.reduceToNat] at h ⊢
  split_ifs at h ⊢ <;> simp at h ⊢ <;> omega

namespace Numeral

/-! ### Digits in double precision -/

theorem scale_double : double.scale = 1074 := by decide

theorem mul_two_pow_lt {n i j k : Nat} (hn : n < 2 ^ j) (h : j + i ≤ k) : n * 2 ^ i < 2 ^ k :=
  calc n * 2 ^ i < 2 ^ j * 2 ^ i := Nat.mul_lt_mul_of_pos_right hn (Nat.two_pow_pos i)
    _ = 2 ^ (j + i) := (Nat.pow_add 2 j i).symm
    _ ≤ 2 ^ k := Nat.pow_le_pow_right (by decide) h

theorem fits_double {n j i : Nat} (hn : n < 2 ^ j) (hj : j ≤ 53) (hi : j + i ≤ 2098) :
    double.Fits (n * 2 ^ i) := by
  apply double.fits_of_lt (hn.trans_le (Nat.pow_le_pow_right (by decide) hj))
  rw [units_infinity]
  exact mul_two_pow_lt hn (hi.trans (by decide))

theorem fits_two_pow {i : Nat} (hi : i ≤ 2097) : double.Fits (2 ^ i) := by
  have h := fits_double (n := 1) (j := 1) (by decide) (by decide) (show 1 + i ≤ 2098 by omega)
  rwa [Nat.one_mul] at h

theorem holds_ofNat {n : Nat} (hn : n < 2 ^ 53) :
    (Binary.ofNat n : Binary .double).Holds (n * 2 ^ double.scale) := by
  have h := Binary.holds_ofUnits (fits_double hn le_rfl (i := double.scale) (by decide)) Nat.one_pos
  rwa [Nat.mul_one] at h

theorem mantissa_concat (digits : List Char) (c : Char) :
    mantissa (digits ++ [c]) =
      ((mantissa digits).mul (.ofNat 16)).add (.ofNat (digitValue c)) := by
  simp [mantissa]

/-- No digit is lost while all of them fit a significand. -/
theorem holds_mantissa (digits : List Char) (hdigits : ∀ c ∈ digits, (hexDigit? c).isSome = true)
    (h : hexValue digits < 2 ^ 53) :
    (mantissa digits).Holds (hexValue digits * 2 ^ double.scale) := by
  induction digits using List.reverseRecOn with
  | nil =>
    rw [show hexValue [] = 0 from rfl, Nat.zero_mul]
    exact Binary.holds_zero
  | append_singleton digits c ih =>
    rw [hexValue_concat] at h ⊢
    rw [List.forall_mem_append, List.forall_mem_singleton] at hdigits
    have hstart := ih hdigits.1 (by omega)
    have hshift : ((mantissa digits).mul (.ofNat 16)).Holds
        (16 * hexValue digits * 2 ^ double.scale) := by
      have hproduct : hexValue digits * 2 ^ double.scale * (16 * 2 ^ double.scale) =
          16 * hexValue digits * 2 ^ double.scale * 2 ^ double.scale := by ring
      rw [hstart.mul_eq (holds_ofNat (by decide)), hproduct]
      exact Binary.holds_ofUnits (fits_double (show _ < 2 ^ 53 by omega) le_rfl (by decide)) (Nat.two_pow_pos _)
    have hlast : (Binary.ofNat (digitValue c) : Binary .double).Holds
        ((hexDigit? c).getD 0 * 2 ^ double.scale) := by
      rw [digitValue_eq hdigits.2]
      exact holds_ofNat (by omega)
    rw [mantissa_concat, Nat.add_mul]
    apply hshift.add hlast
    rw [← Nat.add_mul]
    exact fits_double h le_rfl (by decide)

/-! ### Powers of two -/

theorem ofNat_two_pow {n : Nat} (h : 1024 ≤ n) :
    (Binary.ofNat (2 ^ min n 1024) : Binary .double) = .infinite false := by
  apply Binary.ofUnits_eq_infinite Nat.one_pos
  rw [Nat.min_eq_right h, units_infinity, Nat.mul_one, ← Nat.pow_add]
  exact Nat.pow_le_pow_right (by decide) (by decide)

theorem holds_two_pow {n : Nat} (h : n < 1024) :
    (Binary.ofNat (2 ^ min n 1024) : Binary .double).Holds (2 ^ (n + double.scale)) := by
  have hunits := Binary.holds_ofUnits
    (fits_two_pow (show n + double.scale ≤ 2097 by rw [scale_double]; omega)) Nat.one_pos
  rw [Nat.mul_one, Nat.pow_add] at hunits
  rw [Nat.min_eq_left h.le, Nat.pow_add]
  exact hunits

theorem powTwo_eq_infinite {s : Int} (h : 1024 ≤ s) : powTwo s = .infinite false := by
  obtain ⟨n, rfl⟩ := Int.eq_ofNat_of_zero_le (show 0 ≤ s by omega)
  exact ofNat_two_pow (by omega)

theorem powTwo_eq_zero {s : Int} (h : s ≤ -1024) : powTwo s = .zero false := by
  obtain ⟨n, rfl⟩ : ∃ n, s = .negSucc n := ⟨(-s - 1).toNat, by omega⟩
  rw [powTwo, ofNat_two_pow (by omega)]
  exact (holds_ofNat (by decide)).div_infinite

theorem holds_powTwo {s : Int} (hlow : -1024 < s) (hhigh : s < 1024) :
    (powTwo s).Holds (2 ^ (s + double.scale).toNat) := by
  cases s with
  | ofNat n =>
    rw [Int.ofNat_eq_natCast] at hhigh
    exact holds_two_pow (by omega)
  | negSucc n =>
    have hone := holds_ofNat (n := 1) (by decide)
    have hexp : (Int.negSucc n + double.scale).toNat + (n + 1 + double.scale) =
        double.scale + double.scale := by
      rw [scale_double] at *
      omega
    have hratio : 1 * 2 ^ double.scale * 2 ^ double.scale =
        2 ^ (Int.negSucc n + double.scale).toNat * 2 ^ (n + 1 + double.scale) := by
      rw [Nat.one_mul, ← Nat.pow_add, ← Nat.pow_add, hexp]
    rw [powTwo, hone.div_eq (holds_two_pow (by omega)) (Nat.two_pow_pos _).ne', hratio]
    exact Binary.holds_ofUnits (fits_two_pow (by rw [scale_double]; omega)) (Nat.two_pow_pos _)

/-! ### Exponents -/

theorem foldl_clamp (digits : List Char) (hdigits : ∀ c ∈ digits, c.isDigit) (n : Nat) :
    digits.foldl (fun (n : Int) c => clamp (clamp (n * 10) + digitValue c))
        (min (n : Int) (2 ^ 31 - 1)) =
      min (Nat.ofDigitChars 10 digits n : Int) (2 ^ 31 - 1) := by
  induction digits generalizing n with
  | nil => rfl
  | cons c digits ih =>
    rw [List.forall_mem_cons] at hdigits
    have hdigit : digitValue c = c.toNat - '0'.toNat := by rw [digitValue, if_pos hdigits.1]
    have hstep : clamp (clamp (min (n : Int) (2 ^ 31 - 1) * 10) + digitValue c) =
        min ((10 * n + (c.toNat - '0'.toNat) : Nat) : Int) (2 ^ 31 - 1) := by
      rw [hdigit]
      unfold clamp
      omega
    rw [List.foldl_cons, hstep, ih hdigits.2]
    rfl

/-- The exponent that is computed is the exact one, unless both are far out of range. -/
theorem binaryScale_cases {places : Nat} {exponent : Exponent} (hplaces : places < 2 ^ 28)
    (hdigits : ∀ c ∈ exponent.digits, c.isDigit) :
    binaryScale places exponent = exponent.value - 4 * places ∨
      (1024 ≤ binaryScale places exponent ∧ 1024 ≤ exponent.value - 4 * places) ∨
      (binaryScale places exponent ≤ -1024 ∧ exponent.value - 4 * places ≤ -1024) := by
  have hshift := foldl_clamp exponent.digits hdigits 0
  rw [show min ((0 : Nat) : Int) (2 ^ 31 - 1) = 0 by decide] at hshift
  have hstart : clamp (-4 * clamp places) = -4 * places := by
    unfold clamp
    omega
  simp only [binaryScale, hshift, hstart, Exponent.value]
  generalize (Nat.ofDigitChars 10 exponent.digits 0) = n
  unfold clamp
  split_ifs <;> omega

/-! ### The product -/

/-- How a number is rounded that is a whole number times a power of two. -/
def scaled (n : Nat) (t : Int) : Lane :=
  .ofUnits false (n * 2 ^ t.toNat * 2 ^ single.scale) (2 ^ (-t).toNat)

theorem isNearest_scaled (n : Nat) (t : Int) : (scaled n t).IsNearest (n * 2 ^ t) := by
  exact_mod_cast Binary.isNearest_scaled n 2 (by decide) t

theorem scaled_eq_infinite {n : Nat} {t : Int}
    (h : 2 ^ (single.bias + 1) * 2 ^ (-t).toNat ≤ n * 2 ^ t.toNat) : scaled n t = .infinite false := by
  apply Binary.ofUnits_eq_infinite (Nat.two_pow_pos _)
  rw [units_infinity, show single.scale + single.bias + 1 = single.bias + 1 + single.scale by omega,
    Nat.pow_add, Nat.mul_right_comm]
  exact Nat.mul_le_mul_right _ h

theorem scaled_eq_zero {n : Nat} {t : Int} (hn : n < 2 ^ 53) (h : t ≤ -1024) :
    scaled n t = .zero false := by
  have hhalf : single.halfway 0 = 1 := by decide
  have htop : t.toNat = 0 := by omega
  apply Lane.ofUnits_eq_zero (Nat.two_pow_pos _)
  refine ⟨by simp, ?_, fun _ => rfl⟩
  rw [hhalf, Nat.one_mul, htop, Nat.pow_zero, Nat.mul_one]
  have hdouble : 2 * (n * 2 ^ single.scale) = n * 2 ^ (single.scale + 1) := by ring
  rw [hdouble]
  exact (mul_two_pow_lt hn (by rw [Lane.scale_single]; omega)).le

theorem ofUnits_zero {den : Nat} (hden : 0 < den) :
    Binary.ofUnits false 0 den = (.zero false : Lane) :=
  Lane.ofUnits_eq_zero hden ⟨by simp, by simp, fun _ => rfl⟩

/-- Where the power of two is a finite double, the product is exact or beyond all doubles. -/
theorem convert_mul_of_holds {x y : Binary .double} {n : Nat} {t : Int}
    (hx : x.Holds (n * 2 ^ double.scale)) (hy : y.Holds (2 ^ (t + double.scale).toNat))
    (hn : n < 2 ^ 53) (ht : -1024 < t) : (x.mul y).convert .single = scaled n t := by
  have hexp : (t + double.scale).toNat + (-t).toNat = t.toNat + double.scale := by
    rw [scale_double]
    omega
  have hpowers : n * 2 ^ (t + double.scale).toNat * 2 ^ (-t).toNat =
      n * 2 ^ t.toNat * 2 ^ double.scale := by
    rw [Nat.mul_assoc, Nat.mul_assoc, ← Nat.pow_add, ← Nat.pow_add, hexp]
  rw [hx.mul_eq hy, Nat.mul_right_comm]
  by_cases hfits : n * 2 ^ (t + double.scale).toNat < double.units double.infinity
  · have hproduct := Binary.holds_ofUnits (double.fits_of_lt hn hfits) (Nat.two_pow_pos double.scale)
    rw [hproduct.convert_eq]
    apply Binary.ofUnits_congr (Nat.two_pow_pos _) (Nat.two_pow_pos _)
    rw [Nat.mul_right_comm, hpowers, Nat.mul_right_comm]
  · have hover := Nat.not_lt.mp hfits
    rw [Binary.ofUnits_eq_infinite (Nat.two_pow_pos _) (Nat.mul_le_mul_right _ hover),
      Binary.convert_infinite, scaled_eq_infinite]
    have hmul := Nat.mul_le_mul_right (2 ^ (-t).toNat) hover
    have hbias : 2 ^ (single.bias + 1) ≤ 2 ^ (double.bias + 1) :=
      Nat.pow_le_pow_right (by decide) (by decide)
    rw [hpowers, units_infinity, Nat.add_assoc, Nat.add_comm double.scale, Nat.pow_add,
      Nat.mul_right_comm, Nat.mul_le_mul_right_iff (Nat.two_pow_pos _)] at hmul
    exact (Nat.mul_le_mul_right _ hbias).trans hmul

theorem convert_mul_powTwo {x : Binary .double} {n : Nat} {s t : Int}
    (hx : x.Holds (n * 2 ^ double.scale)) (hpos : 0 < n) (hn : n < 2 ^ 53)
    (hscale : s = t ∨ (1024 ≤ s ∧ 1024 ≤ t) ∨ (s ≤ -1024 ∧ t ≤ -1024)) :
    (x.mul (powTwo s)).convert .single = scaled n t := by
  by_cases hhigh : 1024 ≤ s
  · have hne : n * 2 ^ double.scale ≠ 0 := (Nat.mul_pos hpos (Nat.two_pow_pos _)).ne'
    have hbias : single.bias + 1 = 128 := by decide
    have htop : (-t).toNat = 0 := by omega
    rw [powTwo_eq_infinite hhigh, hx.mul_infinite, if_neg hne, Binary.convert_infinite,
      scaled_eq_infinite]
    rw [htop, Nat.pow_zero, Nat.mul_one]
    exact (Nat.pow_le_pow_right (by decide) (by omega)).trans (Nat.le_mul_of_pos_left _ hpos)
  · by_cases hlow : s ≤ -1024
    · rw [powTwo_eq_zero hlow, hx.mul_eq Binary.holds_zero, Nat.mul_zero,
        (Binary.holds_ofUnits_zero (Nat.two_pow_pos _)).convert_eq, Nat.zero_mul,
        ofUnits_zero (Nat.two_pow_pos _), scaled_eq_zero hn (by omega)]
    · obtain rfl : s = t := by omega
      exact convert_mul_of_holds hx (holds_powTwo (by omega) (by omega)) hn (by omega)

theorem exists_holds_powTwo {s : Int} (h : s < 1024) : ∃ n, (powTwo s).Holds n := by
  by_cases hlow : s ≤ -1024
  · rw [powTwo_eq_zero hlow]
    exact ⟨0, Binary.holds_zero⟩
  · exact ⟨_, holds_powTwo (by omega) h⟩

theorem convert_zero_mul {x : Binary .double} (hx : x.Holds 0) {s : Int} (h : s < 1024) :
    (x.mul (powTwo s)).convert .single = .zero false := by
  obtain ⟨n, hn⟩ := exists_holds_powTwo h
  rw [hx.mul_eq hn, Nat.zero_mul, (Binary.holds_ofUnits_zero (Nat.two_pow_pos _)).convert_eq,
    Nat.zero_mul, ofUnits_zero (Nat.two_pow_pos _)]

theorem convert_zero_mul_infinite {x : Binary .double} (hx : x.Holds 0) {s : Int} (h : 1024 ≤ s) :
    (x.mul (powTwo s)).convert .single = .nan true := by
  rw [powTwo_eq_infinite h, hx.mul_infinite, if_pos rfl]
  rfl

end Numeral

/-! ### Hexadecimal numerals -/

theorem length_toList_le (text : String) : text.toList.length ≤ text.utf8ByteSize := by
  have hle (cs : List Char) : cs.length ≤ String.utf8Len cs := by
    induction cs with
    | nil => exact Nat.zero_le _
    | cons c cs ih =>
      have := c.utf8Size_pos
      rw [List.length_cons, String.utf8Len_cons]
      omega
  have h := hle text.toList
  rwa [← String.utf8ByteSize_ofList, String.ofList_toList] at h

theorem DigitsText.length_places_le {isDigit : Char → Bool} {whole places digits : List Char}
    (h : DigitsText isDigit whole places digits) : places.length ≤ digits.length := by
  cases h with
  | whole hwhole hne => exact Nat.zero_le _
  | point hwhole hplaces hne =>
    rw [List.length_append, List.length_cons]
    omega

/-- A hexadecimal numeral whose digits fit a double is rounded once, to the nearest lane. If its
digits are zeros, it is a zero unless the power of two is infinite. -/
theorem readNumber_hexadecimal {text : String} {negative : Bool} {whole places : List Char}
    {exponent : Exponent}
    (h : SignedText negative (.hexadecimal whole places exponent) text.toList)
    (hsize : text.utf8ByteSize < 2 ^ 28) :
    (0 < hexValue (whole ++ places) → hexValue (whole ++ places) < 2 ^ 53 →
      ∀ x : Lane, x.IsNearest (Binary.signed negative
        (hexValue (whole ++ places) * 2 ^ (exponent.value - 4 * places.length))) ↔
          x = readNumber text.toList) ∧
    (hexValue (whole ++ places) = 0 → exponent.value - 4 * places.length < 1024 →
      (readNumber text.toList).isZero = true) ∧
    (hexValue (whole ++ places) = 0 → 1024 ≤ exponent.value - 4 * places.length →
      (readNumber text.toList).isNaN = true) := by
  have hread := h.readNumber
  obtain ⟨sign, body, htext, -, hbody⟩ := h
  cases hbody with
  | hexadecimal hx hscaled =>
    obtain ⟨digits, tail, rfl, hdigits, htail⟩ := hscaled
    have hplaces : places.length < 2 ^ 28 := by
      have hlength := length_toList_le text
      have hle := hdigits.length_places_le
      rw [htext] at hlength
      simp only [List.length_append, List.length_cons] at hlength
      omega
    have hscale := Numeral.binaryScale_cases hplaces htail.all_digits
    have hmantissa := Numeral.holds_mantissa (whole ++ places) hdigits.all_digits
    rw [hread, Numeral.value]
    refine ⟨fun hpos hlt x => ?_, fun hzero hlow => ?_, fun hzero hhigh => ?_⟩
    · have hnearest := (Numeral.isNearest_scaled (hexValue (whole ++ places))
        (exponent.value - 4 * places.length)).signed negative
      have hne : Binary.signed negative
          (hexValue (whole ++ places) * 2 ^ (exponent.value - 4 * places.length)) ≠ 0 := by
        have hpos' : (0 : ℚ) < hexValue (whole ++ places) := Nat.cast_pos.mpr hpos
        cases negative with
        | false => exact (mul_pos hpos' (by positivity)).ne'
        | true => exact neg_ne_zero.mpr (mul_pos hpos' (by positivity)).ne'
      rw [Numeral.convert_mul_powTwo (hmantissa hlt) hpos hlt hscale]
      constructor
      · exact fun hx => hx.unique hne hnearest
      · rintro rfl
        exact hnearest
    · rw [hzero, Nat.zero_mul] at hmantissa
      rw [Numeral.convert_zero_mul (hmantissa (by decide)) (by omega)]
      cases negative <;> rfl
    · rw [hzero, Nat.zero_mul] at hmantissa
      rw [Numeral.convert_zero_mul_infinite (hmantissa (by decide)) (by omega)]
      cases negative <;> rfl

/-- Three quarters of the least positive lane. -/
theorem readNumber_hexadecimal_tiny :
    SignedText true (.hexadecimal ['1'] ['8'] ⟨true, ['1', '5', '0']⟩) "-0x1.8p-150".toList ∧
      "-0x1.8p-150".utf8ByteSize < 2 ^ 28 ∧
      ∀ x : Lane, x.IsNearest (-(24 * 2 ^ (-154 : Int))) ↔ x = readNumber "-0x1.8p-150".toList := by
  have hspelled : SignedText true (.hexadecimal ['1'] ['8'] ⟨true, ['1', '5', '0']⟩)
      "-0x1.8p-150".toList :=
    ⟨['-'], ['0', 'x', '1', '.', '8', 'p', '-', '1', '5', '0'], rfl, .minus,
      .hexadecimal (.inl rfl) ⟨['1', '.', '8'], ['p', '-', '1', '5', '0'], rfl,
        .point (List.forall_mem_singleton.mpr rfl) (List.forall_mem_singleton.mpr rfl) (by simp),
        .present (.inl rfl) .minus (by simp [Char.isDigit]) (by simp)⟩⟩
  have hsize : "-0x1.8p-150".utf8ByteSize < 2 ^ 28 := by decide
  refine ⟨hspelled, hsize, ?_⟩
  have h := (readNumber_hexadecimal hspelled hsize).1 (by decide) (by decide)
  have hvalue : hexValue (['1'] ++ ['8']) = 24 := by decide
  have hexponent : Exponent.value ⟨true, ['1', '5', '0']⟩ = -150 := by decide
  rw [hvalue, hexponent] at h
  exact h

end FourLane
