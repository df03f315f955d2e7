import FourLane.Proofs.NearestMagnitude
import Mathlib

/-!
# The number nearest to a rational

Numbers have rational values, and a number is the rounded value of a rational if no other number is
nearer to it; of two that are equally near it is the one with an even magnitude. An infinity counts
as the power of two that follows the finite values. So a rational beyond the range rounds to
infinity, from the point halfway to that power on. What `ofUnits` gives is the rounded value of the
ratio that it was given, and no other number is.
-/
namespace FourLane

section Midpoints

variable {K : Type*} [Field K] [LinearOrder K] [IsStrictOrderedRing K]

theorem abs_sub_le_of_le_midpoint {a b q : K} (hab : a ≤ b) (h : 2 * q ≤ a + b) :
    |q - a| ≤ |q - b| := by
  rw [abs_of_nonpos (show q - b ≤ 0 by linarith)]
  exact abs_le.mpr ⟨by linarith, by linarith⟩

theorem abs_sub_le_of_midpoint_le {a b q : K} (hab : a ≤ b) (h : a + b ≤ 2 * q) :
    |q - b| ≤ |q - a| := by
  rw [abs_of_nonneg (show 0 ≤ q - a by linarith)]
  exact abs_le.mpr ⟨by linarith, by linarith⟩

theorem midpoint_of_abs_sub_eq {a b q : K} (hne : a ≠ b) (h : |q - a| = |q - b|) :
    a + b = 2 * q := by
  rcases abs_eq_abs.mp h with heq | heq
  · exact absurd (sub_right_injective heq) hne
  · linarith

theorem FloatFormat.units_cast_le {f : FloatFormat} {k l : Nat} (h : k ≤ l) :
    (f.units k : K) ≤ f.units l :=
  Nat.cast_le.mpr (f.units_strictMono.monotone h)

/-- No magnitude up to infinity is nearer than the one whose halfway points lie on either side. -/
theorem FloatFormat.abs_sub_units_le_of_halfway {f : FloatFormat} {q : K} {m : Nat}
    (hlower : ∀ n < m, (f.units n : K) + f.units (n + 1) ≤ 2 * q)
    (hupper : 2 * q ≤ f.units m + f.units (m + 1)) {k : Nat} (hk : k ≤ f.infinity) :
    |q - f.units (min m f.infinity)| ≤ |q - f.units k| := by
  rcases lt_trichotomy k (min m f.infinity) with hlt | rfl | hgt
  · obtain ⟨n, hn⟩ : ∃ n, min m f.infinity = n + 1 := ⟨min m f.infinity - 1, by omega⟩
    rw [hn]
    have hlower := hlower n (by omega)
    have hbelow : (f.units k : K) ≤ f.units n := units_cast_le (by omega)
    have hstep : (f.units n : K) ≤ f.units (n + 1) := units_cast_le (by omega)
    exact abs_sub_le_of_midpoint_le (hbelow.trans hstep) (by linarith)
  · exact le_rfl
  · have hmin : min m f.infinity = m := by omega
    rw [hmin]
    have habove : (f.units (m + 1) : K) ≤ f.units k := units_cast_le (by omega)
    have hstep : (f.units m : K) ≤ f.units (m + 1) := units_cast_le (by omega)
    exact abs_sub_le_of_le_midpoint (hstep.trans habove) (by linarith)

end Midpoints

namespace FloatFormat

variable {f : FloatFormat} {num den m : Nat}

theorem RoundsTo.two_mul_le (h : f.RoundsTo num den m) (hden : 0 < den) :
    2 * ((num : ℚ) / den) ≤ f.units m + f.units (m + 1) := by
  have hupper : ((2 * num : Nat) : ℚ) ≤ ((f.halfway m * den : Nat) : ℚ) := Nat.cast_le.mpr h.upper
  rw [halfway] at hupper
  push_cast at hupper
  rw [mul_div_assoc', div_le_iff₀ (Nat.cast_pos.mpr hden)]
  exact hupper

theorem RoundsTo.le_two_mul (h : f.RoundsTo num den m) (hden : 0 < den) {k : Nat} (hk : k < m) :
    (f.units k : ℚ) + f.units (k + 1) ≤ 2 * ((num : ℚ) / den) := by
  obtain ⟨j, rfl⟩ : ∃ j, m = j + 1 := ⟨m - 1, by omega⟩
  have hmono : f.halfway k ≤ f.halfway j := f.halfway_strictMono.monotone (by omega)
  have hlower : f.halfway k * den ≤ 2 * num := (Nat.mul_le_mul_right den hmono).trans (h.lower j rfl)
  have hcast : ((f.halfway k * den : Nat) : ℚ) ≤ ((2 * num : Nat) : ℚ) := Nat.cast_le.mpr hlower
  rw [halfway] at hcast
  push_cast at hcast
  rw [mul_div_assoc', le_div_iff₀ (Nat.cast_pos.mpr hden)]
  exact hcast

theorem units_cast_injective : Function.Injective fun k => (f.units k : ℚ) :=
  Nat.cast_injective.comp f.units_strictMono.injective

theorem RoundsTo.nearest (h : f.RoundsTo num den m) (hden : 0 < den) {k : Nat}
    (hk : k ≤ f.infinity) :
    |(num : ℚ) / den - f.units (min m f.infinity)| ≤ |(num : ℚ) / den - f.units k| :=
  abs_sub_units_le_of_halfway (fun _ hn => h.le_two_mul hden hn) (h.two_mul_le hden) hk

/-- If another magnitude is as near, it is a neighbour, and the ratio lies halfway between them. -/
theorem RoundsTo.even_of_tie (h : f.RoundsTo num den m) (hden : 0 < den) {k : Nat}
    (hk : k ≤ f.infinity) (hne : k ≠ min m f.infinity)
    (htie : |(num : ℚ) / den - f.units k| = |(num : ℚ) / den - f.units (min m f.infinity)|) :
    min m f.infinity % 2 = 0 := by
  have hmid := midpoint_of_abs_sub_eq (units_cast_injective.ne hne) htie
  have hcast : f.units k * den + f.units (min m f.infinity) * den = 2 * num := by
    have hden' : (den : ℚ) ≠ 0 := Nat.cast_ne_zero.mpr hden.ne'
    have hscaled : ((f.units k : ℚ) + f.units (min m f.infinity)) * den = 2 * num := by
      rw [hmid, mul_assoc, div_mul_cancel₀ _ hden']
    rw [← add_mul]
    exact_mod_cast hscaled
  have hstrict := f.units_strictMono
  rcases lt_or_gt_of_ne hne with hlt | hgt
  · obtain ⟨n, hn⟩ : ∃ n, min m f.infinity = n + 1 := ⟨min m f.infinity - 1, by omega⟩
    obtain ⟨j, rfl⟩ : ∃ j, m = j + 1 := ⟨m - 1, by omega⟩
    have hlower := h.lower j rfl
    have hhalf : f.units k * den + f.units (n + 1) * den ≤ f.halfway n * den := by
      rw [halfway, ← add_mul]
      exact Nat.mul_le_mul_right den (by have := hstrict.monotone (show k ≤ n by omega); omega)
    have hmono : f.halfway n * den ≤ f.halfway j * den :=
      Nat.mul_le_mul_right den (f.halfway_strictMono.monotone (by omega))
    rw [hn] at hcast
    have heq : n = j := f.halfway_strictMono.injective
      (Nat.eq_of_mul_eq_mul_right hden (by omega))
    rw [hn, heq]
    exact h.even (.inr ⟨j, rfl, by omega⟩)
  · have hmin : min m f.infinity = m := by omega
    have hupper := h.upper
    have hhalf : f.halfway m * den ≤ f.units m * den + f.units k * den := by
      rw [halfway, ← add_mul]
      exact Nat.mul_le_mul_right den
        (by have := hstrict.monotone (show m + 1 ≤ k by omega); omega)
    rw [hmin] at hcast ⊢
    exact h.even (.inl (by omega))

end FloatFormat

namespace Binary

variable {f : FloatFormat}

/-- The value of a number; an infinity has that of the power of two behind the finite values. -/
def value (x : Binary f) : ℚ := x.signedUnits / (2 ^ f.scale : Nat)

/-- The number that a rational rounds to. -/
structure IsNearest (x : Binary f) (q : ℚ) : Prop where
  number : x.isNaN = false
  sign : (q < 0 → x.negative = true) ∧ (0 < q → x.negative = false)
  nearest : ∀ y : Binary f, y.isNaN = false → |q - x.value| ≤ |q - y.value|
  even : ∀ y : Binary f, y.isNaN = false → y.value ≠ x.value → |q - y.value| = |q - x.value| →
    x.magnitude.val % 2 = 0

theorem isNaN_eq_false_iff (x : Binary f) : x.isNaN = false ↔ x.magnitude.val ≤ f.infinity := by
  simp [isNaN]

theorem value_of_nonnegative {x : Binary f} (h : x.negative = false) :
    x.value = (x.units : ℚ) / (2 ^ f.scale : Nat) := by
  rw [value, signedUnits, h]
  simp

theorem value_of_negative {x : Binary f} (h : x.negative = true) :
    x.value = -((x.units : ℚ) / (2 ^ f.scale : Nat)) := by
  rw [value, signedUnits, h]
  simp [neg_div]

theorem neg_neg_eq (x : Binary f) : x.neg.neg = x := by
  simp [neg]

theorem value_neg (x : Binary f) : x.neg.value = -x.value := by
  have hunits : x.neg.units = x.units := rfl
  cases hsign : x.negative with
  | false => rw [value_of_nonnegative hsign, value_of_negative (by simp [neg, hsign]), hunits]
  | true => rw [value_of_negative hsign, value_of_nonnegative (by simp [neg, hsign]), hunits, neg_neg]

theorem value_zero (negative : Bool) : (zero negative : Binary f).value = 0 := by
  have hunits : (zero negative : Binary f).units = 0 := by simp [units, zero, FloatFormat.units]
  simp [value, signedUnits, hunits]

/-- Without its sign, a number is no further from a rational that is not negative. -/
theorem abs_sub_units_le {q : ℚ} (hq : 0 ≤ q) (y : Binary f) :
    |q - (y.units : ℚ) / (2 ^ f.scale : Nat)| ≤ |q - y.value| := by
  cases hsign : y.negative with
  | false => rw [value_of_nonnegative hsign]
  | true =>
    have hunits : (0 : ℚ) ≤ (y.units : ℚ) / (2 ^ f.scale : Nat) := by positivity
    rw [value_of_negative hsign, abs_of_nonneg (show 0 ≤ q - -((y.units : ℚ) / _) by linarith)]
    exact abs_le.mpr ⟨by linarith, by linarith⟩

theorem IsNearest.neg {x : Binary f} {q : ℚ} (h : x.IsNearest q) : x.neg.IsNearest (-q) := by
  have hdist (y : Binary f) : |-q - y.value| = |q - y.neg.value| := by
    rw [value_neg, ← abs_neg]
    congr 1
    ring
  refine ⟨h.number, ⟨fun hq => ?_, fun hq => ?_⟩, fun y hy => ?_, fun y hy hne htie => ?_⟩
  · have hsign := h.sign.2 (by linarith)
    simp [Binary.neg, hsign]
  · have hsign := h.sign.1 (by linarith)
    simp [Binary.neg, hsign]
  · rw [hdist, hdist, neg_neg_eq]
    exact h.nearest y.neg hy
  · rw [hdist, hdist, neg_neg_eq] at htie
    refine h.even y.neg hy (fun heq => hne ?_) htie
    rw [value_neg, ← heq, value_neg, neg_neg]

theorem isNearest_ofUnits (num : Nat) {den : Nat} (hden : 0 < den) :
    (ofUnits false num den : Binary f).IsNearest ((num : ℚ) / den / (2 ^ f.scale : Nat)) := by
  obtain ⟨m, hm⟩ := f.exists_roundsTo num hden
  have hscale : (0 : ℚ) < (2 ^ f.scale : Nat) := Nat.cast_pos.mpr (Nat.two_pow_pos _)
  have hratio : (0 : ℚ) ≤ (num : ℚ) / den / (2 ^ f.scale : Nat) := by positivity
  have hmagnitude : (ofUnits false num den : Binary f).magnitude.val = min m f.infinity :=
    FloatFormat.nearest_eq hden hm
  have hvalue : (ofUnits false num den : Binary f).value =
      (f.units (min m f.infinity) : ℚ) / (2 ^ f.scale : Nat) := by
    rw [value_of_nonnegative rfl, units, hmagnitude]
  have hdist (a : ℚ) : |(num : ℚ) / den / (2 ^ f.scale : Nat) - a / (2 ^ f.scale : Nat)| =
      |(num : ℚ) / den - a| / (2 ^ f.scale : Nat) := by
    rw [← sub_div, abs_div, abs_of_pos hscale]
  have hnearest (y : Binary f) (hy : y.isNaN = false) :
      |(num : ℚ) / den / (2 ^ f.scale : Nat) - (ofUnits false num den : Binary f).value| ≤
        |(num : ℚ) / den / (2 ^ f.scale : Nat) - (y.units : ℚ) / (2 ^ f.scale : Nat)| := by
    rw [hvalue, hdist, hdist, div_le_div_iff_of_pos_right hscale]
    exact hm.nearest hden ((isNaN_eq_false_iff y).mp hy)
  refine ⟨?_, ⟨fun hq => absurd hq hratio.not_gt, fun _ => rfl⟩,
    fun y hy => (hnearest y hy).trans (abs_sub_units_le hratio y), fun y hy hne htie => ?_⟩
  · rw [isNaN_eq_false_iff, hmagnitude]
    exact Nat.min_le_right _ _
  · by_cases hsame : y.magnitude.val = min m f.infinity
    · -- Of two opposite numbers the negative one is as near only if the ratio is zero.
      have hunits : (y.units : ℚ) / (2 ^ f.scale : Nat) = (ofUnits false num den : Binary f).value := by
        rw [hvalue, units, hsame]
      cases hsign : y.negative with
      | false => exact absurd ((value_of_nonnegative hsign).trans hunits) hne
      | true =>
        have hmid := midpoint_of_abs_sub_eq hne htie
        rw [value_of_negative hsign, hunits, neg_add_cancel] at hmid
        have hq : (num : ℚ) / den / (2 ^ f.scale : Nat) = 0 := by linarith
        have hzero := (hnearest (zero false) (by simp [isNaN, zero])).trans (abs_sub_units_le hratio _)
        rw [value_zero, hq, sub_zero, abs_zero, zero_sub, abs_neg, abs_nonpos_iff] at hzero
        rw [value_of_negative hsign, hunits, hzero, neg_zero] at hne
        exact absurd rfl hne
    · have hclose := le_antisymm ((abs_sub_units_le hratio y).trans htie.le) (hnearest y hy)
      rw [hvalue, hdist, hdist, div_left_inj' hscale.ne'] at hclose
      rw [hmagnitude]
      exact hm.even_of_tie hden ((isNaN_eq_false_iff y).mp hy) hsame hclose

theorem isNearest_scaled (digits base : Nat) (hbase : 0 < base) (e : Int) :
    (ofUnits false (digits * base ^ e.toNat * 2 ^ f.scale) (base ^ (-e).toNat) : Binary f).IsNearest
      (digits * (base : ℚ) ^ e) := by
  have hscale : ((2 ^ f.scale : Nat) : ℚ) ≠ 0 := Nat.cast_ne_zero.mpr (Nat.two_pow_pos _).ne'
  have hbase' : (base : ℚ) ≠ 0 := Nat.cast_ne_zero.mpr hbase.ne'
  have hpower : (base : ℚ) ^ e = (base ^ e.toNat : Nat) / (base ^ (-e).toNat : Nat) := by
    have hsplit : e = (e.toNat : Int) - ((-e).toNat : Int) := by omega
    rw [Nat.cast_pow, Nat.cast_pow, ← zpow_natCast, ← zpow_natCast, ← zpow_sub₀ hbase', ← hsplit]
  have h := isNearest_ofUnits (f := f) (digits * base ^ e.toNat * 2 ^ f.scale)
    (Nat.pow_pos (n := (-e).toNat) hbase)
  rw [Nat.cast_mul, Nat.cast_mul, div_right_comm, mul_div_cancel_right₀ _ hscale] at h
  rwa [hpower, mul_div_assoc']

def signed (negative : Bool) (q : ℚ) : ℚ := if negative then -q else q

theorem IsNearest.signed {x : Binary f} {q : ℚ} (h : x.IsNearest q) (negative : Bool) :
    (if negative then x.neg else x).IsNearest (signed negative q) := by
  cases negative with
  | false => exact h
  | true => exact h.neg

theorem eq_of_magnitude {x y : Binary f} (hsign : x.negative = y.negative)
    (hmagnitude : x.magnitude.val = y.magnitude.val) : x = y := by
  obtain ⟨negative, magnitude⟩ := x
  obtain ⟨negative', magnitude'⟩ := y
  obtain rfl : negative = negative' := hsign
  obtain rfl : magnitude = magnitude' := Fin.ext hmagnitude
  rfl

theorem eq_of_value {x y : Binary f} (hsign : x.negative = y.negative)
    (hvalue : x.value = y.value) : x = y := by
  have hscale : ((2 ^ f.scale : Nat) : ℚ) ≠ 0 := Nat.cast_ne_zero.mpr (Nat.two_pow_pos _).ne'
  have hsigned : x.signedUnits = y.signedUnits := by
    rw [value, value, div_left_inj' hscale] at hvalue
    exact_mod_cast hvalue
  have hunits : x.units = y.units := by
    rw [signedUnits, signedUnits, hsign] at hsigned
    split_ifs at hsigned <;> omega
  exact eq_of_magnitude hsign (f.units_strictMono.injective hunits)

/-- Between two numbers of one sign whose magnitudes are even there is a third. -/
theorem exists_between {x y : Binary f} (hsign : x.negative = y.negative)
    (hlt : x.magnitude.val + 1 < y.magnitude.val) (hy : y.isNaN = false) :
    ∃ z : Binary f, z.isNaN = false ∧
      (x.value < z.value ∧ z.value < y.value ∨ y.value < z.value ∧ z.value < x.value) := by
  have hscale : (0 : ℚ) < (2 ^ f.scale : Nat) := Nat.cast_pos.mpr (Nat.two_pow_pos _)
  have hmagnitude : x.magnitude.val + 1 < f.patterns := hlt.trans y.magnitude.isLt
  have hlower : (x.units : ℚ) < f.units (x.magnitude.val + 1) :=
    Nat.cast_lt.mpr (f.units_strictMono (Nat.lt_succ_self _))
  have hupper : (f.units (x.magnitude.val + 1) : ℚ) < y.units :=
    Nat.cast_lt.mpr (f.units_strictMono hlt)
  have hxz := (div_lt_div_iff_of_pos_right hscale).mpr hlower
  have hzy := (div_lt_div_iff_of_pos_right hscale).mpr hupper
  refine ⟨⟨y.negative, x.magnitude.val + 1, hmagnitude⟩, ?_, ?_⟩
  · rw [isNaN_eq_false_iff] at hy ⊢
    exact (hlt.trans_le hy).le
  · cases hneg : y.negative with
    | false =>
      rw [value_of_nonnegative (hsign.trans hneg), value_of_nonnegative hneg, value_of_nonnegative rfl]
      exact .inl ⟨hxz, hzy⟩
    | true =>
      rw [value_of_negative (hsign.trans hneg), value_of_negative hneg, value_of_negative rfl]
      exact .inr ⟨neg_lt_neg hzy, neg_lt_neg hxz⟩

theorem IsNearest.magnitude_le {x y : Binary f} {q : ℚ} (hx : x.IsNearest q) (hy : y.IsNearest q)
    (hsign : x.negative = y.negative) : ¬ x.magnitude.val < y.magnitude.val := by
  intro hlt
  have hdist := le_antisymm (hx.nearest y hy.number) (hy.nearest x hx.number)
  have hne : x.value ≠ y.value := fun heq => by
    rw [eq_of_value hsign heq] at hlt
    exact lt_irrefl _ hlt
  have hmid := midpoint_of_abs_sub_eq hne hdist
  have hxeven := hx.even y hy.number hne.symm hdist.symm
  have hyeven := hy.even x hx.number hne hdist
  -- Both are even, so that there is a nearer number between them.
  obtain ⟨z, hz, hbetween⟩ := exists_between hsign (by omega) hy.number
  have hnear := hx.nearest z hz
  rcases hbetween with ⟨hxz, hzy⟩ | ⟨hyz, hzx⟩
  · rw [abs_of_nonneg (show 0 ≤ q - x.value by linarith), le_abs] at hnear
    rcases hnear with hnear | hnear <;> linarith
  · rw [abs_of_nonpos (show q - x.value ≤ 0 by linarith), le_abs] at hnear
    rcases hnear with hnear | hnear <;> linarith

/-- A rational other than zero rounds to one number only. -/
theorem IsNearest.unique {x y : Binary f} {q : ℚ} (hq : q ≠ 0) (hx : x.IsNearest q)
    (hy : y.IsNearest q) : x = y := by
  have hsign : x.negative = y.negative := by
    rcases lt_or_gt_of_ne hq with hneg | hpos
    · rw [hx.sign.1 hneg, hy.sign.1 hneg]
    · rw [hx.sign.2 hpos, hy.sign.2 hpos]
  exact eq_of_magnitude hsign (Nat.le_antisymm (Nat.not_lt.mp (hy.magnitude_le hx hsign.symm))
    (Nat.not_lt.mp (hx.magnitude_le hy hsign)))

end Binary
end FourLane
