import FourLane.Proofs.NearestMagnitude
import Mathlib

/-!
# Results that need no rounding

A number of units that has no more binary digits than a significand, up to zeros behind them, is a
value of the format. An operation on finite numbers whose exact result is such a value gives it, or
an infinity if the format ends below it.
-/
namespace FourLane

namespace FloatFormat

theorem units_zero (f : FloatFormat) : f.units 0 = 0 := by
  simp [units]

/-- An infinity stands in for the power of two behind the finite values. -/
theorem units_infinity (f : FloatFormat) : f.units f.infinity = 2 ^ (f.scale + f.bias + 1) := by
  obtain ⟨e, he⟩ : ∃ e, f.expBits = e + 1 := ⟨f.expBits - 1, by have := f.expBits_pos; omega⟩
  have hbias : 2 ^ f.expBits - 2 = 2 * f.bias := by
    rw [bias, he, Nat.add_sub_cancel, Nat.pow_succ]
    omega
  have hpow : 2 ≤ 2 ^ f.expBits := Nat.le_self_pow f.expBits_pos.ne' 2
  have hsplit : f.infinity = 2 ^ f.fracBits + 2 * f.bias * 2 ^ f.fracBits := by
    rw [infinity, show 2 ^ f.expBits - 1 = 2 * f.bias + 1 by omega]
    ring
  have hfrac := f.fracBits_pos
  rw [hsplit, f.units_eq _ _ (.inr le_rfl) (by omega), ← Nat.pow_add, scale]
  congr 1
  omega

/-- A value of the format is its own rounding. -/
theorem roundsTo_units (f : FloatFormat) (m : Nat) {den : Nat} (hden : 0 < den) :
    f.RoundsTo (f.units m * den) den m := by
  have hdouble : 2 * (f.units m * den) = (f.units m + f.units m) * den := by ring
  have habove : (f.units m + f.units m) * den < f.halfway m * den :=
    Nat.mul_lt_mul_of_pos_right (Nat.add_lt_add_left (f.units_lt_succ m) _) hden
  have hbelow (k : Nat) (hk : m = k + 1) : f.halfway k * den < (f.units m + f.units m) * den := by
    subst hk
    exact Nat.mul_lt_mul_of_pos_right (Nat.add_lt_add_right (f.units_lt_succ k) _) hden
  rw [← hdouble] at habove
  refine ⟨fun k hk => ?_, habove.le, ?_⟩
  · rw [hdouble]
    exact (hbelow k hk).le
  · rintro (htie | ⟨k, hk, htie⟩)
    · omega
    · have := hbelow k hk
      omega

/-- Zeros behind a significand move it to another last place. -/
theorem exists_units (f : FloatFormat) (n i : Nat) (hn : n < 2 * 2 ^ f.fracBits) :
    ∃ m, f.units m = n * 2 ^ i := by
  induction i generalizing n with
  | zero => exact ⟨n + 0 * 2 ^ f.fracBits, f.units_eq n 0 (.inl rfl) hn.le⟩
  | succ i ih =>
    by_cases hlead : 2 ^ f.fracBits ≤ n
    · exact ⟨n + (i + 1) * 2 ^ f.fracBits, f.units_eq n (i + 1) (.inr hlead) hn.le⟩
    · obtain ⟨m, hm⟩ := ih (2 * n) (by omega)
      refine ⟨m, hm.trans ?_⟩
      ring

def Fits (f : FloatFormat) (n : Nat) : Prop := ∃ m, m < f.infinity ∧ f.units m = n

theorem fits_of_lt (f : FloatFormat) {n i : Nat} (hn : n < 2 * 2 ^ f.fracBits)
    (hlt : n * 2 ^ i < f.units f.infinity) : f.Fits (n * 2 ^ i) := by
  obtain ⟨m, hm⟩ := f.exists_units n i hn
  rw [← hm] at hlt ⊢
  exact ⟨m, f.units_strictMono.lt_iff_lt.mp hlt, rfl⟩

end FloatFormat

namespace Binary

variable {f g : FloatFormat} {x y : Binary f} {a b : Nat}

/-- A number that is not negative and has exactly so many units. -/
structure Holds (x : Binary f) (n : Nat) : Prop where
  nonnegative : x.negative = false
  finite : x.magnitude.val < f.infinity
  units : x.units = n

theorem Holds.isNaN (h : x.Holds a) : x.isNaN = false := by
  have := h.finite
  simp [Binary.isNaN]
  omega

theorem Holds.isInfinite (h : x.Holds a) : x.isInfinite = false := by
  simpa [Binary.isInfinite] using h.finite.ne

theorem Holds.isZero (h : x.Holds a) : x.isZero = decide (a = 0) := by
  have hzero : f.units x.magnitude.val = f.units 0 ↔ x.magnitude.val = 0 :=
    f.units_strictMono.injective.eq_iff
  rw [f.units_zero] at hzero
  rw [Binary.isZero, Bool.eq_iff_iff, beq_iff_eq, decide_eq_true_iff, ← h.units, Binary.units, hzero]

theorem holds_zero : (zero false : Binary f).Holds 0 where
  nonnegative := rfl
  finite := Nat.mul_pos (by have := Nat.le_self_pow f.expBits_pos.ne' 2; omega) (Nat.two_pow_pos _)
  units := f.units_zero

theorem holds_ofUnits {n den : Nat} (h : f.Fits n) (hden : 0 < den) :
    (ofUnits false (n * den) den : Binary f).Holds n := by
  obtain ⟨m, hfinite, rfl⟩ := h
  have hmagnitude : f.nearest (f.units m * den) den = m := by
    rw [FloatFormat.nearest_eq hden (f.roundsTo_units m hden)]
    omega
  refine ⟨rfl, ?_, ?_⟩
  · change f.nearest (f.units m * den) den < f.infinity
    rwa [hmagnitude]
  · change f.units (f.nearest (f.units m * den) den) = f.units m
    rw [hmagnitude]

theorem holds_ofUnits_zero {den : Nat} (hden : 0 < den) :
    (ofUnits false 0 den : Binary f).Holds 0 := by
  have h := holds_ofUnits ⟨0, holds_zero.finite, f.units_zero⟩ hden
  rwa [Nat.zero_mul] at h

theorem isNaN_infinite (negative : Bool) : (infinite negative : Binary f).isNaN = false := by
  simp [isNaN, infinite]

theorem isInfinite_infinite (negative : Bool) :
    (infinite negative : Binary f).isInfinite = true := by
  simp [isInfinite, infinite]

theorem convert_infinite (negative : Bool) :
    (infinite negative : Binary f).convert g = infinite negative := by
  simp only [convert, isNaN_infinite, isInfinite_infinite]
  rfl

/-- Only the ratio counts. -/
theorem ofUnits_congr {num den num' den' : Nat} (hden : 0 < den) (hden' : 0 < den')
    (h : num * den' = num' * den) (negative : Bool) :
    (ofUnits negative num den : Binary f) = ofUnits negative num' den' := by
  obtain ⟨m, hm⟩ := f.exists_roundsTo (num * den') (Nat.mul_pos hden hden')
  have hleft := hm.of_scaled hden'
  rw [h, Nat.mul_comm den] at hm
  have hright := hm.of_scaled hden
  apply ofUnits_eq (ofUnits negative num' den')
  change f.nearest num den = f.nearest num' den'
  rw [FloatFormat.nearest_eq hden hleft, FloatFormat.nearest_eq hden' hright]

theorem ofUnits_eq_infinite {num den : Nat} (hden : 0 < den)
    (h : f.units f.infinity * den ≤ num) : ofUnits false num den = (infinite false : Binary f) :=
  ofUnits_eq (infinite false) (FloatFormat.nearest_eq_infinity hden h)

theorem Holds.add (hx : x.Holds a) (hy : y.Holds b) (h : f.Fits (a + b)) :
    (x.add y).Holds (a + b) := by
  have hsum : x.signedUnits + y.signedUnits = ((a + b : Nat) : Int) := by
    simp [signedUnits, hx.nonnegative, hy.nonnegative, hx.units, hy.units]
  rw [Binary.add, hx.isNaN, hy.isNaN, hx.isInfinite, hy.isInfinite, hsum]
  by_cases hzero : a + b = 0
  · simpa [hzero, hx.nonnegative] using holds_zero
  · have hpos : decide (((a + b : Nat) : Int) < 0) = false :=
      decide_eq_false (Int.natCast_nonneg _).not_gt
    have hne : ((a + b : Nat) : Int) ≠ 0 := by exact_mod_cast hzero
    have hunits := holds_ofUnits h Nat.one_pos
    rw [Nat.mul_one] at hunits
    simp only [if_neg hne, hpos, Int.natAbs_natCast]
    exact hunits

theorem Holds.mul_eq (hx : x.Holds a) (hy : y.Holds b) :
    x.mul y = ofUnits false (a * b) (2 ^ f.scale) := by
  simp [Binary.mul, hx.isNaN, hy.isNaN, hx.isInfinite, hy.isInfinite, hx.nonnegative,
    hy.nonnegative, hx.units, hy.units]

theorem Holds.div_eq (hx : x.Holds a) (hy : y.Holds b) (hb : b ≠ 0) :
    x.div y = ofUnits false (a * 2 ^ f.scale) b := by
  simp [Binary.div, hx.isNaN, hy.isNaN, hx.isInfinite, hy.isInfinite, hx.nonnegative,
    hy.nonnegative, hx.units, hy.units, hy.isZero, hb]

theorem Holds.mul_infinite (hx : x.Holds a) :
    x.mul (infinite false) = if a = 0 then invalid else infinite false := by
  simp [Binary.mul, hx.isNaN, hx.isInfinite, hx.isZero, hx.nonnegative, isNaN_infinite,
    isInfinite_infinite, show (infinite false : Binary f).negative = false from rfl]

theorem Holds.div_infinite (hx : x.Holds a) : x.div (infinite false) = zero false := by
  simp [Binary.div, hx.isNaN, hx.isInfinite, hx.nonnegative, isNaN_infinite, isInfinite_infinite,
    show (infinite false : Binary f).negative = false from rfl]

theorem Holds.convert_eq (hx : x.Holds a) :
    x.convert g = ofUnits false (a * 2 ^ g.scale) (2 ^ f.scale) := by
  simp [Binary.convert, hx.isNaN, hx.isInfinite, hx.nonnegative, hx.units]

end Binary
end FourLane
