import FourLane.Proofs.ExactResults
import FourLane.Proofs.Meaning
import FourLane.Proofs.NearestValue
import Mathlib

/-!
# Operations round once

An operation on finite numbers gives the number that its exact result rounds to, and so do square
roots. The root of a number of units is found as a whole number with a remainder. Where there is a
remainder, the root rounds as the half behind the whole number does, since the points where two
numbers are equally near are whole numbers of units from twice a significand on, and a root is no
smaller.
-/
namespace FourLane

/-! ### Whole roots -/

theorem floorSqrt_spec (n : Nat) :
    floorSqrt n * floorSqrt n ≤ n ∧ n < (floorSqrt n + 1) * (floorSqrt n + 1) := by
  fun_induction floorSqrt n with
  | case1 => decide
  | case2 n hn r hle ih =>
    have hupper : (r + 1 + 1) * (r + 1 + 1) =
        4 * ((floorSqrt (n / 4) + 1) * (floorSqrt (n / 4) + 1)) := by
      simp only [r]
      ring
    exact ⟨hle, by omega⟩
  | case3 n hn r hgt ih =>
    have hlower : r * r = 4 * (floorSqrt (n / 4) * floorSqrt (n / 4)) := by
      simp only [r]
      ring
    exact ⟨by omega, by omega⟩

namespace Binary

variable {f : FloatFormat} {x y : Binary f}

/-! ### Exact results -/

structure IsFinite (x : Binary f) : Prop where
  number : x.isNaN = false
  bounded : x.isInfinite = false

theorem IsFinite.neg (h : x.IsFinite) : x.neg.IsFinite := ⟨h.number, h.bounded⟩

theorem value_eq_signed (x : Binary f) :
    x.value = signed x.negative (x.units / (2 ^ f.scale : Nat)) := by
  cases hsign : x.negative with
  | false => exact value_of_nonnegative hsign
  | true => exact value_of_negative hsign

theorem isNearest_ofUnits_signed (negative : Bool) (num : Nat) {den : Nat} (hden : 0 < den) :
    (ofUnits negative num den : Binary f).IsNearest
      (signed negative ((num : ℚ) / den / (2 ^ f.scale : Nat))) := by
  cases negative with
  | false => exact isNearest_ofUnits num hden
  | true => exact (isNearest_ofUnits num hden).neg

theorem isNearest_zero (negative : Bool) : (zero negative : Binary f).IsNearest 0 := by
  have hzero : (ofUnits negative 0 1 : Binary f) = zero negative :=
    ofUnits_eq (zero negative) (by
      have hunits := f.roundsTo_units 0 Nat.one_pos
      rw [f.units_zero, Nat.zero_mul] at hunits
      rw [FloatFormat.nearest_eq Nat.one_pos hunits]
      exact Nat.zero_min _)
  have h := isNearest_ofUnits_signed (f := f) negative 0 Nat.one_pos
  rw [hzero] at h
  cases negative <;> simpa [signed] using h

theorem isNearest_add (hx : x.IsFinite) (hy : y.IsFinite) :
    (x.add y).IsNearest (x.value + y.value) := by
  have hvalue : x.value + y.value =
      ((x.signedUnits + y.signedUnits : Int) : ℚ) / (2 ^ f.scale : Nat) := by
    rw [value, value, ← add_div, Int.cast_add]
  rw [add, hx.number, hy.number, hx.bounded, hy.bounded, hvalue]
  generalize x.signedUnits + y.signedUnits = sum
  by_cases hzero : sum = 0
  · simpa [hzero] using isNearest_zero (f := f) (x.negative && y.negative)
  · have hsigned : signed (decide (sum < 0)) ((sum.natAbs : ℚ) / (1 : Nat) / (2 ^ f.scale : Nat)) =
        (sum : ℚ) / (2 ^ f.scale : Nat) := by
      rw [signed, Nat.cast_one, div_one, Nat.cast_natAbs]
      by_cases hneg : sum < 0
      · rw [if_pos (decide_eq_true hneg), abs_of_neg hneg, Int.cast_neg, neg_div, neg_neg]
      · rw [if_neg (by simpa using hneg), abs_of_nonneg (not_lt.mp hneg)]
    have h := isNearest_ofUnits_signed (f := f) (decide (sum < 0)) sum.natAbs Nat.one_pos
    rw [hsigned] at h
    simpa [hzero] using h

theorem isNearest_sub (hx : x.IsFinite) (hy : y.IsFinite) :
    (x.sub y).IsNearest (x.value - y.value) := by
  rw [sub_eq_add_neg, ← value_neg]
  exact isNearest_add hx hy.neg

theorem isNearest_mul (hx : x.IsFinite) (hy : y.IsFinite) :
    (x.mul y).IsNearest (x.value * y.value) := by
  have hvalue : signed (x.negative != y.negative)
      (((x.units * y.units : Nat) : ℚ) / (2 ^ f.scale : Nat) / (2 ^ f.scale : Nat)) =
        x.value * y.value := by
    rw [value_eq_signed x, value_eq_signed y, Nat.cast_mul]
    cases x.negative <;> cases y.negative <;>
      simp only [signed, bne_self_eq_false, Bool.false_bne, Bool.true_bne, Bool.not_false,
        Bool.false_eq_true, if_true, if_false] <;> ring
  rw [mul, hx.number, hy.number, hx.bounded, hy.bounded, ← hvalue]
  exact isNearest_ofUnits_signed _ _ (Nat.two_pow_pos _)

theorem units_eq_zero_iff (x : Binary f) : x.units = 0 ↔ x.isZero = true := by
  have hinj : f.units x.magnitude.val = f.units 0 ↔ x.magnitude.val = 0 :=
    f.units_strictMono.injective.eq_iff
  rw [f.units_zero] at hinj
  rw [units, hinj, isZero, beq_iff_eq]

theorem isNearest_div (hx : x.IsFinite) (hy : y.IsFinite) (hzero : y.isZero = false) :
    (x.div y).IsNearest (x.value / y.value) := by
  have hunits : 0 < y.units := Nat.pos_of_ne_zero fun h => by
    rw [(units_eq_zero_iff y).mp h] at hzero
    cases hzero
  have hscale : ((2 ^ f.scale : Nat) : ℚ) ≠ 0 := Nat.cast_ne_zero.mpr (Nat.two_pow_pos _).ne'
  have hvalue : signed (x.negative != y.negative)
      (((x.units * 2 ^ f.scale : Nat) : ℚ) / y.units / (2 ^ f.scale : Nat)) =
        x.value / y.value := by
    rw [value_eq_signed x, value_eq_signed y, Nat.cast_mul, mul_div_right_comm,
      mul_div_cancel_right₀ _ hscale, ← div_div_div_cancel_right₀ hscale (x.units : ℚ)]
    cases x.negative <;> cases y.negative <;> simp [signed, neg_div, div_neg]
  rw [div, hx.number, hy.number, hx.bounded, hy.bounded, hzero, ← hvalue]
  exact isNearest_ofUnits_signed _ _ hunits

end Binary

def Arithmetic.exact : Arithmetic → ℚ → ℚ → ℚ
  | .add => (· + ·)
  | .sub => (· - ·)
  | .mul => (· * ·)
  | .div => (· / ·)

/-- Arithmetic on finite numbers is exact arithmetic, rounded once. -/
theorem Arithmetic.isNearest_apply (op : Arithmetic) {x y : Lane} (hx : x.IsFinite)
    (hy : y.IsFinite) (hzero : op = .div → y.isZero = false) :
    (op.apply x y).IsNearest (op.exact x.value y.value) := by
  cases op with
  | add => exact Binary.isNearest_add hx hy
  | sub => exact Binary.isNearest_sub hx hy
  | mul => exact Binary.isNearest_mul hx hy
  | div => exact Binary.isNearest_div hx hy (hzero rfl)

/-- Arithmetic on many vectors goes from the left. In every lane each operation is rounded before
the next one is made. -/
theorem Arithmetic.isNearest_foldl (op : Arithmetic) (v : Quad) (vs : List Quad) (i : Fin 4)
    (k : Nat) (hk : k < vs.length) :
    let left (n : Nat) : Lane := ((vs.take n).foldl (Quad.zipWith op.apply) v).get i
    (left k).IsFinite → (vs[k].get i).IsFinite → (op = .div → (vs[k].get i).isZero = false) →
      (left (k + 1)).IsNearest (op.exact (left k).value (vs[k].get i).value) := by
  intro left hleft hright hzero
  have hstep : left (k + 1) = op.apply (left k) (vs[k].get i) := by
    simp only [left]
    rw [List.take_succ_eq_append_getElem hk, List.foldl_concat, Quad.get_zipWith]
  rw [hstep]
  exact op.isNearest_apply hleft hright hzero

/-! ### Roots -/

namespace FloatFormat

variable {f : FloatFormat} {root : Nat}

theorem units_even {m : Nat} (h : 2 * 2 ^ f.fracBits ≤ m) : f.units m % 2 = 0 := by
  obtain ⟨n, k, rfl, hk, hn⟩ := f.exists_split m
  cases k with
  | zero => omega
  | succ k =>
    rw [f.units_eq n (k + 1) hk hn.le, Nat.pow_succ, ← Nat.mul_assoc]
    exact Nat.mul_mod_left _ 2

theorem units_le_root (hroot : 2 * 2 ^ f.fracBits ≤ root) {m : Nat} (hm : m ≤ 2 * 2 ^ f.fracBits) :
    f.units m ≤ root := by
  have hunits := f.units_eq (2 * 2 ^ f.fracBits) 0 (.inl rfl) le_rfl
  rw [Nat.zero_mul, Nat.add_zero, Nat.pow_zero, Nat.mul_one] at hunits
  exact (f.units_strictMono.monotone hm).trans (hunits.trans_le hroot)

theorem halfway_le_or_even (hroot : 2 * 2 ^ f.fracBits ≤ root) (m : Nat) :
    f.halfway m ≤ 2 * root ∨ f.halfway m % 2 = 0 := by
  rw [halfway]
  rcases Nat.lt_or_ge m (2 * 2 ^ f.fracBits) with hlt | hge
  · have hfirst := units_le_root hroot hlt.le
    have hsecond := units_le_root hroot (show m + 1 ≤ _ from hlt)
    exact .inl (by omega)
  · have hfirst := units_even hge
    have hsecond := units_even (show 2 * 2 ^ f.fracBits ≤ m + 1 by omega)
    exact .inr (by omega)

/-- No halfway point lies strictly between a large whole number and the next. -/
theorem RoundsTo.halfway_root {m : Nat} (hm : f.RoundsTo (2 * root + 1) 2 m)
    (hroot : 2 * 2 ^ f.fracBits ≤ root) :
    (∀ n < m, f.halfway n ≤ 2 * root) ∧ 2 * root + 2 ≤ f.halfway m := by
  constructor
  · intro n hn
    obtain ⟨k, rfl⟩ : ∃ k, m = k + 1 := ⟨m - 1, by omega⟩
    have hlower := hm.lower k rfl
    have hmono : f.halfway n ≤ f.halfway k := f.halfway_strictMono.monotone (by omega)
    rcases halfway_le_or_even hroot n with hle | heven <;> omega
  · have hupper := hm.upper
    rcases halfway_le_or_even hroot m with hle | heven <;> omega

end FloatFormat

namespace Binary

variable {f : FloatFormat} {x : Binary f} {root : Nat} {r : ℝ}

/-- The number that a real rounds to. -/
structure IsNearestReal (x : Binary f) (r : ℝ) : Prop where
  number : x.isNaN = false
  sign : (r < 0 → x.negative = true) ∧ (0 < r → x.negative = false)
  nearest : ∀ y : Binary f, y.isNaN = false → |r - x.value| ≤ |r - y.value|
  even : ∀ y : Binary f, y.isNaN = false → y.value ≠ x.value → |r - y.value| = |r - x.value| →
    x.magnitude.val % 2 = 0

theorem IsNearest.real {q : ℚ} (h : x.IsNearest q) : x.IsNearestReal q where
  number := h.number
  sign := by exact_mod_cast h.sign
  nearest := by exact_mod_cast h.nearest
  even := by exact_mod_cast h.even

theorem cast_value (x : Binary f) : (x.value : ℝ) = x.signedUnits / (2 ^ f.scale : Nat) := by
  rw [value]
  push_cast
  rfl

theorem abs_cast_value (x : Binary f) : |(x.value : ℝ)| = x.units / (2 ^ f.scale : Nat) := by
  have hscale : (0 : ℝ) < (2 ^ f.scale : Nat) := Nat.cast_pos.mpr (Nat.two_pow_pos _)
  rw [cast_value, abs_div, abs_of_pos hscale, signedUnits]
  split <;> simp

/-- The units of two numbers decide which is nearer, as long as neither the real nor the nearer
number is negative. -/
theorem abs_sub_value_le (hr : 0 ≤ r) (hsign : x.negative = false) {y : Binary f}
    (h : |r - x.units| ≤ |r - y.units|) :
    |r / (2 ^ f.scale : Nat) - x.value| ≤ |r / (2 ^ f.scale : Nat) - y.value| := by
  have hscale : (0 : ℝ) < (2 ^ f.scale : Nat) := Nat.cast_pos.mpr (Nat.two_pow_pos _)
  have hdist (z : Binary f) : |r / (2 ^ f.scale : Nat) - (|(z.value : ℝ)|)| =
      |r - z.units| / (2 ^ f.scale : Nat) := by
    rw [abs_cast_value, ← sub_div, abs_div, abs_of_pos hscale]
  have hsame : (x.value : ℝ) = |(x.value : ℝ)| := by
    rw [abs_cast_value, cast_value, signedUnits, hsign]
    simp
  calc |r / (2 ^ f.scale : Nat) - x.value|
      = |r - x.units| / (2 ^ f.scale : Nat) := by rw [hsame, hdist]
    _ ≤ |r - y.units| / (2 ^ f.scale : Nat) := div_le_div_of_nonneg_right h hscale.le
    _ = |(|r / (2 ^ f.scale : Nat)|) - (|(y.value : ℝ)|)| := by
      rw [abs_of_nonneg (div_nonneg hr hscale.le), hdist]
    _ ≤ |r / (2 ^ f.scale : Nat) - y.value| := abs_abs_sub_abs_le _ _

/-- A real as far from two numbers is a whole number of halves. -/
theorem exists_of_tie {y : Binary f} (hne : y.value ≠ x.value)
    (h : |r / (2 ^ f.scale : Nat) - y.value| = |r / (2 ^ f.scale : Nat) - x.value|) :
    ∃ sum : Int, (sum : ℝ) = 2 * r := by
  have hscale : ((2 ^ f.scale : Nat) : ℝ) ≠ 0 := Nat.cast_ne_zero.mpr (Nat.two_pow_pos _).ne'
  have hmid := midpoint_of_abs_sub_eq (Rat.cast_injective.ne hne) h
  rw [cast_value, cast_value, ← add_div, mul_div_assoc', div_left_inj' hscale] at hmid
  exact ⟨y.signedUnits + x.signedUnits, by rw [Int.cast_add, hmid]⟩

/-- Between a large whole number of units and the next, every real but the one halfway rounds as
that one does. -/
theorem isNearestReal_ofUnits_half (hroot : 2 * 2 ^ f.fracBits ≤ root) (hlower : root < r)
    (hupper : r < root + 1) (hhalf : 2 * r ≠ 2 * root + 1) :
    (ofUnits false (2 * root + 1) 2 : Binary f).IsNearestReal (r / (2 ^ f.scale : Nat)) := by
  obtain ⟨m, hm⟩ := f.exists_roundsTo (2 * root + 1) Nat.two_pos
  obtain ⟨hbelow, habove⟩ := hm.halfway_root hroot
  have hpos : 0 < r := (Nat.cast_nonneg root).trans_lt hlower
  have hmagnitude : (ofUnits false (2 * root + 1) 2 : Binary f).magnitude.val = min m f.infinity :=
    FloatFormat.nearest_eq Nat.two_pos hm
  refine ⟨?_, ⟨fun hneg => absurd hneg (div_nonneg hpos.le (Nat.cast_nonneg _)).not_gt,
    fun _ => rfl⟩, ?_, ?_⟩
  · rw [isNaN_eq_false_iff, hmagnitude]
    exact Nat.min_le_right _ _
  · intro y hy
    have hnear := f.abs_sub_units_le_of_halfway (q := r) (m := m)
      (fun n hn => (by exact_mod_cast hbelow n hn : _ ≤ (2 * root : ℝ)).trans (by linarith))
      ((by linarith : 2 * r ≤ 2 * root + 2).trans (by exact_mod_cast habove))
      ((isNaN_eq_false_iff y).mp hy)
    rw [← hmagnitude] at hnear
    exact abs_sub_value_le hpos.le rfl hnear
  · intro y hy hne htie
    obtain ⟨sum, hsum⟩ := exists_of_tie hne htie
    have hgt : (2 * root : ℝ) < sum := by linarith
    have hlt : (sum : ℝ) < 2 * root + 2 := by linarith
    obtain rfl : sum = 2 * (root : Int) + 1 := le_antisymm
      (Int.lt_add_one_iff.mp (by exact_mod_cast hlt)) (Int.add_one_le_of_lt (by exact_mod_cast hgt))
    push_cast at hsum
    exact absurd hsum.symm hhalf

theorem value_eq_zero (h : x.isZero = true) : x.value = 0 := by
  rw [value_eq_signed, (units_eq_zero_iff x).mpr h]
  cases x.negative <;> simp [signed]

theorem isNearest_of_isZero (h : x.isZero = true) : x.IsNearest 0 := by
  have hzero : x = zero x.negative := eq_of_magnitude rfl (beq_iff_eq.mp h)
  rw [hzero]
  exact isNearest_zero _

theorem negative_eq_false (hvalue : 0 ≤ x.value) (hunits : 0 < x.units) : x.negative = false := by
  by_contra hneg
  rw [value_of_negative (by simpa using hneg)] at hvalue
  have hpos : (0 : ℚ) < (x.units : ℚ) / (2 ^ f.scale : Nat) :=
    div_pos (Nat.cast_pos.mpr hunits) (Nat.cast_pos.mpr (Nat.two_pow_pos _))
  linarith

/-- The root of a value is the root of a whole number of units. -/
theorem sqrt_value (hsign : x.negative = false) :
    √(x.value : ℝ) = √((x.units * 2 ^ f.scale : Nat) : ℝ) / (2 ^ f.scale : Nat) := by
  have hscale : (0 : ℝ) < (2 ^ f.scale : Nat) := Nat.cast_pos.mpr (Nat.two_pow_pos _)
  have hratio : (x.value : ℝ) =
      ((x.units * 2 ^ f.scale : Nat) : ℝ) / ((2 ^ f.scale : Nat) : ℝ) ^ 2 := by
    rw [value_of_nonnegative hsign, Nat.cast_mul, sq, mul_div_mul_right _ _ hscale.ne']
    push_cast
    rfl
  rw [hratio, Real.sqrt_div' _ (sq_nonneg _), Real.sqrt_sq hscale.le]

theorem two_mul_sqrt_ne (square root : Nat) : 2 * √(square : ℝ) ≠ 2 * root + 1 := by
  intro hhalf
  have hreal : √(square : ℝ) * √(square : ℝ) = square := Real.mul_self_sqrt (Nat.cast_nonneg _)
  have hodd : (4 * square : ℝ) = (2 * root + 1) * (2 * root + 1) := by
    rw [← hhalf]
    linear_combination (-4) * hreal
  have hnat : 4 * square = (2 * root + 1) * (2 * root + 1) := by exact_mod_cast hodd
  have hexpand : (2 * root + 1) * (2 * root + 1) = 4 * (root * root + root) + 1 := by ring
  omega

/-- In formats with enough exponents, a root in units has more digits than a significand. -/
theorem significand_le_root (hf : 2 * (f.fracBits + 1) ≤ f.scale) {square : Nat}
    (hlarge : 2 ^ f.scale ≤ square) (hlt : square < (root + 1) * (root + 1)) :
    2 * 2 ^ f.fracBits ≤ root := by
  by_contra hsmall
  have hbound : (root + 1) * (root + 1) ≤ 2 ^ (f.fracBits + 1) * 2 ^ (f.fracBits + 1) :=
    Nat.mul_le_mul (by rw [Nat.pow_succ]; omega) (by rw [Nat.pow_succ]; omega)
  have hpow : 2 ^ (f.fracBits + 1) * 2 ^ (f.fracBits + 1) ≤ 2 ^ f.scale := by
    rw [← Nat.pow_add]
    exact Nat.pow_le_pow_right Nat.two_pos (by omega)
  omega

/-- The square root is the exact root, rounded once. -/
theorem isNearestReal_sqrt (hf : 2 * (f.fracBits + 1) ≤ f.scale) (hx : x.IsFinite)
    (hvalue : 0 ≤ x.value) : x.sqrt.IsNearestReal √x.value := by
  by_cases hzero : x.isZero = true
  · rw [sqrt, hzero, Bool.or_true, if_pos rfl, value_eq_zero hzero, Rat.cast_zero, Real.sqrt_zero]
    exact_mod_cast (isNearest_of_isZero hzero).real
  have hunits : 0 < x.units := Nat.pos_of_ne_zero (mt (units_eq_zero_iff x).mp hzero)
  have hsign := negative_eq_false hvalue hunits
  have hlarge : 2 ^ f.scale ≤ x.units * 2 ^ f.scale := Nat.le_mul_of_pos_left _ hunits
  obtain ⟨hle, hlt⟩ := floorSqrt_spec (x.units * 2 ^ f.scale)
  rw [sqrt, hx.number, hx.bounded, hsign, sqrt_value hsign]
  simp only [hzero, Bool.or_self, Bool.false_eq_true, if_false]
  generalize x.units * 2 ^ f.scale = square at hle hlt hlarge ⊢
  generalize floorSqrt square = root at hle hlt ⊢
  by_cases hsquare : root * root = square
  · rw [if_pos hsquare, ← hsquare, Nat.cast_mul, Real.sqrt_mul_self (Nat.cast_nonneg root)]
    have h := (isNearest_ofUnits (f := f) root Nat.one_pos).real
    rwa [Nat.cast_one, div_one, Rat.cast_div, Rat.cast_natCast, Rat.cast_natCast] at h
  · rw [if_neg hsquare]
    apply isNearestReal_ofUnits_half (significand_le_root hf hlarge hlt)
    · apply Real.lt_sqrt_of_sq_lt
      rw [sq]
      exact_mod_cast lt_of_le_of_ne hle hsquare
    · rw [Real.sqrt_lt' (by positivity), sq]
      exact_mod_cast hlt
    · exact two_mul_sqrt_ne square root

end Binary

theorem Lane.isNearestReal_sqrt {x : Lane} (hx : x.IsFinite) (hvalue : 0 ≤ x.value) :
    x.sqrt.IsNearestReal √x.value :=
  Binary.isNearestReal_sqrt (by decide) hx hvalue

end FourLane
