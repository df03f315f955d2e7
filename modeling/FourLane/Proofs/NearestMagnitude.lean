import FourLane.Number.Binary
import Mathlib.Order.Monotone.Basic
import Mathlib.Tactic.Common
import Mathlib.Tactic.Ring

/-!
# Rounding to the nearest magnitude

A magnitude is the rounded value of a ratio if the ratio lies between the points halfway to its two
neighbours, where only even magnitudes take the halfway points themselves. Every ratio has exactly
one such magnitude and `nearest` computes it, for all formats, subnormal and overflowing values
included.
-/
namespace FourLane

theorem nearestQuotient_spec (a b : Nat) (hb : 0 < b) :
    2 * (nearestQuotient a b * b) ≤ 2 * a + b ∧ 2 * a ≤ 2 * (nearestQuotient a b * b) + b ∧
      (2 * (nearestQuotient a b * b) = 2 * a + b ∨ 2 * a = 2 * (nearestQuotient a b * b) + b →
        nearestQuotient a b % 2 = 0) := by
  have hdiv : a / b * b + a % b = a := Nat.div_add_mod' a b
  have hmod : a % b < b := Nat.mod_lt a hb
  have hsucc : (a / b + 1) * b = a / b * b + b := Nat.succ_mul _ _
  simp only [nearestQuotient]
  split_ifs with hlow hhigh
  · omega
  · rw [hsucc]
    omega
  · -- A tie: the quotient itself is even, or the next one is.
    rcases Nat.mod_two_eq_zero_or_one (a / b) with heven | hodd
    · rw [heven, Nat.add_zero]
      omega
    · rw [hodd, hsucc]
      omega

theorem nearestQuotient_le {a b c : Nat} (hb : 0 < b) (h : a ≤ c * b) : nearestQuotient a b ≤ c := by
  obtain ⟨hlow, -, -⟩ := nearestQuotient_spec a b hb
  by_contra hgt
  have hmul : (c + 1) * b ≤ nearestQuotient a b * b := Nat.mul_le_mul_right b (by omega)
  rw [Nat.succ_mul] at hmul
  omega

theorem le_nearestQuotient {a b c : Nat} (hb : 0 < b) (h : c * b ≤ a) : c ≤ nearestQuotient a b := by
  obtain ⟨-, hhigh, -⟩ := nearestQuotient_spec a b hb
  by_contra hlt
  have hmul : (nearestQuotient a b + 1) * b ≤ c * b := Nat.mul_le_mul_right b (by omega)
  rw [Nat.succ_mul] at hmul
  omega

namespace FloatFormat

variable (f : FloatFormat)

theorem units_eq (n k : Nat) (hk : k = 0 ∨ 2 ^ f.fracBits ≤ n) (hn : n ≤ 2 * 2 ^ f.fracBits) :
    f.units (n + k * 2 ^ f.fracBits) = n * 2 ^ k := by
  have hpos : 0 < 2 ^ f.fracBits := Nat.two_pow_pos _
  have hdiv : (n + k * 2 ^ f.fracBits) / 2 ^ f.fracBits = n / 2 ^ f.fracBits + k :=
    Nat.add_mul_div_right n k hpos
  have hmod : (n + k * 2 ^ f.fracBits) % 2 ^ f.fracBits = n % 2 ^ f.fracBits :=
    Nat.add_mul_mod_self_right n k _
  simp only [units, hdiv, hmod]
  rcases Nat.lt_or_ge n (2 ^ f.fracBits) with hlt | hge
  · obtain rfl : k = 0 := hk.resolve_right (by omega)
    rw [Nat.div_eq_of_lt hlt, Nat.mod_eq_of_lt hlt]
    simp
  · rcases Nat.lt_or_ge n (2 * 2 ^ f.fracBits) with hlt' | hge'
    · have hone : n / 2 ^ f.fracBits = 1 := Nat.div_eq_of_lt_le (by omega) (by omega)
      have hrest : n % 2 ^ f.fracBits = n - 2 ^ f.fracBits := by
        rw [Nat.mod_eq_sub_mod hge, Nat.mod_eq_of_lt (by omega)]
      rw [hone, hrest, if_neg (by omega), Nat.add_sub_cancel_left]
      congr 1
      omega
    · obtain rfl : n = 2 * 2 ^ f.fracBits := by omega
      rw [Nat.mul_div_cancel _ hpos, Nat.mul_mod_left, if_neg (by omega), Nat.add_zero]
      have hexp : 2 + k - 1 = k + 1 := by omega
      rw [hexp, Nat.pow_succ]
      ring

/-- Every magnitude is a significand in some last place. -/
theorem exists_split (m : Nat) :
    ∃ n k, m = n + k * 2 ^ f.fracBits ∧ (k = 0 ∨ 2 ^ f.fracBits ≤ n) ∧
      n < 2 * 2 ^ f.fracBits := by
  have hpos : 0 < 2 ^ f.fracBits := Nat.two_pow_pos _
  have hdiv : m / 2 ^ f.fracBits * 2 ^ f.fracBits + m % 2 ^ f.fracBits = m := Nat.div_add_mod' m _
  have hmod : m % 2 ^ f.fracBits < 2 ^ f.fracBits := Nat.mod_lt m hpos
  cases hk : m / 2 ^ f.fracBits with
  | zero =>
    refine ⟨m, 0, by simp, .inl rfl, ?_⟩
    rw [hk] at hdiv
    omega
  | succ k =>
    rw [hk, Nat.succ_mul] at hdiv
    exact ⟨2 ^ f.fracBits + m % 2 ^ f.fracBits, k, by omega, .inr (by omega), by omega⟩

theorem units_lt_succ (m : Nat) : f.units m < f.units (m + 1) := by
  obtain ⟨n, k, rfl, hk, hn⟩ := f.exists_split m
  have hnext : n + k * 2 ^ f.fracBits + 1 = (n + 1) + k * 2 ^ f.fracBits := by omega
  rw [hnext, f.units_eq n k hk (by omega), f.units_eq (n + 1) k (by omega) hn, Nat.succ_mul]
  have := Nat.two_pow_pos k
  omega

theorem units_strictMono : StrictMono f.units := strictMono_nat_of_lt_succ f.units_lt_succ

/-- Twice the point halfway between a magnitude and the next, in units. -/
def halfway (m : Nat) : Nat := f.units m + f.units (m + 1)

theorem halfway_strictMono : StrictMono f.halfway := fun _ _ h =>
  Nat.add_lt_add (f.units_strictMono h) (f.units_strictMono (Nat.succ_lt_succ h))

theorem halfway_eq (n k : Nat) (hk : k = 0 ∨ 2 ^ f.fracBits ≤ n) (hn : n < 2 * 2 ^ f.fracBits) :
    f.halfway (n + k * 2 ^ f.fracBits) = (2 * n + 1) * 2 ^ k := by
  have hnext : n + k * 2 ^ f.fracBits + 1 = (n + 1) + k * 2 ^ f.fracBits := by omega
  rw [halfway, hnext, f.units_eq n k hk (by omega), f.units_eq (n + 1) k (by omega) hn]
  ring

theorem le_halfway (n k : Nat) (hk : k = 0 ∨ 2 ^ f.fracBits ≤ n) (hn : n ≤ 2 * 2 ^ f.fracBits) :
    (2 * n + 1) * 2 ^ k ≤ f.halfway (n + k * 2 ^ f.fracBits) := by
  rcases Nat.lt_or_eq_of_le hn with hlt | rfl
  · exact (f.halfway_eq n k hk hlt).ge
  · have hsame : 2 * 2 ^ f.fracBits + k * 2 ^ f.fracBits =
        2 ^ f.fracBits + (k + 1) * 2 ^ f.fracBits := by ring
    have hpos : 0 < 2 ^ f.fracBits := Nat.two_pow_pos _
    have hdouble : (2 * 2 ^ f.fracBits + 1) * 2 ^ (k + 1) =
        (2 * (2 * 2 ^ f.fracBits) + 2) * 2 ^ k := by ring
    rw [hsame, f.halfway_eq _ (k + 1) (.inr (Nat.le_refl _)) (by omega), hdouble]
    exact Nat.mul_le_mul_right _ (by omega)

/-- The ratio `num / den` rounds to the magnitude, if exponents have no upper bound: it lies between
the halfway points on either side, which belong to the even one of two neighbours. -/
structure RoundsTo (num den m : Nat) : Prop where
  lower : ∀ k, m = k + 1 → f.halfway k * den ≤ 2 * num
  upper : 2 * num ≤ f.halfway m * den
  even : (2 * num = f.halfway m * den ∨ ∃ k, m = k + 1 ∧ f.halfway k * den = 2 * num) → m % 2 = 0

variable {f} {num den : Nat}

theorem RoundsTo.not_lt {m m' : Nat} (hden : 0 < den) (h : f.RoundsTo num den m)
    (h' : f.RoundsTo num den m') : ¬ m < m' := by
  intro hlt
  obtain ⟨k, rfl⟩ : ∃ k, m' = k + 1 := ⟨m' - 1, by omega⟩
  have hlower := h'.lower k rfl
  have hupper := h.upper
  have hmono : f.halfway m * den ≤ f.halfway k * den :=
    Nat.mul_le_mul_right den (f.halfway_strictMono.monotone (by omega))
  -- Both points are the ratio itself, so they are one point, between neighbours.
  have heq : f.halfway m * den = f.halfway k * den := by omega
  obtain rfl := f.halfway_strictMono.injective (Nat.eq_of_mul_eq_mul_right hden heq)
  have heven := h.even (.inl (by omega))
  have heven' := h'.even (.inr ⟨m, rfl, by omega⟩)
  omega

theorem RoundsTo.unique {m m' : Nat} (hden : 0 < den) (h : f.RoundsTo num den m)
    (h' : f.RoundsTo num den m') : m = m' :=
  Nat.le_antisymm (Nat.not_lt.mp (h'.not_lt hden h)) (Nat.not_lt.mp (h.not_lt hden h'))

/-- The last place in which a ratio is rounded leaves a quotient that fits the fraction with its
leading bit, and has that bit unless the ratio is subnormal. -/
theorem lastPlace_spec (f : FloatFormat) (num : Nat) (hden : 0 < den) (k : Nat)
    (hk : k = Nat.log2 (num / den) - f.fracBits) :
    (k = 0 ∨ 2 ^ f.fracBits * (den * 2 ^ k) ≤ num) ∧
      num ≤ 2 * 2 ^ f.fracBits * (den * 2 ^ k) := by
  have hdiv : num / den * den + num % den = num := Nat.div_add_mod' num den
  have hmod : num % den < den := Nat.mod_lt num hden
  constructor
  · by_cases hzero : k = 0
    · exact .inl hzero
    · have hquot : num / den ≠ 0 := by
        intro h
        rw [h, Nat.log2_zero] at hk
        omega
      have hlog : Nat.log2 (num / den) = f.fracBits + k := by omega
      have hle := Nat.mul_le_mul_right den (Nat.log2_self_le hquot)
      rw [hlog, Nat.pow_add, Nat.mul_assoc, Nat.mul_comm (2 ^ k)] at hle
      exact .inr (by omega)
  · have hlt : num / den < 2 ^ (f.fracBits + 1 + k) :=
      Nat.lt_of_lt_of_le Nat.lt_log2_self (Nat.pow_le_pow_right (by decide) (by omega))
    have hle : (num / den + 1) * den ≤ 2 ^ (f.fracBits + 1 + k) * den := Nat.mul_le_mul_right den hlt
    rw [Nat.succ_mul, Nat.pow_add, Nat.pow_succ, Nat.mul_assoc, Nat.mul_comm (2 ^ k),
      Nat.mul_comm _ 2] at hle
    omega

theorem halfway_mul_den (c k den : Nat) : (2 * c + 1) * 2 ^ k * den =
    2 * (c * (den * 2 ^ k)) + den * 2 ^ k := by
  ring

/-- The halfway point below a quotient that was rounded to at most half a step above the ratio. -/
theorem halfway_below {n k : Nat} (hden : 0 < den)
    (hk : k = 0 ∨ 2 ^ f.fracBits * (den * 2 ^ k) ≤ num) (hlead : k = 0 ∨ 2 ^ f.fracBits ≤ n + 1)
    (hn : n + 1 ≤ 2 * 2 ^ f.fracBits)
    (hnum : 2 * ((n + 1) * (den * 2 ^ k)) ≤ 2 * num + den * 2 ^ k) :
    f.halfway (n + k * 2 ^ f.fracBits) * den ≤ 2 * num ∧
      (f.halfway (n + k * 2 ^ f.fracBits) * den = 2 * num →
        2 * ((n + 1) * (den * 2 ^ k)) = 2 * num + den * 2 ^ k) := by
  by_cases hsame : k = 0 ∨ 2 ^ f.fracBits ≤ n
  · have hstep : (n + 1) * (den * 2 ^ k) = n * (den * 2 ^ k) + den * 2 ^ k := Nat.succ_mul _ _
    rw [f.halfway_eq n k hsame (by omega), halfway_mul_den]
    omega
  · -- At a power of two the step below is smaller, but the ratio is not below the power.
    have hpower : n + 1 = 2 ^ f.fracBits := by omega
    have hnormal := hk.resolve_left (by omega)
    have hnext : f.units (n + k * 2 ^ f.fracBits + 1) = (n + 1) * 2 ^ k := by
      rw [← f.units_eq (n + 1) k hlead hn]
      congr 1
      omega
    have hlt : f.halfway (n + k * 2 ^ f.fracBits) < 2 * ((n + 1) * 2 ^ k) := by
      have := f.units_lt_succ (n + k * 2 ^ f.fracBits)
      rw [halfway]
      omega
    have hmul : f.halfway (n + k * 2 ^ f.fracBits) * den < 2 * ((n + 1) * 2 ^ k) * den :=
      Nat.mul_lt_mul_of_pos_right hlt hden
    have hscale : 2 * ((n + 1) * 2 ^ k) * den = 2 * ((n + 1) * (den * 2 ^ k)) := by ring
    rw [hscale, hpower] at hmul
    omega

/-- Rounding the quotient in its last place rounds the ratio. -/
theorem roundsTo_significand {n k : Nat} (hden : 0 < den)
    (hk : k = 0 ∨ 2 ^ f.fracBits * (den * 2 ^ k) ≤ num)
    (hnum : num ≤ 2 * 2 ^ f.fracBits * (den * 2 ^ k))
    (hn : n = nearestQuotient num (den * 2 ^ k)) :
    f.RoundsTo num den (n + k * 2 ^ f.fracBits) := by
  have hpos : 0 < den * 2 ^ k := Nat.mul_pos hden (Nat.two_pow_pos k)
  obtain ⟨hlow, hhigh, heven⟩ := nearestQuotient_spec num (den * 2 ^ k) hpos
  have hle : n ≤ 2 * 2 ^ f.fracBits := by
    rw [hn]
    exact nearestQuotient_le hpos hnum
  have hlead : k = 0 ∨ 2 ^ f.fracBits ≤ n := by
    rw [hn]
    exact hk.imp_right (le_nearestQuotient hpos)
  rw [← hn] at hlow hhigh heven
  have hparity : n % 2 = 0 → (n + k * 2 ^ f.fracBits) % 2 = 0 := by
    intro h
    obtain ⟨p, hp⟩ : ∃ p, f.fracBits = p + 1 := ⟨f.fracBits - 1, by have := f.fracBits_pos; omega⟩
    rw [hp, Nat.pow_succ, ← Nat.mul_assoc]
    omega
  have habove : (2 * n + 1) * 2 ^ k * den ≤ f.halfway (n + k * 2 ^ f.fracBits) * den :=
    Nat.mul_le_mul_right den (f.le_halfway n k hlead hle)
  rw [halfway_mul_den] at habove
  have hpred (j : Nat) (hj : n + k * 2 ^ f.fracBits = j + 1) :
      ∃ c, n = c + 1 ∧ j = c + k * 2 ^ f.fracBits := by
    have hpow : 0 < 2 ^ f.fracBits := Nat.two_pow_pos _
    refine ⟨n - 1, ?_⟩
    rcases hlead with rfl | hlead
    · omega
    · omega
  refine ⟨?_, by omega, ?_⟩
  · intro j hj
    obtain ⟨c, rfl, rfl⟩ := hpred j hj
    exact (halfway_below hden hk hlead hle hlow).1
  · rintro (htie | ⟨j, hj, htie⟩)
    · exact hparity (heven (.inr (by omega)))
    · obtain ⟨c, rfl, rfl⟩ := hpred j hj
      exact hparity (heven (.inl ((halfway_below hden hk hlead hle hlow).2 htie)))

theorem exists_roundsTo (f : FloatFormat) (num : Nat) (hden : 0 < den) :
    ∃ m, f.RoundsTo num den m := by
  obtain ⟨hk, hnum⟩ := f.lastPlace_spec num hden _ rfl
  exact ⟨_, roundsTo_significand hden hk hnum rfl⟩

/-- The magnitude that is computed is the one that the ratio rounds to, or infinity if that is not
finite. -/
theorem nearest_eq {m : Nat} (hden : 0 < den) (h : f.RoundsTo num den m) :
    f.nearest num den = min m f.infinity := by
  obtain ⟨hk, hnum⟩ := f.lastPlace_spec num hden _ rfl
  rw [nearest, (roundsTo_significand hden hk hnum rfl).unique hden h]

theorem nearest_eq_infinity (hden : 0 < den) (h : f.units f.infinity * den ≤ num) :
    f.nearest num den = f.infinity := by
  obtain ⟨m, hm⟩ := f.exists_roundsTo num hden
  rw [nearest_eq hden hm]
  by_contra hlt
  have hm' : m + 1 ≤ f.infinity := by omega
  have hunits := f.units_strictMono.monotone hm'
  have hless : f.halfway m < 2 * f.units f.infinity := by
    have := f.units_lt_succ m
    rw [halfway]
    omega
  have hmul := Nat.mul_lt_mul_of_pos_right hless hden
  have hupper := hm.upper
  rw [Nat.mul_assoc] at hmul
  omega

theorem RoundsTo.of_scaled {m c : Nat} (hc : 0 < c) (h : f.RoundsTo (num * c) (den * c) m) :
    f.RoundsTo num den m := by
  have hleft : 2 * (num * c) = 2 * num * c := by ring
  have hright (x : Nat) : x * (den * c) = x * den * c := by ring
  have hle (a b : Nat) : a * c ≤ b * c ↔ a ≤ b := Nat.mul_le_mul_right_iff hc
  have heq (a b : Nat) : a * c = b * c ↔ a = b := Nat.mul_left_inj hc.ne'
  obtain ⟨hlower, hupper, heven⟩ := h
  simp only [hleft, hright, hle, heq] at hlower hupper heven
  exact ⟨hlower, hupper, heven⟩

end FloatFormat

theorem Binary.ofUnits_eq {f : FloatFormat} {num den : Nat} (x : Binary f)
    (h : f.nearest num den = x.magnitude.val) : ofUnits x.negative num den = x := by
  obtain ⟨negative, magnitude⟩ := x
  simp only [ofUnits, h]

end FourLane
