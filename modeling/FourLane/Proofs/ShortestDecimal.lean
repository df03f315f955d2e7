import FourLane.Proofs.DecimalReading

/-!
# Shortest decimals round back

Whatever grid the search stops at, the decimal it finds lies in the interval. The interval of a
positive finite lane holds only numbers that round to this lane, so its shortest decimal is read as
the lane.
-/
namespace FourLane

open FloatFormat

namespace Interval

variable (i : Interval)

theorem holds_of_lt {num den : Nat} (hlower : i.lower * den < num * i.den)
    (hupper : num * i.den < i.upper * den) : i.holds num den := by
  rw [holds]
  split_ifs
  · simp [hlower.le, hupper.le]
  · simp [hlower, hupper]

theorem bounds_of_holds {num den : Nat} (h : i.holds num den) :
    (i.lower * den ≤ num * i.den ∧ num * i.den ≤ i.upper * den) ∧
      (i.closed = false → i.lower * den < num * i.den ∧ num * i.den < i.upper * den) := by
  cases hclosed : i.closed with
  | true => simpa [holds, hclosed] using h
  | false =>
    have hstrict : i.lower * den < num * i.den ∧ num * i.den < i.upper * den := by
      simpa [holds, hclosed] using h
    exact ⟨⟨hstrict.1.le, hstrict.2.le⟩, fun _ => hstrict⟩

theorem holds_of_onGrid {num den d : Nat} (h : i.onGrid num den = some d) :
    i.holds (d * num) den := by
  rw [onGrid] at h
  split at h
  case h_1 hlow hhigh =>
    split_ifs at h
    · rwa [← Option.some.inj h]
    · rwa [← Option.some.inj h]
  case h_2 hlow hhigh => rwa [← Option.some.inj h]
  case h_3 hlow hhigh => rwa [← Option.some.inj h]
  case h_4 hlow hhigh => cases h

/-- The search ends at the latest where the middle itself is on the grid. -/
theorem shortest_holds {places : Nat} (hexact : i.den ∣ i.middle * 10 ^ places)
    (hlower : i.lower < i.middle) (hupper : i.middle < i.upper) (k : Nat) :
    ∃ d j, i.shortest places k = ⟨d, (j : Nat) - (places : Int)⟩ ∧
      i.holds (d * 10 ^ j) (10 ^ places) := by
  induction k with
  | zero =>
    have hpos : 0 < 10 ^ places := Nat.pow_pos (by decide)
    refine ⟨_, 0, by simp [shortest]; rfl, i.holds_of_lt ?_ ?_⟩
    · rw [Nat.pow_zero, Nat.mul_one, Nat.div_mul_cancel hexact]
      exact Nat.mul_lt_mul_of_pos_right hlower hpos
    · rw [Nat.pow_zero, Nat.mul_one, Nat.div_mul_cancel hexact]
      exact Nat.mul_lt_mul_of_pos_right hupper hpos
  | succ k ih =>
    rw [shortest]
    cases hgrid : i.onGrid (10 ^ (k + 1)) (10 ^ places) with
    | none => exact ih
    | some d => exact ⟨d, k + 1, rfl, i.holds_of_onGrid hgrid⟩

end Interval

namespace Lane

/-- The interval of a lane holds only numbers that round to it. -/
theorem roundsTo_of_holds {m num den : Nat} (h : (interval (m + 1)).holds num den) :
    single.RoundsTo (num * 2 ^ single.scale) den (m + 1) := by
  have hdouble : num * 2 ^ (single.scale + 1) = 2 * (num * 2 ^ single.scale) := by ring
  obtain ⟨⟨hlower, hupper⟩, hstrict⟩ := (interval (m + 1)).bounds_of_holds h
  change single.halfway m * den ≤ num * 2 ^ (single.scale + 1) at hlower
  change num * 2 ^ (single.scale + 1) ≤ single.halfway (m + 1) * den at hupper
  change decide ((m + 1) % 2 = 0) = false → single.halfway m * den < num * 2 ^ (single.scale + 1) ∧
    num * 2 ^ (single.scale + 1) < single.halfway (m + 1) * den at hstrict
  rw [hdouble] at hlower hupper hstrict
  refine ⟨?_, hupper, ?_⟩
  · rintro k ⟨⟩
    exact hlower
  · intro htie
    by_contra hodd
    obtain ⟨hlower', hupper'⟩ := hstrict (decide_eq_false hodd)
    rcases htie with htie | ⟨k, ⟨⟩, htie⟩
    · omega
    · omega

theorem shortest_rounds {m : Nat} (hm : m ≠ 0) :
    ∃ d j, shortest m = ⟨d, (j : Nat) - (single.scale : Int)⟩ ∧
      single.RoundsTo (d * 10 ^ j * 2 ^ single.scale) (10 ^ single.scale) m := by
  obtain ⟨m, rfl⟩ := Nat.exists_eq_succ_of_ne_zero hm
  have hbelow := single.units_lt_succ m
  have habove := single.units_lt_succ (m + 1)
  have hexact : (interval (m + 1)).den ∣ (interval (m + 1)).middle * 10 ^ single.scale := by
    refine ⟨single.units (m + 1) * 5 ^ single.scale, ?_⟩
    change 2 * single.units (m + 1) * (2 * 5) ^ single.scale =
      2 ^ (single.scale + 1) * (single.units (m + 1) * 5 ^ single.scale)
    rw [Nat.mul_pow]
    ring
  obtain ⟨d, j, hshortest, hholds⟩ := (interval (m + 1)).shortest_holds hexact
    (by simp only [interval, Nat.add_sub_cancel]; omega) (by simp only [interval]; omega)
    (single.scale + 39)
  exact ⟨d, j, hshortest, roundsTo_of_holds hholds⟩

theorem ofDecimal_shortest {x : Lane} (hzero : x.magnitude.val ≠ 0)
    (hfinite : x.magnitude.val ≤ single.infinity) :
    ofDecimal (shortest x.magnitude.val).digits (shortest x.magnitude.val).exponent =
      ⟨false, x.magnitude⟩ := by
  obtain ⟨d, j, hshortest, hrounds⟩ := shortest_rounds hzero
  rw [hshortest, ofDecimal_eq]
  -- The powers of ten above and below the line have a common part.
  have hnum : d * 10 ^ j * 2 ^ single.scale =
      d * 10 ^ ((j : Int) - single.scale).toNat * 2 ^ single.scale * 10 ^ min j single.scale := by
    have hsplit : j = ((j : Int) - single.scale).toNat + min j single.scale := by omega
    nth_rewrite 1 [hsplit]
    rw [Nat.pow_add]
    ring
  have hden : 10 ^ single.scale =
      10 ^ (-((j : Int) - single.scale)).toNat * 10 ^ min j single.scale := by
    rw [← Nat.pow_add]
    congr 1
    omega
  rw [hnum, hden] at hrounds
  have hscaled := hrounds.of_scaled (Nat.pow_pos (by decide))
  exact Binary.ofUnits_eq ⟨false, x.magnitude⟩
    ((nearest_eq (Nat.pow_pos (by decide)) hscaled).trans (Nat.min_eq_left hfinite))

end Lane
end FourLane
