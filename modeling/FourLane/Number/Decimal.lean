import FourLane.Number.Rounding

/-!
# Shortest decimals

Among the decimals of an interval of positive rationals, those on the coarsest
grid of multiples of a power of ten have the fewest digits. `Interval.shortest`
tries the grids from the coarsest on and takes the first that meets the
interval.
-/
namespace FourLane

structure Decimal where
  digits : Nat
  exponent : Int
deriving DecidableEq

namespace Decimal

def text (d : Decimal) : String :=
  let ds := Nat.toDigits 10 d.digits
  match d.exponent with
  | .ofNat zeros => String.ofList (ds ++ List.replicate zeros '0')
  | .negSucc p =>
    let places := p + 1
    let padded := List.replicate (places + 1 - ds.length) '0' ++ ds
    let whole := padded.length - places
    String.ofList (padded.take whole ++ '.' :: padded.drop whole)

end Decimal

/-- The rationals from `lower / den` to `upper / den`, around `middle / den`. -/
structure Interval where
  lower : Nat
  middle : Nat
  upper : Nat
  den : Nat
  closed : Bool

namespace Interval

def holds (i : Interval) (num den : Nat) : Bool :=
  let x := num * i.den
  if i.closed then i.lower * den ≤ x && x ≤ i.upper * den
  else i.lower * den < x && x < i.upper * den

/-- The multiplier `d` for which `d * (num / den)` lies in the interval nearest to
the middle, the greater of two equally near. -/
def onGrid (i : Interval) (num den : Nat) : Option Nat :=
  let step := i.den * num
  let d := i.middle * den / step
  let r := i.middle * den % step
  match i.holds (d * num) den, i.holds ((d + 1) * num) den with
  | true, true => some (if step ≤ 2 * r then d + 1 else d)
  | true, false => some d
  | false, true => some (d + 1)
  | false, false => none

/-- The shortest decimal of the interval with steps of at most
`10 ^ (k - places)`, the nearest to the middle among them. -/
def shortest (i : Interval) (places : Nat) : Nat → Decimal
  | 0 => ⟨i.middle * 10 ^ places / i.den, -places⟩
  | k + 1 =>
    match i.onGrid (10 ^ (k + 1)) (10 ^ places) with
    | some d => ⟨d, (k + 1 : Nat) - (places : Int)⟩
    | none => i.shortest places k

end Interval

end FourLane
