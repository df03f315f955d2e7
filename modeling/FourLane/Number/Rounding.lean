/-!
# Rounded quotients and square roots of natural numbers

`nearestQuotient` is the one place where a tie is broken: of two equally near
natural numbers it takes the even one. `floorSqrt` gives the integer part of a
square root.
-/
namespace FourLane

/-- Powers are those of the core library, also where an algebraic hierarchy has its own. -/
scoped instance (priority := 1100) corePow {α : Type} [NatPow α] : Pow α Nat := instPowNat

def nearestQuotient (a b : Nat) : Nat :=
  let q := a / b
  let r := a % b
  if 2 * r < b then q
  else if b < 2 * r then q + 1
  else q + q % 2

def floorSqrt (n : Nat) : Nat :=
  if n = 0 then 0
  else
    let r := 2 * floorSqrt (n / 4)
    if (r + 1) * (r + 1) ≤ n then r + 1 else r
termination_by n
decreasing_by omega

end FourLane
