import FourLane.Number.Rounding

/-!
# Binary floating-point numbers

A format is fixed by the widths of its exponent and fraction fields. Without its
sign a number is known by its bit pattern read as a natural number, its
magnitude. Magnitudes are in the order of the values they stand for, and every
finite one is a whole multiple, `units`, of the least positive value of the
format. So each operation is exact arithmetic on natural numbers followed by one
rounding, `nearest`: to the nearest magnitude, on a tie to the even one, and to
infinity from halfway above the greatest finite value on.
-/
namespace FourLane

structure FloatFormat where
  expBits : Nat
  fracBits : Nat
  expBits_pos : 0 < expBits := by decide
  fracBits_pos : 0 < fracBits := by decide

namespace FloatFormat

def single : FloatFormat where
  expBits := 8
  fracBits := 23

def double : FloatFormat where
  expBits := 11
  fracBits := 52

def bias (f : FloatFormat) : Nat := 2 ^ (f.expBits - 1) - 1

/-- The least positive value is `2 ^ (-scale)`. -/
def scale (f : FloatFormat) : Nat := f.bias + f.fracBits - 1

def patterns (f : FloatFormat) : Nat := 2 ^ f.expBits * 2 ^ f.fracBits

def infinity (f : FloatFormat) : Nat := (2 ^ f.expBits - 1) * 2 ^ f.fracBits

/-- The quiet NaN with no other fraction bit set. -/
def quietNaN (f : FloatFormat) : Nat := f.infinity + 2 ^ (f.fracBits - 1)

/-- The value of a finite magnitude, counted in least positive values. -/
def units (f : FloatFormat) (magnitude : Nat) : Nat :=
  let e := magnitude / 2 ^ f.fracBits
  let t := magnitude % 2 ^ f.fracBits
  if e = 0 then t else (2 ^ f.fracBits + t) * 2 ^ (e - 1)

/-- The magnitude nearest to `num / den` units. The last place is doubled `k`
times, until the quotient fits the fraction with its leading bit. -/
def nearest (f : FloatFormat) (num den : Nat) : Nat :=
  let k := Nat.log2 (num / den) - f.fracBits
  min (nearestQuotient num (den * 2 ^ k) + k * 2 ^ f.fracBits) f.infinity

theorem infinity_add (f : FloatFormat) : f.infinity + 2 ^ f.fracBits = f.patterns := by
  have h : 0 < 2 ^ f.expBits := Nat.two_pow_pos _
  rw [infinity, patterns, ← Nat.succ_mul]
  congr 1
  omega

theorem infinity_lt (f : FloatFormat) : f.infinity < f.patterns := by
  have h := f.infinity_add
  have : 0 < 2 ^ f.fracBits := Nat.two_pow_pos _
  omega

theorem quietNaN_lt (f : FloatFormat) : f.quietNaN < f.patterns := by
  have h := f.infinity_add
  have : 2 ^ (f.fracBits - 1) < 2 ^ f.fracBits :=
    Nat.pow_lt_pow_right (by decide) (Nat.sub_lt f.fracBits_pos (by decide))
  rw [quietNaN]
  omega

theorem nearest_le (f : FloatFormat) (num den : Nat) : f.nearest num den ≤ f.infinity :=
  Nat.min_le_right _ _

end FloatFormat

/-- A sign and a bit pattern: zero, a finite number, infinity or a NaN. -/
structure Binary (f : FloatFormat) where
  negative : Bool
  magnitude : Fin f.patterns
deriving DecidableEq

namespace Binary

variable {f : FloatFormat}

def zero (negative : Bool) : Binary f :=
  ⟨negative, 0, Nat.lt_of_le_of_lt (Nat.zero_le _) f.infinity_lt⟩

def infinite (negative : Bool) : Binary f := ⟨negative, f.infinity, f.infinity_lt⟩

def nan (negative : Bool) : Binary f := ⟨negative, f.quietNaN, f.quietNaN_lt⟩

/-- What an operation without a value gives. Its sign bit is set. -/
def invalid : Binary f := nan true

def isNaN (x : Binary f) : Bool := f.infinity < x.magnitude.val

def isInfinite (x : Binary f) : Bool := x.magnitude.val == f.infinity

def isZero (x : Binary f) : Bool := x.magnitude.val == 0

def units (x : Binary f) : Nat := f.units x.magnitude.val

def signedUnits (x : Binary f) : Int := if x.negative then -(x.units : Int) else x.units

def ofUnits (negative : Bool) (num den : Nat) : Binary f :=
  ⟨negative, f.nearest num den, Nat.lt_of_le_of_lt (f.nearest_le num den) f.infinity_lt⟩

def ofNat (n : Nat) : Binary f := ofUnits false (n * 2 ^ f.scale) 1

def neg (x : Binary f) : Binary f := { x with negative := !x.negative }

/-- A sum of zero is `-0` only if both operands are negative. -/
def add (x y : Binary f) : Binary f :=
  if x.isNaN then x
  else if y.isNaN then y
  else if x.isInfinite then
    if y.isInfinite && x.negative != y.negative then invalid else x
  else if y.isInfinite then y
  else
    let sum := x.signedUnits + y.signedUnits
    if sum = 0 then zero (x.negative && y.negative)
    else ofUnits (sum < 0) sum.natAbs 1

def sub (x y : Binary f) : Binary f := x.add y.neg

def mul (x y : Binary f) : Binary f :=
  let negative := x.negative != y.negative
  if x.isNaN then x
  else if y.isNaN then y
  else if x.isInfinite then if y.isZero then invalid else infinite negative
  else if y.isInfinite then if x.isZero then invalid else infinite negative
  else ofUnits negative (x.units * y.units) (2 ^ f.scale)

def div (x y : Binary f) : Binary f :=
  let negative := x.negative != y.negative
  if x.isNaN then x
  else if y.isNaN then y
  else if x.isInfinite then if y.isInfinite then invalid else infinite negative
  else if y.isInfinite then zero negative
  else if y.isZero then if x.isZero then invalid else infinite negative
  else ofUnits negative (x.units * 2 ^ f.scale) y.units

/-- The root lies strictly between two whole numbers of units unless it is one
of them, and then rounds as the point halfway between them does. -/
def sqrt (x : Binary f) : Binary f :=
  if x.isNaN || x.isZero then x
  else if x.negative then invalid
  else if x.isInfinite then x
  else
    let square := x.units * 2 ^ f.scale
    let root := floorSqrt square
    if root * root = square then ofUnits false root 1
    else ofUnits false (2 * root + 1) 2

def convert (g : FloatFormat) (x : Binary f) : Binary g :=
  if x.isNaN then nan x.negative
  else if x.isInfinite then infinite x.negative
  else ofUnits x.negative (x.units * 2 ^ g.scale) (2 ^ f.scale)

end Binary

end FourLane
