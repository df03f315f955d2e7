import FourLane.Number.Binary
import FourLane.Number.Decimal

/-!
# Lanes and quads

A lane is a single-precision number; a quad is the vector of four lanes that
every expression of the language denotes. Arithmetic and square roots round once
per operation. The elementary functions are evaluated in double precision and
then rounded.
-/
namespace FourLane

abbrev Lane := Binary .single

namespace Lane

def ofBits (bits : UInt32) : Lane :=
  ⟨2 ^ (31 : Nat) ≤ bits.toNat, bits.toNat % 2 ^ (31 : Nat), Nat.mod_lt _ (by decide)⟩

def toBits (x : Lane) : UInt32 :=
  UInt32.ofNat ((if x.negative then 2 ^ (31 : Nat) else 0) + x.magnitude.val)

/-- The lane nearest to `digits * 10 ^ exponent`. Beyond the range of the format the
power of ten is not computed. -/
def ofDecimal (digits : Nat) : Int → Lane
  | .ofNat e =>
    if digits = 0 then .zero false
    else if 39 < e then .infinite false
    else .ofUnits false (digits * 10 ^ e * 2 ^ FloatFormat.single.scale) 1
  | .negSucc k =>
    if digits.log2 + 152 < 3 * (k + 1) then .zero false
    else .ofUnits false (digits * 2 ^ FloatFormat.single.scale) (10 ^ (k + 1))

/-- The numbers that round to a positive finite lane, in halves of the least
positive lane. -/
def interval (magnitude : Nat) : Interval where
  lower := FloatFormat.single.units (magnitude - 1) + FloatFormat.single.units magnitude
  middle := 2 * FloatFormat.single.units magnitude
  upper := FloatFormat.single.units magnitude + FloatFormat.single.units (magnitude + 1)
  den := 2 ^ (FloatFormat.single.scale + 1)
  closed := magnitude % 2 = 0

/-- No lane has more decimal places than the least positive one, and none reaches
`10 ^ 39`. -/
def shortest (magnitude : Nat) : Decimal :=
  let places := FloatFormat.single.scale
  (interval magnitude).shortest places (places + 39)

/-- The fewest digits that read back as the same lane. A NaN has no sign. -/
def text (x : Lane) : String :=
  if x.isNaN then "NaN"
  else
    let magnitude :=
      if x.isInfinite then "inf"
      else if x.isZero then "0"
      else (shortest x.magnitude.val).text
    if x.negative then "-" ++ magnitude else magnitude

def toFloat (x : Lane) : Float := (Float32.ofBits x.toBits).toFloat

def ofFloat (x : Float) : Lane := ofBits x.toFloat32.toBits

def sin (x : Lane) : Lane := ofFloat x.toFloat.sin

def cos (x : Lane) : Lane := ofFloat x.toFloat.cos

def exp (x : Lane) : Lane := ofFloat x.toFloat.exp

def log (x : Lane) : Lane := ofFloat x.toFloat.log

def pow (x y : Lane) : Lane := ofFloat (x.toFloat.pow y.toFloat)

end Lane

structure Quad where
  lane0 : Lane
  lane1 : Lane
  lane2 : Lane
  lane3 : Lane
deriving DecidableEq

namespace Quad

def splat (x : Lane) : Quad := ⟨x, x, x, x⟩

def zero : Quad := splat (.zero false)

def get (v : Quad) : Fin 4 → Lane
  | 0 => v.lane0
  | 1 => v.lane1
  | 2 => v.lane2
  | 3 => v.lane3

def set (v : Quad) (i : Fin 4) (x : Lane) : Quad :=
  match i with
  | 0 => { v with lane0 := x }
  | 1 => { v with lane1 := x }
  | 2 => { v with lane2 := x }
  | 3 => { v with lane3 := x }

def map (g : Lane → Lane) (v : Quad) : Quad :=
  ⟨g v.lane0, g v.lane1, g v.lane2, g v.lane3⟩

def zipWith (g : Lane → Lane → Lane) (v w : Quad) : Quad :=
  ⟨g v.lane0 w.lane0, g v.lane1 w.lane1, g v.lane2 w.lane2, g v.lane3 w.lane3⟩

def text (v : Quad) : String :=
  s!"<{v.lane0.text}, {v.lane1.text}, {v.lane2.text}, {v.lane3.text}>"

end Quad

inductive Arithmetic where
  | add
  | sub
  | mul
  | div
deriving DecidableEq

def Arithmetic.apply : Arithmetic → Lane → Lane → Lane
  | .add => Binary.add
  | .sub => Binary.sub
  | .mul => Binary.mul
  | .div => Binary.div

inductive Elementary where
  | sin
  | cos
  | exp
  | log
  | pow
deriving DecidableEq

namespace Elementary

def arity : Elementary → Nat
  | .pow => 2
  | _ => 1

def apply : Elementary → List Lane → Option Lane
  | .sin, [x] => some x.sin
  | .cos, [x] => some x.cos
  | .exp, [x] => some x.exp
  | .log, [x] => some x.log
  | .pow, [x, y] => some (x.pow y)
  | _, _ => none

end Elementary

end FourLane
