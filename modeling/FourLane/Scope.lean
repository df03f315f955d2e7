import FourLane.Fault
import FourLane.Lane

/-!
# What names mean

A head names a built-in operation or a defined function, each for a certain number of
arguments. Built-in ones cannot be redefined for the numbers that they take, but their
names are free for any other. Parameters are names of values.
-/
namespace FourLane

inductive Builtin where
  | arith (op : Arithmetic)
  | sqrt
  | elementary (e : Elementary)
deriving DecidableEq

namespace Builtin

def names : List (String × Builtin) :=
  [("+", .arith .add), ("-", .arith .sub), ("*", .arith .mul), ("/", .arith .div),
   ("sqrt", .sqrt),
   ("sin", .elementary .sin), ("cos", .elementary .cos), ("exp", .elementary .exp),
   ("log", .elementary .log), ("pow", .elementary .pow)]

def takes : Builtin → Nat → Bool
  | .arith _, count => 2 ≤ count
  | .sqrt, count => count = 1
  | .elementary e, count => count = e.arity

def resolve? (head : String) (count : Nat) : Option Builtin :=
  (names.lookup head).filter fun b => b.takes count

end Builtin

structure Entry where
  number : Nat
  arity : Nat
deriving DecidableEq

/-- The defined functions by name; the first entry of a name counts. -/
abbrev Registry := List (String × Entry)

def Registry.resolve? (registry : Registry) (head : String) (count : Nat) : Option Entry :=
  (registry.lookup head).filter fun entry => entry.arity = count

structure Scope where
  params : List (String × Nat)
  registry : Registry

def validateParamsAfter (seen : List String) : List String → Except CompileFault Unit
  | [] => .ok ()
  | p :: ps =>
    if p = "result" then .error .reservedParam
    else if p ∈ seen then .error (.repeatedParam p)
    else validateParamsAfter (p :: seen) ps

/-- Parameters have different names, and none is called `result`. The first that offends
is the fault. -/
def validateParams (params : List String) : Except CompileFault Unit :=
  validateParamsAfter [] params

end FourLane
