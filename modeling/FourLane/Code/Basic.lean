import FourLane.Event
import FourLane.Lane

/-!
# Straight-line code

A routine is a block of instructions between an entry and an exit. Its values are
numbered from zero: first the parameters of the entry, then the result of each
instruction, in order. An instruction names its operands by their numbers. Other
routines are reached through the imports of the routine.

Routines are numbered in the order in which they are declared, after the elementary
functions, which have the first five numbers.
-/
namespace FourLane

inductive Ty where
  | f32
  | f32x4
  | i64
deriving DecidableEq

structure Signature where
  params : List Ty
  result : Option Ty
deriving DecidableEq

structure Import where
  target : Nat
  signature : Signature
deriving DecidableEq

inductive Instr where
  | load (address : Nat)
  | const (value : Lane)
  | splat (scalar : Nat)
  | arith (op : Arithmetic) (left right : Nat)
  | sqrt (operand : Nat)
  | extract (vector : Nat) (lane : Fin 4)
  | insert (vector scalar : Nat) (lane : Fin 4)
  | call (callee : Nat) (args : List Nat)
deriving DecidableEq

/-- A routine ends by returning a value, or by storing it and returning none. -/
inductive Exit where
  | ret (value : Nat)
  | store (value address : Nat)
deriving DecidableEq

structure Routine where
  number : Nat
  convention : Convention
  arity : Nat
  imports : Array Import
  code : Array Instr
  exit : Exit
deriving DecidableEq

/-- Vectors are passed by value, or one pointer per vector and one for the result. -/
def Convention.signature (arity : Nat) : Convention → Signature
  | .byValue => ⟨List.replicate arity .f32x4, some .f32x4⟩
  | .byAddress => ⟨List.replicate (arity + 1) .i64, none⟩

def Routine.signature (r : Routine) : Signature := r.convention.signature r.arity

namespace Elementary

def number : Elementary → Nat
  | .sin => 0
  | .cos => 1
  | .exp => 2
  | .log => 3
  | .pow => 4

def ofNumber? : Nat → Option Elementary
  | 0 => some .sin
  | 1 => some .cos
  | 2 => some .exp
  | 3 => some .log
  | 4 => some .pow
  | _ => none

def signature (e : Elementary) : Signature := ⟨List.replicate e.arity .f32, some .f32⟩

end Elementary

/-- The routines compiled so far, the latest first. -/
abbrev Image := List Routine

end FourLane
