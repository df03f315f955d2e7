import FourLane.Code.Basic

/-!
# Running code

The machine computes the values of a routine in order. It stops, with no result, at
an operand that is not there or not of the type that its instruction needs. A routine
calls only routines compiled before it, so every run ends.
-/
namespace FourLane

inductive Word where
  | scalar (x : Lane)
  | vector (v : Quad)
  | address (slot : Nat)
deriving DecidableEq

namespace Word

def ty : Word → Ty
  | .scalar _ => .f32
  | .vector _ => .f32x4
  | .address _ => .i64

def scalar? : Word → Option Lane
  | .scalar x => some x
  | _ => none

def vector? : Word → Option Quad
  | .vector v => some v
  | _ => none

def address? : Word → Option Nat
  | .address slot => some slot
  | _ => none

end Word

/-- The vectors that a caller lends to a routine. An address is a position in it. -/
abbrev Memory := List Quad

abbrev Values := Array Word

namespace Values

def scalar? (values : Values) (n : Nat) : Option Lane := values[n]?.bind Word.scalar?

def vector? (values : Values) (n : Nat) : Option Quad := values[n]?.bind Word.vector?

def address? (values : Values) (n : Nat) : Option Nat := values[n]?.bind Word.address?

end Values

def Instr.eval (call : Nat → List Word → Option Word) (memory : Memory) (values : Values) :
    Instr → Option Word
  | .load a => do
    let slot ← values.address? a
    let v ← memory[slot]?
    return .vector v
  | .const x => some (.scalar x)
  | .splat x => do
    let x ← values.scalar? x
    return .vector (.splat x)
  | .arith op l r => do
    let l ← values.vector? l
    let r ← values.vector? r
    return .vector (l.zipWith op.apply r)
  | .sqrt v => do
    let v ← values.vector? v
    return .vector (v.map Binary.sqrt)
  | .extract v lane => do
    let v ← values.vector? v
    return .scalar (v.get lane)
  | .insert v x lane => do
    let v ← values.vector? v
    let x ← values.scalar? x
    return .vector (v.set lane x)
  | .call callee args => do
    let args ← args.mapM fun a => values[a]?
    call callee args

namespace Routine

def values (run : Nat → List Word → Option Word) (r : Routine) (memory : Memory)
    (args : List Word) : Option Values :=
  let call (callee : Nat) (args : List Word) : Option Word := do
    let imported ← r.imports[callee]?
    run imported.target args
  if args.map Word.ty = r.signature.params then
    r.code.foldlM (fun values instr => values.push <$> instr.eval call memory values) args.toArray
  else none

def apply (run : Nat → List Word → Option Word) (r : Routine) (args : List Word) : Option Word := do
  let values ← r.values run [] args
  match r.exit with
  | .ret v => values[v]?
  | .store _ _ => none

/-- The memory that a routine leaves when it is entered with all its addresses. -/
def enter (run : Nat → List Word → Option Word) (r : Routine) (memory : Memory) :
    Option Memory := do
  let values ← r.values run memory ((List.range memory.length).map Word.address)
  match r.exit with
  | .ret _ => none
  | .store v a =>
    let v ← values.vector? v
    let slot ← values.address? a
    if slot < memory.length then some (memory.set slot v) else none

end Routine

namespace Image

/-- Runs the routine or elementary function of the given number. A routine finds its
callees among the older ones. -/
def run : Image → Nat → List Word → Option Word
  | [], number, args => do
    let e ← Elementary.ofNumber? number
    let xs ← args.mapM Word.scalar?
    let y ← e.apply xs
    return .scalar y
  | r :: older, number, args =>
    if number = r.number then r.apply (run older) args else run older number args

/-- Calls the routine of the given number from outside: the arguments and, at first
zero, the result are in memory. -/
def enter : Image → Nat → List Quad → Option Quad
  | [], _, _ => none
  | r :: older, number, args =>
    if number = r.number then do
      let memory ← r.enter (run older) (args ++ [.zero])
      memory[args.length]?
    else enter older number args

end Image

end FourLane
