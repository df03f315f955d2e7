import FourLane.Code.Basic
import FourLane.Form
import FourLane.Scope

/-!
# Lowering forms to code

`Lowering.form` appends the code of a form to a draft and gives the number of the value
that holds its result. Arguments come before their call, from left to right, and the
first form that cannot be lowered is the fault. `Routine.compile` wraps the code of a body
in the entry and the exit of its calling convention.
-/
namespace FourLane

structure Draft where
  entryCount : Nat
  code : Array Instr := #[]
  imports : Array Import := #[]
  log : Array Event := #[]

abbrev Lowering := ExceptT CompileFault (StateM Draft)

namespace Lowering

def emit (instr : Instr) : Lowering Nat :=
  modifyGet fun d => (d.entryCount + d.code.size, { d with code := d.code.push instr })

def note (event : Event) : Lowering Unit :=
  modify fun d => { d with log := d.log.push event }

/-- The position of a callee among the imports. It is imported once. -/
def importOf (target : Nat) (signature : Signature) : Lowering Nat :=
  modifyGet fun d =>
    match d.imports.findIdx? fun i => i.target = target with
    | some k => (k, d)
    | none => (d.imports.size, { d with imports := d.imports.push ⟨target, signature⟩ })

def constant (x : Lane) : Lowering Nat := do
  let c ← emit (.const x)
  emit (.splat c)

def arith (op : Arithmetic) (first : Nat) : List Nat → Lowering Nat
  | [] => return first
  | v :: vs => do
    let r ← emit (.arith op first v)
    arith op r vs

def extractAll (lane : Fin 4) : List Nat → Lowering (List Nat)
  | [] => return []
  | v :: vs => do
    let x ← emit (.extract v lane)
    let xs ← extractAll lane vs
    return x :: xs

def applyLane (callee : Nat) (args : List Nat) (lane : Fin 4) : Lowering Nat := do
  let xs ← extractAll lane args
  emit (.call callee xs)

def insertLane (callee : Nat) (args : List Nat) (vector : Nat) (lane : Fin 4) : Lowering Nat := do
  let x ← applyLane callee args lane
  emit (.insert vector x lane)

def eachLane (e : Elementary) (args : List Nat) : Lowering Nat := do
  let callee ← importOf e.number e.signature
  let x ← applyLane callee args 0
  let v ← emit (.splat x)
  let v ← insertLane callee args v 1
  let v ← insertLane callee args v 2
  insertLane callee args v 3

def callDefined (registry : Registry) (head : String) (args : List Nat) : Lowering Nat := do
  match registry.resolve? head args.length with
  | some entry =>
    let callee ← importOf entry.number (Convention.byValue.signature entry.arity)
    emit (.call callee args)
  | none =>
    note (.functionMissing head args.length)
    throw (.unresolved head args.length)

def call (registry : Registry) (head : String) (args : List Nat) : Lowering Nat :=
  match Builtin.resolve? head args.length, args with
  | some (.arith op), v :: vs => arith op v vs
  | some .sqrt, [v] => emit (.sqrt v)
  | some (.elementary e), args => eachLane e args
  | _, args => callDefined registry head args

mutual

/-- Appends the code of a form. A name without a value reads as zero. -/
def form (scope : Scope) : Form → Lowering Nat
  | .number x => constant x
  | .var name =>
    match scope.params.lookup name with
    | some v => return v
    | none => do
      note (.unboundName name)
      constant (.zero false)
  | .call head args => do
    let values ← forms scope args
    call scope.registry head values
  | .definition name _ _ => do
    note (.definitionRejected name)
    throw (.nested name)

def forms (scope : Scope) : List Form → Lowering (List Nat)
  | [] => return []
  | f :: fs => do
    let v ← form scope f
    let vs ← forms scope fs
    return v :: vs

end

end Lowering

namespace Routine

/-- The draft that a routine starts with: one that is called by
address first loads its arguments. -/
def start (convention : Convention) (arity : Nat) : Draft :=
  match convention with
  | .byValue => { entryCount := arity }
  | .byAddress => { entryCount := arity + 1, code := ((List.range arity).map Instr.load).toArray }

/-- The value that holds the first argument; the others follow it. -/
def firstArgument (convention : Convention) (arity : Nat) : Nat :=
  match convention with
  | .byValue => 0
  | .byAddress => arity + 1

def exitOf (convention : Convention) (arity result : Nat) : Exit :=
  match convention with
  | .byValue => .ret result
  | .byAddress => .store result arity

/-- Compiles a body under a registry. The log is kept in either case. -/
def compile (registry : Registry) (number : Nat) (convention : Convention) (params : List String)
    (body : Form) : Except CompileFault Routine × List Event :=
  match validateParams params with
  | .error e => (.error e, [])
  | .ok () =>
    let arity := params.length
    let scope : Scope := ⟨params.zipIdx (firstArgument convention arity), registry⟩
    match (Lowering.form scope body).run (start convention arity) with
    | (.error e, d) => (.error e, d.log.toList)
    | (.ok result, d) =>
      (.ok
        { number, convention, arity
          imports := d.imports
          code := d.code
          exit := exitOf convention arity result },
        d.log.toList)

end Routine

end FourLane
