import FourLane.Code.Backend
import FourLane.Code.Machine
import FourLane.Lowering
import FourLane.Reading

/-!
# Sessions

A session collects compiled routines, the registry of the functions defined by name,
and, if asked to, a listing. Routines are only ever added. A request that fails leaves
the session as it was, unless the code generator refuses a routine that was lowered; what
a request logged is part of its outcome.

Requests take the code generator as their last argument. Where it is left out, it is one
that refuses nothing.
-/
namespace FourLane

structure Settings where
  optimization : Optimization := .speed
  capture : Bool := false
deriving DecidableEq

/-- The number `next` goes to the next routine that is declared. -/
structure Session where
  settings : Settings := {}
  next : Nat := 5
  image : Image := []
  registry : Registry := []
  listing : List Listed := []

structure Handle where
  number : Nat
  arity : Nat
deriving DecidableEq

structure Outcome (α : Type) where
  result : Except CompileFault α
  session : Session
  log : List Event

namespace Session

def start (settings : Settings) (backend : Backend := .plain) : Except CompileFault Session :=
  match backend.failure? with
  | some reason => .error (.backend reason)
  | none => .ok { settings }

def arity? (s : Session) (name : String) : Option Nat :=
  (s.registry.lookup name).map Entry.arity

def declare (s : Session) : Session := { s with next := s.next + 1 }

def list (s : Session) (name : String) (routine : Routine) : Session :=
  { s with
    listing :=
      if s.settings.capture then s.listing ++ [⟨name, routine⟩] else s.listing }

def install (s : Session) (name : String) (routine : Routine) : Session :=
  { s.declare.list name routine with image := routine :: s.image }

/-- What is left behind of a routine that was refused. -/
def abandon (s : Session) (name : String) (routine : Routine) : Stage → Session
  | .declaration => s
  | .definition => s.declare
  | .completion => s.declare.list name routine

/-- Compiles a body and adds its routine. Nothing is added if it cannot be lowered. -/
def compile (s : Session) (convention : Convention) (name : String) (params : List String)
    (body : Form) (backend : Backend := .plain) : Outcome Handle :=
  match Routine.compile s.registry s.next convention params body with
  | (.error e, log) => ⟨.error e, s, log⟩
  | (.ok routine, log) =>
    match backend.refusal? routine with
    | some (stage, reason) => ⟨.error (.backend reason), s.abandon name routine stage, log⟩
    | none =>
      ⟨.ok ⟨routine.number, params.length⟩, s.install name routine,
        log ++ [.compiled name convention params.length]⟩

/-- Compiles a definition and registers it by name. Earlier callers of that name keep what
they were compiled with. -/
def define (s : Session) (d : Definition) (backend : Backend := .plain) : Outcome Unit :=
  match s.compile .byValue d.name d.params d.body backend with
  | ⟨.error e, s', log⟩ => ⟨.error e, s', log⟩
  | ⟨.ok handle, s', log⟩ =>
    ⟨.ok (), { s' with registry := (d.name, ⟨handle.number, handle.arity⟩) :: s'.registry },
      if (s.arity? d.name).isSome then log ++ [.shadowed d.name] else log⟩

def exportDefinition (s : Session) (d : Definition) (backend : Backend := .plain) :
    Outcome Handle :=
  s.compile .byAddress d.name d.params d.body backend

def exportExpression (s : Session) (body : Form) (params : List String)
    (backend : Backend := .plain) : Outcome Handle :=
  s.compile .byAddress "externalexpr" params body backend

/-- Defines a definition; compiles anything else as a function without parameters. -/
def submitForm (s : Session) (form : Form) (backend : Backend := .plain) :
    Outcome (Option Handle) :=
  match form.definition? with
  | some d =>
    let o := s.define d backend
    ⟨o.result.map fun _ => none, o.session, o.log⟩
  | none =>
    let o := s.exportExpression form [] backend
    ⟨o.result.map some, o.session, .bareExpression :: o.log⟩

def enter (s : Session) (h : Handle) (args : List Quad) : Option Quad :=
  if args.length = h.arity then s.image.enter h.number args else none

def callLimit : Nat := 8

def call (s : Session) (h : Handle) (args : List Quad) : Except CallFault Quad :=
  if args.length ≠ h.arity then .error (.wrongCount h.arity args.length)
  else if callLimit < args.length then .error (.tooMany args.length)
  else
    match s.enter h args with
    | some v => .ok v
    | none => .error .trap

def listingTexts (s : Session) (backend : Backend := .plain) : List String :=
  s.listing.map (Listed.text backend s.settings.optimization)

end Session

end FourLane
