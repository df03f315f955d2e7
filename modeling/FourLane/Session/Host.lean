import FourLane.Session.Evaluation

/-!
# Hosts

A host holds a session and serves requests on it, on texts or on forms. It can start
afresh with a new session of the same settings; sessions are kept when they are retired,
so that what was compiled in them can still be called.
-/
namespace FourLane

structure Host where
  session : Session
  retired : List Session := []

/-- A handle together with the session that it belongs to, counted from the first. -/
structure Ref where
  epoch : Nat
  handle : Handle
deriving DecidableEq

inductive Request where
  | define (text : String)
  | exportDefinition (text : String)
  | exportExpression (text : String) (params : List String)
  | submit (text : String)
  | submitAll (text : String)
  | evaluateFirst (line : String)
  | evaluate (source : String)
  | defineForm (d : Definition)
  | exportDefinitionForm (d : Definition)
  | exportExpressionForm (body : Form) (params : List String)
  | call (ref : Ref) (args : List Quad)
  | enter (ref : Ref) (args : List Quad)
  | arity (name : String)
  | listing
  | settings
  | reset

inductive Answer where
  | done
  | failed (error : CompileFault)
  | compiled (ref : Ref)
  | submitted (ref : Option Ref)
  | batch (results : List (Except CompileFault (Option Ref)))
  | lines (lines : List String)
  | called (result : Except CallFault Quad)
  | entered (result : Option Quad)
  | arity (arity : Option Nat)
  | listing (texts : List String)
  | settings (settings : Settings)

structure Reply where
  answer : Answer
  host : Host
  log : List Event := []

namespace Host

def start (settings : Settings) : Host := { session := { settings } }

def epoch (host : Host) : Nat := host.retired.length

def sessionAt? (host : Host) (epoch : Nat) : Option Session :=
  (host.retired ++ [host.session])[epoch]?

def call (host : Host) (ref : Ref) (args : List Quad) : Except CallFault Quad :=
  match host.sessionAt? ref.epoch with
  | some s => s.call ref.handle args
  | none => .error .trap

def enter (host : Host) (ref : Ref) (args : List Quad) : Option Quad :=
  (host.sessionAt? ref.epoch).bind fun s => s.enter ref.handle args

def reply {α : Type} (host : Host) (o : Outcome α) (answer : α → Answer) : Reply where
  answer := match o.result with
    | .ok a => answer a
    | .error e => .failed e
  host := { host with session := o.session }
  log := o.log

def compiled (host : Host) (handle : Handle) : Answer := .compiled ⟨host.epoch, handle⟩

/-- The handle of a submitted form, if it is an expression. -/
def issued (host : Host) (handle : Option Handle) : Option Ref := handle.map (Ref.mk host.epoch)

def evaluated (host : Host) (e : Session.Evaluation) : Reply where
  answer := .lines e.lines
  host := { host with session := e.session }
  log := e.log

def serve (host : Host) (request : Request) (backend : Backend := .plain) : Reply :=
  match request with
  | .define text => host.reply (host.session.defineText text backend) fun _ => .done
  | .exportDefinition text =>
    host.reply (host.session.exportDefinitionText text backend) host.compiled
  | .exportExpression text params =>
    host.reply (host.session.exportExpressionText text params backend) host.compiled
  | .submit text =>
    host.reply (host.session.submit text backend) fun handle => .submitted (host.issued handle)
  | .submitAll text =>
    let b := host.session.submitAll text backend
    { answer := .batch (b.results.map (Except.map host.issued))
      host := { host with session := b.session }
      log := b.log }
  | .evaluateFirst line => host.evaluated (host.session.evaluateFirst line backend)
  | .evaluate source => host.evaluated (host.session.evaluate source backend)
  | .defineForm d => host.reply (host.session.define d backend) fun _ => .done
  | .exportDefinitionForm d => host.reply (host.session.exportDefinition d backend) host.compiled
  | .exportExpressionForm body params =>
    host.reply (host.session.exportExpression body params backend) host.compiled
  | .call ref args => { answer := .called (host.call ref args), host }
  | .enter ref args => { answer := .entered (host.enter ref args), host }
  | .arity name => { answer := .arity (host.session.arity? name), host }
  | .listing => { answer := .listing (host.session.listingTexts backend), host }
  | .settings => { answer := .settings host.session.settings, host }
  | .reset =>
    match Session.start host.session.settings backend with
    | .error e => { answer := .failed e, host }
    | .ok session =>
      { answer := .done, host := { session, retired := host.retired ++ [host.session] } }

end Host

end FourLane
