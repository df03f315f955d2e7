import FourLane.Session.Evaluation

/-!
# The console

A console evaluates texts in one session and prints their lines, followed on request by
the listing of what they compiled. It runs over given sources, or over the lines of an
editor up to the first blank one. The editor is not part of it: a run is given what the
readings of lines come to, and whether the history of lines could be saved in the end.
-/
namespace FourLane

structure Options where
  emit : Bool := false
  optimization : Optimization := .speed
  sources : List String := []

inductive Input where
  | line (text : String)
  | interrupted
  | endOfInput
  | failed (reason : String)

/-- Behind the last of its inputs an editor is at the end of input. -/
structure Editor where
  opened : Except String Unit := .ok ()
  inputs : List Input := []
  saved : Except String Unit := .ok ()

/-- Exit status, standard output and standard error. -/
structure Transcript where
  status : Nat
  output : String
  errors : String := ""
deriving DecidableEq

structure Console where
  session : Session
  emit : Bool

namespace Console

def banner : String := unlines ["simd-lisp v0.1.0", "Enter an empty line to quit", ""]

def farewell : String := unlines ["Goodbye!"]

variable (backend : Backend)

def print (c : Console) (e : Session.Evaluation) : String × Console :=
  let listed :=
    if c.emit then (e.session.listingTexts backend).drop c.session.listing.length else []
  (unlines (e.lines ++ listed), { c with session := e.session })

def line (c : Console) (line : String) : String × Console :=
  c.print backend (c.session.evaluateFirst line backend)

def source (c : Console) (source : String) : String × Console :=
  c.print backend (c.session.evaluate source backend)

def sources (c : Console) : List String → String
  | [] => ""
  | s :: rest =>
    let (text, c) := c.source backend s
    text ++ c.sources rest

def brokenOff (reason : String) : Transcript := ⟨1, "", s!"line editor error: {reason}\n"⟩

def leave : Except String Unit → Transcript
  | .ok () => ⟨0, farewell, ""⟩
  | .error reason => brokenOff reason

/-- A run over inputs, after the banner. -/
def lines (c : Console) (saved : Except String Unit) : List Input → Transcript
  | .line l :: rest =>
    if isBlankLine l then leave saved
    else
      let (text, c) := c.line backend l
      let later := c.lines saved rest
      { later with output := text ++ later.output }
  | .failed reason :: _ => brokenOff reason
  | _ => leave saved

def interact (c : Console) (editor : Editor) : Transcript :=
  match editor.opened with
  | .error reason => brokenOff reason
  | .ok () =>
    let later := c.lines backend editor.saved editor.inputs
    { later with output := banner ++ later.output }

end Console

def Options.settings (o : Options) : Settings := ⟨o.optimization, o.emit⟩

def Options.run (o : Options) (editor : Editor) (backend : Backend) : Transcript :=
  match Session.start o.settings backend with
  | .error e => ⟨1, "", e.message ++ "\n"⟩
  | .ok session =>
    let c : Console := ⟨session, o.emit⟩
    if o.sources.isEmpty then c.interact backend editor
    else ⟨0, c.sources backend o.sources, ""⟩

end FourLane
