import FourLane.Session.Source

/-!
# Evaluating text

Evaluation calls what a submitted expression was compiled to and gives its value as a
line of text. Definitions and failures give no line; failures are logged.
-/
namespace FourLane.Session

structure Evaluation where
  lines : List String
  session : Session
  log : List Event

def report (s : Session) (source : String) :
    Except CompileFault (Option Handle) → Option String × List Event
  | .error e => (none, [.evaluationFailed source e.message])
  | .ok none => (none, [])
  | .ok (some h) =>
    match s.call h [] with
    | .ok v => (some v.text, [])
    | .error e => (none, [.evaluationFailed source e.message])

def evaluateFirst (s : Session) (line : String) (backend : Backend := .plain) : Evaluation :=
  let o := s.submit line backend
  let (text, log) := o.session.report line o.result
  ⟨text.toList, o.session, o.log ++ log⟩

/-- Evaluates all forms of a text. All are compiled before any is called. -/
def evaluate (s : Session) (source : String) (backend : Backend := .plain) : Evaluation :=
  let b := s.submitAll source backend
  let reports := b.results.map (b.session.report source)
  ⟨reports.filterMap Prod.fst, b.session, b.log ++ reports.flatMap Prod.snd⟩

end FourLane.Session
