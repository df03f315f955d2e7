import FourLane.Session.Basic

/-!
# Requests on source text

The requests of a session, made on texts. All but `submitAll` read the first form of
the text only.
-/
namespace FourLane.Session

def withForm {α : Type} (s : Session) (text : String) (request : Form → Outcome α) : Outcome α :=
  let r := readForm text
  match r.result with
  | .error e => ⟨.error (.read e), s, r.log⟩
  | .ok form =>
    let o := request form
    { o with log := r.log ++ o.log }

def withDefinition {α : Type} (s : Session) (text : String) (request : Definition → Outcome α) :
    Outcome α :=
  s.withForm text fun form =>
    match form.definition? with
    | some d => request d
    | none => ⟨.error .notDefinition, s, []⟩

def defineText (s : Session) (text : String) (backend : Backend := .plain) : Outcome Unit :=
  s.withDefinition text fun d => s.define d backend

def exportDefinitionText (s : Session) (text : String) (backend : Backend := .plain) :
    Outcome Handle :=
  s.withDefinition text fun d => s.exportDefinition d backend

def exportExpressionText (s : Session) (text : String) (params : List String)
    (backend : Backend := .plain) : Outcome Handle :=
  s.withForm text fun form => s.exportExpression form params backend

def submit (s : Session) (text : String) (backend : Backend := .plain) :
    Outcome (Option Handle) :=
  s.withForm text fun form => s.submitForm form backend

structure Batch where
  results : List (Except CompileFault (Option Handle))
  session : Session
  log : List Event

/-- Submits forms up to the first that fails, to be read or to be compiled. -/
def submitReadings (s : Session) (rs : List Reading) (backend : Backend := .plain) : Batch :=
  match rs with
  | [] => ⟨[], s, []⟩
  | r :: rs =>
    match r.result with
    | .error e => ⟨[.error (.read e)], s, r.log⟩
    | .ok form =>
      let o := s.submitForm form backend
      match o.result with
      | .error e => ⟨[.error e], o.session, r.log ++ o.log⟩
      | .ok handle =>
        let b := o.session.submitReadings rs backend
        ⟨.ok handle :: b.results, b.session, r.log ++ o.log ++ b.log⟩

def submitAll (s : Session) (text : String) (backend : Backend := .plain) : Batch :=
  s.submitReadings (TokenStream.ofString text).readForms backend

end FourLane.Session
