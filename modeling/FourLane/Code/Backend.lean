import FourLane.Code.Listing
import FourLane.Text

/-!
# The code generator

What makes code of routines is not part of this library. All that is known of it is what it
can refuse, and the text of a routine after it was optimized, where it is.
-/
namespace FourLane

inductive Optimization where
  | off
  | speed
  | speedAndSize
deriving DecidableEq

/-- When a routine is refused: before it has a number, before it is listed, or at last when
it is made ready to be called. -/
inductive Stage where
  | declaration
  | definition
  | completion
deriving DecidableEq

structure Backend where
  /-- Why no session can be opened, if none can. -/
  failure? : Option String := none
  refusal? : Routine → Option (Stage × String) := fun _ => none
  optimized : Optimization → Routine → String := fun _ r => unlines r.lines

namespace Backend

def plain : Backend := {}

/-- Opens every session and refuses no routine, whatever it makes of the code. -/
def Reliable (backend : Backend) : Prop :=
  backend.failure? = none ∧ ∀ r, backend.refusal? r = none

def text (backend : Backend) (r : Routine) : Optimization → String
  | .off => unlines r.lines
  | level => backend.optimized level r

end Backend

structure Listed where
  name : String
  routine : Routine
deriving DecidableEq

namespace Listed

def header (l : Listed) : String :=
  s!"; {l.name} ({l.routine.convention.text}, {l.routine.arity} param(s))"

def text (backend : Backend) (level : Optimization) (l : Listed) : String :=
  l.header ++ "\n" ++ backend.text l.routine level

end Listed

end FourLane
