import FourLane.Numeral

/-!
# Forms

The trees that texts are read into and functions are compiled from.
-/
namespace FourLane

inductive Form where
  | number (value : Lane)
  | var (name : String)
  | call (head : String) (args : List Form)
  | definition (name : String) (params : List String) (body : Form)

structure Definition where
  name : String
  params : List String
  body : Form

def Definition.arity (d : Definition) : Nat := d.params.length

namespace Form

/-- An atom that reads as zero names a variable: no text denotes the number zero. -/
def ofAtom (text : String) : Form :=
  let value := readNumber text.toList
  if value.isZero then .var text else .number value

def definition? : Form → Option Definition
  | .definition name params body => some { name, params, body }
  | _ => none

end Form

end FourLane
