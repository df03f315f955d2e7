/-!
# What can go wrong

One type of causes per stage: reading a form, compiling it, calling the result. The
wording of each cause is in its `message`.
-/
namespace FourLane

/-- The part of a definition that is not as it should be. -/
inductive DefinitionPart where
  | name
  | paramList
  | param
  | close
deriving DecidableEq

def DefinitionPart.message : DefinitionPart → String
  | .name => "expected a name"
  | .paramList => "expected a parameter list"
  | .param => "parameters must be identifiers"
  | .close => "expected `)` after the body"

inductive ReadFault where
  | unfinished
  | strayClose
  | noHead
  | definition (part : DefinitionPart)
  | paramName (name : String)
deriving DecidableEq

def ReadFault.message : ReadFault → String
  | .unfinished => "unexpected end of input"
  | .strayClose => "unexpected `)`"
  | .noHead => "expected an identifier after `(`"
  | .definition part => s!"malformed def: {part.message}"
  | .paramName name => s!"invalid parameter name `{name}`"

inductive CompileFault where
  | read (fault : ReadFault)
  | notDefinition
  | repeatedParam (name : String)
  | reservedParam
  | unresolved (head : String) (count : Nat)
  | nested (name : String)
  | backend (reason : String)
deriving DecidableEq

def CompileFault.message : CompileFault → String
  | .read fault => s!"parse error: {fault.message}"
  | .notDefinition => "expected a definition"
  | .repeatedParam name => s!"duplicate parameter `{name}`"
  | .reservedParam => "`result` is reserved and cannot name a parameter"
  | .unresolved name count => s!"no function `{name}` taking {count} argument(s)"
  | .nested name => s!"definition of `{name}` is only allowed at top level"
  | .backend reason => s!"code generation failed: {reason}"

/-- A trap is a fault of the machine. Compiled code has none. -/
inductive CallFault where
  | wrongCount (expected given : Nat)
  | tooMany (count : Nat)
  | trap
deriving DecidableEq

def CallFault.message : CallFault → String
  | .wrongCount expected got => s!"expected {expected} argument(s), got {got}"
  | .tooMany count =>
    s!"calls with {count} arguments are only supported through the raw pointer"
  | .trap => "the machine stopped before the result was stored"

end FourLane
