/-!
# The log

Reading, compiling and evaluating report what they do as a list of events, in the
order in which they happen. A reader of the log chooses a level and sees the events
of that level and above.
-/
namespace FourLane

/-- How a function receives its arguments: by value, or through pointers. -/
inductive Convention where
  | byValue
  | byAddress
deriving DecidableEq

def Convention.text : Convention → String
  | .byValue => "internal"
  | .byAddress => "external"

inductive Level where
  | debug
  | trace
deriving DecidableEq

def Level.text : Level → String
  | .debug => "DEBUG"
  | .trace => "TRACE"

/-- Whether a log kept at the first level has records of the second. -/
def Level.shows : Level → Level → Bool
  | .trace, _ => true
  | .debug, level => level = .debug

inductive Event where
  | definitionRead (name : String) (params : Nat)
  | unboundName (name : String)
  | definitionRejected (name : String)
  | functionMissing (name : String) (count : Nat)
  | compiled (name : String) (convention : Convention) (params : Nat)
  | shadowed (name : String)
  | bareExpression
  | evaluationFailed (source reason : String)
deriving DecidableEq

namespace Event

def level : Event → Level
  | .definitionRead .. | .unboundName .. => .trace
  | _ => .debug

def target : Event → String
  | .definitionRead .. => "simd_lisp::reader::parser"
  | .unboundName .. | .definitionRejected .. | .functionMissing .. => "simd_lisp::jit::translate"
  | .compiled .. | .shadowed .. => "simd_lisp::jit::compiler"
  | .bareExpression => "simd_lisp::pipeline"
  | .evaluationFailed .. => "simd_lisp::repl"

def message : Event → String
  | .definitionRead name params => s!"parsed def {name} with {params} param(s)"
  | .unboundName name => s!"unbound variable `{name}` reads as zero"
  | .definitionRejected name => s!"rejecting nested definition of `{name}`"
  | .functionMissing name count => s!"no function `{name}` taking {count} argument(s)"
  | .compiled name convention params =>
    s!"compiled `{name}` ({convention.text} convention, {params} param(s))"
  | .shadowed name => s!"`{name}` shadows an earlier definition"
  | .bareExpression => "compiling bare expression for the host"
  | .evaluationFailed source reason => s!"{source}: {reason}"

def text (e : Event) : String := s!"{e.level.text} {e.target}: {e.message}"

def records (level : Level) (log : List Event) : List String :=
  (log.filter fun e => level.shows e.level).map text

end Event

end FourLane
