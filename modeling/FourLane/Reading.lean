import FourLane.Event
import FourLane.Fault
import FourLane.Form
import FourLane.Token

/-!
# Reading forms

A `Reader` is what is known between two tokens: what has to come next, and the
forms that were begun and wait for it. Each token moves it on, completes the form
or is a fault, so every fault is noticed at the first token that no form can
continue with. `TokenStream.read` runs a reader from its start, `readForms` as
often as forms follow.
-/
namespace FourLane

inductive Expected where
  | form
  | head
  | defName
  | paramList (name : String)
  | param (name : String) (params : List String)
  | close (name : String) (params : List String) (body : Form)

/-- A form that waits for one inside it. Arguments are kept last first. -/
inductive Frame where
  | call (head : String) (args : List Form)
  | body (name : String) (params : List String)

structure Reader where
  expected : Expected := .form
  frames : List Frame := []
  log : Array Event := #[]

inductive Progress where
  | more (reader : Reader)
  | finished (result : Except ReadFault Form) (log : Array Event)

namespace Reader

/-- Hands a complete form to the innermost frame that waits for one. -/
def deliver (frames : List Frame) (log : Array Event) (form : Form) : Progress :=
  match frames with
  | [] => .finished (.ok form) log
  | .call head args :: frames =>
    .more { expected := .form, frames := .call head (form :: args) :: frames, log }
  | .body name params :: frames => .more { expected := .close name params form, frames, log }

def isParam (text : String) : Bool :=
  match text.toList with
  | c :: _ => c.isAlpha
  | [] => false

def feed (r : Reader) (token : Token) : Progress :=
  let fail (e : ReadFault) : Progress := .finished (.error e) r.log
  match r.expected, token with
  | _, .endOfInput => fail .unfinished
  | .form, .atom text => deliver r.frames r.log (.ofAtom text)
  | .form, .openParen => .more { r with expected := .head }
  | .form, .closeParen =>
    match r.frames with
    | .call head args :: frames => deliver frames r.log (.call head args.reverse)
    | _ => fail .strayClose
  | .head, .atom text =>
    if text = "def" then .more { r with expected := .defName }
    else .more { r with expected := .form, frames := .call text [] :: r.frames }
  | .head, _ => fail .noHead
  | .defName, .atom name => .more { r with expected := .paramList name }
  | .defName, _ => fail (.definition .name)
  | .paramList name, .openParen => .more { r with expected := .param name [] }
  | .paramList _, _ => fail (.definition .paramList)
  | .param name params, .atom text =>
    if isParam text then .more { r with expected := .param name (text :: params) }
    else fail (.paramName text)
  | .param name params, .closeParen =>
    .more { r with expected := .form, frames := .body name params.reverse :: r.frames }
  | .param _ _, .openParen => fail (.definition .param)
  | .close name params body, .closeParen =>
    let log := r.log.push (.definitionRead name params.length)
    deliver r.frames log (.definition name params body)
  | .close _ _ _, _ => fail (.definition .close)

end Reader

structure Reading where
  result : Except ReadFault Form
  rest : List Token
  log : List Event

namespace Reader

def run (r : Reader) : List Token → Reading
  | [] => ⟨.error .unfinished, [], r.log.toList⟩
  | token :: tokens =>
    match r.feed token with
    | .more r => r.run tokens
    | .finished result log => ⟨result, tokens, log.toList⟩

theorem length_rest_run (r : Reader) (token : Token) (tokens : List Token) :
    (r.run (token :: tokens)).rest.length ≤ tokens.length := by
  induction tokens generalizing r token with
  | nil => rw [run]; cases r.feed token <;> simp [run]
  | cons token' tokens ih =>
    rw [run]
    cases r.feed token with
    | more r => exact Nat.le_succ_of_le (ih r token')
    | finished result log => simp

end Reader

namespace Reading

def stream (r : Reading) : TokenStream := { pending := r.rest }

end Reading

namespace TokenStream

def read (s : TokenStream) : Reading := ({} : Reader).run s.toList

def readNext? (s : TokenStream) : Option Reading :=
  match s.next with
  | (.endOfInput, _) => none
  | (token, s) => some (s.unread token).read

theorem length_readNext? {s : TokenStream} {r : Reading} (h : s.readNext? = some r) :
    r.stream.toList.length < s.toList.length := by
  unfold readNext? at h
  split at h
  · cases h
  · rename_i token s' hne heq
    have ht : s.next.1 ≠ .endOfInput := by rw [heq]; exact fun h => hne (by simpa using h)
    have hp : s'.front = none := by have := s.front_next; rwa [heq] at this
    have hs := s.next_toList ht
    rw [heq] at hs
    cases h
    rw [hs, Reading.stream, read, toList_unread _ _ hp]
    exact Nat.lt_succ_of_le (Reader.length_rest_run _ _ _)

/-- Reads forms up to the end of input or the first fault. -/
def readForms (s : TokenStream) : List Reading :=
  match _h : s.readNext? with
  | none => []
  | some r =>
    match r.result with
    | .error _ => [r]
    | .ok _ => r :: r.stream.readForms
termination_by s.toList.length
decreasing_by exact length_readNext? _h

end TokenStream

def Reading.forms : List Reading → Except ReadFault (List Form)
  | [] => .ok []
  | r :: rs =>
    match r.result, Reading.forms rs with
    | .error e, _ => .error e
    | .ok _, .error e => .error e
    | .ok form, .ok forms => .ok (form :: forms)

/-- Reads the first form of a text; what follows is ignored. -/
def readForm (text : String) : Reading := (TokenStream.ofString text).read

end FourLane
