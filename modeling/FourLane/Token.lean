/-!
# Tokens

A text is cut at blanks and parentheses. `tokenize` gives its tokens in order. A
`TokenStream` delivers them one at a time, can take one token back, and reports
the end of input for ever once no token is left.
-/
namespace FourLane

inductive Token where
  | openParen
  | closeParen
  | atom (text : String)
  | endOfInput
deriving DecidableEq

namespace Token

/-- Blanks are the space and everything below it. -/
def isBlank (c : Char) : Bool := c.toNat ≤ 0x20

/-- Tokens found so far and the characters of an unfinished atom, both last first. -/
structure Cut where
  tokens : List Token := []
  atom : List Char := []

namespace Cut

def flush (cut : Cut) : List Token :=
  match cut.atom with
  | [] => cut.tokens
  | cs => .atom (String.ofList cs.reverse) :: cut.tokens

def push (cut : Cut) (c : Char) : Cut :=
  if isBlank c then { tokens := cut.flush }
  else if c = '(' then { tokens := .openParen :: cut.flush }
  else if c = ')' then { tokens := .closeParen :: cut.flush }
  else { cut with atom := c :: cut.atom }

end Cut

end Token

def tokenize (text : List Char) : List Token :=
  (text.foldl Token.Cut.push {}).flush.reverse

structure TokenStream where
  front : Option Token := none
  pending : List Token

namespace TokenStream

def ofString (text : String) : TokenStream := { pending := tokenize text.toList }

def toList (s : TokenStream) : List Token := s.front.toList ++ s.pending

def next (s : TokenStream) : Token × TokenStream :=
  match s.front, s.pending with
  | some t, ts => (t, { pending := ts })
  | none, t :: ts => (t, { pending := ts })
  | none, [] => (.endOfInput, s)

/-- The next token is `t`. There is room for one token only. -/
def unread (s : TokenStream) (t : Token) : TokenStream := { s with front := some t }

theorem next_toList (s : TokenStream) (h : s.next.1 ≠ .endOfInput) :
    s.toList = s.next.1 :: s.next.2.toList := by
  obtain ⟨front, pending⟩ := s
  cases front with
  | some t => rfl
  | none =>
    cases pending with
    | nil => exact absurd rfl h
    | cons t ts => rfl

theorem front_next (s : TokenStream) : s.next.2.front = none := by
  obtain ⟨front, pending⟩ := s
  cases front with
  | some t => rfl
  | none => cases pending <;> rfl

theorem toList_unread (s : TokenStream) (t : Token) (h : s.front = none) :
    (s.unread t).toList = t :: s.toList := by
  simp [toList, unread, h]

end TokenStream

end FourLane
