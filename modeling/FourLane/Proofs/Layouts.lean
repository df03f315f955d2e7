import FourLane.Proofs.SourceText
import FourLane.Proofs.TextBytes
import Mathlib

/-!
# Tokens laid out in a text

A layout is a text cut up in full: tokens, the blanks before each of them and the blanks at the end.
Where two atoms follow each other there has to be a blank between them, elsewhere there may be
none. The tokens of a layout are those that its text is cut into, and every text has a layout, so
nothing of a text is lost but its blanks and nothing is added.
-/
namespace FourLane

namespace Token

/-- What a token looks like. The end of input is not there. -/
def text : Token → String
  | .openParen => "("
  | .closeParen => ")"
  | .atom text => text
  | .endOfInput => ""

def IsAtom : Token → Prop
  | .atom _ => True
  | _ => False

/-- Parentheses and atoms. An atom is not empty, and has neither blanks nor parentheses. -/
def IsLexeme : Token → Prop
  | .openParen => True
  | .closeParen => True
  | .atom text => text ≠ "" ∧ ∀ b ∈ bytesOf text, IsAtomByte b
  | .endOfInput => False

theorem isLexeme_atom_iff (text : String) :
    (Token.atom text).IsLexeme ↔ text ≠ "" ∧ ∀ c ∈ text.toList, IsAtomChar c := by
  rw [← forall_isAtomByte_iff]
  rfl

theorem not_isBlankByte_of_isLexeme {t : Token} (h : t.IsLexeme) :
    ∀ b ∈ bytesOf t.text, ¬ IsBlankByte b := by
  cases t with
  | openParen => exact (forall_not_isBlankByte_iff "(").mpr (List.forall_mem_singleton.mpr rfl)
  | closeParen => exact (forall_not_isBlankByte_iff ")").mpr (List.forall_mem_singleton.mpr rfl)
  | atom text => exact fun b hb => (h.2 b hb).1
  | endOfInput => exact h.elim

theorem not_isAtomChar_of_isBlank {c : Char} (h : isBlank c = true) : ¬ IsAtomChar c := by
  intro hc
  rw [hc.1] at h
  contradiction

end Token

/-- The text of tokens with the blanks before each of them, and of the blanks at the end. -/
def spell (rest : String) : List (String × Token) → String
  | [] => rest
  | (blanks, t) :: pieces => blanks ++ t.text ++ spell rest pieces

/-- A text cut up in full. -/
structure Layout where
  /-- The tokens, each with the blanks before it. -/
  pieces : List (String × Token)
  /-- The blanks at the end. -/
  rest : String
  blank : ∀ p ∈ pieces, ∀ b ∈ bytesOf p.1, IsBlankByte b
  blank_rest : ∀ b ∈ bytesOf rest, IsBlankByte b
  lexeme : ∀ p ∈ pieces, p.2.IsLexeme
  separated : pieces.IsChain fun p q => p.2.IsAtom → q.2.IsAtom → q.1 ≠ ""

namespace Layout

open Token

def tokens (l : Layout) : List Token := l.pieces.map Prod.snd

def text (l : Layout) : String := spell l.rest l.pieces

/-- An atom may stand right before the layout: it does not begin with an atom of its own. -/
def Detached (l : Layout) : Prop := ∀ p ∈ l.pieces.head?, p.2.IsAtom → p.1 ≠ ""

def ofBlanks (blanks : String) (h : ∀ b ∈ bytesOf blanks, IsBlankByte b) : Layout where
  pieces := []
  rest := blanks
  blank := by simp
  blank_rest := h
  lexeme := by simp
  separated := .nil

def cons (blanks : String) (t : Token) (l : Layout) (hblanks : ∀ b ∈ bytesOf blanks, IsBlankByte b)
    (ht : t.IsLexeme) (hl : t.IsAtom → l.Detached) : Layout where
  pieces := (blanks, t) :: l.pieces
  rest := l.rest
  blank := List.forall_mem_cons.mpr ⟨hblanks, l.blank⟩
  blank_rest := l.blank_rest
  lexeme := List.forall_mem_cons.mpr ⟨ht, l.lexeme⟩
  separated := List.isChain_cons.mpr ⟨fun p hp ht => hl ht p hp, l.separated⟩

@[induction_eliminator]
theorem induction {P : Layout → Prop} (ofBlanks : ∀ blanks h, P (Layout.ofBlanks blanks h))
    (cons : ∀ blanks t l hblanks ht hl, P l → P (Layout.cons blanks t l hblanks ht hl))
    (l : Layout) : P l := by
  obtain ⟨pieces, rest, blank, blank_rest, lexeme, separated⟩ := l
  induction pieces with
  | nil => exact ofBlanks rest blank_rest
  | cons p pieces ih =>
    rw [List.forall_mem_cons] at blank lexeme
    rw [List.isChain_cons] at separated
    exact cons p.1 p.2 _ blank.1 lexeme.1 (fun ht q hq => separated.1 q hq ht)
      (ih blank.2 lexeme.2 separated.2)

theorem toList_text_cons (blanks : String) (t : Token) (l : Layout)
    (hblanks : ∀ b ∈ bytesOf blanks, IsBlankByte b) (ht : t.IsLexeme)
    (hl : t.IsAtom → l.Detached) :
    (cons blanks t l hblanks ht hl).text.toList =
      blanks.toList ++ (t.text.toList ++ l.text.toList) := by
  change (blanks ++ t.text ++ l.text).toList = _
  rw [String.toList_append, String.toList_append, List.append_assoc]

/-! ### The text of a layout is cut into its tokens -/

theorem not_isAtomChar_head_of_blanks {blanks more : List Char}
    (hblanks : ∀ c ∈ blanks, isBlank c = true) (hmore : ∀ c ∈ more.head?, ¬ IsAtomChar c) :
    ∀ c ∈ (blanks ++ more).head?, ¬ IsAtomChar c := by
  cases blanks with
  | nil => exact hmore
  | cons d blanks =>
    intro c hc
    cases hc
    exact not_isAtomChar_of_isBlank (hblanks d List.mem_cons_self)

/-- Blanks end an atom, and so do a parenthesis and the end of the text. -/
theorem Detached.not_isAtomChar_head {l : Layout} (h : l.Detached) :
    ∀ c ∈ l.text.toList.head?, ¬ IsAtomChar c := by
  induction l with
  | ofBlanks blanks hblanks =>
    have hchars := (forall_isBlankByte_iff blanks).mp hblanks
    exact fun c hc => not_isAtomChar_of_isBlank (hchars c (List.mem_of_mem_head? hc))
  | cons blanks t l hblanks ht hl ih =>
    rw [toList_text_cons]
    have hchars := (forall_isBlankByte_iff blanks).mp hblanks
    cases t with
    | openParen =>
      apply not_isAtomChar_head_of_blanks hchars
      intro c hc
      cases hc
      exact fun hopen => hopen.2.1 rfl
    | closeParen =>
      apply not_isAtomChar_head_of_blanks hchars
      intro c hc
      cases hc
      exact fun hclose => hclose.2.2 rfl
    | atom text =>
      have hne : blanks ≠ "" := h _ rfl trivial
      cases hcs : blanks.toList with
      | nil => exact absurd (String.toList_eq_nil_iff.mp hcs) hne
      | cons d cs =>
        intro c hc
        cases hc
        exact not_isAtomChar_of_isBlank (hchars d (hcs ▸ List.mem_cons_self))
    | endOfInput => exact ht.elim

theorem tokenize_text (l : Layout) : tokenize l.text.toList = l.tokens := by
  induction l with
  | ofBlanks blanks hblanks =>
    have hchars := (forall_isBlankByte_iff blanks).mp hblanks
    have hnil := tokenize_blanks_append blanks.toList [] hchars
    rwa [List.append_nil] at hnil
  | cons blanks t l hblanks ht hl ih =>
    rw [toList_text_cons, tokenize_blanks_append _ _ ((forall_isBlankByte_iff blanks).mp hblanks)]
    change _ = t :: l.tokens
    cases t with
    | openParen =>
      rw [← ih]
      exact tokenize_openParen _
    | closeParen =>
      rw [← ih]
      exact tokenize_closeParen _
    | atom text =>
      obtain ⟨hne, hchars⟩ := (isLexeme_atom_iff text).mp ht
      rw [← ih]
      exact tokenize_atom_append hne hchars (hl trivial).not_isAtomChar_head
    | endOfInput => exact ht.elim

/-- Only the blanks of the text are missing from its tokens. -/
theorem flatMap_bytesOf_tokens (l : Layout) :
    (l.tokens.flatMap fun t => bytesOf t.text) =
      (bytesOf l.text).filter fun b => ¬ IsBlankByte b := by
  have hnone (blanks : String) (h : ∀ b ∈ bytesOf blanks, IsBlankByte b) :
      ((bytesOf blanks).filter fun b => ¬ IsBlankByte b) = [] := by
    simpa [List.filter_eq_nil_iff] using h
  induction l with
  | ofBlanks blanks hblanks => exact (hnone blanks hblanks).symm
  | cons blanks t l hblanks ht hl ih =>
    have hall : ((bytesOf t.text).filter fun b => ¬ IsBlankByte b) = bytesOf t.text := by
      simpa [List.filter_eq_self] using not_isBlankByte_of_isLexeme ht
    change (t :: l.tokens).flatMap _ = (bytesOf (blanks ++ t.text ++ l.text)).filter _
    rw [List.flatMap_cons, ih, bytesOf_append, bytesOf_append, List.filter_append,
      List.filter_append, hnone blanks hblanks, hall, List.nil_append]

/-! ### Every text has a layout -/

/-- Blanks at the beginning join those before the first token. -/
theorem exists_blanks_append (l : Layout) {blanks : String}
    (hblanks : ∀ b ∈ bytesOf blanks, IsBlankByte b) :
    ∃ l' : Layout, l'.text.toList = blanks.toList ++ l.text.toList := by
  have happend (gap : String) (hgap : ∀ b ∈ bytesOf gap, IsBlankByte b) :
      ∀ b ∈ bytesOf (blanks ++ gap), IsBlankByte b := by
    rw [bytesOf_append]
    exact List.forall_mem_append.mpr ⟨hblanks, hgap⟩
  induction l with
  | ofBlanks gap hgap => exact ⟨ofBlanks _ (happend gap hgap), String.toList_append⟩
  | cons gap t l hgap ht hl ih =>
    refine ⟨cons _ t l (happend gap hgap) ht hl, ?_⟩
    rw [toList_text_cons, toList_text_cons, String.toList_append, List.append_assoc]

theorem exists_paren_cons (l : Layout) {t : Token} (ht : t.IsLexeme) (hatom : ¬ t.IsAtom) :
    ∃ l' : Layout, l'.text.toList = t.text.toList ++ l.text.toList :=
  ⟨cons "" t l (by simp [bytesOf]) ht (fun h => absurd h hatom), toList_text_cons _ _ _ _ _ _⟩

theorem detached_or_atom (l : Layout) :
    l.Detached ∨ ∃ (text : String) (l' : Layout), (Token.atom text).IsLexeme ∧ l'.Detached ∧
      l.text.toList = text.toList ++ l'.text.toList := by
  induction l with
  | ofBlanks blanks hblanks => exact .inl fun p hp => by cases hp
  | cons blanks t l hblanks ht hl ih =>
    by_cases hne : blanks = ""
    · cases t with
      | atom text =>
        refine .inr ⟨text, l, ht, hl trivial, ?_⟩
        rw [toList_text_cons, hne]
        rfl
      | _ =>
        refine .inl fun p hp hatom => ?_
        cases hp
        exact hatom.elim
    · refine .inl fun p hp _ => ?_
      cases hp
      exact hne

/-- A character right before an atom is its first one. Elsewhere it is an atom by itself. -/
theorem exists_atomChar_cons (l : Layout) {c : Char} (hc : IsAtomChar c) :
    ∃ l' : Layout, l'.text.toList = c :: l.text.toList := by
  have hlexeme (cs : List Char) (hcs : ∀ d ∈ cs, IsAtomChar d) :
      (Token.atom (String.ofList (c :: cs))).IsLexeme := by
    rw [isLexeme_atom_iff, ← String.toList_eq_nil_iff.ne, String.toList_ofList]
    exact ⟨List.cons_ne_nil c cs, List.forall_mem_cons.mpr ⟨hc, hcs⟩⟩
  rcases l.detached_or_atom with hl | ⟨text, l', htext, hl', heq⟩
  · refine ⟨cons "" _ l (by simp [bytesOf]) (hlexeme [] (by simp)) (fun _ => hl), ?_⟩
    simp [toList_text_cons, Token.text]
  · have hchars := ((isLexeme_atom_iff text).mp htext).2
    refine ⟨cons "" _ l' (by simp [bytesOf]) (hlexeme text.toList hchars) (fun _ => hl'), ?_⟩
    simp [toList_text_cons, Token.text, heq]

theorem exists_layout (cs : List Char) : ∃ l : Layout, l.text.toList = cs := by
  induction cs with
  | nil => exact ⟨ofBlanks "" (by simp [bytesOf]), rfl⟩
  | cons c cs ih =>
    obtain ⟨l, rfl⟩ := ih
    by_cases hblank : isBlank c = true
    · have hblanks : ∀ b ∈ bytesOf (String.ofList [c]), IsBlankByte b := by
        rw [forall_isBlankByte_iff]
        simpa using hblank
      simpa using l.exists_blanks_append hblanks
    · by_cases hopen : c = '('
      · rw [hopen]
        exact l.exists_paren_cons (t := .openParen) trivial id
      · by_cases hclose : c = ')'
        · rw [hclose]
          exact l.exists_paren_cons (t := .closeParen) trivial id
        · exact l.exists_atomChar_cons ⟨Bool.not_eq_true _ ▸ hblank, hopen, hclose⟩

end Layout

/-! ### Tokens one at a time -/

namespace TokenStream

/-- The token that is delivered after `n` others. -/
def nth (s : TokenStream) : Nat → Token
  | 0 => s.next.1
  | n + 1 => s.next.2.nth n

/-- These tokens are delivered, and then the end of input for ever. -/
def Returns (s : TokenStream) (ts : List Token) : Prop :=
  .endOfInput ∉ ts ∧ ∀ n, s.nth n = ts.getD n .endOfInput

theorem nth_pending (ts : List Token) (n : Nat) : nth ⟨none, ts⟩ n = ts.getD n .endOfInput := by
  induction n generalizing ts with
  | zero => cases ts <;> rfl
  | succ n ih =>
    cases ts with
    | nil => exact ih []
    | cons t ts => exact ih ts

theorem returns_ofString (text : String) : (ofString text).Returns (tokenize text.toList) :=
  ⟨endOfInput_notMem_tokenize _, nth_pending _⟩

end TokenStream

/-- The tokens of every text are its bytes without the blanks, cut at blanks and parentheses only,
and however tokens are laid out in a text, they are found again. -/
theorem tokens_laid_out :
    (∀ text, ∃ ts, (TokenStream.ofString text).Returns ts ∧
      (ts.flatMap fun t => bytesOf t.text) =
        ((bytesOf text).filter fun b => ¬ IsBlankByte b) ∧
      (∀ a, .atom a ∈ ts → a ≠ "" ∧ ∀ b ∈ bytesOf a, IsAtomByte b) ∧
      ∃ l : Layout, l.text = text ∧ l.tokens = ts) ∧
      ∀ l : Layout, (TokenStream.ofString l.text).Returns l.tokens := by
  have hreturns (l : Layout) : (TokenStream.ofString l.text).Returns l.tokens := by
    rw [← l.tokenize_text]
    exact TokenStream.returns_ofString l.text
  refine ⟨fun text => ?_, hreturns⟩
  obtain ⟨l, hl⟩ := Layout.exists_layout text.toList
  obtain rfl : l.text = text := String.toList_inj.mp hl
  refine ⟨l.tokens, hreturns l, l.flatMap_bytesOf_tokens, fun a ha => ?_, l, rfl, rfl⟩
  obtain ⟨p, hp, hpa⟩ := List.mem_map.mp ha
  have hlexeme := l.lexeme p hp
  rw [hpa] at hlexeme
  exact hlexeme

end FourLane
