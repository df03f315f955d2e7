import FourLane.Proofs.ByteOffsets
import FourLane.Proofs.Layouts
import Mathlib

/-!
# Tokens from bytes

The scanner of this module goes over the bytes of a text and does not know its characters. It skips
blanks, then takes a parenthesis, or all bytes up to the next blank or parenthesis, which it cuts out
of the text as an atom. Every byte of a character beyond 127 is in the same class as the character,
so it stops in front of characters only. Its tokens are those that `tokenize` finds.
-/
namespace FourLane

def skip (p : UInt8 → Bool) (text : String) (pos : Nat) : Except ScanFault Nat :=
  if pos < (bytesOf text).length then do
    let b ← byteAt text pos
    if p b then skip p text (pos + 1) else return pos
  else return pos
termination_by (bytesOf text).length - pos

/-- A token by its place in a text. -/
inductive Span where
  | openParen
  | closeParen
  | atom (start stop : Nat)
  | endOfInput

def Span.token (text : String) : Span → Except ScanFault Token
  | .openParen => return .openParen
  | .closeParen => return .closeParen
  | .atom start stop => return .atom (← slice text start stop)
  | .endOfInput => return .endOfInput

/-- The place of the next token from an offset on, and the offset behind it. -/
def nextSpan (text : String) (pos : Nat) : Except ScanFault (Span × Nat) := do
  let start ← skip (fun b => IsBlankByte b) text pos
  match (bytesOf text)[start]? with
  | none => return (.endOfInput, start)
  | some b =>
    if b = byteOf '(' then return (.openParen, start + 1)
    else if b = byteOf ')' then return (.closeParen, start + 1)
    else
      let stop ← skip (fun b => IsAtomByte b) text start
      return (.atom start stop, stop)

def nextToken (text : String) (pos : Nat) : Except ScanFault (Token × Nat) := do
  let (span, stop) ← nextSpan text pos
  return (← span.token text, stop)

/-- The offset at which the scanner stands after a number of tokens. -/
def offsetAfter (text : String) : Nat → Except ScanFault Nat
  | 0 => return 0
  | n + 1 => do
    let pos ← offsetAfter text n
    let (_, stop) ← nextToken text pos
    return stop

variable {text : String} {pos : Nat} {rest : List Char}

theorem byteAt_of_lt {i : Nat} (h : i < (bytesOf text).length) :
    byteAt text i = .ok (bytesOf text)[i] := by
  rw [byteAt, List.getElem?_eq_getElem h]

theorem skip_eq (p : UInt8 → Bool) (text : String) (pos : Nat) :
    skip p text pos = .ok (pos + (((bytesOf text).drop pos).takeWhile p).length) := by
  -- The induction is on the number of bytes that are left.
  induction hn : (bytesOf text).length - pos generalizing pos with
  | zero =>
    rw [skip, if_neg (by omega), List.drop_eq_nil_of_le (by omega)]
    rfl
  | succ n ih =>
    have hlt : pos < (bytesOf text).length := by omega
    rw [skip, if_pos hlt, byteAt_of_lt hlt, List.drop_eq_getElem_cons hlt]
    change (if p (bytesOf text)[pos] then skip p text (pos + 1) else .ok pos) = _
    by_cases hp : p (bytesOf text)[pos] = true
    · rw [if_pos hp, ih (pos + 1) (by omega), List.takeWhile_cons_of_pos hp, List.length_cons,
        Nat.add_assoc, Nat.add_comm 1]
    · rw [if_neg hp, List.takeWhile_cons_of_neg hp]
      rfl

theorem InFront.skip_eq (h : InFront text pos rest) {p : UInt8 → Bool} {q : Char → Bool}
    (hpq : Agrees p q) :
    skip p text pos = .ok (pos + String.utf8Len (rest.takeWhile q)) := by
  rw [FourLane.skip_eq, h.drop_bytesOf, hpq.takeWhile_encode, length_encode]

theorem agrees_blank : Agrees (fun b => IsBlankByte b) Token.isBlank := uniform_blank.agrees

instance (c : Char) : Decidable (Token.IsAtomChar c) := inferInstanceAs (Decidable (_ ∧ _))

theorem agrees_atom : Agrees (fun b => IsAtomByte b) fun c => Token.IsAtomChar c := by
  intro c b hb
  have h := uniform_atom.mem_utf8EncodeChar hb
  rw [decide_eq_decide]
  simpa only [IsAtomByte, IsBlankByte, Token.IsAtomChar, Token.isBlank, decide_eq_false_iff_not,
    ne_eq, Char.toNat_inj] using h

/-! ### One token -/

/-- From an offset in front of characters the scanner comes to another one. It has found the first of
their tokens, and the ends of an atom are boundaries. -/
def Scans (text : String) (pos : Nat) (rest : List Char) : Prop :=
  ∃ span stop more, nextSpan text pos = .ok (span, stop) ∧ InFront text stop more ∧
    span.token text = .ok ((tokenize rest).headD .endOfInput) ∧
    tokenize more = (tokenize rest).tail ∧
    ∀ first last, span = .atom first last → first < last ∧
      String.Pos.Raw.IsValid text ⟨first⟩ ∧ String.Pos.Raw.IsValid text ⟨last⟩

theorem nextSpan_of_skip {start : Nat} (h : skip (fun b => IsBlankByte b) text pos = .ok start) :
    nextSpan text pos =
      match (bytesOf text)[start]? with
      | none => .ok (.endOfInput, start)
      | some b =>
        if b = byteOf '(' then .ok (.openParen, start + 1)
        else if b = byteOf ')' then .ok (.closeParen, start + 1)
        else do
          let stop ← skip (fun b => IsAtomByte b) text start
          return (.atom start stop, stop) := by
  rw [nextSpan, h]
  rfl

theorem InFront.skip_blanks (h : InFront text pos rest)
    (hrest : ∀ c ∈ rest.head?, Token.isBlank c = false) :
    skip (fun b => IsBlankByte b) text pos = .ok pos := by
  have htake : rest.takeWhile Token.isBlank = [] := by
    cases rest with
    | nil => rfl
    | cons c cs => exact List.takeWhile_cons_of_neg (by simp [hrest c rfl])
  rw [h.skip_eq agrees_blank, htake]
  rfl

theorem InFront.scans_nil (h : InFront text pos []) : Scans text pos [] := by
  refine ⟨.endOfInput, pos, [], ?_, h, rfl, rfl, by simp⟩
  rw [nextSpan_of_skip (h.skip_blanks (by simp)), h.getElem?_bytesOf]
  rfl

theorem InFront.scans_openParen (h : InFront text pos ('(' :: rest)) :
    Scans text pos ('(' :: rest) := by
  refine ⟨.openParen, pos + 1, rest, ?_, h.cons (by decide), ?_, ?_, by simp⟩
  · rw [nextSpan_of_skip (h.skip_blanks (by simp [Token.isBlank])), h.getElem?_bytesOf]
    rfl
  · rw [tokenize_openParen]
    rfl
  · rw [tokenize_openParen]
    rfl

theorem InFront.scans_closeParen (h : InFront text pos (')' :: rest)) :
    Scans text pos (')' :: rest) := by
  refine ⟨.closeParen, pos + 1, rest, ?_, h.cons (by decide), ?_, ?_, by simp⟩
  · rw [nextSpan_of_skip (h.skip_blanks (by simp [Token.isBlank])), h.getElem?_bytesOf]
    rfl
  · rw [tokenize_closeParen]
    rfl
  · rw [tokenize_closeParen]
    rfl

theorem InFront.scans_atom {c : Char} (h : InFront text pos (c :: rest)) (hc : Token.IsAtomChar c) :
    Scans text pos (c :: rest) := by
  have hbyte {a : Char} (ha : a.toNat < 128) (hne : c ≠ a) :
      (bytesOf text)[pos]? ≠ some (byteOf a) := by
    rw [Ne, h.getElem?_bytesOf_eq_iff ha]
    simpa using hne
  obtain ⟨b, -, hb⟩ := h.exists_getElem?
  have hopen : b ≠ byteOf '(' := fun heq => hbyte (by decide) hc.2.1 (heq ▸ hb)
  have hclose : b ≠ byteOf ')' := fun heq => hbyte (by decide) hc.2.2 (heq ▸ hb)
  have hspan : nextSpan text pos =
      .ok (.atom pos (pos + String.utf8Len ((c :: rest).takeWhile fun c => Token.IsAtomChar c)),
        pos + String.utf8Len ((c :: rest).takeWhile fun c => Token.IsAtomChar c)) := by
    have hskip := h.skip_blanks (by simpa using hc.1)
    rw [nextSpan_of_skip hskip, hb]
    simp only [if_neg hopen, if_neg hclose, h.skip_eq agrees_atom]
    rfl
  -- The atom, and what follows it.
  have hsplit : c :: rest = ((c :: rest).takeWhile fun c => Token.IsAtomChar c) ++
      (c :: rest).dropWhile fun c => Token.IsAtomChar c := List.takeWhile_append_dropWhile.symm
  have hatom : ∀ d ∈ (c :: rest).takeWhile fun c => Token.IsAtomChar c, Token.IsAtomChar d :=
    fun d hd => by simpa using List.mem_takeWhile_imp hd
  have hmore : ∀ d ∈ ((c :: rest).dropWhile fun c => Token.IsAtomChar c).head?,
      ¬ Token.IsAtomChar d := by
    intro d hd
    have hnot := List.head?_dropWhile_not (fun c => decide (Token.IsAtomChar c)) (c :: rest)
    rw [hd] at hnot
    simpa using hnot
  have hne : ((c :: rest).takeWhile fun c => Token.IsAtomChar c) ≠ [] := by simp [hc]
  generalize ((c :: rest).takeWhile fun c => Token.IsAtomChar c) = cs at *
  generalize ((c :: rest).dropWhile fun c => Token.IsAtomChar c) = more at *
  rw [hsplit] at h ⊢
  have htokens : tokenize (cs ++ more) = .atom (String.ofList cs) :: tokenize more := by
    have happend := @tokenize_atom_append (String.ofList cs)
    rw [String.toList_ofList] at happend
    exact happend (by simpa using hne) hatom hmore
  refine ⟨_, _, more, hspan, h.append, ?_, ?_, ?_⟩
  · rw [htokens, Span.token, h.slice_eq]
    rfl
  · rw [htokens]
    rfl
  · rintro first last ⟨⟩
    refine ⟨?_, h.isValid, h.append.isValid⟩
    have hpos : String.utf8Len cs ≠ 0 := mt String.utf8Len_eq_zero.mp hne
    omega

theorem InFront.scans_blanks {blanks : List Char} (h : InFront text pos (blanks ++ rest))
    (hblanks : ∀ c ∈ blanks, Token.isBlank c = true)
    (hrest : ∀ c ∈ rest.head?, Token.isBlank c = false)
    (hscans : Scans text (pos + String.utf8Len blanks) rest) : Scans text pos (blanks ++ rest) := by
  have htake : (blanks ++ rest).takeWhile Token.isBlank = blanks := by
    rw [List.takeWhile_append_of_pos hblanks]
    cases rest with
    | nil => exact List.append_nil blanks
    | cons c cs => rw [List.takeWhile_cons_of_neg (by simp [hrest c rfl]), List.append_nil]
  have hskip := h.skip_eq agrees_blank
  rw [htake] at hskip
  have hspan : nextSpan text pos = nextSpan text (pos + String.utf8Len blanks) := by
    rw [nextSpan_of_skip hskip, nextSpan_of_skip (h.append.skip_blanks hrest)]
  rw [Scans, hspan, tokenize_blanks_append blanks rest hblanks]
  exact hscans

theorem InFront.scans (h : InFront text pos rest) : Scans text pos rest := by
  have hsplit : rest = rest.takeWhile Token.isBlank ++ rest.dropWhile Token.isBlank :=
    List.takeWhile_append_dropWhile.symm
  have hblanks : ∀ c ∈ rest.takeWhile Token.isBlank, Token.isBlank c = true :=
    fun c hc => List.mem_takeWhile_imp hc
  have hmore : ∀ c ∈ (rest.dropWhile Token.isBlank).head?, Token.isBlank c = false := by
    intro c hc
    have hnot := List.head?_dropWhile_not Token.isBlank rest
    rwa [hc] at hnot
  generalize rest.takeWhile Token.isBlank = blanks at *
  generalize rest.dropWhile Token.isBlank = more at *
  subst hsplit
  apply h.scans_blanks hblanks hmore
  have hstart := h.append
  cases more with
  | nil => exact hstart.scans_nil
  | cons c cs =>
    by_cases hopen : c = '('
    · rw [hopen] at hstart ⊢
      exact hstart.scans_openParen
    · by_cases hclose : c = ')'
      · rw [hclose] at hstart ⊢
        exact hstart.scans_closeParen
      · exact hstart.scans_atom ⟨hmore c rfl, hopen, hclose⟩

/-! ### All tokens -/

theorem nextToken_of_span {span : Span} {stop : Nat} {t : Token}
    (hspan : nextSpan text pos = .ok (span, stop)) (htoken : span.token text = .ok t) :
    nextToken text pos = .ok (t, stop) := by
  rw [nextToken, hspan]
  change (do return (← span.token text, stop)) = _
  rw [htoken]
  rfl

theorem exists_offsetAfter (text : String) (n : Nat) :
    ∃ pos rest, offsetAfter text n = .ok pos ∧ InFront text pos rest ∧
      tokenize rest = (tokenize text.toList).drop n := by
  induction n with
  | zero => exact ⟨0, text.toList, rfl, .start text, rfl⟩
  | succ n ih =>
    obtain ⟨pos, rest, hoffset, hfront, hrest⟩ := ih
    obtain ⟨span, stop, more, hspan, hstop, htoken, hmore, -⟩ := hfront.scans
    refine ⟨stop, more, ?_, hstop, ?_⟩
    · rw [offsetAfter, hoffset]
      change (do let (_, stop) ← nextToken text pos; return stop) = _
      rw [nextToken_of_span hspan htoken]
      rfl
    · rw [hmore, hrest, List.tail_drop]

/-- The tokens from bytes are those from characters, and atoms are cut out at boundaries. -/
theorem nextToken_offsetAfter (text : String) (n : Nat) :
    ∃ pos span stop, offsetAfter text n = .ok pos ∧ nextSpan text pos = .ok (span, stop) ∧
      nextToken text pos = .ok ((TokenStream.ofString text).nth n, stop) ∧
      ∀ first last, span = .atom first last → first < last ∧
        String.Pos.Raw.IsValid text ⟨first⟩ ∧ String.Pos.Raw.IsValid text ⟨last⟩ := by
  obtain ⟨pos, rest, hoffset, hfront, hrest⟩ := exists_offsetAfter text n
  obtain ⟨span, stop, more, hspan, -, htoken, -, hvalid⟩ := hfront.scans
  have hnth : (tokenize rest).headD .endOfInput = (TokenStream.ofString text).nth n := by
    rw [hrest, List.headD_eq_head?_getD, List.head?_drop, TokenStream.ofString,
      TokenStream.nth_pending, List.getD_eq_getElem?_getD]
  rw [hnth] at htoken
  exact ⟨pos, span, stop, hoffset, hspan, nextToken_of_span hspan htoken, hvalid⟩

end FourLane
