import FourLane.Proofs.Grammar
import Mathlib.Data.List.Forall2

/-!
# Texts put one behind the other

Blanks end an atom and are no tokens themselves. So the tokens of two texts with blanks between
them are the tokens of the first and then those of the second, and where each text spells one
form, the forms are read one by one.
-/
namespace FourLane

namespace Token

def IsAtomChar (c : Char) : Prop := isBlank c = false ∧ c ≠ '(' ∧ c ≠ ')'

namespace Cut

theorem flush_append (tokens earlier : List Token) (atom : List Char) :
    flush ⟨tokens ++ earlier, atom⟩ = flush ⟨tokens, atom⟩ ++ earlier := by
  cases atom <;> rfl

theorem push_append (tokens earlier : List Token) (atom : List Char) (c : Char) :
    push ⟨tokens ++ earlier, atom⟩ c =
      ⟨(push ⟨tokens, atom⟩ c).tokens ++ earlier, (push ⟨tokens, atom⟩ c).atom⟩ := by
  unfold push
  rw [flush_append]
  split_ifs <;> rfl

theorem foldl_push_append (cs : List Char) (tokens earlier : List Token) (atom : List Char) :
    cs.foldl push ⟨tokens ++ earlier, atom⟩ =
      ⟨(cs.foldl push ⟨tokens, atom⟩).tokens ++ earlier, (cs.foldl push ⟨tokens, atom⟩).atom⟩ := by
  induction cs generalizing tokens atom with
  | nil => rfl
  | cons c cs ih =>
    rw [List.foldl_cons, push_append, ih]
    rfl

theorem push_of_isBlank (cut : Cut) (c : Char) (h : isBlank c = true) :
    cut.push c = { tokens := cut.flush } := by
  rw [push, if_pos h]

theorem push_of_atom (tokens : List Token) (atom : List Char) {c : Char} (h : IsAtomChar c) :
    push ⟨tokens, atom⟩ c = ⟨tokens, c :: atom⟩ := by
  rw [push, if_neg (by simp [h.1]), if_neg h.2.1, if_neg h.2.2]

/-- Any other character ends the atom before it. -/
theorem push_of_not_atom (cut : Cut) {c : Char} (h : ¬ IsAtomChar c) :
    cut.push c = push ⟨cut.flush, []⟩ c := by
  unfold push
  split_ifs with hblank hopen hclose
  · rfl
  · rfl
  · rfl
  · exact absurd ⟨Bool.not_eq_true _ ▸ hblank, hopen, hclose⟩ h

theorem foldl_push_of_atom (tokens : List Token) (atom : List Char) {cs : List Char}
    (h : ∀ c ∈ cs, IsAtomChar c) :
    cs.foldl push ⟨tokens, atom⟩ = ⟨tokens, cs.reverse ++ atom⟩ := by
  induction cs generalizing atom with
  | nil => rfl
  | cons c cs ih =>
    rw [List.foldl_cons, push_of_atom tokens atom (h c List.mem_cons_self),
      ih (c :: atom) fun d hd => h d (List.mem_cons_of_mem c hd), List.reverse_cons,
      List.append_assoc]
    rfl

theorem endOfInput_notMem_flush (cut : Cut) (h : .endOfInput ∉ cut.tokens) :
    .endOfInput ∉ cut.flush := by
  obtain ⟨tokens, atom⟩ := cut
  cases atom with
  | nil => exact h
  | cons c cs => simpa [flush] using h

theorem endOfInput_notMem_push (cut : Cut) (c : Char) (h : .endOfInput ∉ cut.tokens) :
    .endOfInput ∉ (cut.push c).tokens := by
  have hflush := cut.endOfInput_notMem_flush h
  unfold push
  split_ifs
  · exact hflush
  · simpa using hflush
  · simpa using hflush
  · exact h

/-- Between atoms, what is cut from here on does not depend on the tokens found earlier. -/
theorem reverse_flush_foldl_push (cs : List Char) (tokens : List Token) :
    (cs.foldl push ⟨tokens, []⟩).flush.reverse = tokens.reverse ++ tokenize cs := by
  have hfold := foldl_push_append cs [] tokens []
  rw [List.nil_append] at hfold
  rw [hfold, flush_append, List.reverse_append]
  rfl

theorem flush_atom {text : String} (hne : text ≠ "") :
    flush ⟨[], text.toList.reverse⟩ = [.atom text] := by
  cases hcs : text.toList.reverse with
  | nil => exact absurd (String.toList_eq_nil_iff.mp (List.reverse_eq_nil_iff.mp hcs)) hne
  | cons c cs =>
    have htext : (c :: cs).reverse = text.toList := by rw [← hcs, List.reverse_reverse]
    change [Token.atom (String.ofList (c :: cs).reverse)] = [Token.atom text]
    rw [htext, String.ofList_toList]

end Cut

end Token

open Token

theorem tokenize_openParen (more : List Char) :
    tokenize ('(' :: more) = .openParen :: tokenize more :=
  Cut.reverse_flush_foldl_push more [.openParen]

theorem tokenize_closeParen (more : List Char) :
    tokenize (')' :: more) = .closeParen :: tokenize more :=
  Cut.reverse_flush_foldl_push more [.closeParen]

/-- An atom goes on up to the first character that cannot be part of it. -/
theorem tokenize_atom_append {text : String} (hne : text ≠ "")
    (h : ∀ c ∈ text.toList, IsAtomChar c) {more : List Char}
    (hmore : ∀ c ∈ more.head?, ¬ IsAtomChar c) :
    tokenize (text.toList ++ more) = .atom text :: tokenize more := by
  rw [tokenize, List.foldl_append, Cut.foldl_push_of_atom [] [] h, List.append_nil]
  cases more with
  | nil =>
    rw [List.foldl_nil, Cut.flush_atom hne]
    rfl
  | cons c more =>
    rw [List.foldl_cons, Cut.push_of_not_atom _ (hmore c rfl), Cut.flush_atom hne]
    exact Cut.reverse_flush_foldl_push (c :: more) [.atom text]

theorem tokenize_atom {text : String} (hne : text ≠ "") (h : ∀ c ∈ text.toList, IsAtomChar c) :
    tokenize text.toList = [.atom text] := by
  have hatom : tokenize (text.toList ++ []) = .atom text :: tokenize [] :=
    tokenize_atom_append hne h (by simp)
  rwa [List.append_nil] at hatom

theorem tokenize_append_blank (text more : List Char) (c : Char) (h : isBlank c = true) :
    tokenize (text ++ c :: more) = tokenize text ++ tokenize more := by
  rw [tokenize, List.foldl_append, List.foldl_cons, Cut.push_of_isBlank _ c h]
  exact Cut.reverse_flush_foldl_push more _

theorem tokenize_blanks_append (blanks more : List Char) (h : ∀ c ∈ blanks, isBlank c = true) :
    tokenize (blanks ++ more) = tokenize more := by
  induction blanks with
  | nil => rfl
  | cons c blanks ih =>
    have hc := tokenize_append_blank [] (blanks ++ more) c (h c List.mem_cons_self)
    exact hc.trans (ih fun d hd => h d (List.mem_cons_of_mem c hd))

theorem endOfInput_notMem_tokenize (text : List Char) : .endOfInput ∉ tokenize text := by
  have hfold (cut : Cut) (h : .endOfInput ∉ cut.tokens) :
      .endOfInput ∉ (text.foldl Cut.push cut).tokens := by
    induction text generalizing cut with
    | nil => exact h
    | cons c text ih => exact ih (cut.push c) (cut.endOfInput_notMem_push c h)
  rw [tokenize, List.mem_reverse]
  exact Cut.endOfInput_notMem_flush _ (hfold {} (List.not_mem_nil))

def IsSeparator (text : String) : Prop :=
  text ≠ "" ∧ ∀ c ∈ text.toList, isBlank c = true

theorem isSeparator_space : IsSeparator " " := ⟨by decide, List.forall_mem_singleton.mpr rfl⟩

theorem isSeparator_newline : IsSeparator "\n" := ⟨by decide, List.forall_mem_singleton.mpr rfl⟩

theorem tokenize_separated (text more separator : String) (h : IsSeparator separator) :
    tokenize (text ++ separator ++ more).toList = tokenize text.toList ++ tokenize more.toList := by
  obtain ⟨hne, hblank⟩ := h
  rw [String.toList_append, String.toList_append, List.append_assoc]
  cases hs : separator.toList with
  | nil => exact absurd (String.toList_eq_nil_iff.mp hs) hne
  | cons c blanks =>
    rw [hs] at hblank
    rw [List.cons_append, tokenize_append_blank _ _ c (hblank c List.mem_cons_self),
      tokenize_blanks_append blanks _ fun d hd => hblank d (List.mem_cons_of_mem c hd)]

/-- The texts in order, with blanks between them. -/
inductive Spaced : List String → String → Prop
  | nil : Spaced [] ""
  | single (text : String) : Spaced [text] text
  | cons {texts : List String} {source : String} (text : String) {separator : String}
    (hseparator : IsSeparator separator) (h : Spaced texts source) :
    Spaced (text :: texts) (text ++ separator ++ source)

theorem Spaced.tokenize {texts : List String} {source : String} (h : Spaced texts source) :
    FourLane.tokenize source.toList = texts.flatMap fun text => FourLane.tokenize text.toList := by
  induction h with
  | nil => rfl
  | single text => simp
  | cons text hseparator h ih => rw [tokenize_separated _ _ _ hseparator, ih, List.flatMap_cons]

/-! ### Reading forms from tokens -/

theorem Derives.exists_cons {ts : List Token} {f : Form} (h : Derives ts f) :
    ∃ t us, ts = t :: us ∧ t ≠ .endOfInput := by
  cases h with
  | number h => exact ⟨_, _, rfl, by simp⟩
  | var h => exact ⟨_, _, rfl, by simp⟩
  | definition name hparams hbody => exact ⟨_, _, rfl, by simp⟩
  | call hhead hargs => exact ⟨_, _, rfl, by simp⟩

namespace TokenStream

theorem readForms_nil : readForms ⟨none, []⟩ = [] := by
  rw [readForms]
  rfl

theorem readForms_cons (t : Token) (ts : List Token) (ht : t ≠ .endOfInput) :
    readForms ⟨none, t :: ts⟩ =
      match (({} : Reader).run (t :: ts)).result with
      | .error _ => [({} : Reader).run (t :: ts)]
      | .ok _ => ({} : Reader).run (t :: ts) :: (({} : Reader).run (t :: ts)).stream.readForms := by
  have hnext : readNext? ⟨none, t :: ts⟩ = some (({} : Reader).run (t :: ts)) := by
    cases t with
    | endOfInput => exact absurd rfl ht
    | openParen => rfl
    | closeParen => rfl
    | atom text => rfl
  rw [readForms]
  split
  · rename_i hnone
    rw [hnext] at hnone
    cases hnone
  · rename_i r hsome
    rw [hnext] at hsome
    cases hsome
    rfl

end TokenStream

theorem Derives.readForms_append {ts : List Token} {f : Form} (h : Derives ts f) :
    ∃ log, ∀ rest, TokenStream.readForms ⟨none, ts ++ rest⟩ =
      ⟨.ok f, rest, log⟩ :: TokenStream.readForms ⟨none, rest⟩ := by
  obtain ⟨log, hrun⟩ := h.run_start
  obtain ⟨t, us, rfl, ht⟩ := h.exists_cons
  refine ⟨log, fun rest => ?_⟩
  have hfirst := hrun rest
  rw [List.cons_append] at hfirst ⊢
  rw [TokenStream.readForms_cons t _ ht, hfirst]
  rfl

theorem Derives.readForm {text : String} {f : Form} (h : Derives (tokenize text.toList) f) :
    (FourLane.readForm text).result = .ok f := by
  obtain ⟨log, hrun⟩ := h.run_start
  have hread := hrun []
  rw [List.append_nil] at hread
  exact congrArg Reading.result hread

/-- Pieces that spell forms are read one by one, and then what the rest has. -/
theorem readForms_flatten {pieces : List (List Token)} {forms : List Form}
    (h : List.Forall₂ Derives pieces forms) (rest : List Token) :
    ∃ rs : List Reading, rs.map Reading.result = forms.map .ok ∧
      TokenStream.readForms ⟨none, pieces.flatten ++ rest⟩ =
        rs ++ TokenStream.readForms ⟨none, rest⟩ := by
  induction h with
  | nil => exact ⟨[], rfl, rfl⟩
  | @cons piece form pieces forms hform hforms ih =>
    obtain ⟨rs, hresults, hrs⟩ := ih
    obtain ⟨log, hfirst⟩ := hform.readForms_append
    have hsource := hfirst (pieces.flatten ++ rest)
    rw [← List.append_assoc, hrs] at hsource
    exact ⟨_ :: rs, by simp [hresults], hsource⟩

/-- The forms that texts spell are read one by one, and then what the rest has. -/
theorem readForms_flatMap {texts : List String} {forms : List Form}
    (h : List.Forall₂ (fun text form => Derives (tokenize text.toList) form) texts forms)
    (rest : List Token) :
    ∃ rs : List Reading, rs.map Reading.result = forms.map .ok ∧
      TokenStream.readForms ⟨none, (texts.flatMap fun text => tokenize text.toList) ++ rest⟩ =
        rs ++ TokenStream.readForms ⟨none, rest⟩ := by
  rw [List.flatMap_def]
  exact readForms_flatten (List.forall₂_map_left_iff.mpr h) rest

/-- A text whose first form has a fault gives that reading only, or none if it has no tokens. -/
theorem readForms_of_error (text : String) (e : ReadFault) (h : (readForm text).result = .error e) :
    ∀ r ∈ TokenStream.readForms ⟨none, tokenize text.toList⟩, r.result = .error e := by
  have hend := endOfInput_notMem_tokenize text.toList
  change (({} : Reader).run (tokenize text.toList)).result = .error e at h
  cases hts : tokenize text.toList with
  | nil => simp [TokenStream.readForms_nil]
  | cons t ts =>
    rw [hts] at h hend
    have ht : t ≠ .endOfInput := fun heq => hend (by simp [heq])
    rw [TokenStream.readForms_cons t ts ht, h]
    simpa using h

end FourLane
