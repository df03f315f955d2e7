import FourLane.Proofs.DefinedCalls
import FourLane.Proofs.LongestNumeral
import FourLane.Proofs.SourceText
import Mathlib

/-!
# Parameters that can be read

A parameter begins with a letter, and so do the words for infinity and NaN. A name that begins with
one of them is accepted as a parameter, but in a body it is read as the number: the argument bound to
it is out of reach. All other parameters are read as variables and give their arguments.
-/
namespace FourLane

open Numeral Token

/-- The name begins with the word, in capitals or not. -/
def BeginsWith (word name : String) : Prop := word.toList <+: name.toList.map Char.toLower

instance (word name : String) : Decidable (BeginsWith word name) :=
  inferInstanceAs (Decidable (word.toList <+: name.toList.map Char.toLower))

theorem BeginsWith.not_inf {name : String} (h : BeginsWith "nan" name) : ¬ BeginsWith "inf" name := by
  intro hinf
  have hlength : "inf".toList.length ≤ "nan".toList.length := by simp
  have hprefix := List.prefix_of_prefix_length_le hinf h hlength
  simp at hprefix

theorem startsWith_iff_beginsWith (word name : String) :
    startsWith word.toList name.toList = true ↔ BeginsWith word name := by
  rw [startsWith, beq_iff_eq, List.map_take, eq_comm, BeginsWith, List.prefix_iff_eq_take]

theorem IsParamName.exists_letter {p : String} (h : IsParamName p) :
    ∃ c cs, p.toList = c :: cs ∧ c.isDigit = false ∧ c ≠ '.' ∧ c ≠ '-' ∧ c ≠ '+' := by
  obtain ⟨c, cs, hp, hletter⟩ := h
  have hle (a b : Char) : a ≤ b ↔ a.toNat ≤ b.toNat := Iff.rfl
  have hdigit : c.isDigit = true ↔ 48 ≤ c.toNat ∧ c.toNat ≤ 57 := Char.isDigit_iff_toNat
  simp only [hle, Char.reduceToNat] at hletter
  refine ⟨c, cs, hp, ?_, ?_, ?_, ?_⟩
  · rw [← Bool.not_eq_true, hdigit]
    omega
  all_goals
    rintro rfl
    simp at hletter

/-- The only numerals that begin with a letter are words. -/
theorem ofText?_of_letter {c : Char} {cs : List Char} (hdigit : c.isDigit = false) (hpoint : c ≠ '.') :
    ofText? (c :: cs) =
      if startsWith ['i', 'n', 'f'] (c :: cs) then some .infinity
      else if startsWith ['n', 'a', 'n'] (c :: cs) then some .nan else none := by
  have hhex : hexadecimal? (c :: cs) = none := by
    rw [Option.eq_none_iff_forall_ne_some]
    intro n hn
    obtain ⟨x, cs', _, _, _, htext, -, -, -⟩ := (hexadecimal?_eq_some_iff _ _).mp hn
    obtain rfl : c = '0' := (List.cons.inj htext).1
    cases hdigit
  have hdecimal : decimal? (c :: cs) = none := by
    rw [Option.eq_none_iff_forall_ne_some]
    intro n hn
    obtain ⟨whole, places, rest, hsplit, -⟩ := (decimal?_eq_some_iff _ _).mp hn
    obtain ⟨digits, htext, hdigits⟩ := exists_digitsText hsplit
    obtain ⟨d, ds, rfl⟩ := List.exists_cons_of_ne_nil hdigits.ne_nil
    obtain rfl : c = d := (List.cons.inj htext).1
    rcases hdigits.mem c List.mem_cons_self with h | h
    · rw [hdigit] at h
      cases h
    · exact hpoint h
  rw [ofText?, hhex, hdecimal]
  rfl

theorem IsParamName.readNumber {p : String} (h : IsParamName p) :
    FourLane.readNumber p.toList =
      if BeginsWith "inf" p then .infinite false
      else if BeginsWith "nan" p then .nan false else .zero false := by
  obtain ⟨c, cs, hp, hdigit, hpoint, hminus, hplus⟩ := h.exists_letter
  have hsign : splitSign p.toList = (false, p.toList) := by
    rw [hp]
    exact SignText.none.splitSign_append (by rintro _ ⟨⟩; exact ⟨hminus, hplus⟩)
  have htext : ofText? p.toList = if BeginsWith "inf" p then some .infinity
      else if BeginsWith "nan" p then some .nan else none := by
    have hwords : "inf".toList = ['i', 'n', 'f'] ∧ "nan".toList = ['n', 'a', 'n'] := by simp
    simp only [← startsWith_iff_beginsWith, hwords]
    rw [hp]
    exact ofText?_of_letter hdigit hpoint
  rw [readNumber_eq, hsign, htext]
  by_cases hinf : BeginsWith "inf" p
  · simp only [if_pos hinf]
    rfl
  · by_cases hnan : BeginsWith "nan" p
    · simp only [if_neg hinf, if_pos hnan]
      rfl
    · simp only [if_neg hinf, if_neg hnan]
      rfl

theorem IsParamName.ofAtom {p : String} (h : IsParamName p) :
    Form.ofAtom p =
      if BeginsWith "inf" p then .number (.infinite false)
      else if BeginsWith "nan" p then .number (.nan false) else .var p := by
  rw [Form.ofAtom, h.readNumber]
  by_cases hinf : BeginsWith "inf" p
  · simp only [if_pos hinf]
    rfl
  · by_cases hnan : BeginsWith "nan" p
    · simp only [if_neg hinf, if_pos hnan]
      rfl
    · simp only [if_neg hinf, if_neg hnan]
      rfl

theorem readForm_atom {p : String} (hne : p ≠ "")
    (h : ∀ c ∈ p.toList, isBlank c = false ∧ c ≠ '(' ∧ c ≠ ')') :
    (readForm p).result = .ok (.ofAtom p) := by
  apply Derives.readForm
  rw [tokenize_atom hne h]
  exact .atom p

theorem Session.withDefinition_of_readForm {α : Type} (s : Session) {text : String} {d : Definition}
    (h : (readForm text).result = .ok (.definition d.name d.params d.body))
    (request : Definition → Outcome α) :
    (s.withDefinition text request).result = (request d).result ∧
      (s.withDefinition text request).session = (request d).session := by
  simp only [withDefinition, withForm, h]
  exact ⟨rfl, rfl⟩

theorem fault?_ofAtom (known : Known) (p : String) :
    ∀ node ∈ (Form.ofAtom p).nodes, node.fault? known = none := by
  rw [Form.ofAtom]
  split_ifs <;> simp [Form.nodes, Form.fault?]

theorem argument_of_meaning {params : List String} (hnodup : params.Nodup) {args : List Quad}
    (hlength : args.length = params.length) {lexicon : Lexicon} {i : Nat} {p : String} {q : Quad}
    (hi : params[i]? = some p) (h : (Form.var p).meaning lexicon (params.zip args) = some q) :
    args[i]? = some q := by
  obtain ⟨hlt, -⟩ := List.getElem?_eq_some_iff.mp hi
  obtain ⟨a, ha⟩ : ∃ a, args[i]? = some a := ⟨_, List.getElem?_eq_getElem (hlength ▸ hlt)⟩
  have hmem : (p, a) ∈ params.zip args :=
    List.mem_of_getElem? (List.getElem?_zip_eq_some.mpr ⟨hi, ha⟩)
  rw [Form.meaning, lookup_of_mem_zip hnodup hmem] at h
  rw [ha]
  exact h

/-- A definition whose body is an atom is exported and gives what the atom means. -/
theorem Session.Reachable.export_atom {s : Session} (hs : s.Reachable) {name text p : String}
    {params : List String} (hnames : ∀ q ∈ params, IsParamName q)
    (hvalid : validateParams params = .ok ())
    (htext : tokenize text.toList = definitionStart name params ++ [.atom p, .closeParen]) :
    ∃ handle lexicon, (s.exportDefinitionText text).result = .ok handle ∧
      handle.arity = params.length ∧ ∀ args, args.length = params.length →
        ∃ q, (Form.ofAtom p).meaning lexicon (params.zip args) = some q ∧
          (s.exportDefinitionText text).session.enter handle args = some q := by
  obtain ⟨-, lexicon, hlexicon⟩ := hs.wellFormed
  have hread : (readForm text).result = .ok (.definition name params (.ofAtom p)) := by
    have hderives := Derives.definition name hnames (.atom p)
    rw [List.append_assoc, List.singleton_append, ← htext] at hderives
    exact hderives.readForm
  obtain ⟨hnodup, hreserved⟩ := (validateParams_eq_ok_iff params).mp hvalid
  obtain ⟨handle, hresult, harity, hvalue⟩ :=
    hlexicon.exists_export name ⟨hnodup, hreserved, fault?_ofAtom _ p⟩
  obtain ⟨hresult', hsession⟩ := s.withDefinition_of_readForm
    (d := ⟨name, params, .ofAtom p⟩) hread s.exportDefinition
  refine ⟨handle, lexicon, hresult'.trans hresult, harity, fun args hargs => ?_⟩
  rw [exportDefinitionText, hsession]
  exact hvalue args hargs

/-- A parameter is read as a variable unless it begins with the word for infinity or NaN. As a body
it then gives its argument, and otherwise the number, whatever the arguments are. -/
theorem parameters_readable :
    (∀ p : String, IsParamName p → (∀ c ∈ p.toList, isBlank c = false ∧ c ≠ '(' ∧ c ≠ ')') →
      ((readForm p).result = .ok (.var p) ↔ ¬ BeginsWith "inf" p ∧ ¬ BeginsWith "nan" p)) ∧
    ∀ (s : Session) (name p text : String) (params : List String) (i : Nat),
      s.Reachable → (∀ p ∈ params, IsParamName p) → validateParams params = .ok () →
      params[i]? = some p →
      tokenize text.toList = definitionStart name params ++ [.atom p, .closeParen] →
      ∃ handle, (s.exportDefinitionText text).result = .ok handle ∧
        ∀ args, args.length = params.length →
          ∃ q, (s.exportDefinitionText text).session.enter handle args = some q ∧
            (args.length ≤ Session.callLimit →
              (s.exportDefinitionText text).session.call handle args = .ok q) ∧
            (¬ BeginsWith "inf" p → ¬ BeginsWith "nan" p → args[i]? = some q) ∧
            (BeginsWith "inf" p → q = .splat (.infinite false)) ∧
            (BeginsWith "nan" p → q = .splat (.nan false)) := by
  constructor
  · intro p hp hatom
    have hne : p ≠ "" := by
      rintro rfl
      obtain ⟨c, cs, hnil, -⟩ := hp
      cases hnil
    rw [readForm_atom hne hatom, hp.ofAtom]
    by_cases hinf : BeginsWith "inf" p
    · simp [hinf]
    · by_cases hnan : BeginsWith "nan" p
      · simp [hinf, hnan]
      · simp [hinf, hnan]
  · intro s name p text params i hs hnames hvalid hi htext
    obtain ⟨handle, lexicon, hresult, harity, hvalue⟩ := hs.export_atom hnames hvalid htext
    refine ⟨handle, hresult, fun args hargs => ?_⟩
    obtain ⟨q, hmeaning, henter⟩ := hvalue args hargs
    rw [(hnames p (List.mem_of_getElem? hi)).ofAtom] at hmeaning
    refine ⟨q, henter, fun hlimit => ?_, fun hinf hnan => ?_, fun hinf => ?_, fun hnan => ?_⟩
    · rw [Session.call, if_neg (by simp [hargs, harity]), if_neg (by omega), henter]
    · rw [if_neg hinf, if_neg hnan] at hmeaning
      exact argument_of_meaning ((validateParams_eq_ok_iff params).mp hvalid).1 hargs hi hmeaning
    · rw [if_pos hinf] at hmeaning
      exact (Option.some.inj hmeaning).symm
    · rw [if_neg hnan.not_inf, if_pos hnan] at hmeaning
      exact (Option.some.inj hmeaning).symm

theorem parameters_readable_infix :
    (readForm "Infix").result ≠ .ok (.var "Infix") ∧
      ∃ handle, (Session.exportDefinitionText {} "(def f (x Infix) Infix)").result = .ok handle ∧
        ∀ args, args.length = 2 →
          (Session.exportDefinitionText {} "(def f (x Infix) Infix)").session.call handle args =
            .ok (.splat (.infinite false)) := by
  have hinf : BeginsWith "inf" "Infix" := by decide
  have hname : IsParamName "Infix" := ⟨'I', ['n', 'f', 'i', 'x'], rfl, by decide⟩
  have hnames : ∀ p ∈ ["x", "Infix"], IsParamName p :=
    List.forall_mem_cons.mpr ⟨⟨'x', [], rfl, by decide⟩, List.forall_mem_singleton.mpr hname⟩
  constructor
  · intro hread
    have hatom : ∀ c ∈ "Infix".toList, isBlank c = false ∧ c ≠ '(' ∧ c ≠ ')' := by
      simp [isBlank]
    exact ((parameters_readable.1 "Infix" hname hatom).mp hread).1 hinf
  · obtain ⟨handle, hresult, hvalue⟩ := parameters_readable.2 {} "f" "Infix"
      "(def f (x Infix) Infix)" ["x", "Infix"] 1 ⟨_, [], rfl⟩ hnames rfl rfl (by decide +kernel)
    refine ⟨handle, hresult, fun args hargs => ?_⟩
    obtain ⟨q, -, hcall, -, hq, -⟩ := hvalue args hargs
    rw [hcall (by rw [hargs]; decide), hq hinf]

end FourLane
