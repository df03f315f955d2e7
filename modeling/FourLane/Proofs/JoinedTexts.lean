import FourLane.Proofs.EarliestFault

/-!
# The forms of joined texts

Tokens fall into the spellings of forms in one way at most, because no spelling is the beginning
of another. Reading all forms takes these pieces from the front. It ends with the forms if nothing
is left, and with the fault of the first form that cannot be read otherwise. A blank keeps the
tokens of two texts apart, so the forms of the texts that it joins are those of the one and then
those of the other. Only a form that the first text leaves unfinished can go on in the second.
-/
namespace FourLane

/-- All forms that tokens spell, or the first fault. -/
def formsIn (ts : List Token) : Except ReadFault (List Form) :=
  Reading.forms (TokenStream.readForms ⟨none, ts⟩)

def formsOf (text : String) : Except ReadFault (List Form) :=
  Reading.forms (TokenStream.ofString text).readForms

structure Splits (ts : List Token) (pieces : List (List Token)) (fs : List Form) : Prop where
  flatten : pieces.flatten = ts
  derives : List.Forall₂ Derives pieces fs

theorem formsOf_eq (text : String) : formsOf text = formsIn (tokenize text.toList) := rfl

theorem formsOf_separated (text more separator : String) (h : IsSeparator separator) :
    formsOf (text ++ separator ++ more) =
      formsIn (tokenize text.toList ++ tokenize more.toList) := by
  rw [formsOf_eq, tokenize_separated text more separator h]

theorem Reading.forms_append {rs : List Reading} {fs : List Form}
    (h : rs.map Reading.result = fs.map .ok) (later : List Reading) :
    forms (rs ++ later) = (forms later).map (fs ++ ·) := by
  induction fs generalizing rs with
  | nil =>
    obtain rfl := List.map_eq_nil_iff.mp h
    rw [List.nil_append]
    cases forms later <;> rfl
  | cons f fs ih =>
    cases rs with
    | nil => cases h
    | cons r rs =>
      obtain ⟨hr, hrs⟩ := List.cons.inj h
      rw [List.cons_append, forms, hr, ih hrs]
      cases forms later <;> rfl

namespace Splits

theorem nil : Splits [] [] [] := ⟨rfl, .nil⟩

theorem cons {piece ts : List Token} {pieces : List (List Token)} {f : Form} {fs : List Form}
    (hf : Derives piece f) (h : Splits ts pieces fs) :
    Splits (piece ++ ts) (piece :: pieces) (f :: fs) :=
  ⟨congrArg (piece ++ ·) h.flatten, .cons hf h.derives⟩

theorem unique {ts : List Token} {pieces pieces' : List (List Token)} {fs fs' : List Form}
    (h : Splits ts pieces fs) (h' : Splits ts pieces' fs') : pieces = pieces' ∧ fs = fs' := by
  obtain ⟨hflatten, hderives⟩ := h
  obtain ⟨hflatten', hderives'⟩ := h'
  have hsame : pieces.flatten = pieces'.flatten := hflatten.trans hflatten'.symm
  clear hflatten hflatten'
  induction hderives generalizing pieces' fs' with
  | nil =>
    cases hderives' with
    | nil => exact ⟨rfl, rfl⟩
    | cons hg _ =>
      obtain ⟨t, us, rfl, -⟩ := hg.exists_cons
      cases hsame
  | cons hf _ ih =>
    cases hderives' with
    | nil =>
      obtain ⟨t, us, rfl, -⟩ := hf.exists_cons
      cases hsame
    | cons hg hgs =>
      rw [List.flatten_cons, List.flatten_cons] at hsame
      obtain ⟨rfl, rfl⟩ := hf.unique hg hsame
      obtain ⟨rfl, rfl⟩ := ih hgs (List.append_cancel_left hsame)
      exact ⟨rfl, rfl⟩

theorem formsIn_append {ts : List Token} {pieces : List (List Token)} {fs : List Form}
    (h : Splits ts pieces fs) (more : List Token) :
    formsIn (ts ++ more) = (formsIn more).map (fs ++ ·) := by
  obtain ⟨rs, hresults, hread⟩ := readForms_flatten h.derives more
  rw [← h.flatten, formsIn, hread]
  exact Reading.forms_append hresults _

theorem formsIn_eq {ts : List Token} {pieces : List (List Token)} {fs : List Form}
    (h : Splits ts pieces fs) : formsIn ts = .ok fs := by
  have hall := h.formsIn_append []
  have hnil : formsIn [] = .ok [] := by
    rw [formsIn, TokenStream.readForms_nil]
    rfl
  rw [List.append_nil, hnil] at hall
  simpa [Except.map] using hall

end Splits

theorem formsIn_of_error {ts : List Token} {e : ReadFault} (hne : ts ≠ []) (hend : .endOfInput ∉ ts)
    (h : (({} : Reader).run ts).result = .error e) : formsIn ts = .error e := by
  cases ts with
  | nil => exact absurd rfl hne
  | cons t ts =>
    have ht : t ≠ .endOfInput := fun heq => hend (by simp [heq])
    rw [formsIn, TokenStream.readForms_cons t ts ht, h]
    simp only [Reading.forms, h]

/-- Tokens fall into forms, or into forms and a rest in which reading the next one fails. -/
theorem formsIn_cases (ts : List Token) (hend : .endOfInput ∉ ts) :
    (∃ pieces fs, Splits ts pieces fs ∧ formsIn ts = .ok fs) ∨
      ∃ before pieces fs rest e, ts = before ++ rest ∧ Splits before pieces fs ∧ rest ≠ [] ∧
        (({} : Reader).run rest).result = .error e ∧ formsIn ts = .error e := by
  -- A form takes one token at least, so what is behind it is shorter.
  induction hn : ts.length using Nat.strongRecOn generalizing ts with
  | ind n ih =>
    by_cases hne : ts = []
    · subst hne
      exact .inl ⟨[], [], .nil, Splits.nil.formsIn_eq⟩
    · have hfail (e : ReadFault) (he : (({} : Reader).run ts).result = .error e) :
          ∃ before pieces fs rest e, ts = before ++ rest ∧ Splits before pieces fs ∧ rest ≠ [] ∧
            (({} : Reader).run rest).result = .error e ∧ formsIn ts = .error e :=
        ⟨[], [], [], ts, e, rfl, .nil, hne, he, formsIn_of_error hne hend he⟩
      rcases Reader.run_start_cases ts hend with ⟨log, -, hrun⟩ |
        ⟨piece, rest, f, log, rfl, hf, -⟩ | ⟨before, t, rest, e, log, -, -, -, -, hrun⟩
      · exact .inr (hfail _ (by rw [hrun]))
      · have hlt : rest.length < n := by
          obtain ⟨t, us, rfl, -⟩ := hf.exists_cons
          rw [← hn, List.length_append, List.length_cons]
          omega
        have hone : Splits piece [piece] [f] := ⟨List.flatten_singleton, .cons hf .nil⟩
        have hfirst := hone.formsIn_append rest
        have hrest : .endOfInput ∉ rest := fun h => hend (List.mem_append_right piece h)
        rcases ih rest.length hlt rest hrest rfl with ⟨pieces, fs, hsplit, hforms⟩ |
          ⟨before, pieces, fs, tail, e, rfl, hsplit, htail, he, hforms⟩
        · rw [hforms] at hfirst
          exact .inl ⟨piece :: pieces, f :: fs, hsplit.cons hf, hfirst⟩
        · rw [hforms] at hfirst
          exact .inr ⟨piece ++ before, piece :: pieces, f :: fs, tail, e,
            (List.append_assoc _ _ _).symm, hsplit.cons hf, htail, he, hfirst⟩
      · exact .inr (hfail e (by rw [hrun]))

theorem formsOf_eq_ok_iff (text : String) (fs : List Form) :
    formsOf text = .ok fs ↔ ∃ pieces, Splits (tokenize text.toList) pieces fs := by
  rw [formsOf_eq]
  constructor
  · intro h
    rcases formsIn_cases _ (endOfInput_notMem_tokenize text.toList) with
      ⟨pieces, gs, hsplit, hforms⟩ | ⟨before, pieces, gs, rest, e, -, -, -, -, hforms⟩
    · cases h.symm.trans hforms
      exact ⟨pieces, hsplit⟩
    · cases h.symm.trans hforms
  · rintro ⟨pieces, hsplit⟩
    exact hsplit.formsIn_eq

theorem formsIn_append_of_error {ts : List Token} {e : ReadFault} (hend : .endOfInput ∉ ts)
    (h : formsIn ts = .error e) (he : e ≠ .unfinished) (more : List Token)
    (hmore : .endOfInput ∉ more) : formsIn (ts ++ more) = .error e := by
  rcases formsIn_cases ts hend with ⟨pieces, fs, -, hforms⟩ |
    ⟨before, pieces, fs, rest, e', rfl, hsplit, hne, hresult, hforms⟩
  · cases h.symm.trans hforms
  · cases h.symm.trans hforms
    have hsame : (({} : Reader).run (rest ++ more)).result = .error e := by
      rw [Reader.run_append {} rest more (by rw [hresult]; simpa using he), hresult]
    have htail : formsIn (rest ++ more) = .error e := by
      apply formsIn_of_error _ _ hsame
      · simp [hne]
      · rw [List.mem_append, not_or]
        exact ⟨fun hmem => hend (List.mem_append_right before hmem), hmore⟩
    rw [List.append_assoc, hsplit.formsIn_append, htail]
    rfl

/-- If all forms of a text can be read, a text behind it and a blank adds its forms or its fault. A
fault other than an unfinished form is that of the joined text. All forms of a text can be read just
when its tokens fall into forms, which they do in one way at most. -/
theorem formsOf_joined :
    (∀ (text separator more : String) (fs : List Form), IsSeparator separator →
        formsOf text = .ok fs →
          (∀ gs, formsOf more = .ok gs →
            formsOf (text ++ separator ++ more) = .ok (fs ++ gs)) ∧
          ∀ e, formsOf more = .error e → formsOf (text ++ separator ++ more) = .error e) ∧
      (∀ (text separator more : String) (e : ReadFault), IsSeparator separator →
        formsOf text = .error e → e ≠ .unfinished →
          formsOf (text ++ separator ++ more) = .error e) ∧
      ∀ text : String,
        (∀ fs, formsOf text = .ok fs ↔ ∃ pieces, Splits (tokenize text.toList) pieces fs) ∧
        ∀ pieces pieces' fs fs', Splits (tokenize text.toList) pieces fs →
          Splits (tokenize text.toList) pieces' fs' → pieces = pieces' ∧ fs = fs' := by
  constructor
  · intro text separator more fs hseparator htext
    obtain ⟨pieces, hsplit⟩ := (formsOf_eq_ok_iff text fs).mp htext
    rw [formsOf_separated text more separator hseparator, hsplit.formsIn_append, formsOf_eq]
    constructor
    · intro gs hmore
      rw [hmore]
      rfl
    · intro e hmore
      rw [hmore]
      rfl
  constructor
  · intro text separator more e hseparator htext he
    rw [formsOf_separated text more separator hseparator]
    apply formsIn_append_of_error (endOfInput_notMem_tokenize text.toList) htext he
    exact endOfInput_notMem_tokenize more.toList
  · intro text
    exact ⟨formsOf_eq_ok_iff text, fun _ _ _ _ h h' => h.unique h'⟩

theorem splits_callAndName :
    Splits (tokenize "(f y)\nx".toList) [[.openParen, .atom "f", .atom "y", .closeParen], [.atom "x"]]
      [.call "f" [.var "y"], .var "x"] := by
  have harg : Derives [.atom "y"] (.var "y") := .var (by decide)
  have hname : Derives [.atom "x"] (.var "x") := .var (by decide)
  have hcall : Derives [.openParen, .atom "f", .atom "y", .closeParen] (.call "f" [.var "y"]) :=
    .call (by decide) (.single harg)
  exact ⟨rfl, .cons hcall (.cons hname .nil)⟩

/-- Forms behind forms, a fault behind forms, and forms behind a fault. -/
theorem formsOf_joined_callAndName :
    formsOf ("(f y)\nx" ++ " " ++ "(f y)\nx") =
        .ok [.call "f" [.var "y"], .var "x", .call "f" [.var "y"], .var "x"] ∧
      formsOf ("(f y)\nx" ++ " " ++ "(f") = .error .unfinished ∧
      formsOf ("())" ++ "\n" ++ "(f y)\nx") = .error .noHead ∧
      ∀ pieces fs, Splits (tokenize "(f y)\nx".toList) pieces fs →
        fs = [.call "f" [.var "y"], .var "x"] := by
  have hforms := (formsOf_joined.2.2 "(f y)\nx").1 _ |>.mpr ⟨_, splits_callAndName⟩
  obtain ⟨hok, herror⟩ :=
    formsOf_joined.1 "(f y)\nx" " " "(f y)\nx" _ isSeparator_space hforms
  have hopen : formsOf "(f" = .error .unfinished := formsIn_of_error (by decide) (by decide) rfl
  have hhead : formsOf "())" = .error .noHead := formsIn_of_error (by decide) (by decide) rfl
  refine ⟨hok _ hforms, ?_, ?_, fun pieces fs h => ?_⟩
  · exact (formsOf_joined.1 "(f y)\nx" " " "(f" _ isSeparator_space hforms).2 _ hopen
  · exact formsOf_joined.2.1 "())" "\n" "(f y)\nx" _ isSeparator_newline hhead (by decide)
  · exact ((formsOf_joined.2.2 "(f y)\nx").2 _ _ _ _ h splits_callAndName).2

end FourLane
