import FourLane.Proofs.SourceText

/-!
# Faults are found at the earliest token

Tokens are viable if more tokens can follow them so that all together spell a form. What a reader
has taken without a fault is viable, since whatever it waits for can be supplied and its frames can
be closed from the inside out. A token that it rejects makes the tokens so far a beginning of no
form, because reading goes through every form without a fault. So reading ends unfinished just
when the tokens are the beginning of a form, and any other fault is found as early as can be.
-/
namespace FourLane

/-- Some tokens complete the given ones to a form. -/
def Viable (ts : List Token) : Prop := ∃ more f, Derives (ts ++ more) f

theorem Viable.of_append {ts us : List Token} (h : Viable (ts ++ us)) : Viable ts := by
  obtain ⟨more, f, hform⟩ := h
  exact ⟨us ++ more, f, by rwa [List.append_assoc] at hform⟩

theorem Begun.viable {expected : Expected} {ts : List Token} (h : Begun expected ts) :
    Viable ts := by
  have hbody : Derives [.atom "x"] (.ofAtom "x") := .atom "x"
  have hnone : ∀ p ∈ [], IsParamName p := by simp
  have hnullary (name : String) := Derives.definition name hnone hbody
  cases h with
  | form => exact ⟨[.atom "x"], _, hbody⟩
  | head => exact ⟨[.atom "x", .closeParen], _, .call (by decide) .nil⟩
  | defName => exact ⟨[.atom "x", .openParen, .closeParen, .atom "x", .closeParen], _, hnullary "x"⟩
  | paramList name => exact ⟨[.openParen, .closeParen, .atom "x", .closeParen], _, hnullary name⟩
  | param name params hparams =>
    have hreverse : ∀ p ∈ params.reverse, IsParamName p := by simpa using hparams
    have hrest := Derives.definition name hreverse hbody
    rw [definitionStart, List.append_assoc, List.append_assoc] at hrest
    exact ⟨[.closeParen, .atom "x", .closeParen], _, hrest⟩
  | close hparams hbody => exact ⟨[.closeParen], _, .definition _ hparams hbody⟩

theorem Opened.viable {frames : List Frame} {outer ts : List Token} {f : Form}
    (h : Opened frames outer) (hform : Derives ts f) : Viable (outer ++ ts) := by
  induction h generalizing ts f with
  | nil => exact ⟨[], f, by simpa using hform⟩
  | @call head args frames outer us hframes hhead hargs ih =>
    have hviable := ih (.call hhead (hargs.append (.single hform)))
    have hsplit : outer ++ ([.openParen, .atom head] ++ (us ++ ts) ++ [.closeParen]) =
        outer ++ ([.openParen, .atom head] ++ us) ++ ts ++ [.closeParen] := by simp
    rw [hsplit] at hviable
    exact hviable.of_append
  | @body name params frames outer hframes hparams ih =>
    have hviable := ih (.definition name hparams hform)
    rw [← List.append_assoc, ← List.append_assoc] at hviable
    exact hviable.of_append

namespace Reader

theorem Took.viable {r : Reader} {ts : List Token} (h : r.Took ts) : Viable ts := by
  obtain ⟨outer, inner, rfl, hframes, hexpected⟩ := h
  obtain ⟨more, f, hform⟩ := hexpected.viable
  have hviable := hframes.viable hform
  rw [← List.append_assoc] at hviable
  exact hviable.of_append

theorem deliver_ne_error (frames : List Frame) (log log' : Array Event) (f : Form) (e : ReadFault) :
    deliver frames log f ≠ .finished (.error e) log' := by
  unfold deliver
  split <;> simp

theorem feed_ne_unfinished (r : Reader) (t : Token) (ht : t ≠ .endOfInput) (log : Array Event) :
    r.feed t ≠ .finished (.error .unfinished) log := by
  unfold feed
  split
  · exact absurd rfl ht
  all_goals try split
  all_goals simp [deliver_ne_error]

theorem run_append (r : Reader) (ts more : List Token)
    (h : (r.run ts).result ≠ .error .unfinished) :
    (r.run (ts ++ more)).result = (r.run ts).result := by
  induction ts generalizing r with
  | nil => exact absurd rfl h
  | cons t ts ih =>
    rw [run_cons] at h
    rw [List.cons_append, run_cons, run_cons]
    cases hfeed : r.feed t with
    | finished result log => rfl
    | more next =>
      rw [hfeed] at h
      exact ih next h

/-- Tokens are read as the beginning of a form, as a form and what follows it, or up to the first
token that no form can go on with. -/
theorem run_start_cases (ts : List Token) (hend : .endOfInput ∉ ts) :
    (∃ log, Viable ts ∧ run {} ts = ⟨.error .unfinished, [], log⟩) ∨
      (∃ before rest f log, ts = before ++ rest ∧ Derives before f ∧
        run {} ts = ⟨.ok f, rest, log⟩) ∨
      ∃ before t rest e log, ts = before ++ t :: rest ∧ Viable before ∧ ¬ Viable (before ++ [t]) ∧
        e ≠ .unfinished ∧ run {} ts = ⟨.error e, rest, log⟩ := by
  rcases took_nil.run_cases ts with
    ⟨r, htook, hrun⟩ | ⟨before, t, rest, result, log, r, rfl, htook, hfeed, hrun⟩
  · exact .inl ⟨_, htook.viable, hrun⟩
  · have ht : t ≠ .endOfInput := fun h => hend (by simp [h])
    have hstep := htook.feed t
    rw [hfeed] at hstep
    cases result with
    | ok f => exact .inr (.inl ⟨before ++ [t], rest, f, _, by simp, hstep, hrun rest⟩)
    | error e =>
      have he : e ≠ .unfinished := by
        rintro rfl
        exact r.feed_ne_unfinished t ht log hfeed
      -- A form that begins with these tokens would be read, whatever follows.
      have hrejected : ¬ Viable (before ++ [t]) := by
        rintro ⟨more, f, hform⟩
        obtain ⟨log', hread⟩ := hform.run_start
        have hsame := (hrun more).symm.trans (by simpa using hread [])
        cases congrArg Reading.result hsame
      exact .inr (.inr ⟨before, t, rest, e, _, rfl, htook.viable, hrejected, he, hrun rest⟩)

end Reader

theorem ReadFault.ne_unfinished_iff (e : ReadFault) :
    e ≠ .unfinished ↔ e = .strayClose ∨ e = .noHead ∨ (∃ part, e = .definition part) ∨
      ∃ name, e = .paramName name := by
  cases e <;> simp

/-- Reading tokens without a form at their start is unfinished just when the tokens are viable, and
then takes them all. Otherwise it fails at the first token that makes them not viable, and goes on
behind it. A reading that is not unfinished is the same whatever else the text goes on with. -/
theorem read_fault_earliest :
    (∀ s : TokenStream, .endOfInput ∉ s.toList →
        (∀ ts rest f, s.toList = ts ++ rest → ¬ Derives ts f) →
          (s.read.result = .error .unfinished ↔ Viable s.toList) ∧
          (Viable s.toList → s.read.stream = { pending := [] }) ∧
          (¬ Viable s.toList → ∃ before t rest e, s.toList = before ++ t :: rest ∧
            (∀ ts, ts <+: before → Viable ts) ∧ ¬ Viable (before ++ [t]) ∧
            s.read.result = .error e ∧
            (e = .strayClose ∨ e = .noHead ∨ (∃ part, e = .definition part) ∨
              ∃ name, e = .paramName name) ∧
            s.read.stream = { pending := rest })) ∧
      ∀ text separator more, IsSeparator separator → (readForm text).result ≠ .error .unfinished →
        (readForm (text ++ separator ++ more)).result = (readForm text).result := by
  constructor
  · intro s hend hnone
    rw [TokenStream.read]
    rcases Reader.run_start_cases s.toList hend with ⟨log, hviable, hrun⟩ |
      ⟨before, rest, f, log, hsplit, hform, -⟩ |
      ⟨before, t, rest, e, log, hsplit, hbefore, hrejected, he, hrun⟩
    · rw [hrun]
      exact ⟨⟨fun _ => hviable, fun _ => rfl⟩, fun _ => rfl, fun h => absurd hviable h⟩
    · exact absurd hform (hnone before rest f hsplit)
    · have hviable : ¬ Viable s.toList := by
        rw [hsplit, List.append_cons]
        exact fun h => hrejected h.of_append
      have hprefixes (ts : List Token) (h : ts <+: before) : Viable ts := by
        obtain ⟨more, rfl⟩ := h
        exact hbefore.of_append
      rw [hrun]
      refine ⟨⟨fun h => absurd (Except.error.inj h) he, fun h => absurd h hviable⟩,
        fun h => absurd h hviable, fun _ => ?_⟩
      exact ⟨before, t, rest, e, hsplit, hprefixes, hrejected, rfl, e.ne_unfinished_iff.mp he, rfl⟩
  · intro text separator more hseparator h
    have htokens := tokenize_separated text more separator hseparator
    change (({} : Reader).run (tokenize (text ++ separator ++ more).toList)).result = _
    rw [htokens]
    exact Reader.run_append {} _ _ h

/-- A definition with a parameter that is no name. -/
def badParam : List Token :=
  [.openParen, .atom "def", .atom "f", .openParen, .atom "1x", .closeParen, .atom "y"]

theorem read_badParam :
    (TokenStream.mk none badParam).read =
      ⟨.error (.paramName "1x"), [.closeParen, .atom "y"], []⟩ := rfl

theorem not_derives_badParam (ts rest : List Token) (f : Form) (h : badParam = ts ++ rest) :
    ¬ Derives ts f := by
  intro hform
  obtain ⟨log, hrun⟩ := hform.run_start
  have hread := read_badParam
  rw [TokenStream.read, TokenStream.toList, Option.toList_none, List.nil_append, h, hrun] at hread
  cases congrArg Reading.result hread

theorem read_fault_earliest_badParam :
    ¬ Viable badParam ∧
      (∃ before t rest, badParam = before ++ t :: rest ∧ (∀ ts, ts <+: before → Viable ts) ∧
        ¬ Viable (before ++ [t]) ∧
        (TokenStream.mk none badParam).read.stream = { pending := rest }) ∧
      (readForm ("(def f (1x)" ++ "\n" ++ "y) z")).result = (readForm "(def f (1x)").result := by
  obtain ⟨hviable, -, hfault⟩ :=
    read_fault_earliest.1 ⟨none, badParam⟩ (by decide) not_derives_badParam
  have hnot : ¬ Viable badParam := by
    intro h
    have hresult := hviable.mpr h
    rw [read_badParam] at hresult
    cases hresult
  obtain ⟨before, t, rest, e, hsplit, hbefore, hrejected, -, -, hstream⟩ := hfault hnot
  refine ⟨hnot, ⟨before, t, rest, hsplit, hbefore, hrejected, hstream⟩, ?_⟩
  refine read_fault_earliest.2 "(def f (1x)" "\n" "y) z" isSeparator_newline ?_
  have hread : (readForm "(def f (1x)").result = .error (.paramName "1x") := rfl
  rw [hread]
  simp

end FourLane
