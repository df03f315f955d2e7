import FourLane.Proofs.Builds

/-!
# Calling what was defined

A definition is compiled by value and reached through the registry; the same definition can be
compiled by address and entered from outside. Both compile or fail alike, and a call of the
defined name on the parameters of the definition gives what the exported definition gives. The
name has to be none that is built in for that number of arguments.
-/
namespace FourLane

theorem lookup_of_mem_zip {α : Type} {params : List String} (hnodup : params.Nodup) {args : List α}
    {p : String} {a : α} (h : (p, a) ∈ params.zip args) : (params.zip args).lookup p = some a := by
  induction params generalizing args with
  | nil => cases h
  | cons q params ih =>
    rw [List.nodup_cons] at hnodup
    cases args with
    | nil => cases h
    | cons b args =>
      rw [List.zip_cons_cons, List.lookup_cons]
      rcases List.mem_cons.mp h with heq | hmem
      · cases heq
        rw [beq_self_eq_true]
      · have hne : p ≠ q := by
          rintro rfl
          exact hnodup.1 (List.of_mem_zip hmem).1
        rw [beq_false_of_ne hne]
        exact ih hnodup.2 hmem

theorem meaningOfAll_params (lexicon : Lexicon) (params : List String) (hnodup : params.Nodup)
    (args : List Quad) (hlength : args.length = params.length) :
    meaningOfAll lexicon (params.zip args) (params.map .var) = some args := by
  rw [meaningOfAll_eq_some_iff, List.forall₂_map_left_iff, List.forall₂_iff_zip]
  refine ⟨hlength.symm, fun {p v} hmem => ?_⟩
  rw [Form.meaning, lookup_of_mem_zip hnodup hmem]
  rfl

namespace Lexicon

variable {lexicon : Lexicon} {d : Definition}

theorem known_define (h : Accepts lexicon.known d.params d.body) :
    (lexicon.define d).known d.name = some d.arity := by
  rw [Lexicon.define, if_pos h, known, List.lookup_cons_self]
  rfl

theorem lookup_define_of_ne {name : String} (h : name ≠ d.name) :
    (lexicon.define d).lookup name = lexicon.lookup name := by
  rw [Lexicon.define]
  split_ifs
  · rw [List.lookup_cons, beq_false_of_ne h]
  · rfl

/-- A call of the latest definition means its body, with the functions that it was defined with. -/
theorem value?_define (h : Accepts lexicon.known d.params d.body)
    (hbuiltin : ¬ IsBuiltin d.name d.arity) (vs : List Quad) (hlength : vs.length = d.arity) :
    (lexicon.define d).value? d.name vs = d.body.meaning lexicon (d.params.zip vs) := by
  have hnone : builtinValue? d.name vs = none := by
    rw [← Option.not_isSome_iff_eq_none, builtinValue?_isSome_iff, hlength]
    exact hbuiltin
  rw [Lexicon.define, if_pos h, value?, hnone, Option.none_or, definedValue?,
    List.lookup_cons_self, Option.bind_some]
  exact if_pos hlength.symm

end Lexicon

def Definition.selfCall (d : Definition) : Form := .call d.name (d.params.map .var)

theorem fault?_eq_none_of_args {known : Known} {head : String} {args : List Form}
    (hargs : ∀ a ∈ args, ∀ node ∈ a.nodes, node.fault? known = none)
    (hself : (Form.call head args).fault? known = none) :
    ∀ node ∈ (Form.call head args).nodes, node.fault? known = none := by
  intro node hnode
  rw [Form.nodes, List.mem_append, mem_nodesOfAll, List.mem_singleton] at hnode
  rcases hnode with ⟨a, ha, hnode⟩ | rfl
  · exact hargs a ha node hnode
  · exact hself

theorem fault?_eq_none_call {known : Known} {head : String} {args : List Form}
    (hargs : ∀ a ∈ args, ∀ node ∈ a.nodes, node.fault? known = none)
    (hknown : known head = some args.length) :
    ∀ node ∈ (Form.call head args).nodes, node.fault? known = none :=
  fault?_eq_none_of_args hargs (by rw [Form.fault?, if_pos (.inr hknown)])

namespace Session

variable {s : Session} {lexicon : Lexicon} {d : Definition}

/-- Both compiled, to functions that give the same vector for as many vectors as they take, and that
are answered alike whatever they are called on. -/
def SameFunction (arity : Nat) (o o' : Outcome Handle) : Prop :=
  ∃ handle handle', o.result = .ok handle ∧ o'.result = .ok handle' ∧
    (∀ args, args.length = arity →
      ∃ q, o.session.enter handle args = some q ∧ o'.session.enter handle' args = some q) ∧
    ∀ args, o.session.call handle args = o'.session.call handle' args

theorem Interprets.exists_export (h : s.Interprets lexicon) (name : String) {params : List String}
    {body : Form} (haccept : Accepts lexicon.known params body) :
    ∃ handle, (s.compile .byAddress name params body).result = .ok handle ∧
      handle.arity = params.length ∧ ∀ args, args.length = params.length → ∃ q,
        body.meaning lexicon (params.zip args) = some q ∧
          (s.compile .byAddress name params body).session.enter handle args = some q := by
  rw [← h.known, ← Routine.faultOf_compile_eq_none_iff s.registry s.next .byAddress] at haccept
  rcases s.compile_cases .byAddress name params body with ⟨e, log, hr, hs⟩ | ⟨r, log, hr, hs⟩
  · rw [hr] at haccept
    cases haccept
  · rw [hs]
    refine ⟨_, rfl, rfl, fun args hargs => ?_⟩
    obtain ⟨q, hq, hrun⟩ := h.computes_compiled hr args hargs
    exact ⟨q, hq, by rw [enter, if_pos hargs]; exact hrun⟩

theorem Interprets.sameFunction {t : Session} {lexicon' : Lexicon} (hs : s.Interprets lexicon)
    (ht : t.Interprets lexicon') (name name' : String) {params : List String} {body body' : Form}
    (haccept : Accepts lexicon.known params body) (haccept' : Accepts lexicon'.known params body')
    (hmeaning : ∀ args, args.length = params.length →
      body.meaning lexicon (params.zip args) = body'.meaning lexicon' (params.zip args)) :
    SameFunction params.length (s.compile .byAddress name params body)
      (t.compile .byAddress name' params body') := by
  obtain ⟨handle, hresult, harity, hvalue⟩ := hs.exists_export name haccept
  obtain ⟨handle', hresult', harity', hvalue'⟩ := ht.exists_export name' haccept'
  have hboth (args : List Quad) (hargs : args.length = params.length) : ∃ q,
      (s.compile .byAddress name params body).session.enter handle args = some q ∧
        (t.compile .byAddress name' params body').session.enter handle' args = some q := by
    obtain ⟨q, hq, henter⟩ := hvalue args hargs
    obtain ⟨q', hq', henter'⟩ := hvalue' args hargs
    rw [hmeaning args hargs] at hq
    cases hq.symm.trans hq'
    exact ⟨q, henter, henter'⟩
  refine ⟨handle, handle', hresult, hresult', hboth, fun args => ?_⟩
  rw [call, call, harity, harity']
  by_cases hargs : args.length = params.length
  · obtain ⟨q, hq, hq'⟩ := hboth args hargs
    rw [hq, hq']
  · rw [if_pos hargs, if_pos hargs]

theorem Interprets.accepts_of_compile (h : s.Interprets lexicon) {convention : Convention}
    {name : String} {params : List String} {body : Form} {handle : Handle}
    (hok : (s.compile convention name params body).result = .ok handle) :
    Accepts lexicon.known params body := by
  rw [← h.known, ← Routine.faultOf_compile_eq_none_iff s.registry s.next convention]
  rcases s.compile_cases convention name params body with ⟨e, log, -, hs⟩ | ⟨r, log, hr, -⟩
  · rw [hs] at hok
    cases hok
  · rw [hr]
    rfl

/-- The convention has no part in whether a function compiles. -/
theorem define_result_eq (s : Session) (d : Definition) :
    (s.define d).result = (s.exportDefinition d).result.map fun _ => () := by
  have hfault : Lowering.faultOf
        (Routine.compile s.registry s.next .byValue d.params d.body).1 =
      Lowering.faultOf
        (Routine.compile s.registry s.next .byAddress d.params d.body).1 := by
    rw [Routine.faultOf_compile, Routine.faultOf_compile]
  rw [exportDefinition]
  rcases s.define_cases d with ⟨e, log, hr, hs⟩ | ⟨r, log, hr, hs⟩
  · rcases s.compile_cases .byAddress d.name d.params d.body with ⟨e', log', hr', hs'⟩ | ⟨r', log', hr', -⟩
    · rw [hr, hr'] at hfault
      cases hfault
      rw [hs, hs']
      rfl
    · rw [hr, hr'] at hfault
      cases hfault
  · rcases s.compile_cases .byAddress d.name d.params d.body with ⟨e', log', hr', -⟩ | ⟨r', log', hr', hs'⟩
    · rw [hr, hr'] at hfault
      cases hfault
    · rw [hs, hs']
      rfl

theorem Interprets.accepts_of_define (h : s.Interprets lexicon) (hd : (s.define d).result = .ok ()) :
    Accepts lexicon.known d.params d.body := by
  rw [define_result_eq, exceptMap_eq_ok_iff] at hd
  obtain ⟨handle, hhandle, -⟩ := hd
  exact h.accepts_of_compile hhandle

theorem accepts_selfCall (h : Accepts lexicon.known d.params d.body) :
    Accepts (lexicon.define d).known d.params d.selfCall := by
  refine ⟨h.1, h.2.1, fault?_eq_none_call ?_ ?_⟩
  · simp [Form.nodes, Form.fault?]
  · rw [List.length_map]
    exact Lexicon.known_define h

/-- A definition fails with the same fault under both conventions and as an expression, or
compiles under all of them. It is then exported as the same routine as its body is, and where its
name is not built in, a call of it on its own parameters gives what the exported routine gives. -/
theorem conventions_agree (s : Session) (hs : s.Reachable) (d : Definition) :
    (∃ e, (s.exportDefinition d).result = .error e ∧ (s.define d).result = .error e ∧
        (s.exportExpression d.body d.params).result = .error e) ∨
      ∃ handle r, (s.exportDefinition d).result = .ok handle ∧ (s.define d).result = .ok () ∧
        (s.exportExpression d.body d.params).result = .ok handle ∧
        (s.exportDefinition d).session = s.install d.name r ∧
        (s.exportExpression d.body d.params).session = s.install "externalexpr" r ∧
        (¬ IsBuiltin d.name d.arity → SameFunction d.arity (s.exportDefinition d)
          ((s.define d).session.exportExpression d.selfCall d.params)) := by
  obtain ⟨-, lexicon, hlexicon⟩ := hs.wellFormed
  have hdefine := s.define_result_eq d
  rcases s.compile_cases .byAddress d.name d.params d.body with ⟨e, log, hr, hd⟩ | ⟨r, log, hr, hd⟩
  · refine .inl ⟨e, by rw [exportDefinition, hd], ?_, ?_⟩
    · rw [hdefine, exportDefinition, hd]
      rfl
    · rw [exportExpression, compile, hr]
  · have hok : (s.define d).result = .ok () := by
      rw [hdefine, exportDefinition, hd]
      rfl
    have haccept := hlexicon.accepts_of_define hok
    refine .inr ⟨_, r, by rw [exportDefinition, hd], hok, ?_, by rw [exportDefinition, hd], ?_, ?_⟩
    · rw [exportExpression, s.compile_of_lowered _ _ _ _ hr]
    · rw [exportExpression, s.compile_of_lowered _ _ _ _ hr]
    · intro hbuiltin
      refine hlexicon.sameFunction (hlexicon.define d) _ _ haccept
        (accepts_selfCall haccept) fun args hargs => ?_
      rw [Definition.selfCall, Form.meaning, meaningOfAll_params _ _ haccept.1 args hargs,
        Option.bind_some, Lexicon.value?_define haccept hbuiltin args hargs]

def founded : Session := Session.after {} [.define ⟨"f", ["x"], .call "sqrt" [.var "x"]⟩]

def renewed : Definition := ⟨"f", ["a", "b"], .call "f" [.call "+" [.var "b", .var "z"]]⟩

theorem conventions_agree_renewed :
    SameFunction 2 (founded.exportDefinition renewed)
      ((founded.define renewed).session.exportExpression renewed.selfCall renewed.params) := by
  have hdefine := founded.define_of_accepts renewed (by decide)
  rcases conventions_agree founded ⟨_, _, rfl⟩ renewed with ⟨e, -, he, -⟩ |
    ⟨handle, r, -, -, -, -, -, hsame⟩
  · cases hdefine.symm.trans he
  · exact hsame (by decide)

end Session
end FourLane
