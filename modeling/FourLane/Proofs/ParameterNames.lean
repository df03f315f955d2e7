import FourLane.Proofs.BuiltinCalls
import FourLane.Proofs.Environments
import Mathlib

/-!
# The names of parameters

Code knows its parameters by their numbers. So parameters can be renamed, all at once and also
into each other, together with the variables of the body, and what is compiled stays the same down
to its last instruction. Only a name that is free in the body must not become a parameter: it would
no longer read as zero. Heads of calls are names of another kind. They are not renamed, and a
parameter may have the name of a function.
-/
namespace FourLane

def renamed (names : List (String × String)) (name : String) : String :=
  (names.lookup name).getD name

mutual

/-- The form with other names for its variables. Heads of calls, and what is inside a definition,
stay as they are. -/
def Form.rename (names : List (String × String)) : Form → Form
  | .number x => .number x
  | .var name => .var (renamed names name)
  | .call head args => .call head (renameAll names args)
  | .definition name params body => .definition name params body

def renameAll (names : List (String × String)) : List Form → List Form
  | [] => []
  | f :: fs => f.rename names :: renameAll names fs

end

theorem renameAll_eq_map (names : List (String × String)) (fs : List Form) :
    renameAll names fs = fs.map (Form.rename names) := by
  induction fs with
  | nil => rfl
  | cons f fs ih => rw [renameAll, List.map_cons, ih]

theorem heads_call (head : String) (args : List Form) :
    (Form.call head args).heads = args.flatMap Form.heads ++ [head] := by
  have hargs : (nodesOfAll args).filterMap Form.head? = args.flatMap Form.heads := by
    induction args with
    | nil => rfl
    | cons f fs ih => rw [nodesOfAll, List.filterMap_append, List.flatMap_cons, ih, Form.heads]
  rw [Form.heads, Form.nodes, List.filterMap_append, hargs]
  rfl

theorem heads_rename (names : List (String × String)) (f : Form) :
    (f.rename names).heads = f.heads := by
  induction f with
  | number x => rfl
  | var name => rfl
  | call head args ih =>
    rw [Form.rename, renameAll_eq_map, heads_call, heads_call, List.flatMap_map]
    congr 1
    exact List.flatMap_congr ih
  | definition name params body _ => rfl

/-! ### Names and numbers of parameters -/

theorem renamed_eq_self {params params' : List String} {name : String} (h : name ∉ params) :
    renamed (params.zip params') name = name := by
  rw [renamed, lookup_zip_eq_none h]
  rfl

theorem renamed_mem {params params' : List String} (hlength : params'.length = params.length)
    {name : String} (h : name ∈ params) : renamed (params.zip params') name ∈ params' := by
  cases hlookup : (params.zip params').lookup name with
  | none =>
    rw [lookup_eq_none_iff_notMem, List.map_fst_zip (Nat.le_of_eq hlength.symm)] at hlookup
    exact absurd h hlookup
  | some name' =>
    rw [renamed, hlookup]
    exact (List.of_mem_zip (mem_of_lookup hlookup)).2

theorem lookup_zipIdx_eq_none {params : List String} {first : Nat} {name : String}
    (h : (params.zipIdx first).lookup name = none) : name ∉ params := by
  rwa [lookup_eq_none_iff_notMem, List.zipIdx_map_fst] at h

/-- A renamed parameter has the number of the parameter. -/
theorem lookup_renamed {params params' : List String} (hlength : params'.length = params.length)
    (hnodup : params'.Nodup) {name : String} (hfree : name ∈ params' → name ∈ params) (first : Nat) :
    (params'.zipIdx first).lookup (renamed (params.zip params') name) =
      (params.zipIdx first).lookup name := by
  induction params generalizing params' first with
  | nil =>
    rw [List.length_eq_zero_iff.mp hlength]
    rfl
  | cons p params ih =>
    cases params' with
    | nil => cases hlength
    | cons p' params' =>
      rw [List.nodup_cons] at hnodup
      have hlength' : params'.length = params.length := Nat.succ.inj hlength
      by_cases hname : name = p
      · have hself : renamed ((p :: params).zip (p' :: params')) p = p' := by
          rw [renamed, List.zip_cons_cons, List.lookup_cons_self]
          rfl
        rw [hname, hself, List.zipIdx_cons, List.zipIdx_cons, List.lookup_cons_self,
          List.lookup_cons_self]
      · have htail : renamed ((p :: params).zip (p' :: params')) name =
            renamed (params.zip params') name := by
          rw [renamed, List.zip_cons_cons, List.lookup_cons, beq_false_of_ne hname]
          rfl
        -- The new name is that of a later parameter, or it is free and none of the new ones.
        have hne : renamed (params.zip params') name ≠ p' := by
          by_cases hmem : name ∈ params
          · intro heq
            exact hnodup.1 (heq ▸ renamed_mem hlength' hmem)
          · rw [renamed_eq_self hmem]
            rintro rfl
            exact (List.mem_cons.mp (hfree List.mem_cons_self)).elim hname hmem
        have hfree' : name ∈ params' → name ∈ params := by
          intro hmem
          exact (List.mem_cons.mp (hfree (List.mem_cons_of_mem p' hmem))).resolve_left hname
        rw [htail, List.zipIdx_cons, List.zipIdx_cons, List.lookup_cons, List.lookup_cons,
          beq_false_of_ne hne, beq_false_of_ne hname]
        exact ih hlength' hnodup.2 hfree' (first + 1)

/-! ### Lowering under other names -/

namespace Lowering

variable {registry : Registry} {params params' : List (String × Nat)} {names : List (String × String)}

theorem forms_rename (fs : List Form)
    (h : ∀ f ∈ fs, form ⟨params', registry⟩ (f.rename names) = form ⟨params, registry⟩ f) :
    forms ⟨params', registry⟩ (renameAll names fs) = forms ⟨params, registry⟩ fs := by
  induction fs with
  | nil => rfl
  | cons f fs ih =>
    rw [List.forall_mem_cons] at h
    rw [renameAll, forms, forms, h.1, ih h.2]

/-- Variables are lowered to the numbers of their names, and a free name is noted as such. -/
theorem form_rename (f : Form)
    (h : ∀ name, Form.var name ∈ f.nodes →
      params'.lookup (renamed names name) = params.lookup name ∧
        (params.lookup name = none → renamed names name = name)) :
    form ⟨params', registry⟩ (f.rename names) = form ⟨params, registry⟩ f := by
  induction f with
  | number x => rfl
  | var name =>
    obtain ⟨hlookup, hfree⟩ := h name List.mem_cons_self
    rw [Form.rename, form, form]
    simp only [hlookup]
    cases hvalue : params.lookup name with
    | some v => rfl
    | none => simp only [hfree hvalue]
  | call head args ih =>
    have hargs := forms_rename args fun f hf =>
      ih f hf fun name hname => h name (Form.mem_nodes_of_arg hf hname)
    rw [Form.rename, form, form, hargs]
  | definition name params body _ => rfl

end Lowering

theorem Routine.compile_rename (registry : Registry) (number : Nat) (convention : Convention)
    {params params' : List String} (hparams : validateParams params = .ok ())
    (hparams' : validateParams params' = .ok ()) (hlength : params'.length = params.length)
    {body : Form} (hfree : ∀ p ∈ params', Form.var p ∈ body.nodes → p ∈ params) :
    compile registry number convention params' (body.rename (params.zip params')) =
      compile registry number convention params body := by
  have hnodup := ((validateParams_eq_ok_iff params').mp hparams').1
  have hform : Lowering.form (scope registry convention params') (body.rename (params.zip params')) =
      Lowering.form (scope registry convention params) body := by
    apply Lowering.form_rename
    intro name hname
    constructor
    · rw [hlength]
      exact lookup_renamed hlength hnodup (fun hmem => hfree name hmem hname) _
    · intro hlookup
      exact renamed_eq_self (lookup_zipIdx_eq_none hlookup)
  rw [compile_of_ok _ _ _ _ _ hparams, compile_of_ok _ _ _ _ _ hparams', hform, hlength]

/-! ### Names that mean nothing else -/

theorem exists_fresh_names {avoided : Set String} (h : avoided.Finite) (count : Nat) :
    ∃ names : List String, names.length = count ∧ names.Nodup ∧ ∀ p ∈ names, p ∉ avoided := by
  have hinjective : Function.Injective fun n => String.ofList (List.replicate n 'x') := by
    intro m n heq
    have hlength := congrArg (fun text => text.toList.length) heq
    simpa using hlength
  have hinfinite : Infinite String := .of_injective _ hinjective
  obtain ⟨names, hsubset, hcard⟩ := h.infinite_compl.exists_subset_card_eq count
  refine ⟨names.toList, ?_, names.nodup_toList, fun p hp => ?_⟩
  · rw [Finset.length_toList, hcard]
  · exact hsubset (Finset.mem_toList.mp hp)

namespace Session

def reservedNames (s : Session) (body : Form) : Set String :=
  {p | p ∈ "result" :: builtinNames ++ body.heads ++ s.registry.map Prod.fst} ∪
    {p | Form.var p ∈ body.nodes}

theorem finite_reservedNames (s : Session) (body : Form) : (s.reservedNames body).Finite := by
  apply (List.finite_toSet _).union
  apply (List.finite_toSet body.nodes).preimage
  intro p _ q _ heq
  exact Form.var.inj heq

theorem compile_rename (s : Session) (convention : Convention) (name : String)
    {params params' : List String} (hparams : validateParams params = .ok ())
    (hparams' : validateParams params' = .ok ()) (hlength : params'.length = params.length)
    {body : Form} (hfree : ∀ p ∈ params', Form.var p ∈ body.nodes → p ∈ params) :
    s.compile convention name params' (body.rename (params.zip params')) =
      s.compile convention name params body := by
  rw [compile, compile, Routine.compile_rename _ _ _ hparams hparams' hlength hfree, hlength]

/-- Renamed parameters and variables compile to the same routine, or fail with the same fault, as
long as no free name becomes a parameter. So the parameters may as well have names that no function
has, which leaves all calls as they are. -/
theorem parameter_names_immaterial (s : Session) (convention : Convention) (name : String)
    (params : List String) (hparams : validateParams params = .ok ()) (body : Form) :
    (∀ params' : List String, params'.length = params.length → params'.Nodup →
      "result" ∉ params' → (∀ p ∈ params', Form.var p ∈ body.nodes → p ∈ params) →
      Routine.compile s.registry s.next convention params' (body.rename (params.zip params')) =
          Routine.compile s.registry s.next convention params body ∧
        s.compile convention name params' (body.rename (params.zip params')) =
          s.compile convention name params body) ∧
    ∃ plain : List String, plain.length = params.length ∧
      (∀ p ∈ plain, p ∉ builtinNames ∧ s.arity? p = none ∧ p ∉ body.heads) ∧
      (body.rename (params.zip plain)).heads = body.heads ∧
      s.compile convention name plain (body.rename (params.zip plain)) =
        s.compile convention name params body := by
  constructor
  · intro params' hlength hnodup hresult hfree
    have hparams' := (validateParams_eq_ok_iff params').mpr ⟨hnodup, hresult⟩
    exact ⟨Routine.compile_rename _ _ _ hparams hparams' hlength hfree,
      s.compile_rename convention name hparams hparams' hlength hfree⟩
  · obtain ⟨plain, hlength, hnodup, hfresh⟩ :=
      exists_fresh_names (s.finite_reservedNames body) params.length
    have hlist (p : String) (hp : p ∈ plain) :
        p ∉ "result" :: builtinNames ++ body.heads ++ s.registry.map Prod.fst :=
      fun hmem => hfresh p hp (.inl hmem)
    have hplain : validateParams plain = .ok () := by
      rw [validateParams_eq_ok_iff]
      refine ⟨hnodup, fun hresult => ?_⟩
      exact hlist _ hresult (by simp)
    refine ⟨plain, hlength, fun p hp => ⟨?_, ?_, ?_⟩, heads_rename _ body, ?_⟩
    · intro hmem
      exact hlist p hp (by simp [hmem])
    · rw [arity?, Option.map_eq_none_iff, lookup_eq_none_iff_notMem]
      intro hmem
      exact hlist p hp (List.mem_append_right _ hmem)
    · intro hmem
      exact hlist p hp (by simp [hmem])
    · apply s.compile_rename convention name hparams hplain hlength
      intro p hp hmem
      exact absurd (.inr hmem) (hfresh p hp)

def namesake : Form := .call "+" [.call "f" [.var "x"], .call "sqrt" [.var "y"], .var "z"]

/-- The first parameter takes the name of the second, and that one the name of a function. -/
theorem parameter_names_immaterial_namesake :
    founded.compile .byValue "g" ["y", "sqrt"]
        (.call "+" [.call "f" [.var "y"], .call "sqrt" [.var "sqrt"], .var "z"]) =
      founded.compile .byValue "g" ["x", "y"] namesake ∧
    (founded.compile .byValue "g" ["x", "y"] namesake).result = .ok ⟨6, 2⟩ := by
  have hrename := (parameter_names_immaterial founded .byValue "g" ["x", "y"] rfl namesake).1
    ["y", "sqrt"] rfl (by decide) (by decide)
  refine ⟨(hrename ?_).2, rfl⟩
  intro p hp hmem
  simp only [namesake, Form.nodes, nodesOfAll, List.append_nil, List.cons_append, List.nil_append,
    List.mem_cons, List.not_mem_nil, or_false, Form.var.injEq, reduceCtorEq, false_or] at hmem
  rcases hmem with rfl | rfl | rfl
  · decide
  · decide
  · revert hp
    decide

end Session
end FourLane
