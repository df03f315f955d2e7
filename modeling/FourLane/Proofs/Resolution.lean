import FourLane.Proofs.CompileResult

/-!
# What lowering asks of a registry

A registry is asked for the heads of calls that are not built in, each with the number of its
arguments, and for nothing else. Registries that agree on these calls lower a form alike. So a
function that is defined under a name makes no difference to forms without a call of that name.
-/
namespace FourLane

def Form.head? : Form → Option String
  | .call head _ => some head
  | _ => none

/-- The heads of the calls of a form. -/
def Form.heads (f : Form) : List String := f.nodes.filterMap head?

theorem Form.mem_heads {f : Form} {head : String} {args : List Form}
    (h : Form.call head args ∈ f.nodes) : head ∈ f.heads :=
  List.mem_filterMap.mpr ⟨_, h, rfl⟩

theorem Form.mem_nodes_of_arg {head : String} {args : List Form} {f node : Form} (hf : f ∈ args)
    (h : node ∈ f.nodes) : node ∈ (Form.call head args).nodes := by
  rw [Form.nodes, List.mem_append]
  exact .inl ((mem_nodesOfAll node args).mpr ⟨f, hf, h⟩)

namespace Registry

/-- Calls of the form that are not built in reach the same in both registries. -/
def AgreeOn (registry registry' : Registry) (f : Form) : Prop :=
  ∀ head args, Form.call head args ∈ f.nodes →
    IsBuiltin head args.length ∨
      registry.resolve? head args.length = registry'.resolve? head args.length

theorem agreeOn_of_lookup {registry registry' : Registry} {f : Form}
    (h : ∀ head ∈ f.heads, registry.lookup head = registry'.lookup head) :
    registry.AgreeOn registry' f := by
  intro head args hcall
  rw [resolve?, resolve?, h head (Form.mem_heads hcall)]
  exact .inr rfl

theorem AgreeOn.of_arg {registry registry' : Registry} {head : String} {args : List Form}
    (h : registry.AgreeOn registry' (.call head args)) {f : Form} (hf : f ∈ args) :
    registry.AgreeOn registry' f :=
  fun head' args' hcall => h head' args' (Form.mem_nodes_of_arg hf hcall)

end Registry

namespace Lowering

variable {registry registry' : Registry}

theorem call_congr (head : String) (vs : List Nat)
    (h : IsBuiltin head vs.length ∨
      registry.resolve? head vs.length = registry'.resolve? head vs.length) :
    call registry head vs = call registry' head vs := by
  rw [← Builtin.resolve?_isSome_iff] at h
  cases hb : Builtin.resolve? head vs.length with
  | none =>
    have hresolve := h.resolve_left (by simp [hb])
    simp only [call, hb, callDefined, hresolve]
  | some b =>
    have htakes := ((Builtin.resolve?_eq_some_iff head vs.length b).mp hb).2
    cases b with
    | arith op =>
      cases vs with
      | nil => cases htakes
      | cons v rest => simp only [call, hb]
    | sqrt =>
      obtain ⟨v, rfl⟩ := List.length_eq_one_iff.mp ((Builtin.takes_sqrt _).mp htakes)
      simp only [call, hb]
    | elementary e => simp only [call, hb]

theorem run_forms_congr (params : List (String × Nat)) (fs : List Form)
    (hfs : ∀ f ∈ fs, ∀ d, (form ⟨params, registry⟩ f).run d = (form ⟨params, registry'⟩ f).run d)
    (d : Draft) :
    (forms ⟨params, registry⟩ fs).run d = (forms ⟨params, registry'⟩ fs).run d := by
  induction fs generalizing d with
  | nil => rfl
  | cons f fs ih =>
    rw [List.forall_mem_cons] at hfs
    rw [forms, forms, run_bind, run_bind, hfs.1 d]
    rcases (form ⟨params, registry'⟩ f).run d with ⟨e | v, d₁⟩
    · rfl
    · simp only [run_bind, ih hfs.2 d₁]

/-- Lowering sees a registry through the calls of the form only. -/
theorem run_form_congr (params : List (String × Nat)) (f : Form) (h : registry.AgreeOn registry' f)
    (d : Draft) : (form ⟨params, registry⟩ f).run d = (form ⟨params, registry'⟩ f).run d := by
  induction f generalizing d with
  | number x => rfl
  | var name => rfl
  | call head args ih =>
    have hargs := run_forms_congr params args (fun f hf => ih f hf (h.of_arg hf)) d
    rw [form, form, run_bind, run_bind, hargs]
    rcases hrun : (forms ⟨params, registry'⟩ args).run d with ⟨e | vs, d₁⟩
    · rfl
    · have hlength := length_of_run_forms _ args d d₁ vs hrun
      have hcall := h head args (by simp [Form.nodes])
      rw [← hlength] at hcall
      simp only [call_congr head vs hcall]
  | definition name params' body _ => rfl

end Lowering

namespace Routine

variable {registry registry' : Registry}

theorem compile_congr (number : Nat) (convention : Convention) (params : List String) (body : Form)
    (h : registry.AgreeOn registry' body) :
    compile registry number convention params body =
      compile registry' number convention params body := by
  cases hp : validateParams params with
  | error e => rw [compile_of_error _ _ _ _ _ e hp, compile_of_error _ _ _ _ _ e hp]
  | ok u =>
    have hrun := Lowering.run_form_congr
      (params.zipIdx (firstArgument convention params.length)) body h
      (start convention params.length)
    rw [compile_of_ok _ _ _ _ _ hp, compile_of_ok _ _ _ _ _ hp]
    simp only [scope, hrun]

/-- The number of a routine is given to it and has no part in its code. -/
theorem compile_number (registry : Registry) (number number' : Nat) (convention : Convention)
    (params : List String) (body : Form) :
    compile registry number' convention params body =
      ((compile registry number convention params body).1.map fun r => { r with number := number' },
        (compile registry number convention params body).2) := by
  cases hp : validateParams params with
  | error e =>
    rw [compile_of_error _ _ _ _ _ e hp, compile_of_error _ _ _ _ _ e hp]
    rfl
  | ok u =>
    rw [compile_of_ok _ _ _ _ _ hp, compile_of_ok _ _ _ _ _ hp]
    rcases (Lowering.form (scope registry convention params) body).run
      (start convention params.length) with ⟨e | v, d⟩
    · rfl
    · rfl

end Routine
end FourLane
