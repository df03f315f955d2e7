import FourLane.Proofs.LoweringRun

/-!
# When lowering fails

The lowering of a form fails exactly when a node of the form offends, and then with the fault
of the first one.
-/
namespace FourLane.Lowering

variable {α β : Type}

def faultOf : Except CompileFault α → Option CompileFault
  | .ok _ => none
  | .error e => some e

theorem faultOf_of_advances {registry : Registry} {x : Lowering α} (hx : Advances registry x)
    (d : Draft) : faultOf (x.run d).1 = none := by
  obtain ⟨a, d', h, -⟩ := hx d
  rw [h]
  rfl

theorem faultOf_bind (x : Lowering α) (f : α → Lowering β) (d : Draft) :
    faultOf ((x >>= f).run d).1 = match x.run d with
      | (.ok a, d') => faultOf ((f a).run d').1
      | (.error e, _) => some e := by
  rw [run_bind]
  rcases x.run d with ⟨e | a, d'⟩ <;> rfl

theorem faultOf_call (registry : Registry) (head : String) (vs : List Nat) (d : Draft) :
    faultOf ((call registry head vs).run d).1 =
      if IsBuiltin head vs.length ∨ registry.known head = some vs.length then none
      else some (.unresolved head vs.length) := by
  have hbuiltin := Builtin.resolve?_isSome_iff head vs.length
  have hdefined := registry.resolve?_isSome_iff head vs.length
  cases hb : Builtin.resolve? head vs.length with
  | some b =>
    rw [hb] at hbuiltin
    rw [if_pos (.inl (hbuiltin.mp rfl))]
    exact faultOf_of_advances (advances_call head vs b hb) d
  | none =>
    rw [hb] at hbuiltin
    simp only [call, hb]
    cases hr : registry.resolve? head vs.length with
    | some entry =>
      rw [hr] at hdefined
      rw [if_pos (.inr (hdefined.mp rfl))]
      exact faultOf_of_advances (advances_callDefined head vs entry hb hr) d
    | none =>
      rw [hr] at hdefined
      rw [if_neg (by simp [← hbuiltin, ← hdefined]), callDefined, hr]
      rfl

theorem length_of_run_forms (scope : Scope) (fs : List Form) (d d' : Draft) (vs : List Nat)
    (h : (forms scope fs).run d = (.ok vs, d')) : vs.length = fs.length := by
  induction fs generalizing d vs with
  | nil =>
    rw [forms, run_pure] at h
    cases h
    rfl
  | cons f fs ih =>
    obtain ⟨v, rest, d₁, -, hrest, rfl⟩ := exists_of_run_forms_cons h
    simp only [List.length_cons, ih d₁ rest hrest]

theorem faultOf_forms (scope : Scope) (fs : List Form)
    (hfs : ∀ f ∈ fs, ∀ d, faultOf ((form scope f).run d).1 =
      f.nodes.findSome? (Form.fault? scope.registry.known)) (d : Draft) :
    faultOf ((forms scope fs).run d).1 =
      (nodesOfAll fs).findSome? (Form.fault? scope.registry.known) := by
  induction fs generalizing d with
  | nil => rfl
  | cons f fs ih =>
    have hf := hfs f List.mem_cons_self d
    rw [forms, faultOf_bind, nodesOfAll, List.findSome?_append, ← hf]
    rcases (form scope f).run d with ⟨e | v, d₁⟩
    · rfl
    · have hrest := ih (fun g hg => hfs g (List.mem_cons_of_mem f hg)) d₁
      change faultOf ((forms scope fs >>= fun vs => pure (v :: vs)).run d₁).1 = Option.or none _
      rw [Option.none_or, faultOf_bind, ← hrest]
      rcases (forms scope fs).run d₁ with ⟨e | rest, d₂⟩ <;> rfl

/-- The lowering of a form fails with the fault of its first offending node, and with none
if no node offends. -/
theorem faultOf_form (scope : Scope) (f : Form) (d : Draft) :
    faultOf ((form scope f).run d).1 = f.nodes.findSome? (Form.fault? scope.registry.known) := by
  induction f generalizing d with
  | number x =>
    rw [form]
    exact faultOf_of_advances (advances_constant x : Advances scope.registry _) d
  | var name =>
    rw [form]
    cases scope.params.lookup name with
    | none =>
      exact faultOf_of_advances
        ((advances_note _).bind fun _ => advances_constant _ : Advances scope.registry _) d
    | some v => rfl
  | call head args ih =>
    have hargs := faultOf_forms scope args ih d
    rw [form, faultOf_bind, Form.nodes, List.findSome?_append, ← hargs]
    rcases hr : (forms scope args).run d with ⟨e | vs, d₁⟩
    · rfl
    · have hlen := length_of_run_forms scope args d d₁ vs hr
      change faultOf ((call scope.registry head vs).run d₁).1 = Option.or none _
      rw [Option.none_or, faultOf_call, hlen, List.findSome?_singleton, Form.fault?]
  | definition name params body _ => rfl

end FourLane.Lowering
