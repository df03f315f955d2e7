import FourLane.Proofs.CompileResult

/-!
# What lowering logs

Lowering notes every name that has no value and, at the end, the node that cannot be lowered.
All else that it does is silent. What is logged for a form is therefore said by its nodes, in the
order in which they are finished, up to the first that offends.
-/
namespace FourLane

/-- What is logged for a node, its arguments apart. -/
def Form.event? (known : Known) (bound : List String) : Form → Option Event
  | .number _ => none
  | .var name => if name ∈ bound then none else some (.unboundName name)
  | .call head args =>
    if IsBuiltin head args.length ∨ known head = some args.length then none
    else some (.functionMissing head args.length)
  | .definition name _ _ => some (.definitionRejected name)

/-- What is logged for nodes, up to the first that offends. -/
def loggedBy (known : Known) (bound : List String) : List Form → List Event
  | [] => []
  | node :: nodes =>
    (node.event? known bound).toList ++
      match node.fault? known with
      | none => loggedBy known bound nodes
      | some _ => []

theorem loggedBy_append (known : Known) (bound : List String) (nodes later : List Form) :
    loggedBy known bound (nodes ++ later) =
      loggedBy known bound nodes ++
        match nodes.findSome? (Form.fault? known) with
        | none => loggedBy known bound later
        | some _ => [] := by
  induction nodes with
  | nil => rfl
  | cons node nodes ih =>
    simp only [List.cons_append, loggedBy, List.findSome?_cons]
    cases node.fault? known with
    | some e => simp
    | none => simp [ih]

theorem event?_of_mem_loggedBy (known : Known) (bound : List String) (nodes : List Form)
    (e : Event) (h : e ∈ loggedBy known bound nodes) :
    ∃ node ∈ nodes, node.event? known bound = some e := by
  induction nodes with
  | nil => cases h
  | cons node nodes ih =>
    rw [loggedBy, List.mem_append, Option.mem_toList] at h
    rcases h with h | h
    · exact ⟨node, List.mem_cons_self, h⟩
    · cases hf : node.fault? known with
      | some fault =>
        rw [hf] at h
        cases h
      | none =>
        rw [hf] at h
        obtain ⟨node', hmem, he⟩ := ih h
        exact ⟨node', List.mem_cons_of_mem node hmem, he⟩

namespace Lowering

variable {α β : Type}

def Silent (x : Lowering α) : Prop := ∀ d, (x.run d).2.log = d.log

theorem Silent.bind {x : Lowering α} {f : α → Lowering β} (hx : Silent x)
    (hf : ∀ a, Silent (f a)) : Silent (x >>= f) := by
  intro d
  have h := hx d
  rw [run_bind]
  rcases hr : x.run d with ⟨e | a, d'⟩
  · rw [hr] at h
    exact h
  · rw [hr] at h
    exact (hf a d').trans h

theorem silent_pure (a : α) : Silent (pure a) := fun _ => rfl

theorem silent_emit (instr : Instr) : Silent (emit instr) := fun _ => rfl

theorem silent_importOf (target : Nat) (signature : Signature) :
    Silent (importOf target signature) := by
  intro d
  rw [run_importOf]
  cases d.imports.findIdx? fun i => i.target = target with
  | some k => rfl
  | none => rfl

theorem silent_constant (x : Lane) : Silent (constant x) :=
  (silent_emit _).bind fun _ => silent_emit _

theorem silent_arith (op : Arithmetic) (first : Nat) (vs : List Nat) :
    Silent (arith op first vs) := by
  induction vs generalizing first with
  | nil => exact silent_pure first
  | cons v vs ih => exact (silent_emit _).bind fun r => ih r

theorem silent_extractAll (lane : Fin 4) (vs : List Nat) : Silent (extractAll lane vs) := by
  induction vs with
  | nil => exact silent_pure []
  | cons v vs ih => exact (silent_emit _).bind fun _ => ih.bind fun _ => silent_pure _

theorem silent_applyLane (callee : Nat) (vs : List Nat) (lane : Fin 4) :
    Silent (applyLane callee vs lane) :=
  (silent_extractAll lane vs).bind fun _ => silent_emit _

theorem silent_insertLane (callee : Nat) (vs : List Nat) (vector : Nat) (lane : Fin 4) :
    Silent (insertLane callee vs vector lane) :=
  (silent_applyLane callee vs lane).bind fun _ => silent_emit _

theorem silent_eachLane (e : Elementary) (vs : List Nat) : Silent (eachLane e vs) :=
  (silent_importOf _ _).bind fun callee =>
    (silent_applyLane callee vs 0).bind fun _ => (silent_emit _).bind fun _ =>
      (silent_insertLane callee vs _ 1).bind fun _ =>
        (silent_insertLane callee vs _ 2).bind fun _ => silent_insertLane callee vs _ 3

theorem log_callDefined (registry : Registry) (head : String) (vs : List Nat) (d : Draft) :
    ((callDefined registry head vs).run d).2.log.toList = d.log.toList ++
      if registry.known head = some vs.length then [] else [.functionMissing head vs.length] := by
  have hdefined := registry.resolve?_isSome_iff head vs.length
  rw [callDefined]
  cases hr : registry.resolve? head vs.length with
  | some entry =>
    rw [hr] at hdefined
    have hsilent : Silent (do
        let callee ← importOf entry.number (Convention.byValue.signature entry.arity)
        emit (.call callee vs)) := (silent_importOf _ _).bind fun _ => silent_emit _
    rw [if_pos (hdefined.mp rfl), List.append_nil]
    exact congrArg Array.toList (hsilent d)
  | none =>
    rw [hr] at hdefined
    rw [if_neg (by simp [← hdefined])]
    exact Array.toList_push

theorem log_call (registry : Registry) (head : String) (vs : List Nat) (d : Draft) :
    ((call registry head vs).run d).2.log.toList = d.log.toList ++
      if IsBuiltin head vs.length ∨ registry.known head = some vs.length then []
      else [.functionMissing head vs.length] := by
  have hsilent (x : Lowering Nat) (hx : Silent x) (b : Builtin)
      (hb : Builtin.resolve? head vs.length = some b) : (x.run d).2.log.toList = d.log.toList ++
        if IsBuiltin head vs.length ∨ registry.known head = some vs.length then []
        else [.functionMissing head vs.length] := by
    have hbuiltin := (Builtin.resolve?_isSome_iff head vs.length).mp (by rw [hb]; rfl)
    rw [if_pos (.inl hbuiltin), List.append_nil, hx d]
  rcases call_cases registry head vs with ⟨op, v, w, rest, hb, -, hc⟩ | ⟨v, hb, -, hc⟩ |
    ⟨e, hb, -, hc⟩ | ⟨hb, hc⟩
  · rw [hc]
    exact hsilent _ (silent_arith op v _) _ hb
  · rw [hc]
    exact hsilent _ (silent_emit _) _ hb
  · rw [hc]
    exact hsilent _ (silent_eachLane e vs) _ hb
  · have hbuiltin : ¬ IsBuiltin head vs.length := by
      rw [← Builtin.resolve?_isSome_iff, hb]
      simp
    rw [hc, log_callDefined]
    simp only [hbuiltin, false_or]

abbrev logOf (scope : Scope) (nodes : List Form) : List Event :=
  loggedBy scope.registry.known (scope.params.map Prod.fst) nodes

theorem log_forms (scope : Scope) (fs : List Form)
    (hfs : ∀ f ∈ fs, ∀ d, ((form scope f).run d).2.log.toList =
      d.log.toList ++ logOf scope f.nodes) (d : Draft) :
    ((forms scope fs).run d).2.log.toList = d.log.toList ++ logOf scope (nodesOfAll fs) := by
  induction fs generalizing d with
  | nil => simp [forms, nodesOfAll, logOf, loggedBy, run_pure]
  | cons f fs ih =>
    have hf := hfs f List.mem_cons_self d
    have hfault := faultOf_form scope f d
    rw [forms, run_bind, nodesOfAll, logOf, loggedBy_append, ← hfault]
    rcases hr : (form scope f).run d with ⟨e | v, d₁⟩
    · rw [hr] at hf
      simpa [faultOf] using hf
    · rw [hr] at hf
      have hrest := ih (fun g hg => hfs g (List.mem_cons_of_mem f hg)) d₁
      have hlog : ((forms scope fs >>= fun vs => pure (v :: vs)).run d₁).2.log =
          ((forms scope fs).run d₁).2.log := by
        rw [run_bind]
        rcases (forms scope fs).run d₁ with ⟨e | rest, d₂⟩ <;> rfl
      change ((forms scope fs >>= fun vs => pure (v :: vs)).run d₁).2.log.toList = _
      change d₁.log.toList = _ at hf
      rw [hlog, hrest, hf, List.append_assoc]
      rfl

theorem log_form (scope : Scope) (f : Form) (d : Draft) :
    ((form scope f).run d).2.log.toList = d.log.toList ++ logOf scope f.nodes := by
  induction f generalizing d with
  | number x =>
    rw [form, silent_constant x d]
    simp [Form.nodes, logOf, loggedBy, Form.event?, Form.fault?]
  | var name =>
    rw [form]
    cases hlookup : scope.params.lookup name with
    | some v =>
      have hbound : name ∈ scope.params.map Prod.fst :=
        List.mem_map_of_mem (mem_of_lookup hlookup)
      simp [Form.nodes, logOf, loggedBy, Form.event?, Form.fault?, hbound, run_pure]
    | none =>
      have hfree : name ∉ scope.params.map Prod.fst := lookup_eq_none_iff_notMem.mp hlookup
      change ((constant _).run { d with log := d.log.push (.unboundName name) }).2.log.toList = _
      rw [silent_constant]
      simp [Form.nodes, logOf, loggedBy, Form.event?, Form.fault?, hfree]
  | call head args ih =>
    have hargs := log_forms scope args ih d
    have hfault := faultOf_forms scope args (fun f _ => faultOf_form scope f) d
    rw [form, run_bind, Form.nodes, logOf, loggedBy_append, ← hfault]
    rcases hr : (forms scope args).run d with ⟨e | vs, d₁⟩
    · rw [hr] at hargs
      simpa [faultOf] using hargs
    · rw [hr] at hargs
      have hlen := length_of_run_forms scope args d d₁ vs hr
      change ((call scope.registry head vs).run d₁).2.log.toList = _
      rw [log_call, hlen]
      change d₁.log.toList = _ at hargs
      rw [hargs, List.append_assoc]
      simp only [faultOf, loggedBy, Form.event?, Form.fault?]
      split_ifs <;> rfl
  | definition name params body _ =>
    rw [form]
    change (d.log.push (.definitionRejected name)).toList = _
    simp [Form.nodes, logOf, loggedBy, Form.event?, Form.fault?]

end Lowering

/-- The log of a compilation. Nothing is lowered if the parameters offend. -/
theorem Routine.log_compile (registry : Registry) (number : Nat) (convention : Convention)
    (params : List String) (body : Form) :
    (compile registry number convention params body).2 =
      match validateParams params with
      | .error _ => []
      | .ok () => loggedBy registry.known params body.nodes := by
  cases hp : validateParams params with
  | error e => rw [compile_of_error registry number convention params body e hp]
  | ok u =>
    have hlog := Lowering.log_form (scope registry convention params) body
      (start convention params.length)
    have hstart : (start convention params.length).log = #[] := by cases convention <;> rfl
    have hnames : (params.zipIdx (firstArgument convention params.length)).map Prod.fst = params :=
      List.zipIdx_map_fst _ _
    rw [compile_of_ok registry number convention params body hp]
    rw [hstart] at hlog
    simp only [Lowering.logOf, scope, hnames, List.nil_append] at hlog
    change _ = loggedBy registry.known params body.nodes
    rw [← hlog]
    simp only [scope]
    split <;> simp_all

end FourLane
