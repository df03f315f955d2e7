import FourLane.Proofs.CompileResult
import FourLane.Proofs.Execution

/-!
# Renumbered routines

A number only stands for a routine. If the functions of a registry get other numbers, different
ones for different functions, and the elementary functions keep theirs, then the same forms are
lowered, with the same faults and the same log, to code that differs in the numbers of its
imports alone. Such code computes the same where the numbers stand for the same.
-/
namespace FourLane

def Import.renumber (σ : Nat → Nat) (i : Import) : Import := { i with target := σ i.target }

def Entry.renumber (σ : Nat → Nat) (entry : Entry) : Entry :=
  { entry with number := σ entry.number }

def Registry.renumber (σ : Nat → Nat) (registry : Registry) : Registry :=
  registry.map fun (name, entry) => (name, entry.renumber σ)

def Draft.renumber (σ : Nat → Nat) (d : Draft) : Draft :=
  { d with imports := d.imports.map (Import.renumber σ) }

def Routine.renumber (σ : Nat → Nat) (r : Routine) : Routine :=
  { r with number := σ r.number, imports := r.imports.map (Import.renumber σ) }

theorem Registry.lookup_renumber (σ : Nat → Nat) (registry : Registry) (name : String) :
    (registry.renumber σ).lookup name = (registry.lookup name).map (Entry.renumber σ) := by
  induction registry with
  | nil => rfl
  | cons head registry ih =>
    change List.lookup name ((head.1, head.2.renumber σ) :: Registry.renumber σ registry) = _
    rw [List.lookup_cons, List.lookup_cons, ih]
    cases name == head.1 <;> rfl

theorem Registry.resolve?_renumber (σ : Nat → Nat) (registry : Registry) (head : String)
    (count : Nat) :
    (registry.renumber σ).resolve? head count =
      (registry.resolve? head count).map (Entry.renumber σ) := by
  rw [resolve?, resolve?, lookup_renumber]
  cases registry.lookup head with
  | none => rfl
  | some entry =>
    simp only [Option.map_some, Option.filter_some, Entry.renumber]
    split_ifs <;> rfl

/-- Different routines get different numbers, and the elementary functions keep theirs. -/
structure Renumbering (σ : Nat → Nat) : Prop where
  injective : Function.Injective σ
  elementary : ∀ n < 5, σ n = n

namespace Lowering

variable {α β : Type} {σ : Nat → Nat}

/-- The first action does to the renumbered draft what the second does to the draft. -/
def Follows (σ : Nat → Nat) (x y : Lowering α) : Prop :=
  ∀ d, x.run (d.renumber σ) = ((y.run d).1, (y.run d).2.renumber σ)

theorem Follows.bind {x y : Lowering α} {f g : α → Lowering β} (hxy : Follows σ x y)
    (hfg : ∀ a, Follows σ (f a) (g a)) : Follows σ (x >>= f) (y >>= g) := by
  intro d
  rw [run_bind, run_bind, hxy d]
  rcases y.run d with ⟨e | a, d'⟩
  · rfl
  · exact hfg a d'

theorem follows_pure (a : α) : Follows σ (pure a) (pure a) := fun _ => rfl

theorem follows_throw (e : CompileFault) : Follows σ (throw e : Lowering α) (throw e) :=
  fun _ => rfl

theorem follows_emit (instr : Instr) : Follows σ (emit instr) (emit instr) := fun _ => rfl

theorem follows_note (e : Event) : Follows σ (note e) (note e) := fun _ => rfl

theorem follows_importOf (hσ : Renumbering σ) (target : Nat) (signature : Signature) :
    Follows σ (importOf (σ target) signature) (importOf target signature) := by
  intro d
  have hfind : ((d.renumber σ).imports.findIdx? fun i => i.target = σ target) =
      d.imports.findIdx? fun i => i.target = target := by
    simp [Draft.renumber, Array.findIdx?_map, Function.comp_def, Import.renumber,
      hσ.injective.eq_iff]
  rw [run_importOf, run_importOf, hfind]
  cases d.imports.findIdx? fun i => i.target = target with
  | some k => rfl
  | none => simp [Draft.renumber, Import.renumber]

theorem follows_constant (x : Lane) : Follows σ (constant x) (constant x) :=
  (follows_emit _).bind fun _ => follows_emit _

theorem follows_arith (op : Arithmetic) (first : Nat) (vs : List Nat) :
    Follows σ (arith op first vs) (arith op first vs) := by
  induction vs generalizing first with
  | nil => exact follows_pure first
  | cons v vs ih => exact (follows_emit _).bind fun r => ih r

theorem follows_extractAll (lane : Fin 4) (vs : List Nat) :
    Follows σ (extractAll lane vs) (extractAll lane vs) := by
  induction vs with
  | nil => exact follows_pure []
  | cons v vs ih => exact (follows_emit _).bind fun _ => ih.bind fun _ => follows_pure _

theorem follows_applyLane (callee : Nat) (vs : List Nat) (lane : Fin 4) :
    Follows σ (applyLane callee vs lane) (applyLane callee vs lane) :=
  (follows_extractAll lane vs).bind fun _ => follows_emit _

theorem follows_insertLane (callee : Nat) (vs : List Nat) (vector : Nat) (lane : Fin 4) :
    Follows σ (insertLane callee vs vector lane) (insertLane callee vs vector lane) :=
  (follows_applyLane callee vs lane).bind fun _ => follows_emit _

theorem follows_eachLane (hσ : Renumbering σ) (e : Elementary) (vs : List Nat) :
    Follows σ (eachLane e vs) (eachLane e vs) := by
  have himport := follows_importOf hσ e.number e.signature
  rw [hσ.elementary e.number (Image.elementary_number_lt e)] at himport
  exact himport.bind fun callee =>
    (follows_applyLane callee vs 0).bind fun _ => (follows_emit _).bind fun _ =>
      (follows_insertLane callee vs _ 1).bind fun _ =>
        (follows_insertLane callee vs _ 2).bind fun _ => follows_insertLane callee vs _ 3

theorem follows_callDefined (hσ : Renumbering σ) (registry : Registry) (head : String)
    (vs : List Nat) :
    Follows σ (callDefined (registry.renumber σ) head vs) (callDefined registry head vs) := by
  rw [callDefined, callDefined, Registry.resolve?_renumber]
  cases registry.resolve? head vs.length with
  | none => exact (follows_note _).bind fun _ => follows_throw _
  | some entry => exact (follows_importOf hσ _ _).bind fun _ => follows_emit _

theorem follows_call (hσ : Renumbering σ) (registry : Registry) (head : String) (vs : List Nat) :
    Follows σ (call (registry.renumber σ) head vs) (call registry head vs) := by
  have hdefined := follows_callDefined hσ registry head vs
  simp only [call]
  generalize Builtin.resolve? head vs.length = builtin
  rcases builtin with _ | op | _ | e
  · exact hdefined
  · rcases vs with _ | ⟨v, vs⟩
    · exact hdefined
    · exact follows_arith op v vs
  · rcases vs with _ | ⟨v, _ | ⟨w, vs⟩⟩
    · exact hdefined
    · exact follows_emit _
    · exact hdefined
  · exact follows_eachLane hσ e vs

theorem follows_forms (params : List (String × Nat)) (registry : Registry) (fs : List Form)
    (hfs : ∀ f ∈ fs,
      Follows σ (form ⟨params, registry.renumber σ⟩ f) (form ⟨params, registry⟩ f)) :
    Follows σ (forms ⟨params, registry.renumber σ⟩ fs) (forms ⟨params, registry⟩ fs) := by
  induction fs with
  | nil => exact follows_pure []
  | cons f fs ih =>
    rw [List.forall_mem_cons] at hfs
    rw [forms, forms]
    exact hfs.1.bind fun _ => (ih hfs.2).bind fun _ => follows_pure _

theorem follows_form (hσ : Renumbering σ) (params : List (String × Nat)) (registry : Registry)
    (f : Form) :
    Follows σ (form ⟨params, registry.renumber σ⟩ f) (form ⟨params, registry⟩ f) := by
  induction f with
  | number x =>
    rw [form, form]
    exact follows_constant x
  | var name =>
    rw [form, form]
    cases params.lookup name with
    | some v => exact follows_pure v
    | none => exact (follows_note _).bind fun _ => follows_constant _
  | call head args ih =>
    rw [form, form]
    exact (follows_forms params registry args ih).bind fun vs => follows_call hσ registry head vs
  | definition name _ _ _ =>
    rw [form, form]
    exact (follows_note _).bind fun _ => follows_throw _

end Lowering

namespace Routine

variable {σ : Nat → Nat}

/-- Compiling commutes with renumbering. -/
theorem compile_renumber (hσ : Renumbering σ) (registry : Registry) (number : Nat)
    (convention : Convention) (params : List String) (body : Form) :
    compile (registry.renumber σ) (σ number) convention params body =
      ((compile registry number convention params body).1.map (renumber σ),
        (compile registry number convention params body).2) := by
  cases hp : validateParams params with
  | error e =>
    rw [compile_of_error _ _ _ _ _ e hp, compile_of_error _ _ _ _ _ e hp]
    rfl
  | ok u =>
    have hbody := Lowering.follows_form hσ (params.zipIdx (firstArgument convention params.length))
      registry body (start convention params.length)
    have hstart : (start convention params.length).renumber σ = start convention params.length := by
      cases convention <;> simp [start, Draft.renumber]
    rw [hstart] at hbody
    rw [compile_of_ok _ _ _ _ _ hp, compile_of_ok _ _ _ _ _ hp]
    simp only [scope, hbody]
    rcases (Lowering.form ⟨params.zipIdx (firstArgument convention params.length), registry⟩
      body).run (start convention params.length) with ⟨e | v, d⟩
    · rfl
    · rfl

variable {run run' : Nat → List Word → Option Word}

theorem callImported_renumber (h : ∀ n args, run (σ n) args = run' n args)
    (imports : Array Import) :
    callImported run (imports.map (Import.renumber σ)) = callImported run' imports := by
  funext callee args
  rw [callImported, callImported, Array.getElem?_map]
  cases imports[callee]? with
  | none => rfl
  | some i => exact h i.target args

/-- A renumbered routine computes the same values if its imports do the same. -/
theorem values_renumber (h : ∀ n args, run (σ n) args = run' n args) (r : Routine)
    (memory : Memory) (args : List Word) :
    (r.renumber σ).values run memory args = r.values run' memory args := by
  by_cases hargs : args.map Word.ty = r.signature.params
  · rw [values_eq_execute run memory (r.renumber σ) args hargs, values_eq_execute run' memory r args
      hargs, execute, execute, ← callImported_renumber h r.imports]
    rfl
  · have hargs' : ¬ args.map Word.ty = (r.renumber σ).signature.params := hargs
    rw [values, values, if_neg hargs, if_neg hargs']

theorem apply_renumber (h : ∀ n args, run (σ n) args = run' n args) (r : Routine)
    (args : List Word) : (r.renumber σ).apply run args = r.apply run' args := by
  rw [apply, apply, values_renumber h]
  rfl

theorem enter_renumber (h : ∀ n args, run (σ n) args = run' n args) (r : Routine)
    (memory : Memory) : (r.renumber σ).enter run memory = r.enter run' memory := by
  rw [enter, enter, values_renumber h]
  rfl

theorem renumber_renumber (τ : Nat → Nat) (r : Routine) :
    (r.renumber σ).renumber τ = r.renumber (τ ∘ σ) := by
  simp [renumber, Import.renumber, Function.comp_def]

end Routine
end FourLane
