import FourLane.Lowering
import FourLane.Proofs.Acceptance
import Mathlib.Logic.Relation

/-!
# What lowering does to a draft

The equations of the lowering actions on a draft. Whether the lowering of a form succeeds or
fails, it changes the draft in steps of three kinds only: an instruction that touches no
memory is appended, a callee that the registry offers is imported for the first time, or an
event is noted. What such steps keep is kept by the lowering of every form.
-/
namespace FourLane

open Relation

def Registry.known (registry : Registry) : Known :=
  fun name => (registry.lookup name).map Entry.arity

theorem Registry.resolve?_eq_some_iff (registry : Registry) (head : String) (count : Nat)
    (entry : Entry) :
    registry.resolve? head count = some entry ↔
      registry.lookup head = some entry ∧ entry.arity = count := by
  simp [Registry.resolve?, Option.filter_eq_some_iff]

theorem Registry.resolve?_isSome_iff (registry : Registry) (head : String) (count : Nat) :
    (registry.resolve? head count).isSome ↔ registry.known head = some count := by
  simp [Option.isSome_iff_exists, resolve?_eq_some_iff, known]

/-- What can be imported under a registry: the elementary functions, and the routines that
are registered, called by value, under a name that is not built in for their arity. -/
def Registry.Offers (registry : Registry) (i : Import) : Prop :=
  (∃ e : Elementary, i = ⟨e.number, e.signature⟩) ∨
    ∃ name entry, registry.lookup name = some entry ∧ ¬ IsBuiltin name entry.arity ∧
      i = ⟨entry.number, Convention.byValue.signature entry.arity⟩

inductive Draft.Step (registry : Registry) : Draft → Draft → Prop
  | emit (d : Draft) (instr : Instr) (h : ∀ a, instr ≠ .load a) :
    Step registry d { d with code := d.code.push instr }
  | require (d : Draft) (i : Import) (hi : registry.Offers i)
    (hnew : ∀ j ∈ d.imports, j.target ≠ i.target) :
    Step registry d { d with imports := d.imports.push i }
  | note (d : Draft) (event : Event) :
    Step registry d { d with log := d.log.push event }

namespace Lowering

variable {α β : Type} {registry : Registry}

theorem run_pure (a : α) (d : Draft) : (pure a : Lowering α).run d = (.ok a, d) := rfl

theorem run_bind (x : Lowering α) (f : α → Lowering β) (d : Draft) :
    (x >>= f).run d = match x.run d with
      | (.ok a, d') => (f a).run d'
      | (.error e, d') => (.error e, d') := by
  change (ExceptT.bind x f).run d = _
  simp only [ExceptT.bind, ExceptT.run, ExceptT.mk, bind, StateT.bind]
  rcases x d with ⟨e | a, d'⟩
  · rfl
  · rfl

/-- An action that succeeds does so in all its parts. -/
theorem exists_of_run_bind {x : Lowering α} {f : α → Lowering β} {d d' : Draft} {b : β}
    (h : (x >>= f).run d = (.ok b, d')) :
    ∃ a d₁, x.run d = (.ok a, d₁) ∧ (f a).run d₁ = (.ok b, d') := by
  rw [run_bind] at h
  rcases hr : x.run d with ⟨e | a, d₁⟩
  · rw [hr] at h
    cases h
  · rw [hr] at h
    exact ⟨a, d₁, rfl, h⟩

theorem exists_of_run_forms_cons {scope : Scope} {f : Form} {fs : List Form} {d d' : Draft}
    {vs : List Nat} (h : (forms scope (f :: fs)).run d = (.ok vs, d')) :
    ∃ v rest d₁, (form scope f).run d = (.ok v, d₁) ∧
      (forms scope fs).run d₁ = (.ok rest, d') ∧ vs = v :: rest := by
  rw [forms] at h
  obtain ⟨v, d₁, hf, h⟩ := exists_of_run_bind h
  obtain ⟨rest, d₂, hrest, h⟩ := exists_of_run_bind h
  cases h
  exact ⟨v, rest, d₁, hf, hrest, rfl⟩

theorem run_emit (i : Instr) (d : Draft) :
    (emit i).run d = (.ok (d.entryCount + d.code.size), { d with code := d.code.push i }) := rfl

theorem run_note (e : Event) (d : Draft) :
    (note e).run d = (.ok (), { d with log := d.log.push e }) := rfl

theorem run_importOf (target : Nat) (signature : Signature) (d : Draft) :
    (importOf target signature).run d =
      match d.imports.findIdx? fun i => i.target = target with
      | some k => (.ok k, d)
      | none => (.ok d.imports.size, { d with imports := d.imports.push ⟨target, signature⟩ }) := by
  change (match (match d.imports.findIdx? fun i => i.target = target with
    | some k => (k, d)
    | none => (d.imports.size, { d with imports := d.imports.push ⟨target, signature⟩ })) with
    | (a, d') => ((.ok a : Except CompileFault Nat), d')) = _
  cases d.imports.findIdx? fun i => i.target = target with
  | none => rfl
  | some k => rfl

/-- The action succeeds, and changes a draft in steps. -/
def Advances (registry : Registry) (x : Lowering α) : Prop :=
  ∀ d, ∃ a d', x.run d = (.ok a, d') ∧ ReflTransGen (Draft.Step registry) d d'

theorem Advances.bind {x : Lowering α} {f : α → Lowering β} (hx : Advances registry x)
    (hf : ∀ a, Advances registry (f a)) : Advances registry (x >>= f) := by
  intro d
  obtain ⟨a, d₁, hrun₁, h₁⟩ := hx d
  obtain ⟨b, d₂, hrun₂, h₂⟩ := hf a d₁
  exact ⟨b, d₂, by rw [run_bind, hrun₁]; exact hrun₂, h₁.trans h₂⟩

theorem advances_pure (a : α) : Advances registry (pure a) := fun d => ⟨a, d, rfl, .refl⟩

theorem advances_note (e : Event) : Advances registry (note e) :=
  fun d => ⟨_, _, run_note e d, .single (.note d e)⟩

theorem advances_emit (instr : Instr) (h : ∀ a, instr ≠ .load a) : Advances registry (emit instr) :=
  fun d => ⟨_, _, run_emit instr d, .single (.emit d instr h)⟩

theorem advances_importOf (target : Nat) (signature : Signature)
    (h : registry.Offers ⟨target, signature⟩) : Advances registry (importOf target signature) := by
  intro d
  rw [run_importOf]
  cases hk : d.imports.findIdx? fun i => i.target = target with
  | some k => exact ⟨k, d, rfl, .refl⟩
  | none =>
    refine ⟨_, _, rfl, .single (.require d ⟨target, signature⟩ h fun j hj => ?_)⟩
    simpa using Array.findIdx?_eq_none_iff.mp hk j hj

theorem advances_constant (x : Lane) : Advances registry (constant x) :=
  (advances_emit _ (by nofun)).bind fun _ => advances_emit _ (by nofun)

theorem advances_arith (op : Arithmetic) (first : Nat) (vs : List Nat) :
    Advances registry (arith op first vs) := by
  induction vs generalizing first with
  | nil => exact advances_pure first
  | cons v vs ih => exact (advances_emit _ (by nofun)).bind fun r => ih r

theorem advances_extractAll (lane : Fin 4) (vs : List Nat) :
    Advances registry (extractAll lane vs) := by
  induction vs with
  | nil => exact advances_pure []
  | cons v vs ih =>
    exact (advances_emit _ (by nofun)).bind fun _ => ih.bind fun _ => advances_pure _

theorem advances_applyLane (callee : Nat) (vs : List Nat) (lane : Fin 4) :
    Advances registry (applyLane callee vs lane) :=
  (advances_extractAll lane vs).bind fun _ => advances_emit _ (by nofun)

theorem advances_insertLane (callee : Nat) (vs : List Nat) (vector : Nat) (lane : Fin 4) :
    Advances registry (insertLane callee vs vector lane) :=
  (advances_applyLane callee vs lane).bind fun _ => advances_emit _ (by nofun)

theorem advances_eachLane (e : Elementary) (vs : List Nat) : Advances registry (eachLane e vs) :=
  (advances_importOf _ _ (.inl ⟨e, rfl⟩)).bind fun callee =>
    (advances_applyLane callee vs 0).bind fun _ => (advances_emit _ (by nofun)).bind fun _ =>
      (advances_insertLane callee vs _ 1).bind fun _ =>
        (advances_insertLane callee vs _ 2).bind fun _ => advances_insertLane callee vs _ 3

theorem advances_callDefined (head : String) (vs : List Nat) (entry : Entry)
    (hb : Builtin.resolve? head vs.length = none)
    (h : registry.resolve? head vs.length = some entry) :
    Advances registry (callDefined registry head vs) := by
  obtain ⟨hlookup, harity⟩ := (registry.resolve?_eq_some_iff head vs.length entry).mp h
  have hbuiltin : ¬ IsBuiltin head entry.arity := by
    rw [harity, ← Builtin.resolve?_isSome_iff, hb]
    decide
  rw [callDefined, h]
  exact (advances_importOf _ _ (.inr ⟨head, entry, hlookup, hbuiltin, rfl⟩)).bind fun _ =>
    advances_emit _ (by nofun)

theorem call_cases (registry : Registry) (head : String) (vs : List Nat) :
    (∃ op v w rest, Builtin.resolve? head vs.length = some (.arith op) ∧ vs = v :: w :: rest ∧
        call registry head vs = arith op v (w :: rest)) ∨
      (∃ v, Builtin.resolve? head vs.length = some .sqrt ∧ vs = [v] ∧
        call registry head vs = emit (.sqrt v)) ∨
      (∃ e, Builtin.resolve? head vs.length = some (.elementary e) ∧ vs.length = e.arity ∧
        call registry head vs = eachLane e vs) ∨
      (Builtin.resolve? head vs.length = none ∧
        call registry head vs = callDefined registry head vs) := by
  cases hb : Builtin.resolve? head vs.length with
  | none =>
    refine .inr (.inr (.inr ⟨rfl, ?_⟩))
    simp only [call, hb]
  | some b =>
    have htakes := ((Builtin.resolve?_eq_some_iff head vs.length b).mp hb).2
    cases b with
    | arith op =>
      match vs, htakes with
      | v :: w :: rest, _ =>
        refine .inl ⟨op, v, w, rest, rfl, rfl, ?_⟩
        simp only [call, hb]
    | sqrt =>
      obtain ⟨v, rfl⟩ := List.length_eq_one_iff.mp ((Builtin.takes_sqrt _).mp htakes)
      refine .inr (.inl ⟨v, rfl, rfl, ?_⟩)
      simp only [call, hb]
    | elementary e =>
      refine .inr (.inr (.inl ⟨e, rfl, (Builtin.takes_elementary e _).mp htakes, ?_⟩))
      simp only [call, hb]

theorem advances_call (head : String) (vs : List Nat) (b : Builtin)
    (h : Builtin.resolve? head vs.length = some b) : Advances registry (call registry head vs) := by
  rcases call_cases registry head vs with ⟨op, v, w, rest, -, -, hc⟩ | ⟨v, -, -, hc⟩ |
    ⟨e, -, -, hc⟩ | ⟨hn, -⟩
  · rw [hc]
    exact advances_arith op v _
  · rw [hc]
    exact advances_emit _ (by nofun)
  · rw [hc]
    exact advances_eachLane e vs
  · cases hn.symm.trans h

/-- The action changes a draft in steps. -/
def Proceeds (registry : Registry) (x : Lowering α) : Prop :=
  ∀ d, ReflTransGen (Draft.Step registry) d (x.run d).2

theorem Proceeds.bind {x : Lowering α} {f : α → Lowering β} (hx : Proceeds registry x)
    (hf : ∀ a, Proceeds registry (f a)) : Proceeds registry (x >>= f) := by
  intro d
  have h := hx d
  rw [run_bind]
  rcases hr : x.run d with ⟨e | a, d'⟩
  · rw [hr] at h
    exact h
  · rw [hr] at h
    exact h.trans (hf a d')

theorem Advances.proceeds {x : Lowering α} (hx : Advances registry x) : Proceeds registry x := by
  intro d
  obtain ⟨a, d', hrun, h⟩ := hx d
  rw [hrun]
  exact h

theorem proceeds_fail (event : Event) (e : CompileFault) :
    Proceeds registry (do note event; throw e : Lowering α) := fun d => .single (.note d event)

theorem proceeds_call (head : String) (vs : List Nat) :
    Proceeds registry (call registry head vs) := by
  cases hb : Builtin.resolve? head vs.length with
  | some b => exact (advances_call head vs b hb).proceeds
  | none =>
    simp only [call, hb]
    cases hr : registry.resolve? head vs.length with
    | some entry => exact (advances_callDefined head vs entry hb hr).proceeds
    | none =>
      rw [callDefined, hr]
      exact proceeds_fail _ _

theorem proceeds_forms (scope : Scope) (fs : List Form)
    (hfs : ∀ f ∈ fs, Proceeds scope.registry (form scope f)) :
    Proceeds scope.registry (forms scope fs) := by
  induction fs with
  | nil => exact (advances_pure []).proceeds
  | cons f fs ih =>
    have htail := ih fun g hg => hfs g (List.mem_cons_of_mem f hg)
    exact (hfs f List.mem_cons_self).bind fun _ => htail.bind fun _ => (advances_pure _).proceeds

theorem proceeds_form (scope : Scope) (f : Form) : Proceeds scope.registry (form scope f) := by
  induction f with
  | number x => exact (advances_constant x).proceeds
  | var name =>
    rw [form]
    cases scope.params.lookup name with
    | none => exact ((advances_note _).bind fun _ => advances_constant _).proceeds
    | some v => exact (advances_pure v).proceeds
  | call head args ih =>
    exact (proceeds_forms scope args ih).bind fun vs => proceeds_call head vs
  | definition name params body _ => exact proceeds_fail _ _

end Lowering

namespace Draft

variable {registry : Registry}

theorem code_of_steps {d d' : Draft} (h : ReflTransGen (Step registry) d d') :
    ∃ added : List Instr, d'.code.toList = d.code.toList ++ added ∧
      ∀ instr ∈ added, ∀ a, instr ≠ .load a := by
  induction h with
  | refl => exact ⟨[], by simp, by simp⟩
  | @tail d₁ d₂ _ hstep ih =>
    obtain ⟨added, hcode, hadded⟩ := ih
    cases hstep with
    | emit instr hinstr =>
      refine ⟨added ++ [instr], by simp [hcode], fun j hj => ?_⟩
      rcases List.mem_append.mp hj with hj | hj
      · exact hadded j hj
      · rw [List.mem_singleton.mp hj]
        exact hinstr
    | require i hi hnew => exact ⟨added, hcode, hadded⟩
    | note event => exact ⟨added, hcode, hadded⟩

theorem imports_of_steps {d d' : Draft} (h : ReflTransGen (Step registry) d d')
    (hd : ∀ i ∈ d.imports, registry.Offers i) : ∀ i ∈ d'.imports, registry.Offers i := by
  induction h with
  | refl => exact hd
  | @tail d₁ d₂ _ hstep ih =>
    cases hstep with
    | emit instr hinstr => exact ih
    | require i hi hnew =>
      intro j hj
      rcases Array.mem_push.mp hj with hj | rfl
      · exact ih j hj
      · exact hi
    | note event => exact ih

end Draft
end FourLane
