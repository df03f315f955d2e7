import FourLane.Proofs.CompileResult
import FourLane.Proofs.Execution
import FourLane.Proofs.Meaning

/-!
# Compiled code computes the meaning of its form

Lowering is followed together with the values of the code that it emits. `Delivers` says of
a lowering action that it succeeds, leaves all values and imports in their places, and gives
the number of a value of which something is known. It is shown of each action from the ones
that it is made of, and for forms by induction, as long as the registry realizes the lexicon:
what a name means is what the routine registered under it does.
-/
namespace FourLane

structure Trace where
  draft : Draft
  values : Values

namespace Trace

/-- The values of a trace are those that its code gives behind the words of the entry. -/
structure Holds (run : Nat → List Word → Option Word) (memory : Memory) (entry : List Word)
    (t : Trace) : Prop where
  computed : execute run t.draft.imports memory t.draft.code entry.toArray = some t.values
  size : t.values.size = t.draft.entryCount + t.draft.code.size

/-- All values and imports are still in their places. -/
structure Extends (t t' : Trace) : Prop where
  values : ∀ (n : Nat) (w : Word), t.values[n]? = some w → t'.values[n]? = some w
  imports : ∀ (k : Nat) (i : Import), t.draft.imports[k]? = some i → t'.draft.imports[k]? = some i

theorem Extends.refl (t : Trace) : t.Extends t := ⟨fun _ _ h => h, fun _ _ h => h⟩

theorem Extends.trans {t t' t'' : Trace} (h : t.Extends t') (h' : t'.Extends t'') :
    t.Extends t'' :=
  ⟨fun n w hn => h'.values n w (h.values n w hn), fun k i hk => h'.imports k i (h.imports k i hk)⟩

abbrev Vectors (t : Trace) (ns : List Nat) (qs : List Quad) : Prop :=
  List.Forall₂ (fun n q => t.values[n]? = some (.vector q)) ns qs

theorem Vectors.mono {t t' : Trace} {ns : List Nat} {qs : List Quad} (h : t.Vectors ns qs)
    (he : t.Extends t') : t'.Vectors ns qs :=
  h.imp fun n q hn => he.values n (.vector q) hn

/-- The parameters have the vectors of an environment as their values. -/
abbrev Binds (t : Trace) (params : List (String × Nat)) (env : List (String × Quad)) : Prop :=
  List.Forall₂ (fun p b => p.1 = b.1 ∧ t.values[p.2]? = some (.vector b.2)) params env

theorem Binds.mono {t t' : Trace} {params : List (String × Nat)} {env : List (String × Quad)}
    (h : t.Binds params env) (he : t.Extends t') : t'.Binds params env :=
  h.imp fun p b hp => ⟨hp.1, he.values p.2 (.vector b.2) hp.2⟩

theorem Binds.lookup {t : Trace} {params : List (String × Nat)} {env : List (String × Quad)}
    (h : t.Binds params env) (name : String) :
    (params.lookup name = none ∧ env.lookup name = none) ∨
      ∃ n q, params.lookup name = some n ∧ env.lookup name = some q ∧
        t.values[n]? = some (.vector q) := by
  induction h with
  | nil => exact .inl ⟨rfl, rfl⟩
  | @cons p b params env hp _ ih =>
    obtain ⟨key, n⟩ := p
    obtain ⟨key', q⟩ := b
    obtain ⟨rfl, hvalue⟩ : key = key' ∧ t.values[n]? = some (.vector q) := hp
    simp only [List.lookup_cons]
    cases name == key with
    | true => exact .inr ⟨_, _, rfl, rfl, hvalue⟩
    | false => exact ih

end Trace

/-- The elementary functions are run under their numbers, and what a name means is done by
the routine that is registered under it. -/
structure Realizes (run : Nat → List Word → Option Word) (registry : Registry)
    (lexicon : Lexicon) : Prop where
  elementary : ∀ (e : Elementary) xs y, e.apply xs = some y →
    run e.number (xs.map .scalar) = some (.scalar y)
  defined : ∀ head vs v, lexicon.definedValue? head vs = some v →
    ∃ entry, registry.resolve? head vs.length = some entry ∧
      run entry.number (vs.map .vector) = some (.vector v)

namespace Lowering

section Delivers

variable {α β : Type} {run : Nat → List Word → Option Word} {memory : Memory} {entry : List Word}

/-- From a trace that holds, the action succeeds and leads to one that extends it and of which
`post` says more. -/
def Delivers (run : Nat → List Word → Option Word) (memory : Memory) (entry : List Word)
    (x : Lowering α) (t : Trace) (post : α → Trace → Prop) : Prop :=
  t.Holds run memory entry → ∃ a t', x.run t.draft = (.ok a, t'.draft) ∧
    t'.Holds run memory entry ∧ t.Extends t' ∧ post a t'

theorem Delivers.bind {x : Lowering α} {f : α → Lowering β} {t : Trace} {Q : α → Trace → Prop}
    {R : β → Trace → Prop} (hx : Delivers run memory entry x t Q)
    (hf : ∀ a t', t.Extends t' → Q a t' → Delivers run memory entry (f a) t' R) :
    Delivers run memory entry (x >>= f) t R := by
  intro h
  obtain ⟨a, t₁, hrun₁, h₁, he₁, hq⟩ := hx h
  obtain ⟨b, t₂, hrun₂, h₂, he₂, hr⟩ := hf a t₁ he₁ hq h₁
  exact ⟨b, t₂, by rw [run_bind, hrun₁]; exact hrun₂, h₂, he₁.trans he₂, hr⟩

theorem delivers_pure (a : α) (t : Trace) (post : α → Trace → Prop) (h : post a t) :
    Delivers run memory entry (pure a) t post :=
  fun ht => ⟨a, t, rfl, ht, .refl t, h⟩

theorem delivers_emit (instr : Instr) (w : Word) (t : Trace)
    (hw : instr.eval (callImported run t.draft.imports) memory t.values = some w) :
    Delivers run memory entry (emit instr) t fun n t' => t'.values[n]? = some w := by
  intro h
  refine ⟨_, ⟨{ t.draft with code := t.draft.code.push instr }, t.values.push w⟩,
    run_emit instr t.draft, ⟨?_, ?_⟩,
    ⟨fun _ _ hn => getElem?_push_of_some hn w, fun _ _ hk => hk⟩, ?_⟩
  · exact execute_push run t.draft.imports memory t.draft.code instr _ t.values w h.computed hw
  · simp [h.size, Nat.add_assoc]
  · rw [← h.size]
    exact Array.getElem?_push_size

theorem delivers_note (e : Event) (t : Trace) :
    Delivers run memory entry (note e) t fun _ _ => True :=
  fun h => ⟨(), ⟨{ t.draft with log := t.draft.log.push e }, t.values⟩, run_note e t.draft,
    ⟨h.computed, h.size⟩, ⟨fun _ _ hn => hn, fun _ _ hk => hk⟩, trivial⟩

theorem delivers_importOf (target : Nat) (signature : Signature) (t : Trace) :
    Delivers run memory entry (importOf target signature) t fun k t' =>
      ∃ i, t'.draft.imports[k]? = some i ∧ i.target = target := by
  intro h
  have hrun := run_importOf target signature t.draft
  cases hk : t.draft.imports.findIdx? fun i => i.target = target with
  | some k =>
    rw [hk] at hrun
    obtain ⟨hlt, htarget, -⟩ := Array.findIdx?_eq_some_iff_getElem.mp hk
    exact ⟨k, t, hrun, h, .refl t, _, Array.getElem?_eq_getElem hlt, by simpa using htarget⟩
  | none =>
    rw [hk] at hrun
    refine ⟨_, ⟨{ t.draft with imports := t.draft.imports.push ⟨target, signature⟩ }, t.values⟩,
      hrun, ⟨?_, h.size⟩, ⟨fun _ _ hn => hn, fun _ _ hi => getElem?_push_of_some hi _⟩,
      ⟨target, signature⟩, ?_, rfl⟩
    · exact execute_imports_push run t.draft.imports memory _ t.draft.code _ t.values h.computed
    · exact Array.getElem?_push_size

theorem delivers_constant (x : Lane) (t : Trace) :
    Delivers run memory entry (constant x) t fun n t' =>
      t'.values[n]? = some (.vector (.splat x)) := by
  refine (delivers_emit (.const x) (.scalar x) t rfl).bind fun c t₁ _ hc => ?_
  refine delivers_emit (.splat c) (.vector (.splat x)) t₁ ?_
  simp [Instr.eval, (Values.scalar?_eq_some_iff t₁.values c x).mpr hc]

theorem delivers_arith (op : Arithmetic) (first : Nat) (ns : List Nat) (q : Quad) (qs : List Quad)
    (t : Trace) (hfirst : t.values[first]? = some (.vector q)) (hns : t.Vectors ns qs) :
    Delivers run memory entry (arith op first ns) t fun n t' =>
      t'.values[n]? = some (.vector (qs.foldl (Quad.zipWith op.apply) q)) := by
  induction ns generalizing first q qs t with
  | nil =>
    cases hns
    exact delivers_pure first t _ hfirst
  | cons n ns ih =>
    obtain ⟨p, ps, hn, hps, rfl⟩ := List.forall₂_cons_left_iff.mp hns
    have hw : (Instr.arith op first n).eval (callImported run t.draft.imports) memory t.values =
        some (.vector (q.zipWith op.apply p)) := by
      simp [Instr.eval, (Values.vector?_eq_some_iff t.values _ _).mpr hfirst,
        (Values.vector?_eq_some_iff t.values _ _).mpr hn]
    refine (delivers_emit _ _ t hw).bind fun r t₁ he hr => ?_
    exact ih r _ ps t₁ hr (Trace.Vectors.mono hps he)

theorem delivers_extractAll (lane : Fin 4) (ns : List Nat) (qs : List Quad) (t : Trace)
    (hns : t.Vectors ns qs) :
    Delivers run memory entry (extractAll lane ns) t fun xs t' =>
      List.Forall₂ (fun n (q : Quad) => t'.values[n]? = some (.scalar (q.get lane))) xs qs := by
  induction ns generalizing qs t with
  | nil =>
    cases hns
    exact delivers_pure [] t _ .nil
  | cons n ns ih =>
    obtain ⟨q, qs, hn, hqs, rfl⟩ := List.forall₂_cons_left_iff.mp hns
    have hw : (Instr.extract n lane).eval (callImported run t.draft.imports) memory t.values =
        some (.scalar (q.get lane)) := by
      simp [Instr.eval, (Values.vector?_eq_some_iff t.values _ _).mpr hn]
    refine (delivers_emit _ _ t hw).bind fun x t₁ he hx => ?_
    refine (ih qs t₁ (Trace.Vectors.mono hqs he)).bind fun xs t₂ he₂ hxs => ?_
    exact delivers_pure (x :: xs) t₂ _ (.cons (he₂.values x _ hx) hxs)

theorem eval_call (t : Trace) (callee : Nat) (i : Import) (ns : List Nat) (ws : List Word)
    (w : Word) (hi : t.draft.imports[callee]? = some i)
    (hws : ns.mapM (fun n => t.values[n]?) = some ws) (hw : run i.target ws = some w) :
    (Instr.call callee ns).eval (callImported run t.draft.imports) memory t.values = some w := by
  simp [Instr.eval, callImported, hws, hi, hw]

theorem delivers_applyLane (callee : Nat) (i : Import) (ns : List Nat) (qs : List Quad)
    (lane : Fin 4) (y : Lane) (t : Trace) (hi : t.draft.imports[callee]? = some i)
    (hns : t.Vectors ns qs)
    (hy : run i.target (qs.map fun q => .scalar (q.get lane)) = some (.scalar y)) :
    Delivers run memory entry (applyLane callee ns lane) t fun n t' =>
      t'.values[n]? = some (.scalar y) := by
  refine (delivers_extractAll lane ns qs t hns).bind fun xs t₁ he hxs => ?_
  have hws := Values.mapM_getElem? t₁.values (fun q : Quad => .scalar (q.get lane)) xs qs hxs
  exact delivers_emit _ _ t₁ (eval_call t₁ callee i xs _ _ (he.imports _ _ hi) hws hy)

theorem delivers_insertLane (callee : Nat) (i : Import) (ns : List Nat) (qs : List Quad)
    (vector : Nat) (q : Quad) (lane : Fin 4) (y : Lane) (t : Trace)
    (hi : t.draft.imports[callee]? = some i) (hns : t.Vectors ns qs)
    (hy : run i.target (qs.map fun q => .scalar (q.get lane)) = some (.scalar y))
    (hv : t.values[vector]? = some (.vector q)) :
    Delivers run memory entry (insertLane callee ns vector lane) t fun n t' =>
      t'.values[n]? = some (.vector (q.set lane y)) := by
  refine (delivers_applyLane callee i ns qs lane y t hi hns hy).bind fun x t₁ he hx => ?_
  refine delivers_emit (.insert vector x lane) _ t₁ ?_
  simp [Instr.eval, (Values.vector?_eq_some_iff t₁.values _ _).mpr (he.values _ _ hv),
    (Values.scalar?_eq_some_iff t₁.values _ _).mpr hx]

theorem delivers_eachLane (e : Elementary) (ns : List Nat) (qs : List Quad) (q : Quad) (t : Trace)
    (hns : t.Vectors ns qs)
    (hq : ∀ lane,
      run e.number (qs.map fun p => .scalar (p.get lane)) = some (.scalar (q.get lane))) :
    Delivers run memory entry (eachLane e ns) t fun n t' => t'.values[n]? = some (.vector q) := by
  refine (delivers_importOf e.number e.signature t).bind ?_
  rintro callee t₀ he₀ ⟨i, hi, htarget⟩
  rw [← htarget] at hq
  refine (delivers_applyLane callee i ns qs 0 _ t₀ hi (hns.mono he₀) (hq 0)).bind
    fun x t₁ he₁ hx => ?_
  have hw : (Instr.splat x).eval (callImported run t₁.draft.imports) memory t₁.values =
      some (.vector (.splat (q.get 0))) := by
    simp [Instr.eval, (Values.scalar?_eq_some_iff t₁.values _ _).mpr hx]
  refine (delivers_emit _ _ t₁ hw).bind fun v t₂ he₂ hv => ?_
  have h₂ := (he₀.trans he₁).trans he₂
  refine (delivers_insertLane callee i ns qs v _ 1 _ t₂ ((he₁.trans he₂).imports _ _ hi)
    (hns.mono h₂) (hq 1) hv).bind fun v₃ t₃ he₃ hv₃ => ?_
  have h₃ := h₂.trans he₃
  refine (delivers_insertLane callee i ns qs v₃ _ 2 _ t₃
    (((he₁.trans he₂).trans he₃).imports _ _ hi) (hns.mono h₃) (hq 2) hv₃).bind
      fun v₄ t₄ he₄ hv₄ => ?_
  -- A vector is its four lanes, put into the places of the first one repeated.
  change Delivers run memory entry _ t₄ fun n t' => t'.values[n]? = some (Word.vector
    ((((Quad.splat (q.get 0)).set 1 (q.get 1)).set 2 (q.get 2)).set 3 (q.get 3)))
  exact delivers_insertLane callee i ns qs v₄ _ 3 _ t₄
    ((((he₁.trans he₂).trans he₃).trans he₄).imports _ _ hi) (hns.mono (h₃.trans he₄)) (hq 3) hv₄

theorem delivers_callDefined (registry : Registry) (head : String) (entry' : Entry) (ns : List Nat)
    (qs : List Quad) (q : Quad) (t : Trace) (hns : t.Vectors ns qs)
    (hentry : registry.resolve? head ns.length = some entry')
    (hq : run entry'.number (qs.map .vector) = some (.vector q)) :
    Delivers run memory entry (callDefined registry head ns) t fun n t' =>
      t'.values[n]? = some (.vector q) := by
  rw [callDefined, hentry]
  refine (delivers_importOf _ _ t).bind ?_
  rintro callee t₁ he ⟨i, hi, htarget⟩
  rw [← htarget] at hq
  have hws := Values.mapM_getElem? t₁.values .vector ns qs (hns.mono he)
  exact delivers_emit _ _ t₁ (eval_call t₁ callee i ns _ _ hi hws hq)

theorem delivers_call {registry : Registry} {lexicon : Lexicon} (hr : Realizes run registry lexicon)
    (head : String) (ns : List Nat) (qs : List Quad) (q : Quad) (t : Trace) (hns : t.Vectors ns qs)
    (hq : lexicon.value? head qs = some q) :
    Delivers run memory entry (call registry head ns) t fun n t' =>
      t'.values[n]? = some (.vector q) := by
  have hlen : ns.length = qs.length := hns.length_eq
  rcases call_cases registry head ns with ⟨op, n, m, ns', hb, rfl, hc⟩ | ⟨n, hb, rfl, hc⟩ |
    ⟨e, hb, -, hc⟩ | ⟨hb, hc⟩
  · obtain ⟨p, ps, hn, hps, rfl⟩ := List.forall₂_cons_left_iff.mp hns
    obtain ⟨p', ps', hm, hps', rfl⟩ := List.forall₂_cons_left_iff.mp hps
    simp only [Lexicon.value?, builtinValue?, arithmeticOf?_of_resolve head _ op hb,
      Option.some_or, Option.some.injEq] at hq
    rw [hc, ← hq]
    exact delivers_arith op n (m :: ns') p _ t hn hps
  · obtain ⟨p, ps, hn, hps, rfl⟩ := List.forall₂_cons_left_iff.mp hns
    cases hps
    simp only [Lexicon.value?, builtinValue?, unaryOf?_of_resolve_sqrt head _ hb, Option.map_some,
      Option.some_or, Option.some.injEq] at hq
    rw [hc, ← hq]
    refine delivers_emit (.sqrt n) _ t ?_
    simp [Instr.eval, (Values.vector?_eq_some_iff t.values _ _).mpr hn]
  · rw [hlen] at hb
    obtain ⟨p, hp, hlanes⟩ := builtinValue?_of_resolve_elementary head e qs hb
    simp only [Lexicon.value?, hp, Option.some_or, Option.some.injEq] at hq
    rw [hc, ← hq]
    refine delivers_eachLane e ns qs p t hns fun lane => ?_
    simpa [Function.comp_def] using hr.elementary e _ _ (hlanes lane)
  · have hnone : builtinValue? head qs = none := by
      rw [← Option.not_isSome_iff_eq_none, builtinValue?_isSome_iff, ← hlen,
        ← Builtin.resolve?_isSome_iff, hb]
      simp
    simp only [Lexicon.value?, hnone, Option.none_or] at hq
    obtain ⟨entry', hentry, hrun⟩ := hr.defined head qs q hq
    rw [hc]
    exact delivers_callDefined registry head entry' ns qs q t hns (by rwa [hlen]) hrun

variable {lexicon : Lexicon} {env : List (String × Quad)}

theorem delivers_forms (scope : Scope) (fs : List Form)
    (hfs : ∀ f ∈ fs, ∀ (t : Trace) (q : Quad), t.Binds scope.params env →
      f.meaning lexicon env = some q → Delivers run memory entry (form scope f) t fun n t' =>
        t'.values[n]? = some (.vector q))
    (t : Trace) (qs : List Quad) (ht : t.Binds scope.params env)
    (hqs : meaningOfAll lexicon env fs = some qs) :
    Delivers run memory entry (forms scope fs) t fun ns t' => t'.Vectors ns qs := by
  rw [meaningOfAll_eq_some_iff] at hqs
  induction hqs generalizing t with
  | nil => exact delivers_pure [] t _ .nil
  | @cons f q fs qs hq _ ih =>
    have hhead := hfs f List.mem_cons_self t q ht hq
    refine hhead.bind fun n t₁ he₁ hn => ?_
    have htail := ih (fun g hg => hfs g (List.mem_cons_of_mem f hg)) t₁
      (Trace.Binds.mono ht he₁)
    refine htail.bind fun ns t₂ he₂ hns => ?_
    exact delivers_pure (n :: ns) t₂ _ (.cons (he₂.values n _ hn) hns)

/-- A form that has a meaning is lowered, and its code computes that meaning. -/
theorem delivers_form (scope : Scope) (hr : Realizes run scope.registry lexicon) (f : Form)
    (t : Trace) (q : Quad) (ht : t.Binds scope.params env)
    (hq : f.meaning lexicon env = some q) :
    Delivers run memory entry (form scope f) t fun n t' => t'.values[n]? = some (.vector q) := by
  induction f generalizing t q with
  | number x =>
    obtain rfl := Option.some.inj hq
    exact delivers_constant x t
  | var name =>
    obtain rfl := Option.some.inj hq
    rw [form]
    rcases Trace.Binds.lookup ht name with ⟨hn, he⟩ | ⟨n, p, hn, he, hvalue⟩
    · simp only [hn, he]
      exact (delivers_note _ t).bind fun _ t₁ _ _ => delivers_constant _ t₁
    · simp only [hn, he]
      exact delivers_pure n t _ hvalue
  | call head args ih =>
    obtain ⟨qs, hqs, hvalue⟩ := Option.bind_eq_some_iff.mp hq
    refine (delivers_forms scope args ih t qs ht hqs).bind fun ns t₁ _ hns => ?_
    exact delivers_call hr head ns qs q t₁ hns hvalue
  | definition name params body _ => cases hq

end Delivers

end Lowering

namespace Routine

/-- The words that a routine is entered with when it is called on the given vectors. -/
def entryWords (convention : Convention) (args : List Quad) : List Word :=
  match convention with
  | .byValue => args.map .vector
  | .byAddress => (List.range (args.length + 1)).map .address

/-- The memory that is lent to it: the arguments and a place for the result, or nothing. -/
def lent (convention : Convention) (args : List Quad) (place : Quad) : Memory :=
  match convention with
  | .byValue => []
  | .byAddress => args ++ [place]

def entryValues (convention : Convention) (args : List Quad) : List Word :=
  match convention with
  | .byValue => args.map .vector
  | .byAddress => (List.range (args.length + 1)).map .address ++ args.map .vector

theorem entryWords_ty (convention : Convention) (args : List Quad) :
    (entryWords convention args).map Word.ty = (convention.signature args.length).params := by
  cases convention with
  | byValue => simp [entryWords, Convention.signature, Function.comp_def, Word.ty]
  | byAddress => simp [entryWords, Convention.signature, Function.comp_def, Word.ty]

theorem execute_loads (run : Nat → List Word → Option Word) (args : List Quad) (place : Quad)
    (count : Nat) (hcount : count ≤ args.length) :
    execute run #[] (args ++ [place]) ((List.range count).map Instr.load).toArray
        ((List.range (args.length + 1)).map Word.address).toArray =
      some ((List.range (args.length + 1)).map Word.address ++
        (args.map Word.vector).take count).toArray := by
  induction count with
  | zero => simp [execute]
  | succ k ih =>
    have hk : k < args.length := hcount
    have haddress : Values.address? ((List.range (args.length + 1)).map Word.address ++
        (args.map Word.vector).take k).toArray k = some k := by
      rw [Values.address?_eq_some_iff, List.getElem?_toArray,
        List.getElem?_append_left (by simp; omega)]
      simp [Nat.lt_succ_of_lt hk]
    have hw : (Instr.load k).eval (callImported run #[]) (args ++ [place])
        ((List.range (args.length + 1)).map Word.address ++ (args.map Word.vector).take k).toArray =
        some (.vector args[k]) := by
      simp [Instr.eval, haddress, List.getElem?_append_left hk, List.getElem?_eq_getElem hk]
    have hpush := execute_push run #[] (args ++ [place]) _ (.load k) _ _ _
      (ih (Nat.le_of_lt hk)) hw
    rw [List.range_succ, List.map_append, List.take_succ_eq_append_getElem (by simpa using hk),
      ← List.append_assoc]
    simpa using hpush

theorem holds_start (run : Nat → List Word → Option Word) (convention : Convention)
    (args : List Quad) (place : Quad) :
    Trace.Holds run (lent convention args place) (entryWords convention args)
      ⟨start convention args.length, (entryValues convention args).toArray⟩ := by
  cases convention with
  | byValue => exact ⟨rfl, by simp [entryValues, start]⟩
  | byAddress =>
    refine ⟨?_, by simp [entryValues, start]⟩
    have hloads := execute_loads run args place args.length (Nat.le_refl _)
    rwa [List.take_of_length_le (by simp)] at hloads

theorem binds_of_values (t : Trace) (first : Nat) (params : List String) (args : List Quad)
    (hlen : args.length = params.length)
    (hargs : ∀ (i : Nat) (q : Quad), args[i]? = some q → t.values[first + i]? = some (.vector q)) :
    t.Binds (params.zipIdx first) (params.zip args) := by
  induction params generalizing first args with
  | nil => exact .nil
  | cons p ps ih =>
    obtain ⟨q, qs, rfl⟩ := List.exists_cons_of_length_eq_add_one hlen
    refine .cons ⟨rfl, hargs 0 q rfl⟩ (ih (first + 1) qs (by simpa using hlen) fun i q' hi => ?_)
    rw [Nat.add_right_comm, Nat.add_assoc]
    exact hargs (i + 1) q' hi

theorem binds_start (convention : Convention) (params : List String) (args : List Quad)
    (hlen : args.length = params.length) :
    Trace.Binds ⟨start convention args.length, (entryValues convention args).toArray⟩
      (params.zipIdx (firstArgument convention params.length)) (params.zip args) := by
  refine binds_of_values _ _ params args hlen fun i q hi => ?_
  cases convention with
  | byValue => simp [entryValues, firstArgument, hi]
  | byAddress =>
    simp [entryValues, firstArgument, ← hlen, List.getElem?_append_right, hi]

variable {run : Nat → List Word → Option Word} {registry : Registry} {lexicon : Lexicon}
  {number : Nat} {convention : Convention} {params : List String} {body : Form} {r : Routine}
  {log : List Event}

/-- The values of a compiled routine: those that it starts with, and among the others its
result. -/
theorem values_of_compile
    (hcompile : compile registry number convention params body = (.ok r, log))
    (hr : Realizes run registry lexicon) (args : List Quad) (hlen : args.length = params.length)
    (place q : Quad) (hq : body.meaning lexicon (params.zip args) = some q) :
    ∃ result values, r.exit = exitOf convention params.length result ∧
      r.values run (lent convention args place) (entryWords convention args) = some values ∧
      values[result]? = some (.vector q) ∧
      ∀ (n : Nat) (w : Word), (entryValues convention args)[n]? = some w → values[n]? = some w := by
  obtain ⟨-, result, d, hrun, rfl, -⟩ := compile_eq_ok _ _ _ _ _ hcompile
  obtain ⟨v, t, hv, ht, he, hresult⟩ := Lowering.delivers_form (scope registry convention params)
    hr body _ q (binds_start convention params args hlen) hq (holds_start run convention args place)
  -- Lowering has one outcome, so the trace is that of the draft that was compiled.
  rw [hlen, hrun] at hv
  obtain ⟨hok, rfl⟩ := Prod.mk.inj hv
  obtain rfl := Except.ok.inj hok
  refine ⟨result, t.values, rfl, ?_, hresult, fun n w hn => he.values n w (by simpa using hn)⟩
  rw [values_eq_execute]
  · exact ht.computed
  · rw [entryWords_ty, hlen]
    rfl

theorem apply_of_compile (hcompile : compile registry number .byValue params body = (.ok r, log))
    (hr : Realizes run registry lexicon) (args : List Quad) (hlen : args.length = params.length)
    (q : Quad) (hq : body.meaning lexicon (params.zip args) = some q) :
    r.apply run (args.map .vector) = some (.vector q) := by
  obtain ⟨result, values, hexit, hvalues, hresult, -⟩ :=
    values_of_compile hcompile hr args hlen q q hq
  change r.values run [] (args.map .vector) = some values at hvalues
  change r.exit = .ret result at hexit
  simp [apply, hvalues, hexit, hresult]

/-- A routine that is called by address leaves its arguments as they were and its result in
the last place. -/
theorem enter_of_compile (hcompile : compile registry number .byAddress params body = (.ok r, log))
    (hr : Realizes run registry lexicon) (args : List Quad) (hlen : args.length = params.length)
    (place q : Quad) (hq : body.meaning lexicon (params.zip args) = some q) :
    r.enter run (args ++ [place]) = some (args ++ [q]) := by
  obtain ⟨result, values, hexit, hvalues, hresult, hentry⟩ :=
    values_of_compile hcompile hr args hlen place q hq
  change r.exit = .store result params.length at hexit
  have hwords : (List.range (args ++ [place]).length).map Word.address =
      entryWords .byAddress args := by simp [entryWords]
  rw [← hlen] at hexit
  have haddress : values.address? args.length = some args.length := by
    rw [Values.address?_eq_some_iff]
    refine hentry _ _ ?_
    rw [entryValues, List.getElem?_append_left (by simp)]
    simp
  have hvector := (Values.vector?_eq_some_iff values result q).mpr hresult
  change r.values run (args ++ [place]) (entryWords .byAddress args) = some values at hvalues
  rw [enter, hwords, hvalues, hexit]
  simp [hvector, haddress]

end Routine

end FourLane
