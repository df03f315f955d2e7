import FourLane.Proofs.SessionSafety

/-!
# The imports of a routine

A call in the code of a routine names its target by a position among the imports. These are
collected while the arguments of calls are lowered, so the positions of what was imported before
must stay as they are. Followed over a whole body, the imports are the targets that its nodes call,
in the order in which the nodes are finished and without repetitions. The calls in the code are
those of the nodes in the same order: one for a defined function, and one for each lane for an
elementary function.
-/
namespace FourLane

open Relation

/-- The position among the imports that an instruction calls. -/
def Instr.callee? : Instr → Option Nat
  | .call callee _ => some callee
  | _ => none

/-- What is called through an import. -/
inductive Callee where
  | elementary (e : Elementary)
  | defined (entry : Entry)

namespace Callee

def number : Callee → Nat
  | .elementary e => e.number
  | .defined entry => entry.number

def calls : Callee → Nat
  | .elementary _ => 4
  | .defined _ => 1

end Callee

def elementaryOf? : String → Nat → Option Elementary
  | "sin", 1 => some .sin
  | "cos", 1 => some .cos
  | "exp", 1 => some .exp
  | "log", 1 => some .log
  | "pow", 2 => some .pow
  | _, _ => none

/-- Arithmetic and square roots have instructions of their own. -/
def IsInstruction (head : String) (count : Nat) : Prop :=
  head ∈ ["+", "-", "*", "/"] ∧ 2 ≤ count ∨ head = "sqrt" ∧ count = 1

instance (head : String) (count : Nat) : Decidable (IsInstruction head count) := by
  unfold IsInstruction
  infer_instance

def calleeOf? (registry : Registry) (head : String) (count : Nat) : Option Callee :=
  if IsInstruction head count then none
  else
    match elementaryOf? head count with
    | some e => some (.elementary e)
    | none => (registry.resolve? head count).map .defined

def Form.callee? (registry : Registry) : Form → Option Callee
  | .call head args => calleeOf? registry head args.length
  | _ => none

/-! ### Which calls are which -/

theorem isBuiltin_iff (head : String) (count : Nat) :
    IsBuiltin head count ↔ IsInstruction head count ∨ (elementaryOf? head count).isSome := by
  constructor
  · rintro (harith | ⟨hhead, rfl⟩ | ⟨rfl, rfl⟩)
    · exact .inl (.inl harith)
    · obtain rfl | rfl | rfl | rfl | rfl := by simpa using hhead
      · exact .inl (.inr ⟨rfl, rfl⟩)
      all_goals exact .inr rfl
    · exact .inr rfl
  · rintro ((harith | ⟨rfl, rfl⟩) | helementary)
    · exact .inl harith
    · decide
    · unfold elementaryOf? at helementary
      split at helementary
      case h_6 => cases helementary
      all_goals decide

theorem calleeOf?_arith (registry : Registry) {head : String} {count : Nat} {op : Arithmetic}
    (h : Builtin.resolve? head count = some (.arith op)) : calleeOf? registry head count = none := by
  obtain ⟨hname, htakes⟩ := (Builtin.resolve?_eq_some_iff head count _).mp h
  have hhead : head ∈ ["+", "-", "*", "/"] := by
    obtain ⟨rfl, -⟩ | ⟨rfl, -⟩ | ⟨rfl, -⟩ | ⟨rfl, -⟩ := by simpa [Builtin.names] using hname
    all_goals decide
  rw [calleeOf?, if_pos (.inl ⟨hhead, (Builtin.takes_arith op count).mp htakes⟩)]

theorem calleeOf?_sqrt (registry : Registry) {head : String} {count : Nat}
    (h : Builtin.resolve? head count = some .sqrt) : calleeOf? registry head count = none := by
  obtain ⟨hname, htakes⟩ := (Builtin.resolve?_eq_some_iff head count _).mp h
  have hhead : head = "sqrt" := by simpa [Builtin.names] using hname
  rw [calleeOf?, if_pos (.inr ⟨hhead, (Builtin.takes_sqrt count).mp htakes⟩)]

theorem calleeOf?_elementary (registry : Registry) {head : String} {count : Nat} {e : Elementary}
    (h : Builtin.resolve? head count = some (.elementary e)) :
    calleeOf? registry head count = some (.elementary e) := by
  obtain ⟨hname, htakes⟩ := (Builtin.resolve?_eq_some_iff head count _).mp h
  rw [Builtin.takes_elementary] at htakes
  subst htakes
  cases e with
  | sin | cos | exp | log | pow =>
    obtain rfl := by simpa [Builtin.names] using hname
    rfl

theorem calleeOf?_defined (registry : Registry) {head : String} {count : Nat}
    (h : ¬ IsBuiltin head count) :
    calleeOf? registry head count = (registry.resolve? head count).map .defined := by
  rw [isBuiltin_iff, not_or, Option.not_isSome_iff_eq_none] at h
  rw [calleeOf?, if_neg h.1, h.2]

/-- A call that can be lowered calls something unless it is an instruction. -/
theorem calleeOf?_eq_none_iff (registry : Registry) {head : String} {count : Nat}
    (h : IsBuiltin head count ∨ registry.known head = some count) :
    calleeOf? registry head count = none ↔ IsInstruction head count := by
  by_cases hinstr : IsInstruction head count
  · rw [calleeOf?, if_pos hinstr]
    exact ⟨fun _ => hinstr, fun _ => rfl⟩
  · rw [isBuiltin_iff, ← registry.resolve?_isSome_iff, or_assoc] at h
    rw [calleeOf?, if_neg hinstr]
    cases helementary : elementaryOf? head count with
    | some e => simp [hinstr]
    | none =>
      have hdefined : (registry.resolve? head count).isSome := by
        simpa [hinstr, helementary] using h
      obtain ⟨entry, hentry⟩ := Option.isSome_iff_exists.mp hdefined
      simp [hentry, hinstr]

/-! ### What drafts import and call -/

namespace Draft

/-- Between two drafts, the targets are required and calls of the others are appended. The
imports have the targets that were ever required, each once, and keep their places. -/
structure Calls (d d' : Draft) (required called : List Nat) : Prop where
  imports : ∀ seen : List Nat, d.imports.toList.map Import.target = seen.eraseDups →
    d'.imports.toList.map Import.target = (seen ++ required).eraseDups
  places : ∀ (k : Nat) (i : Import), d.imports[k]? = some i → d'.imports[k]? = some i
  code : ∃ added : List Instr, d'.code.toList = d.code.toList ++ added ∧
    (added.filterMap Instr.callee?).map (fun k => d'.imports[k]?.map Import.target) =
      called.map some

namespace Calls

variable {d d' d'' : Draft} {required required' called called' : List Nat}

theorem trans (h : d.Calls d' required called) (h' : d'.Calls d'' required' called') :
    d.Calls d'' (required ++ required') (called ++ called') where
  imports seen hseen := by
    rw [← List.append_assoc]
    exact h'.imports _ (h.imports seen hseen)
  places k i hi := h'.places k i (h.places k i hi)
  code := by
    obtain ⟨added, hcode, hcalled⟩ := h.code
    obtain ⟨more, hmore, hcalled'⟩ := h'.code
    refine ⟨added ++ more, by rw [hmore, hcode, List.append_assoc], ?_⟩
    -- A position that was resolved stays resolved, as all positions are kept.
    have hkept : (added.filterMap Instr.callee?).map (fun k => d''.imports[k]?.map Import.target) =
        (added.filterMap Instr.callee?).map (fun k => d'.imports[k]?.map Import.target) := by
      apply List.map_congr_left
      intro k hk
      have hresolved : d'.imports[k]?.map Import.target ∈ called.map some := by
        rw [← hcalled]
        exact List.mem_map_of_mem hk
      obtain ⟨target, -, htarget⟩ := List.mem_map.mp hresolved
      obtain ⟨i, hi, -⟩ := Option.map_eq_some_iff.mp htarget.symm
      rw [hi, h'.places k i hi]
    rw [List.filterMap_append, List.map_append, hkept, hcalled, hcalled', List.map_append]

end Calls

variable {registry : Registry}

theorem nodup_of_steps {d d' : Draft} (h : ReflTransGen (Step registry) d d')
    (hd : (d.imports.toList.map Import.target).Nodup) :
    (d'.imports.toList.map Import.target).Nodup := by
  induction h with
  | refl => exact hd
  | @tail d₁ d₂ _ hstep ih =>
    cases hstep with
    | emit instr _ => exact ih
    | require i _ hnew =>
      rw [Array.toList_push, List.map_append, List.map_singleton, List.nodup_append]
      refine ⟨ih, by simp, ?_⟩
      intro target htarget target' htarget'
      obtain ⟨j, hj, rfl⟩ := List.mem_map.mp htarget
      rw [List.mem_singleton.mp htarget']
      exact hnew j (Array.mem_toList_iff.mp hj)
    | note event => exact ih

end Draft

theorem eraseDups_concat (seen : List Nat) (target : Nat) :
    (seen ++ [target]).eraseDups =
      if target ∈ seen then seen.eraseDups else seen.eraseDups ++ [target] := by
  rw [List.eraseDups_append]
  by_cases h : target ∈ seen
  · simp [List.removeAll, h]
  · simp [List.removeAll, h, List.eraseDups_cons]

namespace Lowering

variable {α β : Type}

/-- The action appends code that calls the given positions, and imports nothing. -/
def Appends (x : Lowering α) (callees : List Nat) : Prop :=
  ∀ d, ∃ a d' added, x.run d = (.ok a, d') ∧ d'.imports = d.imports ∧
    d'.code.toList = d.code.toList ++ added ∧ added.filterMap Instr.callee? = callees

theorem Appends.bind {x : Lowering α} {f : α → Lowering β} {callees callees' : List Nat}
    (hx : Appends x callees) (hf : ∀ a, Appends (f a) callees') :
    Appends (x >>= f) (callees ++ callees') := by
  intro d
  obtain ⟨a, d₁, added, hrun₁, himports₁, hcode₁, hcalled₁⟩ := hx d
  obtain ⟨b, d₂, more, hrun₂, himports₂, hcode₂, hcalled₂⟩ := hf a d₁
  refine ⟨b, d₂, added ++ more, ?_, himports₂.trans himports₁, ?_, ?_⟩
  · rw [run_bind, hrun₁]
    exact hrun₂
  · rw [hcode₂, hcode₁, List.append_assoc]
  · rw [List.filterMap_append, hcalled₁, hcalled₂]

theorem appends_pure (a : α) : Appends (pure a) [] :=
  fun d => ⟨a, d, [], rfl, rfl, by simp, rfl⟩

theorem appends_note (e : Event) : Appends (note e) [] :=
  fun d => ⟨(), _, [], run_note e d, rfl, by simp, rfl⟩

theorem appends_emit (instr : Instr) : Appends (emit instr) instr.callee?.toList :=
  fun d => ⟨_, _, [instr], run_emit instr d, rfl, Array.toList_push,
    by cases h : instr.callee? <;> simp [h]⟩

theorem appends_constant (x : Lane) : Appends (constant x) [] :=
  (appends_emit (.const x)).bind fun c => appends_emit (.splat c)

theorem appends_arith (op : Arithmetic) (first : Nat) (vs : List Nat) :
    Appends (arith op first vs) [] := by
  induction vs generalizing first with
  | nil => exact appends_pure first
  | cons v vs ih => exact (appends_emit (.arith op first v)).bind ih

theorem appends_extractAll (lane : Fin 4) (vs : List Nat) : Appends (extractAll lane vs) [] := by
  induction vs with
  | nil => exact appends_pure []
  | cons v vs ih =>
    exact (appends_emit (.extract v lane)).bind fun _ => ih.bind fun _ => appends_pure _

theorem appends_applyLane (callee : Nat) (vs : List Nat) (lane : Fin 4) :
    Appends (applyLane callee vs lane) [callee] :=
  (appends_extractAll lane vs).bind fun xs => appends_emit (.call callee xs)

theorem appends_insertLane (callee : Nat) (vs : List Nat) (vector : Nat) (lane : Fin 4) :
    Appends (insertLane callee vs vector lane) [callee] :=
  (appends_applyLane callee vs lane).bind fun x => appends_emit (.insert vector x lane)

theorem Appends.calls {x : Lowering α} (hx : Appends x []) {d d' : Draft} {a : α}
    (h : x.run d = (.ok a, d')) : d.Calls d' [] [] := by
  obtain ⟨a', d₁, added, hrun, himports, hcode, hcalled⟩ := hx d
  cases h.symm.trans hrun
  refine ⟨fun seen hseen => ?_, fun k i hi => ?_, added, hcode, by rw [hcalled]; rfl⟩
  · rw [himports, List.append_nil, hseen]
  · rw [himports, hi]

/-- A target is imported unless it is, and then called a number of times. -/
theorem calls_importOf_bind (target : Nat) (signature : Signature) (f : Nat → Lowering α) (n : Nat)
    (hf : ∀ k, Appends (f k) (List.replicate n k)) {d d' : Draft} {a : α}
    (h : (importOf target signature >>= f).run d = (.ok a, d')) :
    d.Calls d' [target] (List.replicate n target) := by
  have hresolve (k : Nat) (imports : Array Import) (i : Import) (hi : imports[k]? = some i)
      (htarget : i.target = target) :
      (List.replicate n k).map (fun k => imports[k]?.map Import.target) =
        (List.replicate n target).map some := by
    simp only [List.map_replicate, hi, Option.map_some, htarget]
  rw [run_bind, run_importOf] at h
  cases hk : d.imports.findIdx? fun i => i.target = target with
  | some k =>
    rw [hk] at h
    obtain ⟨hlt, hfound, -⟩ := Array.findIdx?_eq_some_iff_getElem.mp hk
    have htarget : d.imports[k].target = target := by simpa using hfound
    obtain ⟨a', d₁, added, hrun, himports, hcode, hcalled⟩ := hf k d
    cases h.symm.trans hrun
    refine ⟨fun seen hseen => ?_, fun k i hi => by rw [himports, hi], added, hcode, ?_⟩
    · have hmem : target ∈ seen := by
        rw [← List.mem_eraseDups, ← hseen, ← htarget]
        exact List.mem_map_of_mem (Array.mem_toList_iff.mpr (Array.getElem_mem hlt))
      rw [himports, hseen, eraseDups_concat, if_pos hmem]
    · rw [hcalled, himports]
      exact hresolve k d.imports _ (Array.getElem?_eq_getElem hlt) htarget
  | none =>
    rw [hk] at h
    have hnew := Array.findIdx?_eq_none_iff.mp hk
    obtain ⟨a', d₁, added, hrun, himports, hcode, hcalled⟩ := hf d.imports.size
      { d with imports := d.imports.push ⟨target, signature⟩ }
    cases h.symm.trans hrun
    refine ⟨fun seen hseen => ?_, fun k i hi => ?_, added, hcode, ?_⟩
    · have hnot : target ∉ seen := by
        rw [← List.mem_eraseDups, ← hseen]
        rintro hmem
        obtain ⟨i, hi, htarget⟩ := List.mem_map.mp hmem
        simpa [htarget] using hnew i (Array.mem_toList_iff.mp hi)
      rw [himports, Array.toList_push, List.map_append, hseen, eraseDups_concat, if_neg hnot]
      rfl
    · rw [himports]
      exact getElem?_push_of_some hi _
    · rw [hcalled, himports]
      exact hresolve _ _ ⟨target, signature⟩ Array.getElem?_push_size rfl

/-- The targets that nodes call, one for each call. -/
def required (registry : Registry) (nodes : List Form) : List Nat :=
  (nodes.filterMap (Form.callee? registry)).map Callee.number

def called (registry : Registry) (nodes : List Form) : List Nat :=
  (nodes.filterMap (Form.callee? registry)).flatMap fun c => List.replicate c.calls c.number

theorem required_append (registry : Registry) (nodes later : List Form) :
    required registry (nodes ++ later) = required registry nodes ++ required registry later := by
  simp [required]

theorem called_append (registry : Registry) (nodes later : List Form) :
    called registry (nodes ++ later) = called registry nodes ++ called registry later := by
  simp [called]

theorem calls_call (registry : Registry) (head : String) (args : List Form) (vs : List Nat)
    (hlen : vs.length = args.length) {d d' : Draft} {v : Nat}
    (h : (call registry head vs).run d = (.ok v, d')) :
    d.Calls d' (required registry [.call head args]) (called registry [.call head args]) := by
  have hnode (callee : Option Callee) (hc : calleeOf? registry head vs.length = callee) :
      [Form.call head args].filterMap (Form.callee? registry) = callee.toList := by
    rw [hlen] at hc
    cases callee <;> simp [Form.callee?, hc]
  rw [required, called]
  rcases call_cases registry head vs with ⟨op, v, w, rest, hb, -, hc⟩ | ⟨v, hb, -, hc⟩ |
    ⟨e, hb, -, hc⟩ | ⟨hb, hc⟩
  · rw [hc] at h
    rw [hnode none (calleeOf?_arith registry hb)]
    exact (appends_arith op v (w :: rest)).calls h
  · rw [hc] at h
    rw [hnode none (calleeOf?_sqrt registry hb)]
    exact (appends_emit (.sqrt v)).calls h
  · rw [hc] at h
    rw [hnode _ (calleeOf?_elementary registry hb)]
    apply calls_importOf_bind e.number e.signature _ 4 _ h
    intro k
    exact (appends_applyLane k vs 0).bind fun x => (appends_emit (.splat x)).bind fun v =>
      (appends_insertLane k vs v 1).bind fun v => (appends_insertLane k vs v 2).bind fun v =>
        appends_insertLane k vs v 3
  · rw [hc, callDefined] at h
    rw [← Option.not_isSome_iff_eq_none, Builtin.resolve?_isSome_iff] at hb
    have hdefined := calleeOf?_defined registry hb
    cases hentry : registry.resolve? head vs.length with
    | none =>
      rw [hentry] at h
      cases h
    | some entry =>
      rw [hentry] at h hdefined
      rw [hnode _ hdefined]
      exact calls_importOf_bind entry.number _ _ 1 (fun k => appends_emit (.call k vs)) h

theorem calls_forms (scope : Scope) (fs : List Form)
    (hfs : ∀ f ∈ fs, ∀ d v d', (form scope f).run d = (.ok v, d') →
      d.Calls d' (required scope.registry f.nodes) (called scope.registry f.nodes))
    (d : Draft) (vs : List Nat) (d' : Draft) (h : (forms scope fs).run d = (.ok vs, d')) :
    d.Calls d' (required scope.registry (nodesOfAll fs))
      (called scope.registry (nodesOfAll fs)) := by
  induction fs generalizing d vs with
  | nil =>
    rw [forms] at h
    exact (appends_pure []).calls h
  | cons f fs ih =>
    obtain ⟨v, rest, d₁, hf, hrest, rfl⟩ := exists_of_run_forms_cons h
    have hfirst := hfs f List.mem_cons_self d v d₁ hf
    have hlater := ih (fun g hg => hfs g (List.mem_cons_of_mem f hg)) d₁ rest hrest
    rw [nodesOfAll, required_append, called_append]
    exact hfirst.trans hlater

/-- The imports and calls of a form that was lowered are those of its nodes. -/
theorem calls_form (scope : Scope) (f : Form) (d : Draft) (v : Nat) (d' : Draft)
    (h : (form scope f).run d = (.ok v, d')) :
    d.Calls d' (required scope.registry f.nodes) (called scope.registry f.nodes) := by
  induction f generalizing d v d' with
  | number x =>
    rw [form] at h
    exact (appends_constant x).calls h
  | var name =>
    rw [form] at h
    cases hlookup : scope.params.lookup name with
    | none =>
      rw [hlookup] at h
      exact ((appends_note _).bind fun _ => appends_constant _).calls h
    | some n =>
      rw [hlookup] at h
      exact (appends_pure n).calls h
  | call head args ih =>
    rw [form] at h
    obtain ⟨vs, d₁, hargs, hcall⟩ := exists_of_run_bind h
    have hlen := length_of_run_forms scope args d d₁ vs hargs
    have hcalls := calls_forms scope args ih d vs d₁ hargs
    rw [Form.nodes, required_append, called_append]
    exact hcalls.trans (calls_call scope.registry head args vs hlen hcall)
  | definition name params body _ => cases h

end Lowering

namespace Routine

open Lowering

theorem calls_of_compile (registry : Registry) (number : Nat) (convention : Convention)
    (params : List String) (body : Form) {r : Routine} {log : List Event}
    (h : compile registry number convention params body = (.ok r, log)) :
    r.imports.toList.map Import.target = (required registry body.nodes).eraseDups ∧
      (r.imports.toList.map Import.target).Nodup ∧
      (r.code.toList.filterMap Instr.callee?).map (fun k => r.imports[k]?.map Import.target) =
        (called registry body.nodes).map some := by
  obtain ⟨-, result, d, hd, rfl, -⟩ := compile_eq_ok registry number convention params body h
  have hcalls := calls_form (scope registry convention params) body _ _ _ hd
  have hsteps := proceeds_form (scope registry convention params) body
    (start convention params.length)
  rw [hd] at hsteps
  have hempty : (start convention params.length).imports = #[] := by cases convention <;> rfl
  have hloads : (start convention params.length).code.toList.filterMap Instr.callee? = [] := by
    cases convention with
    | byValue => rfl
    | byAddress => simp [start, List.filterMap_map, Function.comp_def, Instr.callee?]
  refine ⟨hcalls.imports [] (by rw [hempty]; rfl), ?_, ?_⟩
  · apply Draft.nodup_of_steps hsteps
    rw [hempty]
    exact List.nodup_nil
  · obtain ⟨added, hcode, hcalled⟩ := hcalls.code
    change (d.code.toList.filterMap _).map (fun k => d.imports[k]?.map Import.target) = _
    rw [hcode, List.filterMap_append, hloads, List.nil_append, hcalled]
    rfl

end Routine

namespace Session

/-- All calls in a body but arithmetic and square roots have a target. The imports are these targets,
in the order in which the nodes are finished and each only once, with the signatures of the targets.
The calls in the code go to the targets of the nodes in that order, four for each elementary function
and one for each defined one. -/
theorem imports_of_nodes (s : Session) (hs : s.Reachable) (convention : Convention) (name : String)
    (params : List String) (body : Form) (handle : Handle)
    (h : (s.compile convention name params body).result = .ok handle) :
    ∃ r, (s.compile convention name params body).session.image = r :: s.image ∧
      let callees := body.nodes.filterMap (Form.callee? s.registry)
      (∀ head args, Form.call head args ∈ body.nodes →
        (Form.callee? s.registry (.call head args) = none ↔ IsInstruction head args.length)) ∧
      r.imports.toList.map Import.target = (callees.map Callee.number).eraseDups ∧
      (r.imports.toList.map Import.target).Nodup ∧
      (∀ i ∈ r.imports,
        (∃ e : Elementary, i.target = e.number ∧
          i.signature = ⟨if e = .pow then [.f32, .f32] else [.f32], some .f32⟩) ∨
        ∃ target ∈ s.image, i.target = target.number ∧ target.convention = .byValue ∧
          i.signature = ⟨List.replicate target.arity .f32x4, some .f32x4⟩) ∧
      (r.code.toList.filterMap Instr.callee?).map (fun k => r.imports[k]?.map Import.target) =
        callees.flatMap fun c => List.replicate c.calls (some c.number) := by
  rcases s.compile_cases convention name params body with ⟨e, log, -, heq⟩ | ⟨r, log, hr, heq⟩
  · rw [heq] at h
    cases h
  · obtain ⟨himports, hnodup, hcode⟩ := Routine.calls_of_compile _ _ _ _ _ hr
    obtain ⟨⟨-, -, hfaults⟩, -⟩ := Routine.compile_eq_ok _ _ _ _ _ hr
    refine ⟨r, by rw [heq]; rfl, ?_, himports, hnodup, ?_, ?_⟩
    · intro head args hnode
      exact calleeOf?_eq_none_iff s.registry
        (((forall_fault?_eq_none_iff _ _).mp hfaults).2 head args hnode)
    · intro i hi
      have hoffers := Routine.offers_of_compile _ _ _ _ _ hr i hi
      rcases hs.wellFormed.1.mayCall i hoffers with ⟨e, rfl⟩ | ⟨target, hmem, hconvention, rfl⟩
      · refine .inl ⟨e, rfl, ?_⟩
        cases e <;> rfl
      · refine .inr ⟨target, hmem, rfl, hconvention, ?_⟩
        rw [Routine.signature, hconvention]
        rfl
    · rw [hcode, Lowering.called, List.map_flatMap]
      simp only [List.map_replicate]

def wavesOfF : Form :=
  .call "+" [.call "sin" [.call "f" [.var "x"]],
    .call "pow" [.call "sin" [.var "x"], .call "f" [.call "sqrt" [.var "x"]]]]

def identityF : List Build := [.define ⟨"f", ["x"], .var "x"⟩]

theorem imports_of_nodes_wavesOfF :
    ∃ r, ((Session.after {} identityF).compile .byAddress "q" ["x"] wavesOfF).session.image =
        r :: (Session.after {} identityF).image ∧
      r.imports.toList.map Import.target = [5, 0, 4] ∧
      (r.code.toList.filterMap Instr.callee?).map (fun k => r.imports[k]?.map Import.target) =
        [some 5, some 0, some 0, some 0, some 0, some 0, some 0, some 0, some 0, some 5, some 4,
          some 4, some 4, some 4] := by
  have haccepts : Accepts (Session.after {} identityF).registry.known ["x"] wavesOfF := by
    rw [((interprets_new {}).after identityF).known]
    decide
  obtain ⟨r, himage, -, himports, -, -, hcalls⟩ :=
    imports_of_nodes _ ⟨{}, identityF, rfl⟩ .byAddress "q" ["x"] wavesOfF _
      (compile_of_accepts _ .byAddress "q" _ _ haccepts)
  exact ⟨r, himage, himports, hcalls⟩

end Session
end FourLane
