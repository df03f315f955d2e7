import FourLane.Proofs.Builds
import FourLane.Proofs.CallStack
import FourLane.Proofs.Permanence
import Mathlib

/-!
# Calls go down and end

A routine is compiled before it gets its number and before its name is registered, so all that
its calls can reach has a smaller number. This holds of a definition that calls its own name: the
call goes to what had the name before, and if nothing had it the definition fails. Hence every
run on a stack of calls ends, in every session.
-/
namespace FourLane

open Relation

def CallsNumber (code : Array Instr) (imports : Array Import) (number : Nat) : Prop :=
  ∃ callee ns i, Instr.call callee ns ∈ code ∧ imports[callee]? = some i ∧ i.target = number

namespace Draft

variable {registry : Registry} {number : Nat}

theorem callsNumber_of_steps {d d' : Draft} (h : ReflTransGen (Step registry) d d')
    (hd : CallsNumber d.code d.imports number) : CallsNumber d'.code d'.imports number := by
  induction h with
  | refl => exact hd
  | @tail d₁ d₂ _ hstep ih =>
    obtain ⟨callee, ns, i, hcall, hi, hnumber⟩ := ih
    cases hstep with
    | emit instr _ => exact ⟨callee, ns, i, Array.mem_push_of_mem instr hcall, hi, hnumber⟩
    | require j _ _ => exact ⟨callee, ns, i, hcall, getElem?_push_of_some hi j, hnumber⟩
    | note event => exact ⟨callee, ns, i, hcall, hi, hnumber⟩

end Draft

namespace Lowering

theorem exists_run_importOf (target : Nat) (signature : Signature) (d : Draft) :
    ∃ k d', (importOf target signature).run d = (.ok k, d') ∧
      ∃ i, d'.imports[k]? = some i ∧ i.target = target := by
  rw [run_importOf]
  cases hk : d.imports.findIdx? fun i => i.target = target with
  | some k =>
    obtain ⟨hlt, htarget, -⟩ := Array.findIdx?_eq_some_iff_getElem.mp hk
    exact ⟨k, d, rfl, _, Array.getElem?_eq_getElem hlt, by simpa using htarget⟩
  | none => exact ⟨_, _, rfl, _, Array.getElem?_push_size, rfl⟩

theorem callsNumber_of_run_callDefined (registry : Registry) (head : String) (vs : List Nat)
    (d d' : Draft) (v : Nat) (h : (callDefined registry head vs).run d = (.ok v, d')) :
    ∃ entry, registry.resolve? head vs.length = some entry ∧
      CallsNumber d'.code d'.imports entry.number := by
  rw [callDefined] at h
  cases hentry : registry.resolve? head vs.length with
  | none =>
    rw [hentry] at h
    cases h
  | some entry =>
    rw [hentry] at h
    obtain ⟨k, d₁, hrun, i, hi, htarget⟩ := exists_run_importOf entry.number
      (Convention.byValue.signature entry.arity) d
    simp only [run_bind, hrun, run_emit] at h
    cases h
    exact ⟨entry, rfl, k, vs, i, Array.mem_push_self, hi, htarget⟩

/-- A node of a form that was lowered, if it is a call of a defined function, calls the number
that is registered for it. -/
def NodeCalls (registry : Registry) (d : Draft) (node : Form) : Prop :=
  ∀ head args, node = .call head args → Builtin.resolve? head args.length = none →
    ∃ entry, registry.resolve? head args.length = some entry ∧
      CallsNumber d.code d.imports entry.number

theorem NodeCalls.of_steps {registry : Registry} {d d' : Draft} {node : Form}
    (h : NodeCalls registry d node) (hsteps : ReflTransGen (Draft.Step registry) d d') :
    NodeCalls registry d' node := by
  intro head args heq hb
  obtain ⟨entry, hentry, hcalls⟩ := h head args heq hb
  exact ⟨entry, hentry, Draft.callsNumber_of_steps hsteps hcalls⟩

theorem nodeCalls_forms (scope : Scope) (fs : List Form)
    (hfs : ∀ f ∈ fs, ∀ d v d', (form scope f).run d = (.ok v, d') →
      ∀ node ∈ f.nodes, NodeCalls scope.registry d' node)
    (d : Draft) (vs : List Nat) (d' : Draft) (h : (forms scope fs).run d = (.ok vs, d')) :
    ∀ node ∈ nodesOfAll fs, NodeCalls scope.registry d' node := by
  induction fs generalizing d vs with
  | nil => simp [nodesOfAll]
  | cons f fs ih =>
    obtain ⟨v, rest, d₁, hf, hrest, rfl⟩ := exists_of_run_forms_cons h
    have hsteps := proceeds_forms scope fs (fun g _ => proceeds_form scope g) d₁
    rw [hrest] at hsteps
    intro node hnode
    rw [nodesOfAll, List.mem_append] at hnode
    rcases hnode with hnode | hnode
    · exact (hfs f List.mem_cons_self d v d₁ hf node hnode).of_steps hsteps
    · exact ih (fun g hg => hfs g (List.mem_cons_of_mem f hg)) d₁ rest hrest node hnode

theorem nodeCalls_form (scope : Scope) (f : Form) (d : Draft) (v : Nat) (d' : Draft)
    (h : (form scope f).run d = (.ok v, d')) :
    ∀ node ∈ f.nodes, NodeCalls scope.registry d' node := by
  induction f generalizing d v d' with
  | number x =>
    intro node hnode head args heq
    rw [heq] at hnode
    cases List.mem_singleton.mp hnode
  | var name =>
    intro node hnode head args heq
    rw [heq] at hnode
    cases List.mem_singleton.mp hnode
  | call head args ih =>
    rw [form] at h
    obtain ⟨vs, d₁, hargs, hcall⟩ := exists_of_run_bind h
    have hproceeds : Proceeds scope.registry (call scope.registry head vs) := proceeds_call head vs
    have hsteps := hproceeds d₁
    rw [hcall] at hsteps
    intro node hnode
    rw [Form.nodes, List.mem_append, List.mem_singleton] at hnode
    rcases hnode with hnode | rfl
    · exact (nodeCalls_forms scope args ih d vs d₁ hargs node hnode).of_steps hsteps
    · intro head' args' heq hb
      cases heq
      have hlen := length_of_run_forms scope args d d₁ vs hargs
      rw [← hlen] at hb ⊢
      simp only [call, hb] at hcall
      exact callsNumber_of_run_callDefined scope.registry head vs d₁ d' v hcall
  | definition name params body _ => cases h

end Lowering

namespace Image

theorem WellFormed.exists_older {image : Image} (h : image.WellFormed) (r : Routine)
    (hr : r ∈ image) : ∃ older, WellFormed (r :: older) := by
  obtain ⟨newer, older, rfl⟩ := List.append_of_mem hr
  exact ⟨older, h.of_append⟩

theorem WellFormed.descends {image : Image} (h : image.WellFormed) : image.Descends := by
  intro r hr i hi
  obtain ⟨older, hr, holder⟩ := h.exists_older r hr
  rw [hr.number]
  exact target_lt_next older holder.numbered i (hr.imports i hi)

end Image

namespace Session

variable {s : Session} {r : Routine}

/-- The target of a call is imported, and its number is smaller. -/
theorem Reachable.target_lt_number (hs : s.Reachable) (hr : r ∈ s.image) (callee : Nat)
    (ns : List Nat) (hcall : Instr.call callee ns ∈ r.code) :
    ∃ i, r.imports[callee]? = some i ∧ i.target < r.number := by
  have himage := hs.wellFormed.1.image
  obtain ⟨older, hwf, -⟩ := himage.exists_older r hr
  obtain ⟨types, -, htyped, -⟩ := hwf.typed
  obtain ⟨k, hk⟩ := Array.mem_iff_getElem?.mp hcall
  obtain ⟨ty, -, htype⟩ := htyped.code k _ hk
  cases htype with
  | @call _ _ i _ hi _ _ => exact ⟨i, hi, himage.descends r hr i (Array.mem_of_getElem? hi)⟩

theorem Reachable.steps_applied (hs : s.Reachable) (hr : r ∈ s.image) (args : List Quad) (q : Quad)
    (h : s.applied? r args = some q) :
    ∃ a last, r.activate (Routine.lent r.convention args .zero)
        (Routine.entryWords r.convention args) = some a ∧
      ReflTransGen (Config.Step s.image) (.running a []) last ∧
      last.result? args.length = some q := by
  have hnumbered := hs.wellFormed.1.image.numbered
  obtain ⟨newer, older, himage⟩ := List.append_of_mem hr
  have hlength := length_of_applied? hs hr args q h
  rw [applied?, enter, if_pos hlength, himage] at h
  rw [himage] at hnumbered ⊢
  cases hconvention : r.convention with
  | byValue =>
    rw [hconvention] at h
    obtain ⟨w, hw, hq⟩ := Option.bind_eq_some_iff.mp h
    cases Image.answers_of_run [] _ hnumbered r.number _ w hw with
    | routine r' a hr' ha hsteps =>
      obtain rfl := Option.some.inj ((Image.find?_number newer r older hnumbered).symm.trans hr')
      exact ⟨a, .returned w, ha, hsteps [], hq⟩
    | elementary hnone _ => cases (Image.find?_number newer r older hnumbered).symm.trans hnone
  | byAddress =>
    rw [hconvention] at h
    simp only at h
    rw [Image.enter_append newer _ hnumbered r.number (Nat.lt_succ_self _),
      Image.enter_cons_self] at h
    obtain ⟨memory, henter, hq⟩ := Option.bind_eq_some_iff.mp h
    obtain ⟨a, ha, hsteps⟩ := Image.steps_of_enter newer r older hnumbered _ memory henter
    refine ⟨a, .stored memory, ?_, hsteps, hq⟩
    rw [List.length_append] at ha
    exact ha

/-- A call of its own name in a definition that is accepted goes to what had the name before. -/
theorem Reachable.selfCall (hs : s.Reachable) (d : Definition) (args : List Form)
    (hnode : Form.call d.name args ∈ d.body.nodes) (hb : ¬ IsBuiltin d.name args.length)
    (hok : (s.define d).result = .ok ()) :
    ∃ holder top, s.registry.lookup d.name = some holder ∧ holder.arity = args.length ∧
      (s.define d).session.image = top :: s.image ∧
      CallsNumber top.code top.imports holder.number ∧ holder.number < top.number := by
  rcases s.build_cases (.define d) with ⟨e, log, hcompile, hattempt, -⟩ | ⟨top, log, hcompile, -, heq⟩
  · change s.compile .byValue d.name d.params d.body = _ at hattempt
    rw [define, hattempt] at hok
    cases hok
  · obtain ⟨-, result, draft, hrun, htop, -⟩ := Routine.compile_eq_ok _ _ _ _ _ hcompile
    rw [← Builtin.resolve?_isSome_iff, Option.not_isSome_iff_eq_none] at hb
    obtain ⟨holder, hholder, hcalls⟩ := Lowering.nodeCalls_form _ _ _ _ _ hrun _ hnode _ _ rfl hb
    obtain ⟨hlookup, harity⟩ := (s.registry.resolve?_eq_some_iff _ _ _).mp hholder
    obtain ⟨callee, hcallee, -, hnumber, -⟩ := hs.wellFormed.1.lookup d.name holder hlookup
    refine ⟨holder, top, hlookup, harity, congrArg Session.image heq, htop ▸ hcalls, ?_⟩
    rw [← hnumber, (Routine.fields_of_compile _ _ _ _ _ hcompile).1]
    exact (hs.routine_lt_next hcallee).2

/-- Every call goes to a smaller number, so every run ends, and one on as many vectors as there
are parameters with the result. A definition that calls its own name calls what had the name
before, or fails. -/
theorem calls_descend_and_end (s : Session) (hs : s.Reachable) :
    (∀ r ∈ s.image, ∀ callee ns, Instr.call callee ns ∈ r.code →
        ∃ i, r.imports[callee]? = some i ∧ i.target < r.number) ∧
      (∀ r ∈ s.image, ∀ memory words a, r.activate memory words = some a →
        Config.Halts s.image (.running a [])) ∧
      (∀ r ∈ s.image, ∀ args, args.length = r.arity →
        ∃ q a last, s.applied? r args = some q ∧
          r.activate (Routine.lent r.convention args .zero) (Routine.entryWords r.convention args) =
            some a ∧
          ReflTransGen (Config.Step s.image) (.running a []) last ∧
          last.result? args.length = some q) ∧
      ∀ d args, Form.call d.name args ∈ d.body.nodes → ¬ IsBuiltin d.name args.length →
        (s.arity? d.name ≠ some args.length → ∃ e, (s.define d).result = .error e) ∧
        ((s.define d).result = .ok () →
          ∃ holder top, s.registry.lookup d.name = some holder ∧ holder.arity = args.length ∧
            (s.define d).session.image = top :: s.image ∧
            CallsNumber top.code top.imports holder.number ∧ holder.number < top.number) := by
  refine ⟨fun r hr => hs.target_lt_number hr, ?_, ?_, ?_⟩
  · intro r hr memory words a ha
    exact Config.halts_activate hs.wellFormed.1.image.descends r hr memory words a ha
  · intro r hr args hargs
    obtain ⟨_, _, _, happlied⟩ := hs.applied_eq_meaning hr
    obtain ⟨q, -, hq⟩ := happlied args hargs
    obtain ⟨a, last, ha, hsteps, hlast⟩ := hs.steps_applied hr args q hq
    exact ⟨q, a, last, hq, ha, hsteps, hlast⟩
  · intro d args hnode hb
    refine ⟨fun harity => ?_, hs.selfCall d args hnode hb⟩
    cases hresult : (s.define d).result with
    | error e => exact ⟨e, rfl⟩
    | ok u =>
      obtain ⟨holder, top, hlookup, hholder, -⟩ := hs.selfCall d args hnode hb hresult
      exact (harity (by rw [arity?, hlookup, ← hholder]; rfl)).elim

def linked : List Build :=
  [.define ⟨"f", ["x"], .var "x"⟩, .define ⟨"g", ["x"], .call "f" [.var "x"]⟩]

def entangled : Definition :=
  ⟨"f", ["x"], .call "+" [.call "g" [.var "x"], .call "f" [.var "x"]]⟩

theorem define_entangled : ((Session.after {} linked).define entangled).result = .ok () := by
  refine define_of_accepts _ entangled ?_
  rw [((interprets_new {}).after linked).known]
  decide

theorem calls_descend_and_end_entangled :
    (∃ holder top, (Session.after {} linked).registry.lookup "f" = some holder ∧
        ((Session.after {} linked).define entangled).session.image =
          top :: (Session.after {} linked).image ∧
        CallsNumber top.code top.imports holder.number ∧ holder.number < top.number) ∧
      ∃ e, (Session.define {} entangled).result = .error e := by
  have hnode : Form.call "f" [.var "x"] ∈ entangled.body.nodes := by
    simp [entangled, Form.nodes, nodesOfAll]
  have hlinked := (calls_descend_and_end _ ⟨{}, linked, rfl⟩).2.2.2 entangled [.var "x"] hnode
    (by decide)
  have hnew := (calls_descend_and_end {} ⟨{}, .refl _⟩).2.2.2 entangled [.var "x"] hnode (by decide)
  obtain ⟨holder, top, hlookup, -, himage, hcalls, hlt⟩ := hlinked.2 define_entangled
  exact ⟨⟨holder, top, hlookup, himage, hcalls, hlt⟩, hnew.1 (by decide)⟩

end Session
end FourLane
