import FourLane.Session.Basic
import FourLane.Proofs.LoweringFault

/-!
# The result of compiling a function

A function compiles exactly when none of its parameters and none of the nodes of its body
offend. Otherwise the fault is that of the first offending parameter, and only if there is
none that of the first offending node.
-/
namespace FourLane

open Lowering

namespace Routine

def scope (registry : Registry) (convention : Convention) (params : List String) : Scope :=
  ⟨params.zipIdx (firstArgument convention params.length), registry⟩

def ofDraft (number : Nat) (convention : Convention) (arity result : Nat) (d : Draft) :
    Routine where
  number := number
  convention := convention
  arity := arity
  imports := d.imports
  code := d.code
  exit := exitOf convention arity result

variable (registry : Registry) (number : Nat) (convention : Convention) (params : List String)
  (body : Form)

theorem compile_of_error (e : CompileFault) (h : validateParams params = .error e) :
    compile registry number convention params body = (.error e, []) := by
  rw [compile, h]

theorem compile_of_ok (h : validateParams params = .ok ()) :
    compile registry number convention params body =
      match (form (scope registry convention params) body).run (start convention params.length) with
      | (.error e, d) => (.error e, d.log.toList)
      | (.ok result, d) =>
        (.ok (ofDraft number convention params.length result d), d.log.toList) := by
  rw [compile, h]
  rfl

theorem faultOf_compile :
    faultOf (compile registry number convention params body).1 =
      match validateParams params with
      | .error e => some e
      | .ok () => body.nodes.findSome? (Form.fault? registry.known) := by
  cases hp : validateParams params with
  | error e =>
    rw [compile_of_error registry number convention params body e hp]
    rfl
  | ok u =>
    have hf := faultOf_form (scope registry convention params) body (start convention params.length)
    rw [compile_of_ok registry number convention params body hp]
    change _ = body.nodes.findSome? (Form.fault? (scope registry convention params).registry.known)
    rw [← hf]
    rcases (form (scope registry convention params) body).run (start convention params.length)
      with ⟨e | v, d⟩ <;> rfl

theorem faultOf_compile_eq_none_iff :
    faultOf (compile registry number convention params body).1 = none ↔
      Accepts registry.known params body := by
  rw [faultOf_compile, Accepts, ← and_assoc, ← validateParams_eq_ok_iff]
  cases validateParams params with
  | error e => simp
  | ok u => simp [List.findSome?_eq_none_iff]

theorem compile_eq_ok {r : Routine} {log : List Event}
    (h : compile registry number convention params body = (.ok r, log)) :
    Accepts registry.known params body ∧ ∃ result d,
      (form (scope registry convention params) body).run (start convention params.length) =
        (.ok result, d) ∧
      r = ofDraft number convention params.length result d ∧ log = d.log.toList := by
  have ha : Accepts registry.known params body := by
    rw [← faultOf_compile_eq_none_iff registry number convention params body, h]
    rfl
  refine ⟨ha, ?_⟩
  rw [compile_of_ok registry number convention params body
    ((validateParams_eq_ok_iff params).mpr ⟨ha.1, ha.2.1⟩)] at h
  rcases hr : (form (scope registry convention params) body).run (start convention params.length)
    with ⟨e | v, d⟩
  · rw [hr] at h
    cases h
  · rw [hr] at h
    cases h
    exact ⟨v, d, rfl, rfl, rfl⟩

theorem fields_of_compile {r : Routine} {log : List Event}
    (h : compile registry number convention params body = (.ok r, log)) :
    r.number = number ∧ r.convention = convention ∧ r.arity = params.length := by
  obtain ⟨-, result, d, -, rfl, -⟩ := compile_eq_ok registry number convention params body h
  exact ⟨rfl, rfl, rfl⟩

theorem offers_of_compile {r : Routine} {log : List Event}
    (h : compile registry number convention params body = (.ok r, log)) :
    ∀ i ∈ r.imports, registry.Offers i := by
  obtain ⟨-, result, d, hd, rfl, -⟩ := compile_eq_ok registry number convention params body h
  have hsteps := proceeds_form (scope registry convention params) body
    (start convention params.length)
  rw [hd] at hsteps
  exact Draft.imports_of_steps hsteps (by cases convention <;> simp [start])

end Routine

namespace Session

variable (s : Session) (convention : Convention) (name : String) (params : List String)
  (body : Form)

theorem compile_of_lowered {r : Routine} {log : List Event}
    (h : Routine.compile s.registry s.next convention params body = (.ok r, log)) :
    s.compile convention name params body =
      ⟨.ok ⟨r.number, params.length⟩, s.install name r,
        log ++ [.compiled name convention params.length]⟩ := by
  rw [compile, h]
  rfl

/-- A session compiles a routine and adds it on top, or stays as it is. -/
theorem compile_cases :
    (∃ e log, Routine.compile s.registry s.next convention params body = (.error e, log) ∧
        s.compile convention name params body = ⟨.error e, s, log⟩) ∨
      ∃ r log, Routine.compile s.registry s.next convention params body = (.ok r, log) ∧
        s.compile convention name params body =
          ⟨.ok ⟨r.number, params.length⟩, s.install name r,
            log ++ [.compiled name convention params.length]⟩ := by
  rcases hr : Routine.compile s.registry s.next convention params body with ⟨e | r, log⟩
  · exact .inl ⟨e, log, rfl, by rw [compile, hr]⟩
  · exact .inr ⟨r, log, rfl, s.compile_of_lowered convention name params body hr⟩

theorem faultOf_compile :
    faultOf (s.compile convention name params body).result =
      faultOf (Routine.compile s.registry s.next convention params body).1 := by
  rcases s.compile_cases convention name params body with ⟨e, log, hr, hs⟩ | ⟨r, log, hr, hs⟩
  · rw [hr, hs]
    rfl
  · rw [hr, hs]
    rfl

theorem compile_of_accepts (h : Accepts s.registry.known params body) :
    (s.compile convention name params body).result = .ok ⟨s.next, params.length⟩ := by
  rw [← Routine.faultOf_compile_eq_none_iff s.registry s.next convention] at h
  rcases s.compile_cases convention name params body with ⟨e, log, hr, -⟩ | ⟨r, log, hr, hs⟩
  · rw [hr] at h
    cases h
  · rw [hs, (Routine.fields_of_compile _ _ _ _ _ hr).1]

/-- When a function compiles, and the fault if it does not. -/
theorem compile_result_iff :
    ((∃ handle, (s.compile convention name params body).result = .ok handle) ↔
        params.Nodup ∧ "result" ∉ params ∧
          (∀ f ps b, Form.definition f ps b ∉ body.nodes) ∧
          ∀ head args, Form.call head args ∈ body.nodes →
            IsBuiltin head args.length ∨ s.arity? head = some args.length) ∧
      ∀ e, (s.compile convention name params body).result = .error e ↔
        IsParamFault params e ∨
          (params.Nodup ∧ "result" ∉ params) ∧ IsNodeFault s.arity? body e := by
  have hfault (e : CompileFault) :
      (s.compile convention name params body).result = .error e ↔
        faultOf (s.compile convention name params body).result = some e := by
    cases (s.compile convention name params body).result <;> simp [faultOf]
  have hok : (∃ handle, (s.compile convention name params body).result = .ok handle) ↔
      faultOf (s.compile convention name params body).result = none := by
    cases (s.compile convention name params body).result <;> simp [faultOf]
  constructor
  · rw [hok, faultOf_compile, Routine.faultOf_compile_eq_none_iff, Accepts,
      forall_fault?_eq_none_iff]
    rfl
  · intro e
    rw [hfault, faultOf_compile, Routine.faultOf_compile, isNodeFault_iff,
      ← validateParams_eq_error_iff, ← validateParams_eq_ok_iff]
    change _ ↔ _ ∨ _ ∧ body.nodes.findSome? (Form.fault? s.registry.known) = some e
    cases validateParams params <;> simp

end Session
end FourLane
