import FourLane.Proofs.LoweringLog
import Mathlib.Data.List.TakeWhile

/-!
# The log of one compilation

Lowering visits the nodes of a body in the order in which they are finished and stops at the first
that offends. It has noted the names without a value among the nodes before that one, and at last
why the node offends, with the words of the fault that is answered. The compilation as a whole
adds a record of its success behind these.
-/
namespace FourLane

def Event.parts (e : Event) : Level × String × String := (e.level, e.target, e.message)

def Form.unbound? (bound : List String) : Form → Option String
  | .var name => if name ∈ bound then none else some name
  | _ => none

/-- The nodes before the first that offends. -/
def lowered (known : Known) (nodes : List Form) : List Form :=
  nodes.takeWhile fun node => node.fault? known = none

/-- What lowering notes of the node that it cannot lower. -/
def CompileFault.event? : CompileFault → Option Event
  | .nested name => some (.definitionRejected name)
  | .unresolved head count => some (.functionMissing head count)
  | _ => none

theorem Form.event?_of_fault_none (known : Known) (bound : List String) (node : Form)
    (h : node.fault? known = none) :
    node.event? known bound = (node.unbound? bound).map .unboundName := by
  cases node with
  | number x => rfl
  | var name =>
    rw [event?, unbound?]
    split_ifs <;> rfl
  | call head args =>
    rw [fault?, ite_eq_left_iff] at h
    by_cases hknown : IsBuiltin head args.length ∨ known head = some args.length
    · rw [event?, if_pos hknown]
      rfl
    · cases h hknown
  | definition name params body => cases h

theorem Form.fault?_eq_some_cases (known : Known) (node : Form) (e : CompileFault)
    (h : node.fault? known = some e) :
    (∃ name, e = .nested name) ∨ ∃ head count, e = .unresolved head count := by
  cases node with
  | number x => cases h
  | var name => cases h
  | call head args =>
    rw [fault?, Option.ite_none_left_eq_some] at h
    exact .inr ⟨head, args.length, (Option.some.inj h.2).symm⟩
  | definition name params body => exact .inl ⟨name, (Option.some.inj h).symm⟩

theorem Form.event?_of_fault_some (known : Known) (bound : List String) (node : Form)
    (e : CompileFault) (h : node.fault? known = some e) : node.event? known bound = e.event? := by
  cases node with
  | number x => cases h
  | var name => cases h
  | call head args =>
    rw [fault?, Option.ite_none_left_eq_some] at h
    rw [event?, if_neg h.1, ← Option.some.inj h.2]
    rfl
  | definition name params body =>
    rw [← Option.some.inj h]
    rfl

/-- Names without a value come first, and the node that offends comes last. -/
theorem loggedBy_eq (known : Known) (bound : List String) (nodes : List Form) :
    loggedBy known bound nodes =
      ((lowered known nodes).filterMap (Form.unbound? bound)).map .unboundName ++
        ((nodes.findSome? (Form.fault? known)).bind CompileFault.event?).toList := by
  induction nodes with
  | nil => rfl
  | cons node nodes ih =>
    rw [loggedBy, lowered, List.takeWhile_cons, List.findSome?_cons]
    cases hfault : node.fault? known with
    | some e =>
      rw [node.event?_of_fault_some known bound e hfault]
      simp
    | none =>
      rw [node.event?_of_fault_none known bound hfault, ih]
      cases hname : node.unbound? bound <;> simp [lowered, hname]

namespace Session

open Lowering

theorem log_compile_cases (s : Session) (convention : Convention) (name : String)
    (params : List String) (body : Form) (hparams : validateParams params = .ok ()) :
    (∃ handle, (s.compile convention name params body).result = .ok handle ∧
        lowered s.arity? body.nodes = body.nodes ∧
        (s.compile convention name params body).log =
          (body.nodes.filterMap (Form.unbound? params)).map .unboundName ++
            [.compiled name convention params.length]) ∨
      ∃ node ∈ body.nodes, ∃ e, node.fault? s.arity? = some e ∧
        (s.compile convention name params body).result = .error e ∧
        (s.compile convention name params body).log =
          ((lowered s.arity? body.nodes).filterMap (Form.unbound? params)).map .unboundName ++
            e.event?.toList := by
  have hknown : s.registry.known = s.arity? := rfl
  have hlog := Routine.log_compile s.registry s.next convention params body
  have hfault := Routine.faultOf_compile s.registry s.next convention params body
  simp only [hparams, loggedBy_eq, hknown] at hlog hfault
  rcases s.compile_cases convention name params body with ⟨e, log, hr, hs⟩ | ⟨r, log, hr, hs⟩
  · rw [hr] at hlog hfault
    simp only [faultOf] at hlog hfault
    obtain ⟨node, hmem, hnode⟩ := List.exists_of_findSome?_eq_some hfault.symm
    rw [hs, hlog, ← hfault]
    exact .inr ⟨node, hmem, e, hnode, rfl, rfl⟩
  · rw [hr] at hlog hfault
    simp only [faultOf] at hlog hfault
    have hall : lowered s.arity? body.nodes = body.nodes := by
      rw [lowered, List.takeWhile_eq_self_iff]
      intro node hnode
      simpa using List.findSome?_eq_none_iff.mp hfault.symm node hnode
    rw [hs, hlog, ← hfault, hall]
    exact .inl ⟨_, rfl, rfl, by simp⟩

/-- A compilation with parameters that offend logs nothing. Any other logs each name that it reads
without a value, among the nodes before the first that offends. The last record is that of its
success, or says of the node that offends what the fault says. -/
theorem log_of_compilation (s : Session) (convention : Convention) (name : String)
    (params : List String) (body : Form) :
    let o := s.compile convention name params body
    let zeros := (lowered s.arity? body.nodes).filterMap (Form.unbound? params)
    let traces : List (Level × String × String) := zeros.map fun x =>
      (.trace, "simd_lisp::jit::translate", s!"unbound variable `{x}` reads as zero")
    (∀ e, validateParams params = .error e → o.result = .error e ∧ o.log = []) ∧
      (validateParams params = .ok () →
        (∃ handle, o.result = .ok handle ∧ lowered s.arity? body.nodes = body.nodes ∧
          o.log.map Event.parts = traces ++
            [(.debug, "simd_lisp::jit::compiler",
              s!"compiled `{name}` ({convention.text} convention, {params.length} param(s))")]) ∨
        (∃ f, o.result = .error (.nested f) ∧
          o.log.map Event.parts = traces ++
            [(.debug, "simd_lisp::jit::translate", s!"rejecting nested definition of `{f}`")]) ∨
        ∃ f n, o.result = .error (.unresolved f n) ∧
          o.log.map Event.parts = traces ++
            [(.debug, "simd_lisp::jit::translate",
              s!"no function `{f}` taking {n} argument(s)")]) := by
  intro o zeros traces
  have htraces : (zeros.map Event.unboundName).map Event.parts = traces := by
    rw [List.map_map]
    rfl
  constructor
  · intro e hparams
    have hcompile := Routine.compile_of_error s.registry s.next convention params body e hparams
    simp only [o, compile, hcompile, and_self]
  · intro hparams
    rcases s.log_compile_cases convention name params body hparams with
      ⟨handle, hresult, hall, hlog⟩ | ⟨node, -, e, hfault, hresult, hlog⟩
    · refine .inl ⟨handle, hresult, hall, ?_⟩
      rw [hlog, List.map_append, ← htraces]
      simp only [zeros, hall]
      rfl
    · rcases node.fault?_eq_some_cases s.arity? e hfault with ⟨f, rfl⟩ | ⟨f, n, rfl⟩
      · refine .inr (.inl ⟨f, hresult, ?_⟩)
        rw [hlog, List.map_append, ← htraces]
        rfl
      · refine .inr (.inr ⟨f, n, hresult, ?_⟩)
        rw [hlog, List.map_append, ← htraces]
        rfl

def lostCall : Form :=
  .call "+" [.var "y", .call "f" [.var "x", .var "y"], .var "z", .definition "g" [] (.var "x")]

theorem log_of_compilation_lostCall :
    (compile {} .byAddress "q" ["x"] lostCall).log.map Event.message =
        ["unbound variable `y` reads as zero", "unbound variable `y` reads as zero",
          "no function `f` taking 2 argument(s)"] ∧
      (compile {} .byAddress "q" ["x", "x"] lostCall).log = [] := by
  have hresult : (compile {} .byAddress "q" ["x"] lostCall).result = .error (.unresolved "f" 2) := rfl
  constructor
  · rcases (log_of_compilation {} .byAddress "q" ["x"] lostCall).2 rfl with ⟨handle, hok, -⟩ |
      ⟨f, hnested, -⟩ | ⟨f, n, hunresolved, hlog⟩
    · cases hresult.symm.trans hok
    · cases hresult.symm.trans hnested
    · cases hresult.symm.trans hunresolved
      have hmessages := congrArg (List.map fun p => p.2.2) hlog
      rw [List.map_map] at hmessages
      exact hmessages
  · exact ((log_of_compilation {} .byAddress "q" ["x", "x"] lostCall).1 _ rfl).2

end Session
end FourLane
