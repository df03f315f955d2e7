import FourLane.Proofs.CompileResult
import FourLane.Proofs.History
import FourLane.Proofs.SourceText

/-!
# Failures leave no trace

A request on one form either succeeds or leaves the session as it was. What had been emitted for
a body before its fault was found is in a draft, and the draft is dropped. A batch that fails
stops at its first bad form and has done what the forms before it do when they are submitted one
by one. So a failing request can be put anywhere into a run, or taken out of it, and no other
reply changes.

This is so as far as the code generator has no part in the failure. Of a routine that it refuses a
number can be used up, and an entry of the listing can be left.
-/
namespace FourLane

/-- The fault is none of the code generator, or it has none. -/
def Backend.Blameless (backend : Backend) (e : CompileFault) : Prop :=
  backend.Reliable ∨ ∀ reason, e ≠ .backend reason

theorem Backend.reliable_plain : Backend.plain.Reliable := ⟨rfl, fun _ => rfl⟩

theorem Routine.fault_ne_backend {registry : Registry} {number : Nat} {convention : Convention}
    {params : List String} {body : Form} {e : CompileFault} {log : List Event}
    (h : compile registry number convention params body = (.error e, log)) (reason : String) :
    e ≠ .backend reason := by
  have hfault := faultOf_compile registry number convention params body
  rw [h] at hfault
  rintro rfl
  cases hparams : validateParams params with
  | error e =>
    rw [hparams] at hfault
    obtain rfl := Option.some.inj hfault
    obtain ⟨before, p, after, -, -, -, hp⟩ := (validateParams_eq_error_iff params _).mp hparams
    rw [paramFault?] at hp
    split_ifs at hp <;> cases hp
  | ok u =>
    rw [hparams] at hfault
    obtain ⟨node, -, hnode⟩ := List.exists_of_findSome?_eq_some hfault.symm
    cases node with
    | call head args =>
      rw [Form.fault?] at hnode
      split_ifs at hnode
      cases hnode
    | _ => cases hnode

namespace Session

/-- What a session is after a fault: what it was, unless a routine that was lowered is refused. -/
inductive Left (backend : Backend) (s : Session) : CompileFault → Session → Prop
  | same {e : CompileFault} (h : ∀ reason, e ≠ .backend reason) : Left backend s e s
  | refused {convention : Convention} {params : List String} {body : Form} {routine : Routine}
    {log : List Event} {stage : Stage} {reason : String} (name : String)
    (hroutine : Routine.compile s.registry s.next convention params body = (.ok routine, log))
    (hrefusal : backend.refusal? routine = some (stage, reason)) :
    Left backend s (.backend reason) (s.abandon name routine stage)

theorem Left.eq_of_blameless {backend : Backend} {s s' : Session} {e : CompileFault}
    (h : s.Left backend e s') (hblameless : backend.Blameless e) : s' = s := by
  cases h with
  | same h => rfl
  | refused name hroutine hrefusal =>
    rcases hblameless with hreliable | hother
    · rw [hreliable.2] at hrefusal
      cases hrefusal
    · exact absurd rfl (hother _)

end Session

/-- An outcome that is a fault has left the session as faults do. -/
def Outcome.Atomic {α : Type} (o : Outcome α) (backend : Backend) (s : Session) : Prop :=
  ∀ e, o.result = .error e → s.Left backend e o.session

namespace Session

variable (backend : Backend)

theorem atomic_compile (s : Session) (convention : Convention) (name : String)
    (params : List String) (body : Form) :
    (s.compile convention name params body backend).Atomic backend s := by
  intro e h
  rw [compile] at h ⊢
  rcases hr : Routine.compile s.registry s.next convention params body with ⟨e' | r, log⟩
  · simp only [hr, Except.error.injEq] at h ⊢
    exact .same (h ▸ Routine.fault_ne_backend hr)
  · simp only [hr] at h ⊢
    cases hrefusal : backend.refusal? r with
    | none =>
      rw [hrefusal] at h
      cases h
    | some refusal =>
      rw [hrefusal] at h
      cases h
      exact .refused name hr hrefusal

theorem atomic_define (s : Session) (d : Definition) :
    (s.define d backend).Atomic backend s := by
  intro e h
  have hcompile := s.atomic_compile backend .byValue d.name d.params d.body e
  rw [define] at h ⊢
  rcases hc : s.compile .byValue d.name d.params d.body backend with ⟨e' | handle, s', log⟩
  · rw [hc] at h hcompile
    cases h
    exact hcompile rfl
  · rw [hc] at h
    cases h

theorem atomic_submitForm (s : Session) (form : Form) :
    (s.submitForm form backend).Atomic backend s := by
  intro e h
  rcases s.submitForm_cases form backend with ⟨d, -, hresult, hsession⟩ | ⟨-, hresult, hsession⟩
  · rw [hresult, exceptMap_eq_error_iff] at h
    rw [hsession]
    exact s.atomic_define backend d e h
  · rw [hresult, exceptMap_eq_error_iff] at h
    rw [hsession]
    exact s.atomic_compile backend .byAddress _ [] form e h

theorem atomic_withForm {α : Type} (s : Session) (text : String) (request : Form → Outcome α)
    (hrequest : ∀ form, (request form).Atomic backend s) :
    (s.withForm text request).Atomic backend s := by
  intro e h
  simp only [withForm] at h ⊢
  cases hr : (readForm text).result with
  | error fault =>
    rw [hr] at h
    cases h
    exact .same nofun
  | ok form =>
    rw [hr] at h
    exact hrequest form e h

theorem atomic_withDefinition {α : Type} (s : Session) (text : String)
    (request : Definition → Outcome α) (hrequest : ∀ d, (request d).Atomic backend s) :
    (s.withDefinition text request).Atomic backend s := by
  apply atomic_withForm
  intro form
  cases form.definition? with
  | some d => exact hrequest d
  | none =>
    intro e h
    cases h
    exact .same nofun

theorem atomic_submit (s : Session) (text : String) : (s.submit text backend).Atomic backend s :=
  s.atomic_withForm backend text _ (s.atomic_submitForm backend)

/-! ### Batches -/

def submitForms (s : Session) (forms : List Form) : Session :=
  forms.foldl (fun s form => (s.submitForm form backend).session) s

/-- The forms at the start of the readings are read and submitted without a fault, and the reading
behind them is one, or its form cannot be compiled. -/
inductive FailsAfter : Session → List Reading → List Form → CompileFault → Prop
  | read {s : Session} {r : Reading} {rs : List Reading} {fault : ReadFault}
    (h : r.result = .error fault) : FailsAfter s (r :: rs) [] (.read fault)
  | compile {s : Session} {r : Reading} {rs : List Reading} {form : Form} {e : CompileFault}
    (h : r.result = .ok form) (he : (s.submitForm form backend).result = .error e) :
    FailsAfter s (r :: rs) [] e
  | next {s : Session} {r : Reading} {rs : List Reading} {form : Form} {handle : Option Handle}
    {forms : List Form} {e : CompileFault} (h : r.result = .ok form)
    (ho : (s.submitForm form backend).result = .ok handle)
    (hrest : FailsAfter (s.submitForm form backend).session rs forms e) :
    FailsAfter s (r :: rs) (form :: forms) e

variable {backend}

/-- A batch does what the forms before its fault do, and the fault is the last answer. -/
theorem FailsAfter.submitReadings {s : Session} {rs : List Reading} {forms : List Form}
    {e : CompileFault} (h : s.FailsAfter backend rs forms e) :
    (s.submitForms backend forms).Left backend e (s.submitReadings rs backend).session ∧
      (s.submitReadings rs backend).results.length = forms.length + 1 ∧
        (s.submitReadings rs backend).results[forms.length]? = some (.error e) := by
  induction h with
  | read h =>
    rw [Session.submitReadings, h]
    refine ⟨.same fun reason hbackend => ?_, rfl, rfl⟩
    cases hbackend
  | @compile s r rs form e h he =>
    rw [Session.submitReadings, h]
    simp only [he]
    exact ⟨s.atomic_submitForm backend form e he, rfl, rfl⟩
  | @next s r rs form handle forms e h ho hrest ih =>
    obtain ⟨hsession, hlength, hlast⟩ := ih
    rw [Session.submitReadings, h]
    simp only [ho]
    exact ⟨hsession, by simp [hlength], by simpa using hlast⟩

theorem submit_of_readForm (s : Session) (text : String) (form : Form)
    (h : (readForm text).result = .ok form) (backend : Backend := .plain) :
    (s.submit text backend).result = (s.submitForm form backend).result ∧
      (s.submit text backend).session = (s.submitForm form backend).session := by
  simp only [submit, withForm, h, and_self]

end Session

namespace Host

variable {backend : Backend}

/-- The answers to the requests of a run, with what the host is after each and what was logged. -/
def replies (host : Host) (requests : List Request) (backend : Backend := .plain) : List Reply :=
  match requests with
  | [] => []
  | request :: requests =>
    host.serve request backend :: (host.serve request backend).host.replies requests backend

/-- A request fails on a host. A batch does so with its first form, and an evaluation if what it
submits does. -/
inductive Fails (host : Host) (backend : Backend) : Request → CompileFault → Prop
  | define {text : String} {e : CompileFault}
    (h : (host.session.defineText text backend).result = .error e) :
    Fails host backend (.define text) e
  | exportDefinition {text : String} {e : CompileFault}
    (h : (host.session.exportDefinitionText text backend).result = .error e) :
    Fails host backend (.exportDefinition text) e
  | exportExpression {text : String} {params : List String} {e : CompileFault}
    (h : (host.session.exportExpressionText text params backend).result = .error e) :
    Fails host backend (.exportExpression text params) e
  | submit {text : String} {e : CompileFault}
    (h : (host.session.submit text backend).result = .error e) :
    Fails host backend (.submit text) e
  | evaluateFirst {line : String} {e : CompileFault}
    (h : (host.session.submit line backend).result = .error e) :
    Fails host backend (.evaluateFirst line) e
  | submitAll {text : String} {e : CompileFault}
    (h : host.session.FailsAfter backend (TokenStream.ofString text).readForms [] e) :
    Fails host backend (.submitAll text) e
  | evaluate {source : String} {e : CompileFault}
    (h : host.session.FailsAfter backend (TokenStream.ofString source).readForms [] e) :
    Fails host backend (.evaluate source) e
  | defineForm {d : Definition} {e : CompileFault}
    (h : (host.session.define d backend).result = .error e) :
    Fails host backend (.defineForm d) e
  | exportDefinitionForm {d : Definition} {e : CompileFault}
    (h : (host.session.exportDefinition d backend).result = .error e) :
    Fails host backend (.exportDefinitionForm d) e
  | exportExpressionForm {body : Form} {params : List String} {e : CompileFault}
    (h : (host.session.exportExpression body params backend).result = .error e) :
    Fails host backend (.exportExpressionForm body params) e

theorem Fails.host_serve {host : Host} {request : Request} {e : CompileFault}
    (h : host.Fails backend request e) :
    ∃ s, host.session.Left backend e s ∧
      (host.serve request backend).host = { host with session := s } := by
  cases h with
  | define h =>
    exact ⟨_, host.session.atomic_withDefinition backend _ _
      (host.session.atomic_define backend) e h, rfl⟩
  | exportDefinition h =>
    refine ⟨_, host.session.atomic_withDefinition backend _ _ (fun d => ?_) e h, rfl⟩
    exact host.session.atomic_compile backend .byAddress d.name d.params d.body
  | exportExpression h =>
    refine ⟨_, host.session.atomic_withForm backend _ _ (fun form => ?_) e h, rfl⟩
    exact host.session.atomic_compile backend .byAddress _ _ form
  | submit h => exact ⟨_, host.session.atomic_submit backend _ e h, rfl⟩
  | evaluateFirst h => exact ⟨_, host.session.atomic_submit backend _ e h, rfl⟩
  | submitAll h => exact ⟨_, h.submitReadings.1, rfl⟩
  | evaluate h => exact ⟨_, h.submitReadings.1, rfl⟩
  | defineForm h => exact ⟨_, host.session.atomic_define backend _ e h, rfl⟩
  | exportDefinitionForm h => exact ⟨_, host.session.atomic_compile backend _ _ _ _ e h, rfl⟩
  | exportExpressionForm h => exact ⟨_, host.session.atomic_compile backend _ _ _ _ e h, rfl⟩

theorem Fails.host_serve_of_blameless {host : Host} {request : Request} {e : CompileFault}
    (h : host.Fails backend request e) (hblameless : backend.Blameless e) :
    (host.serve request backend).host = host := by
  obtain ⟨s, hleft, hserve⟩ := h.host_serve
  rw [hserve, hleft.eq_of_blameless hblameless]

end Host
end FourLane
