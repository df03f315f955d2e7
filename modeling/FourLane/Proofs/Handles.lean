import FourLane.Proofs.CompileResult
import FourLane.Proofs.History

/-!
# Handles

A request issues a handle when it compiles something to be called from outside. The routine
behind the handle is then on top of the image, and it stays in the image whatever is built
after it, because routines are only ever added.
-/
namespace FourLane

namespace Session

theorem image_compile (s : Session) (convention : Convention) (name : String)
    (params : List String) (body : Form) :
    ∃ newer, (s.compile convention name params body).session.image = newer ++ s.image := by
  rcases s.compile_cases convention name params body with ⟨e, log, -, hs⟩ | ⟨r, log, -, hs⟩
  · exact ⟨[], by rw [hs]; rfl⟩
  · exact ⟨[r], by rw [hs]; rfl⟩

theorem image_define (s : Session) (d : Definition) :
    (s.define d).session.image = (s.compile .byValue d.name d.params d.body).session.image := by
  rw [define]
  rcases s.compile_cases .byValue d.name d.params d.body with ⟨e, log, -, hs⟩ | ⟨r, log, -, hs⟩
  · rw [hs]
  · rw [hs]

theorem image_build (s : Session) (b : Build) : ∃ newer, (s.build b).image = newer ++ s.image := by
  cases b with
  | define d =>
    obtain ⟨newer, h⟩ := s.image_compile .byValue d.name d.params d.body
    exact ⟨newer, (s.image_define d).trans h⟩
  | exportDefinition d => exact s.image_compile .byAddress d.name d.params d.body
  | exportExpression body params => exact s.image_compile .byAddress _ params body

theorem Grows.image {s s' : Session} (h : s.Grows s') : ∃ newer, s'.image = newer ++ s.image := by
  obtain ⟨builds, rfl⟩ := h
  refine after_induction (P := fun s' => ∃ newer, s'.image = newer ++ s.image) ?_ s builds ⟨[], rfl⟩
  rintro s₁ b ⟨newer, h₁⟩
  obtain ⟨newest, h₂⟩ := s₁.image_build b
  exact ⟨newest ++ newer, by rw [h₂, h₁, List.append_assoc]⟩

/-- Behind the handle is a routine that is called by address and takes as many vectors as the
handle says. -/
def Serves (s : Session) (handle : Handle) : Prop :=
  ∃ r ∈ s.image, r.number = handle.number ∧ r.convention = .byAddress ∧ r.arity = handle.arity

theorem Serves.grows {s s' : Session} {handle : Handle} (h : s.Serves handle) (hs : s.Grows s') :
    s'.Serves handle := by
  obtain ⟨r, hr, hfields⟩ := h
  obtain ⟨newer, himage⟩ := hs.image
  exact ⟨r, by rw [himage]; exact List.mem_append_right newer hr, hfields⟩

theorem serves_compile (s : Session) (name : String) (params : List String) (body : Form)
    (handle : Handle) (h : (s.compile .byAddress name params body).result = .ok handle) :
    (s.compile .byAddress name params body).session.Serves handle := by
  rcases s.compile_cases .byAddress name params body with ⟨e, log, -, hs⟩ | ⟨r, log, hr, hs⟩
  · rw [hs] at h
    cases h
  · rw [hs] at h ⊢
    cases h
    obtain ⟨-, hconvention, harity⟩ := Routine.fields_of_compile _ _ _ _ _ hr
    exact ⟨r, List.mem_cons_self, rfl, hconvention, harity⟩

theorem serves_submitForm (s : Session) (form : Form) (handle : Handle)
    (h : (s.submitForm form).result = .ok (some handle)) :
    (s.submitForm form).session.Serves handle := by
  rcases s.submitForm_cases form with ⟨d, -, hresult, -⟩ | ⟨-, hresult, hsession⟩
  · rw [hresult, exceptMap_eq_ok_iff] at h
    obtain ⟨u, -, hnone⟩ := h
    cases hnone
  · rw [hresult, exceptMap_eq_ok_iff] at h
    obtain ⟨compiled, hcompiled, rfl⟩ : ∃ a, _ ∧ a = handle := by simpa using h
    rw [hsession]
    exact s.serves_compile _ _ _ compiled hcompiled

theorem withForm_ok {α : Type} (s : Session) (text : String) (request : Form → Outcome α) (a : α)
    (h : (s.withForm text request).result = .ok a) :
    ∃ form, (request form).result = .ok a ∧
      (s.withForm text request).session = (request form).session := by
  simp only [withForm] at h ⊢
  cases hr : (readForm text).result with
  | error e =>
    rw [hr] at h
    cases h
  | ok form =>
    rw [hr] at h
    exact ⟨form, h, rfl⟩

theorem withDefinition_ok {α : Type} (s : Session) (text : String)
    (request : Definition → Outcome α) (a : α)
    (h : (s.withDefinition text request).result = .ok a) :
    ∃ d, (request d).result = .ok a ∧
      (s.withDefinition text request).session = (request d).session := by
  obtain ⟨form, hresult, hsession⟩ := s.withForm_ok text _ a h
  cases hd : form.definition? with
  | none =>
    simp only [hd] at hresult
    cases hresult
  | some d =>
    simp only [hd] at hresult hsession
    exact ⟨d, hresult, hsession⟩

theorem serves_submit (s : Session) (text : String) (handle : Handle)
    (h : (s.submit text).result = .ok (some handle)) : (s.submit text).session.Serves handle := by
  obtain ⟨form, hresult, hsession⟩ := s.withForm_ok text _ _ h
  rw [submit, hsession]
  exact s.serves_submitForm form handle hresult

/-- A handle from the middle of a batch is served after the forms up to its own, and the rest
of the batch is submitted after that. -/
theorem serves_submitReadings (s : Session) (rs : List Reading) (k : Nat) (handle : Handle)
    (h : (s.submitReadings rs).results[k]? = some (.ok (some handle))) :
    (s.submitReadings (rs.take (k + 1))).session.Serves handle ∧
      (s.submitReadings (rs.take (k + 1))).session.Grows (s.submitReadings rs).session := by
  induction rs generalizing s k with
  | nil => cases h
  | cons r rs ih =>
    rw [submitReadings] at h
    rw [List.take_succ_cons, submitReadings, submitReadings]
    cases hr : r.result with
    | error e =>
      simp only [hr] at h
      cases k <;> simp at h
    | ok form =>
      simp only [hr] at h ⊢
      cases ho : (s.submitForm form).result with
      | error e =>
        simp only [ho] at h
        cases k <;> simp at h
      | ok first =>
        simp only [ho] at h ⊢
        cases k with
        | zero =>
          obtain rfl : first = some handle := by simpa using h
          exact ⟨s.serves_submitForm form handle ho, grows_submitReadings _ rs⟩
        | succ k => exact ih _ k h

end Session

namespace Host

/-- A request issues a handle. The session is the one right after the routine of the handle
was compiled; in a batch, forms behind its own are still to come. -/
inductive Issues (host : Host) : Request → Handle → Session → Prop
  | exportDefinition {text : String} {handle : Handle}
    (h : (host.session.exportDefinitionText text).result = .ok handle) :
    Issues host (.exportDefinition text) handle (host.session.exportDefinitionText text).session
  | exportExpression {text : String} {params : List String} {handle : Handle}
    (h : (host.session.exportExpressionText text params).result = .ok handle) :
    Issues host (.exportExpression text params) handle
      (host.session.exportExpressionText text params).session
  | exportDefinitionForm {d : Definition} {handle : Handle}
    (h : (host.session.exportDefinition d).result = .ok handle) :
    Issues host (.exportDefinitionForm d) handle (host.session.exportDefinition d).session
  | exportExpressionForm {body : Form} {params : List String} {handle : Handle}
    (h : (host.session.exportExpression body params).result = .ok handle) :
    Issues host (.exportExpressionForm body params) handle
      (host.session.exportExpression body params).session
  | submit {text : String} {handle : Handle}
    (h : (host.session.submit text).result = .ok (some handle)) :
    Issues host (.submit text) handle (host.session.submit text).session
  | evaluateFirst {line : String} {handle : Handle}
    (h : (host.session.submit line).result = .ok (some handle)) :
    Issues host (.evaluateFirst line) handle (host.session.submit line).session
  | submitAll {text : String} {handle : Handle} {k : Nat}
    (h : (host.session.submitAll text).results[k]? = some (.ok (some handle))) :
    Issues host (.submitAll text) handle
      (host.session.submitReadings ((TokenStream.ofString text).readForms.take (k + 1))).session
  | evaluate {source : String} {handle : Handle} {k : Nat}
    (h : (host.session.submitAll source).results[k]? = some (.ok (some handle))) :
    Issues host (.evaluate source) handle
      (host.session.submitReadings ((TokenStream.ofString source).readForms.take (k + 1))).session

/-- What is issued is served from then on, in the session of the request. -/
theorem Issues.serves {host : Host} {request : Request} {handle : Handle} {s : Session}
    (h : host.Issues request handle s) :
    s.Serves handle ∧
      ∃ s', (host.serve request).host.sessionAt? host.epoch = some s' ∧ s.Grows s' := by
  have hcurrent (s' : Session) : sessionAt? { host with session := s' } host.epoch = some s' :=
    List.getElem?_concat_length
  cases h with
  | exportDefinition h =>
    refine ⟨?_, _, hcurrent _, .refl _⟩
    obtain ⟨d, hresult, hsession⟩ := host.session.withDefinition_ok _ _ _ h
    rw [Session.exportDefinitionText, hsession]
    exact host.session.serves_compile _ _ _ handle hresult
  | exportExpression h =>
    refine ⟨?_, _, hcurrent _, .refl _⟩
    obtain ⟨form, hresult, hsession⟩ := host.session.withForm_ok _ _ _ h
    rw [Session.exportExpressionText, hsession]
    exact host.session.serves_compile _ _ _ handle hresult
  | exportDefinitionForm h =>
    exact ⟨host.session.serves_compile _ _ _ handle h, _, hcurrent _, .refl _⟩
  | exportExpressionForm h =>
    exact ⟨host.session.serves_compile _ _ _ handle h, _, hcurrent _, .refl _⟩
  | submit h => exact ⟨host.session.serves_submit _ handle h, _, hcurrent _, .refl _⟩
  | evaluateFirst h => exact ⟨host.session.serves_submit _ handle h, _, hcurrent _, .refl _⟩
  | submitAll h =>
    obtain ⟨hserves, hgrows⟩ := host.session.serves_submitReadings _ _ handle h
    exact ⟨hserves, _, hcurrent _, hgrows⟩
  | evaluate h =>
    obtain ⟨hserves, hgrows⟩ := host.session.serves_submitReadings _ _ handle h
    exact ⟨hserves, _, hcurrent _, hgrows⟩

theorem Issues.grows_after {host : Host} {request : Request} {handle : Handle} {s : Session}
    (h : host.Issues request handle s) (later : List Request) :
    ∃ s', ((host.serve request).host.after later).sessionAt? host.epoch = some s' ∧ s.Grows s' := by
  obtain ⟨-, s₁, hs₁, hgrows⟩ := h.serves
  obtain ⟨s₂, hs₂, hgrows'⟩ := sessionAt?_after _ later host.epoch s₁ hs₁
  exact ⟨s₂, hs₂, hgrows.trans hgrows'⟩

end Host
end FourLane
