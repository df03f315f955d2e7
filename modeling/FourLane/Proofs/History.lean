import FourLane.Session.Host
import Mathlib.Tactic.Common

/-!
# Histories of sessions and hosts

Whatever is asked of a session, all that happens to it is that functions are built in it, one
after the other: a definition is compiled and registered, or something is compiled to be
called from outside. A host does nothing else to its session, except that it can retire it
and start afresh. What holds of a new session and is kept by every build therefore holds
throughout.
-/
namespace FourLane

/-- A request to compile something and to add it to a session. -/
inductive Build where
  | define (d : Definition)
  | exportDefinition (d : Definition)
  | exportExpression (body : Form) (params : List String)

theorem exceptMap_eq_ok_iff {α β : Type} (f : α → β) (x : Except CompileFault α) (b : β) :
    x.map f = .ok b ↔ ∃ a, x = .ok a ∧ f a = b := by
  cases x <;> simp [Except.map]

theorem exceptMap_eq_error_iff {α β : Type} (f : α → β) (x : Except CompileFault α)
    (e : CompileFault) : x.map f = .error e ↔ x = .error e := by
  cases x <;> simp [Except.map]

namespace Session

def build (s : Session) (b : Build) (backend : Backend := .plain) : Session :=
  match b with
  | .define d => (s.define d backend).session
  | .exportDefinition d => (s.exportDefinition d backend).session
  | .exportExpression body params => (s.exportExpression body params backend).session

def after (s : Session) (builds : List Build) (backend : Backend := .plain) : Session :=
  builds.foldl (fun s b => s.build b backend) s

theorem after_append (s : Session) (builds later : List Build) :
    s.after (builds ++ later) = (s.after builds).after later := List.foldl_append

/-- What every build keeps is kept by all of them. -/
theorem after_induction {P : Session → Prop} (hbuild : ∀ s b, P s → P (s.build b)) (s : Session)
    (builds : List Build) (h : P s) : P (s.after builds) := by
  induction builds generalizing s with
  | nil => exact h
  | cons b builds ih => exact ih (s.build b) (hbuild s b h)

/-- The second session comes about from the first by builds. -/
def Grows (s s' : Session) : Prop := ∃ builds, s' = s.after builds

theorem Grows.refl (s : Session) : s.Grows s := ⟨[], rfl⟩

theorem Grows.trans {s s' s'' : Session} (h : s.Grows s') (h' : s'.Grows s'') : s.Grows s'' := by
  obtain ⟨builds, rfl⟩ := h
  obtain ⟨later, rfl⟩ := h'
  exact ⟨builds ++ later, (after_append s builds later).symm⟩

/-- The session came about from a new one by builds. -/
def Reachable (s : Session) : Prop := ∃ settings, Grows { settings } s

theorem Reachable.grows {s s' : Session} (h : s.Reachable) (hs : s.Grows s') : s'.Reachable := by
  obtain ⟨settings, hnew⟩ := h
  exact ⟨settings, hnew.trans hs⟩

theorem grows_define (s : Session) (d : Definition) : s.Grows (s.define d).session :=
  ⟨[.define d], rfl⟩

theorem grows_exportDefinition (s : Session) (d : Definition) :
    s.Grows (s.exportDefinition d).session := ⟨[.exportDefinition d], rfl⟩

theorem grows_exportExpression (s : Session) (body : Form) (params : List String) :
    s.Grows (s.exportExpression body params).session := ⟨[.exportExpression body params], rfl⟩

/-- A form is submitted as a definition, or as an expression without parameters. -/
theorem submitForm_cases (s : Session) (form : Form) (backend : Backend := .plain) :
    (∃ d, form.definition? = some d ∧
        (s.submitForm form backend).result = (s.define d backend).result.map (fun _ => none) ∧
        (s.submitForm form backend).session = (s.define d backend).session) ∨
      form.definition? = none ∧
        (s.submitForm form backend).result =
          (s.exportExpression form [] backend).result.map some ∧
        (s.submitForm form backend).session =
          (s.exportExpression form [] backend).session := by
  rw [submitForm]
  cases form.definition? with
  | some d => exact .inl ⟨d, rfl, rfl, rfl⟩
  | none => exact .inr ⟨rfl, rfl, rfl⟩

theorem grows_submitForm (s : Session) (form : Form) : s.Grows (s.submitForm form).session := by
  rcases s.submitForm_cases form with ⟨d, -, -, hsession⟩ | ⟨-, -, hsession⟩
  · rw [hsession]
    exact s.grows_define d
  · rw [hsession]
    exact s.grows_exportExpression form []

theorem grows_withForm {α : Type} (s : Session) (text : String) (request : Form → Outcome α)
    (h : ∀ form, s.Grows (request form).session) : s.Grows (s.withForm text request).session := by
  simp only [withForm]
  cases (readForm text).result with
  | error e => exact .refl s
  | ok form => exact h form

theorem grows_withDefinition {α : Type} (s : Session) (text : String)
    (request : Definition → Outcome α) (h : ∀ d, s.Grows (request d).session) :
    s.Grows (s.withDefinition text request).session := by
  refine s.grows_withForm text _ fun form => ?_
  cases form.definition? with
  | none => exact .refl s
  | some d => exact h d

theorem grows_submit (s : Session) (text : String) : s.Grows (s.submit text).session :=
  s.grows_withForm text _ s.grows_submitForm

theorem grows_submitReadings (s : Session) (rs : List Reading) :
    s.Grows (s.submitReadings rs).session := by
  induction rs generalizing s with
  | nil => exact .refl s
  | cons r rs ih =>
    rw [submitReadings]
    cases r.result with
    | error e => exact .refl s
    | ok form =>
      have hform := s.grows_submitForm form
      simp only
      cases (s.submitForm form).result with
      | error e => exact hform
      | ok handle => exact hform.trans (ih _)

end Session

namespace Host

def after (host : Host) (requests : List Request) (backend : Backend := .plain) : Host :=
  requests.foldl (fun host request => (host.serve request backend).host) host

theorem after_append (host : Host) (requests later : List Request) (backend : Backend := .plain) :
    host.after (requests ++ later) backend = (host.after requests backend).after later backend :=
  List.foldl_append

theorem serve_host (host : Host) (request : Request) :
    (∃ s, host.session.Grows s ∧ (host.serve request).host = { host with session := s }) ∨
      (host.serve request).host =
        { session := { settings := host.session.settings }
          retired := host.retired ++ [host.session] } := by
  have hsame : host.session.Grows host.session := .refl _
  cases request with
  | define text => exact .inl ⟨_, host.session.grows_withDefinition text _
      host.session.grows_define, rfl⟩
  | exportDefinition text => exact .inl ⟨_, host.session.grows_withDefinition text _
      host.session.grows_exportDefinition, rfl⟩
  | exportExpression text params => exact .inl ⟨_, host.session.grows_withForm text _
      fun form => host.session.grows_exportExpression form params, rfl⟩
  | submit text => exact .inl ⟨_, host.session.grows_submit text, rfl⟩
  | submitAll text => exact .inl ⟨_, host.session.grows_submitReadings _, rfl⟩
  | evaluateFirst line => exact .inl ⟨_, host.session.grows_submit line, rfl⟩
  | evaluate source => exact .inl ⟨_, host.session.grows_submitReadings _, rfl⟩
  | defineForm d => exact .inl ⟨_, host.session.grows_define d, rfl⟩
  | exportDefinitionForm d => exact .inl ⟨_, host.session.grows_exportDefinition d, rfl⟩
  | exportExpressionForm body params =>
    exact .inl ⟨_, host.session.grows_exportExpression body params, rfl⟩
  | call ref args => exact .inl ⟨_, hsame, rfl⟩
  | enter ref args => exact .inl ⟨_, hsame, rfl⟩
  | arity name => exact .inl ⟨_, hsame, rfl⟩
  | listing => exact .inl ⟨_, hsame, rfl⟩
  | settings => exact .inl ⟨_, hsame, rfl⟩
  | reset => exact .inr rfl

theorem sessionAt?_cases (host : Host) (epoch : Nat) (s : Session)
    (h : host.sessionAt? epoch = some s) :
    host.retired[epoch]? = some s ∨ epoch = host.retired.length ∧ s = host.session := by
  rw [sessionAt?, List.getElem?_append] at h
  split_ifs at h with hlt
  · exact .inl h
  · obtain ⟨hz, rfl⟩ : epoch - host.retired.length = 0 ∧ host.session = s := by
      simpa [List.getElem?_singleton] using h
    exact .inr ⟨by omega, rfl⟩

theorem sessionAt?_epoch (host : Host) : host.sessionAt? host.epoch = some host.session :=
  List.getElem?_concat_length

/-- A session keeps its place and grows, until it is retired and after. -/
theorem sessionAt?_serve (host : Host) (request : Request) (epoch : Nat) (s : Session)
    (h : host.sessionAt? epoch = some s) :
    ∃ s', (host.serve request).host.sessionAt? epoch = some s' ∧ s.Grows s' := by
  rcases host.serve_host request with ⟨s₁, hs₁, heq⟩ | heq
  · rw [heq]
    rcases host.sessionAt?_cases epoch s h with hretired | ⟨rfl, rfl⟩
    · have hlt := (List.getElem?_eq_some_iff.mp hretired).1
      exact ⟨s, (List.getElem?_append_left hlt).trans hretired, .refl s⟩
    · exact ⟨s₁, List.getElem?_concat_length, hs₁⟩
  · rw [heq]
    have hlt := (List.getElem?_eq_some_iff.mp h).1
    exact ⟨s, (List.getElem?_append_left hlt).trans h, .refl s⟩

theorem sessionAt?_after (host : Host) (requests : List Request) (epoch : Nat) (s : Session)
    (h : host.sessionAt? epoch = some s) :
    ∃ s', (host.after requests).sessionAt? epoch = some s' ∧ s.Grows s' := by
  induction requests generalizing host s with
  | nil => exact ⟨s, h, .refl s⟩
  | cons request requests ih =>
    obtain ⟨s₁, h₁, hs₁⟩ := host.sessionAt?_serve request epoch s h
    obtain ⟨s₂, h₂, hs₂⟩ := ih (host.serve request).host s₁ h₁
    exact ⟨s₂, h₂, hs₁.trans hs₂⟩

theorem reachable_serve (host : Host) (request : Request)
    (h : ∀ epoch s, host.sessionAt? epoch = some s → s.Reachable) (epoch : Nat) (s : Session)
    (hs : (host.serve request).host.sessionAt? epoch = some s) : s.Reachable := by
  have hcurrent := h host.epoch host.session host.sessionAt?_epoch
  rcases host.serve_host request with ⟨s₁, hs₁, heq⟩ | heq
  · rw [heq] at hs
    rcases sessionAt?_cases _ epoch s hs with hretired | ⟨-, rfl⟩
    · have hlt := (List.getElem?_eq_some_iff.mp hretired).1
      exact h epoch s ((List.getElem?_append_left hlt).trans hretired)
    · exact hcurrent.grows hs₁
  · rw [heq] at hs
    rcases sessionAt?_cases _ epoch s hs with hretired | ⟨-, rfl⟩
    · exact h epoch s hretired
    · exact ⟨_, .refl _⟩

theorem reachable_after (host : Host) (requests : List Request)
    (h : ∀ epoch s, host.sessionAt? epoch = some s → s.Reachable) (epoch : Nat) (s : Session)
    (hs : (host.after requests).sessionAt? epoch = some s) : s.Reachable := by
  induction requests generalizing host with
  | nil => exact h epoch s hs
  | cons request requests ih =>
    exact ih (host.serve request).host (host.reachable_serve request h) hs

/-- The host came about from a new one by requests. -/
def Reachable (host : Host) : Prop := ∃ settings requests, host = (start settings).after requests

theorem Reachable.after {host : Host} (h : host.Reachable) (later : List Request) :
    (host.after later).Reachable := by
  obtain ⟨settings, requests, rfl⟩ := h
  exact ⟨settings, requests ++ later, (after_append _ requests later).symm⟩

/-- Every session of a host, retired or not, came about by builds. -/
theorem Reachable.session {host : Host} (h : host.Reachable) (epoch : Nat) (s : Session)
    (hs : host.sessionAt? epoch = some s) : s.Reachable := by
  obtain ⟨settings, requests, rfl⟩ := h
  refine reachable_after (start settings) requests (fun epoch s h => ?_) epoch s hs
  rcases (start settings).sessionAt?_cases epoch s h with hretired | ⟨-, rfl⟩
  · cases hretired
  · exact ⟨settings, .refl _⟩

end Host
end FourLane
