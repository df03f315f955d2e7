import FourLane.Proofs.History

/-!
# Reliable code generators

A code generator that opens every session and refuses no routine makes no difference to what is
asked of a session. Every request has the outcome that it has where none is given, and only the
texts of a listing tell which one is at work. So what holds of runs without one holds of runs with
any that is reliable.
-/
namespace FourLane

variable {backend : Backend}

theorem Backend.Reliable.eq (h : backend.Reliable) :
    backend = { optimized := backend.optimized } := by
  obtain ⟨failure, refusal, optimized⟩ := backend
  obtain ⟨hfailure, hrefusal⟩ := h
  change failure = none at hfailure
  obtain rfl : refusal = fun _ => none := funext hrefusal
  rw [hfailure]

namespace Session

theorem compile_of_reliable (h : backend.Reliable) (s : Session) (convention : Convention)
    (name : String) (params : List String) (body : Form) :
    s.compile convention name params body backend = s.compile convention name params body := by
  rw [h.eq]
  rfl

theorem build_of_reliable (h : backend.Reliable) (s : Session) (b : Build) :
    s.build b backend = s.build b := by
  rw [h.eq]
  cases b <;> rfl

theorem after_of_reliable (h : backend.Reliable) (s : Session) (builds : List Build) :
    s.after builds backend = s.after builds := by
  induction builds generalizing s with
  | nil => rfl
  | cons b builds ih =>
    change (s.build b backend).after builds backend = (s.build b).after builds
    rw [ih, build_of_reliable h]

theorem submitForm_of_reliable (h : backend.Reliable) (s : Session) (form : Form) :
    s.submitForm form backend = s.submitForm form := by
  rw [h.eq]
  rfl

theorem submitReadings_of_reliable (h : backend.Reliable) (s : Session) (rs : List Reading) :
    s.submitReadings rs backend = s.submitReadings rs := by
  induction rs generalizing s with
  | nil => rfl
  | cons r rs ih => simp only [submitReadings, submitForm_of_reliable h, ih]

theorem evaluate_of_reliable (h : backend.Reliable) (s : Session) (source : String) :
    s.evaluate source backend = s.evaluate source := by
  simp only [evaluate, submitAll, submitReadings_of_reliable h]

end Session

namespace Host

theorem serve_of_reliable (h : backend.Reliable) (host : Host) (request : Request)
    (hrequest : request ≠ .listing) : host.serve request backend = host.serve request := by
  cases request with
  | listing => exact absurd rfl hrequest
  | submitAll text => simp only [serve, Session.submitAll, Session.submitReadings_of_reliable h]
  | evaluate source => simp only [serve, Session.evaluate_of_reliable h]
  | _ =>
    rw [h.eq]
    rfl

/-- The texts of a listing are all that differs. -/
theorem host_serve_of_reliable (h : backend.Reliable) (host : Host) (request : Request) :
    (host.serve request backend).host = (host.serve request).host ∧
      (host.serve request backend).log = (host.serve request).log := by
  by_cases hrequest : request = .listing
  · rw [hrequest]
    exact ⟨rfl, rfl⟩
  · rw [serve_of_reliable h host request hrequest]
    exact ⟨rfl, rfl⟩

theorem after_of_reliable (h : backend.Reliable) (host : Host) (requests : List Request) :
    host.after requests backend = host.after requests := by
  induction requests generalizing host with
  | nil => rfl
  | cons request requests ih =>
    change (host.serve request backend).host.after requests backend = _
    rw [ih, (host_serve_of_reliable h host request).1]
    rfl

end Host
end FourLane
