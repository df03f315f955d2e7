import FourLane.Proofs.SessionSafety
import Mathlib

/-!
# Nothing is ever relinked

A call gives what it gave when its callee was compiled, whatever has been asked for since. From
outside, a handle is called in the session that issued it, retired or not. From inside, a
routine reaches its callees among the routines below it, and these are the ones that the whole
image runs under their numbers.
-/
namespace FourLane

namespace Image

theorem target_lt_next (older : Image) (h : older.Numbered) (i : Import)
    (hi : Routine.MayCall older i) : i.target < older.next := by
  rcases hi with ⟨e, rfl⟩ | ⟨callee, hcallee, -, rfl⟩
  · have he : e.number < 5 := elementary_number_lt e
    have hnext := older.five_le_next h
    change e.number < older.next
    omega
  · exact (older.number_lt_next h callee hcallee).2

theorem WellFormed.of_append {newer older : Image} (h : WellFormed (newer ++ older)) :
    older.WellFormed := by
  induction newer with
  | nil => exact h
  | cons r newer ih => exact ih h.2

/-- What a routine imports is run below it as it is run in the whole image. -/
theorem run_import (newer older : Image) (caller : Routine)
    (h : WellFormed (newer ++ caller :: older)) (i : Import) (hi : i ∈ caller.imports)
    (args : List Word) :
    older.run i.target args = run (newer ++ caller :: older) i.target args := by
  have hcaller : WellFormed (caller :: older) := h.of_append
  have hlt := older.target_lt_next hcaller.2.numbered i (hcaller.1.imports i hi)
  have hsplit : newer ++ caller :: older = (newer ++ [caller]) ++ older := by simp
  rw [hsplit] at h ⊢
  exact (run_append _ older h.numbered i.target hlt args).symm

end Image

namespace Session

variable {s s' : Session}

theorem Grows.run (h : s.Grows s') (hs : s'.image.Numbered) (r : Routine) (hr : r ∈ s.image)
    (args : List Word) : s'.image.run r.number args = s.image.run r.number args := by
  obtain ⟨newer, himage⟩ := h.image
  rw [himage] at hs ⊢
  have hold := (Image.numbered_append newer s.image hs).1
  exact Image.run_append newer s.image hs r.number (s.image.number_lt_next hold r hr).2 args

theorem Grows.enter (h : s.Grows s') (hs : s'.image.Numbered) (handle : Handle)
    (hserves : s.Serves handle) (args : List Quad) :
    s'.enter handle args = s.enter handle args := by
  obtain ⟨newer, himage⟩ := h.image
  obtain ⟨r, hr, hnumber, -, -⟩ := hserves
  rw [himage] at hs
  have hold := (Image.numbered_append newer s.image hs).1
  have hlt := (s.image.number_lt_next hold r hr).2
  rw [hnumber] at hlt
  rw [Session.enter, Session.enter, himage, Image.enter_append newer s.image hs _ hlt]

theorem Grows.call (h : s.Grows s') (hs : s'.image.Numbered) (handle : Handle)
    (hserves : s.Serves handle) (args : List Quad) : s'.call handle args = s.call handle args := by
  rw [Session.call, Session.call, h.enter hs handle hserves args]

end Session

namespace Host

theorem Reachable.image {host : Host} (h : host.Reachable) (epoch : Nat) (s : Session)
    (hs : host.sessionAt? epoch = some s) : s.image.WellFormed :=
  (h.session epoch s hs).wellFormed.1.image

/-- A handle that was issued gives, after any further requests, what it gave right after its
compilation. A routine that was there before them is still run as it was, also by every caller
that imports it. -/
theorem calls_permanent (host : Host) (hhost : host.Reachable) (later : List Request) :
    (∀ request handle s, host.Issues request handle s → ∀ args,
        (host.after (request :: later)).call ⟨host.epoch, handle⟩ args = s.call handle args ∧
        (host.after (request :: later)).enter ⟨host.epoch, handle⟩ args = s.enter handle args) ∧
      ∀ epoch s, host.sessionAt? epoch = some s →
        ∃ s', (host.after later).sessionAt? epoch = some s' ∧ ∀ callee ∈ s.image, ∀ args,
          s'.image.run callee.number args = s.image.run callee.number args ∧
          ∀ newer caller older, s'.image = newer ++ caller :: older →
            ∀ i ∈ caller.imports, i.target = callee.number →
              Image.run older i.target args = s.image.run callee.number args := by
  constructor
  · intro request handle s hissues args
    have hserves := hissues.serves.1
    obtain ⟨s', hs', hgrows⟩ := hissues.grows_after later
    change (host.after (request :: later)).sessionAt? host.epoch = some s' at hs'
    have hnumbered := ((hhost.after (request :: later)).image host.epoch s' hs').numbered
    rw [Host.call, Host.enter, hs']
    exact ⟨hgrows.call hnumbered handle hserves args, hgrows.enter hnumbered handle hserves args⟩
  · intro epoch s hs
    obtain ⟨s', hs', hgrows⟩ := host.sessionAt?_after later epoch s hs
    have himage := (hhost.after later).image epoch s' hs'
    refine ⟨s', hs', fun callee hcallee args => ?_⟩
    have hrun := hgrows.run himage.numbered callee hcallee args
    refine ⟨hrun, fun newer caller older hsplit i hi htarget => ?_⟩
    rw [hsplit] at himage
    rw [Image.run_import newer older caller himage i hi args, ← hsplit, htarget, hrun]

theorem calls_permanent_shadowed :
    (squared.after (squareOf :: shadowed)).call ⟨0, ⟨6, 1⟩⟩ [.splat (.infinite true)] =
      .ok (.splat (.infinite false)) := by
  have h := (squared.calls_permanent reachable_squared shadowed).1 squareOf ⟨6, 1⟩ _
    (.exportExpressionForm rfl) [.splat (.infinite true)]
  exact h.1.trans (by cbv)

end Host
end FourLane
