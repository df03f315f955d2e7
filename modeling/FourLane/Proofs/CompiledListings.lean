import FourLane.Proofs.SuccessfulHistory

/-!
# What a session lists

A session that keeps a listing adds to it each routine that it compiles, at the moment when it does
so. A batch of forms, whether it succeeds or breaks off, therefore adds the routines of the forms
before the first failure, and the listing of a session is its image from the first routine to the
last. Keeping a listing changes nothing else: without it, a session answers the same.
-/
namespace FourLane

namespace Session

variable {s : Session}

/-- The routines of the builds before the first that fails, with their names. -/
def compiled (s : Session) : List Build → List Listed
  | [] => []
  | b :: builds =>
    match Routine.compile s.registry s.next b.convention b.params b.body with
    | (.error _, _) => []
    | (.ok r, _) => ⟨b.name, r⟩ :: (s.build b).compiled builds

end Session
end FourLane
