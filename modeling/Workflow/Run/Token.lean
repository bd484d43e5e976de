import Workflow.Clock.Basic
/-!
The cancellation token that a run shares with its handlers. It is cancelled once, and the first
reason stays.
-/

namespace Workflow

structure CancelToken where
  cancelled : Bool := false
  reason : Option String := none

/-- A rest that a cancellation cuts short. -/
structure Rest where
  cutShort : Bool
  /-- When both the rest and the planned cancellation are over. -/
  elapsed : Seconds
  token : CancelToken

namespace CancelToken

def cancel (t : CancelToken) (reason : Option String) : CancelToken :=
  if t.cancelled then t else { cancelled := true, reason }

/-- Rests for some milliseconds, while a cancellation may be planned for a later time. -/
def rest (t : CancelToken) (ms : Float) (planned : Option (Float × Option String)) : Rest :=
  match planned with
  | none =>
    { cutShort := t.cancelled
      elapsed := if t.cancelled || !(ms > 0.0) then 0.0 else Seconds.ofMillis ms
      token := t }
  | some (after, reason) =>
    { cutShort := t.cancelled || (ms > 0.0 && after <= ms)
      elapsed := Seconds.ofMillis after
      token := t.cancel reason }

@[simp] theorem cancel_cancelled (t : CancelToken) (reason : Option String) :
    (t.cancel reason).cancelled = true := by
  unfold cancel
  split <;> simp_all

end CancelToken

end Workflow
