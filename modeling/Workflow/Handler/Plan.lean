import Workflow.Handler.Result
/-!
Handlers that are given as plans: some acts, one after the other, and then an ending.
-/

namespace Workflow

inductive Act where
  /-- Sleeps for some milliseconds, whether or not the run is cancelled meanwhile. -/
  | sleep (ms : Float)
  /-- Waits until the run is cancelled. -/
  | awaitCancel
  /-- Cancels the run. -/
  | cancel (reason : Option String)

/-- How a plan ends. -/
inductive Finish where
  /-- The handler's own task is cancelled. -/
  | stop
  | fault (fault : HandlerFault)
  | result (result : HandlerResult)
  /-- The outcome of another flow; if it succeeds, its values are saved under a name if one is
  given. -/
  | subflow (flow : Value) (args : Entries Value) (inline : Bool) (saveAs : Option String)

structure Plan where
  acts : List Act
  finish : Finish

instance : Inhabited Plan := ⟨⟨[], .result (.success [])⟩⟩

namespace Plan

/-- The plan that only replies. -/
def reply (r : HandlerResult) : Plan :=
  ⟨[], .result r⟩

/-- The plan for the `n`-th call: the last one stays in force. -/
def ofCall (plans : List Plan) (n : Nat) : Plan :=
  (plans[n]?).getD (plans.getLast?.getD default)

/-- What a sub-execution's result becomes when it is to be saved. -/
def saved (saveAs : Option String) (r : HandlerResult) : HandlerResult :=
  match saveAs, r with
  | some name, .success values => .success [(name, .obj values)]
  | _, r => r

end Plan

end Workflow
