import Workflow.Refusal
import Workflow.Run.Instant
import Workflow.Run.Scope
import Workflow.Value.ErrorInfo
/-!
The record of a run: where it stands, what it has done and how it ended, and its breakpoints, which are the
ids of the nodes before which it pauses.
-/

namespace Workflow

/-- Ids without repetition. -/
abbrev Breakpoints := List String

namespace Breakpoints

def contains (b : Breakpoints) (id : String) : Bool :=
  List.elem id b

def add (b : Breakpoints) (id : String) : Breakpoints :=
  if b.contains id then b else id :: b

def remove (b : Breakpoints) (id : String) : Breakpoints :=
  b.filter (· != id)

def ofList (ids : List String) : Breakpoints :=
  ids.foldl add []

/-- The ids in order. -/
def sorted (b : Breakpoints) : List String :=
  b.mergeSort fun x y => decide (x ≤ y)

end Breakpoints

/-- How the visit of a node ended. -/
inductive TraceOutcome where
  | completed | failed | skipped | cancelled
  deriving Repr, DecidableEq

def TraceOutcome.text : TraceOutcome → String
  | completed => "completed"
  | failed => "failed"
  | skipped => "skipped"
  | cancelled => "cancelled"

structure TraceEntry where
  node : String
  outcome : TraceOutcome
  time : Instant
  depth : Nat
  attempt : Nat := 1
  label : Option String := none
  error : Option ErrorInfo := none

/-- A flow that is being walked, with the node that invoked it. -/
structure Frame where
  /-- Tells frames of one run apart. -/
  key : Nat
  flow : String
  invokedBy : Option String
  /-- The layers of its scope, by their places in the run's store, the nearest first. -/
  layers : List Nat
  shared : Bool := false
  current : Option String := none

structure Run where
  id : String
  flow : Flow
  status : Status := .pending
  current : Option String := none
  /-- Frames, the outermost first. -/
  stack : List Frame := []
  trace : Array TraceEntry := #[]
  breakpoints : Breakpoints := []
  error : Option ErrorInfo := none
  pauseReason : Option String := none
  outputs : Option (Entries Value) := none
  createdAt : Instant := 0
  startedAt : Option Instant := none
  finishedAt : Option Instant := none

namespace TraceEntry

def toValue (e : TraceEntry) : Value :=
  .obj [
    ("nodeId", .str e.node),
    ("outcome", .str e.outcome.text),
    ("timestamp", .str (Instant.text e.time)),
    ("depth", .nat e.depth),
    ("attempt", .nat e.attempt),
    ("label", .ofText? e.label),
    ("error", (e.error.map ErrorInfo.toValue).getD .null)]

end TraceEntry

namespace Frame

def toValue (f : Frame) : Value :=
  .obj [
    ("flowId", .str f.flow),
    ("invokedBy", .ofText? f.invokedBy),
    ("shared", .bool f.shared),
    ("currentNodeId", .ofText? f.current)]

end Frame

namespace Run

/-- The milliseconds from start to end, once the run has both. -/
def tookMs? (r : Run) : Option Int := do
  return Instant.millisBetween (← r.startedAt) (← r.finishedAt)

def instantValue (t : Option Instant) : Value :=
  .ofText? (t.map Instant.text)

def summary (r : Run) : Value :=
  .obj [
    ("id", .str r.id),
    ("flowId", .str r.flow.id),
    ("status", .str r.status.text),
    ("currentNodeId", .ofText? r.current),
    ("pauseReason", .ofText? r.pauseReason),
    ("depth", .nat r.stack.length),
    ("breakpoints", .strings r.breakpoints.sorted),
    ("error", (r.error.map ErrorInfo.toValue).getD .null),
    ("createdAt", .str (Instant.text r.createdAt)),
    ("startedAt", instantValue r.startedAt),
    ("finishedAt", instantValue r.finishedAt),
    ("tookMs", (r.tookMs?.map Value.int).getD .null)]

end Run

end Workflow
