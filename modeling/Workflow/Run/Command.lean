import Workflow.Run.Step
/-!
What can be done to a run from outside: starting, pausing, resuming, stepping, cancelling, and
reading and writing its variables.
-/

namespace Workflow.Machine

/-- A run that has not started. -/
def create (id : String) (flow : Flow) (bindings : Entries Value) (breakpoints : Breakpoints)
    (pauseOnStart : Bool) (stamp : Instant) : Machine :=
  { run := { id, flow, breakpoints, createdAt := stamp }, layers := #[{ bindings }], pauseOnStart }

/-- Makes the task that executes the run, as soon as a slot is free or at once. -/
def start (m : Machine) (slotted : Bool) : Machine :=
  match m.main with
  | some _ => m
  | none =>
    let (m, t) := m.spawn (if slotted then .enqueue else .execute) []
    { m with main := some t }

/-- Whether the task that executes the run has ended. -/
def mainEnded (m : Machine) : Bool :=
  m.main.any m.hasEnded

/-- Asks for a pause before the next node. -/
def pause (m : Machine) : Machine × Bool :=
  match m.run.status with
  | .pending | .running => ({ m with pauseRequested := true }, true)
  | _ => (m, false)

/-- Ends a pause. -/
def release (m : Machine) (mode : String) : Machine :=
  let run := { m.run with status := .running, pauseReason := none }
  let m := { m with pauseRequested := false, run }.emit "run.resumed" [
    ("nodeId", .ofText? m.run.current), ("mode", .str mode)]
  m.endPause

def resumeRun (m : Machine) : Machine × Bool :=
  if m.run.status == .paused then (release { m with stepArmed := false } "resume", true)
  else (m, false)

/-- Ends a pause until the next node. -/
def stepOver (m : Machine) : Machine × Bool :=
  if m.run.status == .paused then (release { m with stepArmed := true } "step", true)
  else (m, false)

/-- Cancels a run. One that was never started has ended with that. -/
def cancel (m : Machine) (reason : Option String) (stamp : Instant) : Machine × Bool :=
  if m.run.status.isTerminal then (m, false)
  else
    let reason := match reason with
      | none | some "" => "cancelled"
      | some r => r
    let m := (m.cancelToken (some reason)).endPause
    if m.run.status == .pending && m.main.isNone then (m.finalize stamp .cancelled, true)
    else (m, true)

/-- The layers of a frame of the stack, those of the run if none is asked for. Without a stack there
is one frame, the run's own. -/
def frameLayers (m : Machine) (frame : Value) : Except Value (List Nat) :=
  match frame with
  | .null => .ok rootLayers
  | .int n =>
    if 0 ≤ n ∧ n.toNat < max m.run.stack.length 1 then
      .ok (((m.run.stack[n.toNat]?).map (·.layers)).getD rootLayers)
    else .error frame
  | _ => .error frame

def frameMessage (frame : Value) : String :=
  "frame " ++ frame.name ++ " is out of range"

/-- The value of a dotted name, null where there is none. -/
def getVar (m : Machine) (name : String) (frame : Value) : Except Value Value := do
  let layers ← m.frameLayers frame
  return match (m.vars layers).lookup (namePath name) with
    | .undefined => .null
    | v => v

/-- Writes a variable: in the outermost frame like a node, in an inner frame into its own layer. -/
def setVar (m : Machine) (name : String) (v : Value) (frame : Value) : Except Value Machine := do
  let layers ← m.frameLayers frame
  let depth := match frame with
    | .int n => n
    | _ => 0
  let s := m.scope layers
  let m := m.putScope layers (if depth == 0 then s.set name v else s.setLocal name v)
  return m.emit "vars.patch" [
    ("patch", .obj [(name, v)]), ("frame", .int depth), ("source", .str "debugger")]

/-- All that is known of a run: its summary, what it has done, its variables and its frames. -/
def detail (m : Machine) : Value :=
  .obj (m.run.summary.fields ++ [
    ("trace", .list (m.run.trace.toList.map TraceEntry.toValue)),
    ("outputs", (m.run.outputs.map Value.obj).getD .null),
    ("scope", .obj (m.scope rootLayers).snapshot),
    ("callStack", .list (m.run.stack.map Frame.toValue))])

/-- How a run stands with regard to pauses. -/
def flags (m : Machine) : Value :=
  .obj [
    ("status", .str m.run.status.text),
    ("stepMode", .str (if m.stepArmed then "stepOver" else "none")),
    ("pauseRequested", .bool m.pauseRequested),
    ("current", .ofText? m.run.current),
    ("reason", .ofText? m.run.pauseReason),
    ("depth", .nat m.run.stack.length)]

/-- Cancels the task that executes the run. -/
def interruptMain (m : Machine) : Machine :=
  match m.main with
  | some t => m.interruptTask t
  | none => m

end Workflow.Machine
