import Workflow.Event.Bus
import Workflow.Run.Machine
/-!
Debugger sessions: which runs a debugger is attached to, who is told of what these runs do, and the
last values that were seen, which outlive the runs.
-/

namespace Workflow

structure DebugSession where
  attached : Bool := true
  lastNode : Option String := none
  lastReason : Option String := none

/-- Someone who is told of attached runs. Each subscription has a number of its own. -/
structure Observer where
  number : Nat
  name : String

/-- A message to an observer. -/
structure Push where
  observer : Observer
  message : Value

structure Debugger where
  /-- How many attached sessions of runs that are gone are kept. -/
  retain : Nat
  sessions : Entries DebugSession := []
  lastValues : Entries (Entries Value) := []
  /-- Attached sessions whose runs are gone, the oldest first. -/
  retired : List String := []
  /-- The observers of single runs. -/
  ofRun : Entries (List Observer) := []
  /-- The observers of all attached runs. -/
  ofAll : List Observer := []
  nextObserver : Nat := 0

namespace Debugger

/-- Events that observers are told of. -/
def forwarded : List String := [
  "run.paused", "run.resumed", "node.started", "node.completed", "node.failed", "node.skipped",
  "run.completed", "run.failed", "run.cancelled"]

/-- Events after which observers are told the state of the run. -/
def refreshing : List String := [
  "run.paused", "run.resumed", "node.started", "node.failed",
  "run.completed", "run.failed", "run.cancelled"]

def isAttached (d : Debugger) (run : String) : Bool :=
  (Entries.find? run d.sessions).any (·.attached)

/-- Drops all that is known of a run. -/
def drop (d : Debugger) (run : String) : Debugger :=
  { d with
    sessions := Entries.erase run d.sessions
    lastValues := Entries.erase run d.lastValues
    retired := d.retired.erase run }

/-- A run is gone. Its session is kept only while it is attached, and not longer than those of so
many runs that have gone since. -/
def forget (d : Debugger) (run : String) : Debugger :=
  if !d.isAttached run then d.drop run
  else
    let retired := if d.retired.contains run then d.retired else d.retired ++ [run]
    let excess := retired.take (retired.length - d.retain)
    excess.foldl drop { d with retired }

/-- The state of a run that observers and commands are told; nothing is known of a run that is
gone but what its session saw last. -/
def state (d : Debugger) (run : String) (view : Option RunView) : Value :=
  let session := Entries.find? run d.sessions
  let lastNode := session.bind (·.lastNode)
  let status := if d.isAttached run then "attached" else "detached"
  match view with
  | none => .obj [
      ("runId", .str run), ("status", .str status), ("execution", .str "unknown"),
      ("breakpoints", .list []), ("pauseReason", .ofText? (session.bind (·.lastReason))),
      ("currentNodeId", .ofText? lastNode), ("stepMode", .str "none"), ("depth", .nat 0),
      ("pauseRequested", .bool false)]
  | some v => .obj [
      ("runId", .str run), ("status", .str status), ("execution", .str v.status.text),
      ("breakpoints", .list (v.breakpoints.sorted.map fun id =>
        .obj [("nodeId", .str id), ("enabled", .bool true)])),
      ("pauseReason", .ofText? v.pauseReason),
      ("currentNodeId", .ofText? ((v.current.filter (!·.isEmpty)).or lastNode)),
      ("stepMode", .str (if v.stepArmed then "stepOver" else "none")),
      ("depth", .nat (v.frames - 1)), ("pauseRequested", .bool v.pauseRequested)]

/-- The observers of a run are told something, those of all runs last. -/
def notify (d : Debugger) (run : String) (message : Value) : List Push :=
  ((Entries.find? run d.ofRun).getD [] ++ d.ofAll).map (⟨·, message⟩)

def pushState (d : Debugger) (run : String) (view : Option RunView) : List Push :=
  d.notify run (.obj [
    ("type", .str "debug.state"), ("runId", .str run), ("state", d.state run view)])

/-- Takes the values of a patch of the outermost frame over. -/
def takeValues (d : Debugger) (e : RunEvent) : Debugger :=
  match e.type, Entries.find? "patch" e.payload with
  | "vars.patch", some (.obj patch) =>
    if !((Entries.find? "frame" e.payload).getD .null).isVacant then d
    else if Entries.contains e.run d.sessions then
      let values := (Entries.find? e.run d.lastValues).getD []
      { d with lastValues := Entries.insert e.run (Entries.update values patch) d.lastValues }
    else d
  | _, _ => d

/-- Keeps the node and the reason that an event names in the session of its run. -/
def takePosition (d : Debugger) (e : RunEvent) : Debugger :=
  let pauses := e.type == "run.paused"
  let text (key : String) : Option String := match Entries.find? key e.payload with
    | some (.str s) => some s
    | _ => none
  let node := if pauses || e.type == "node.started" then (text "nodeId").filter (!·.isEmpty)
    else none
  { d with sessions := Entries.modify e.run (fun s => { s with
      lastNode := node.or s.lastNode
      lastReason := if pauses then text "reason" else s.lastReason }) d.sessions }

/-- Takes note of an event; the answer holds the messages to observers. -/
def observe (d : Debugger) (e : RunEvent) (view : Option RunView) : Debugger × List Push :=
  let d := (d.takeValues e).takePosition e
  if !d.isAttached e.run then (d, [])
  else
    (d, (if forwarded.contains e.type then d.notify e.run e.toValue else [])
      ++ (if refreshing.contains e.type then d.pushState e.run view else []))

/-- Adds an observer of one run or of all attached runs. -/
def subscribe (d : Debugger) (name : String) (run : Option String) : Debugger × Observer :=
  let o : Observer := ⟨d.nextObserver, name⟩
  let d := { d with nextObserver := d.nextObserver + 1 }
  (match run with
    | none => { d with ofAll := d.ofAll ++ [o] }
    | some run =>
      { d with ofRun := Entries.insert run ((Entries.find? run d.ofRun).getD [] ++ [o]) d.ofRun }, o)

/-- Removes an observer. -/
def unsubscribe (d : Debugger) (number : Nat) : Debugger :=
  let without (os : List Observer) : List Observer := os.filter (·.number != number)
  { d with
    ofAll := without d.ofAll
    ofRun := (Entries.mapValues without d.ofRun).filter (!·.2.isEmpty) }

/-- Ends all sessions and subscriptions. -/
def close (d : Debugger) : Debugger :=
  { retain := d.retain, nextObserver := d.nextObserver }

end Debugger

end Workflow
