import Workflow.Engine.Command
/-!
The commands of a debugger, given as objects with a `type`, and their responses.
-/

namespace Workflow.Debugger

/-- Why a command is rejected. -/
inductive Rejection where
  | notObject
  | unknownCommand (type : String)
  | noRunId
  | runNotFound (run : String)
  | notAttached (run : String)
  | notExecuting (run : String)
  | badStatus (command run : String) (status : Status) (needs : String)
  | nodesNotList
  | noNode
  | noName
  | badFrame (frame : Value)
  /-- A name or a value of a type that makes no sense. -/
  | unusable

namespace Rejection

def message : Rejection → String
  | notObject => "command must be an object"
  | unknownCommand type => "unknown debug command: " ++ (if type.isEmpty then "<missing>" else type)
  | noRunId => "runId is required"
  | runNotFound run => "run '" ++ run ++ "' not found"
  | notAttached run => "debugger is not attached to run '" ++ run ++ "'"
  | notExecuting run => "run '" ++ run ++ "' is no longer executing"
  | badStatus command run status needs =>
    "cannot " ++ command ++ ": run '" ++ run ++ "' is " ++ status.text ++ ", expected " ++ needs
  | nodesNotList => "nodeIds must be a list"
  | noNode => "nodeId is required"
  | noName => "name is required"
  | badFrame frame => Machine.frameMessage frame
  | unusable => "internal error"

end Rejection

/-- Work on the engine that may be rejected. What was done before a rejection stays done. -/
abbrev Work (α : Type) := ExceptT Rejection (StateM Engine) α

/-- What is told about a command that was carried out, and under which name. -/
abbrev Reply := String × Value

/-- The run that is held under an id. -/
def requireRun (run : String) : Work MachineId := do
  match Entries.find? run (← get).runs with
  | some k => return k
  | none => throw (.runNotFound run)

def requireAttached (run : String) : Work Unit := do
  if (← get).debugger.isAttached run then return
  let _ ← requireRun run
  throw (.notAttached run)

/-- The run that an attached session is about, if it is still held. -/
def requireMachine (run : String) : Work MachineId := do
  match Entries.find? run (← get).runs with
  | some k => return k
  | none => throw (.notExecuting run)

/-- Tells the observers of a run its state. -/
def tellState (run : String) (e : Engine) : Engine :=
  e.push (e.debugger.pushState run (e.view? run))

/-- The state of a run as it is now. -/
def stateOf (run : String) : Work Reply := do
  let e ← get
  return ("state", e.debugger.state run (e.view? run))

/-- Opens a session for a run, or attaches the one that there is. -/
def openSession (run : String) (k : MachineId) (e : Engine) : Engine :=
  let d := e.debugger
  match Entries.find? run d.sessions with
  | some s =>
    { e with debugger := { d with
        sessions := Entries.insert run { s with attached := true } d.sessions } }
  | none =>
    let m := e.machine k
    { e with debugger := { d with
        sessions := Entries.insert run { lastNode := m.run.current } d.sessions
        lastValues := Entries.insert run (m.scope Machine.rootLayers).snapshot d.lastValues } }

def attach (run : String) : Work Reply := do
  let k ← requireRun run
  modify (openSession run k)
  modify (tellState run)
  stateOf run

def closeSession (run : String) (e : Engine) : Engine :=
  { e with debugger := { e.debugger with
      sessions := Entries.modify run ({ · with attached := false }) e.debugger.sessions } }

/-- Lets go of a detached session whose run is gone. -/
def dropRetired (run : String) (e : Engine) : Engine :=
  if e.debugger.retired.contains run then { e with debugger := e.debugger.drop run } else e

def detach (run : String) : Work Reply := do
  if !Entries.contains run (← get).debugger.sessions then
    let _ ← requireRun run
  modify (closeSession run)
  modify (tellState run)
  let state ← stateOf run
  modify (dropRetired run)
  return state

/-- Changes a run whose status must fit. -/
def control (run command needs : String) (fits : Status → Bool) (f : Machine → Machine × Bool) :
    Work Reply := do
  requireAttached run
  let k ← requireMachine run
  let status := ((← get).machine k).run.status
  if !fits status then throw (.badStatus command run status needs)
  modify fun e => (e.commandRun k f).1
  stateOf run

/-- Changes the breakpoints of a run and tells its state. -/
def changeBreakpoints (run : String) (f : Breakpoints → Breakpoints) : Work Reply := do
  let k ← requireRun run
  modify (·.onMachine k fun m =>
    { m with run := { m.run with breakpoints := f m.run.breakpoints } })
  modify (tellState run)
  stateOf run

def setBreakpoints (run : String) (nodes : Value) : Work Reply := do
  requireAttached run
  match nodes.orElse (.list []) with
  | .list ids => changeBreakpoints run fun _ => Breakpoints.ofList (ids.map Value.name)
  | _ => throw .nodesNotList

def changeBreakpoint (run : String) (node : Value) (f : Breakpoints → String → Breakpoints) :
    Work Reply := do
  requireAttached run
  if node.isVacant then throw .noNode
  changeBreakpoints run (f · node.name)

/-- The value of a variable; of a run that is gone, the value that was seen last. -/
def getVar (run : String) (name frame : Value) : Work Reply := do
  requireAttached run
  if name.isVacant then throw .noName
  let e ← get
  let vars ← match e.machine? run with
    | some m => match m.frameLayers frame with
      | .ok layers => pure (m.vars layers)
      | .error frame => throw (.badFrame frame)
    | none => pure (.ofValue (.obj ((Entries.find? run e.debugger.lastValues).getD [])))
  match name with
  | .str name =>
    match vars.lookup (namePath name) with
    | .undefined => return ("value", .null)
    | v => return ("value", v)
  | _ => throw .unusable

def setVar (run : String) (name v frame : Value) : Work Reply := do
  requireAttached run
  if name.isVacant then throw .noName
  let k ← requireMachine run
  let m := (← get).machine k
  if m.run.status.isTerminal then
    throw (.badStatus "setVar" run m.run.status "an active run")
  match m.setVar name.name v frame with
  | .error frame => throw (.badFrame frame)
  | .ok m =>
    if !name.isHashable then throw .unusable
    modify (·.onMachine k fun _ => m)
    stateOf run

/-- The commands that are about one run. -/
def commands : List String := [
  "attach", "detach", "pause", "resume", "stepOver", "setBreakpoints", "addBreakpoint",
  "removeBreakpoint", "getState", "setVar", "getVar"]

def isPaused (s : Status) : Bool :=
  s == .paused

/-- Whether a pause may be asked for. -/
def isPausable (s : Status) : Bool :=
  s == .pending || s == .running

/-- Carries out a command that is about one run. -/
def command (op run : String) (given : Value) : Work Reply :=
  match op with
  | "attach" => attach run
  | "detach" => detach run
  | "pause" => control run "pause" "running" isPausable Machine.pause
  | "resume" => control run "resume" "paused" isPaused Machine.resumeRun
  | "stepOver" => control run "stepOver" "paused" isPaused Machine.stepOver
  | "setBreakpoints" => setBreakpoints run (given.field "nodeIds")
  | "addBreakpoint" => changeBreakpoint run (given.field "nodeId") Breakpoints.add
  | "removeBreakpoint" => changeBreakpoint run (given.field "nodeId") Breakpoints.remove
  | "setVar" => setVar run (given.field "name") (given.field "value") (given.field "frame")
  | "getVar" => getVar run (given.field "name") (given.field "frame")
  | _ => do
    requireAttached run
    stateOf run

/-- The name of a command without the word in front of it. -/
def commandName (type : String) : String :=
  if type.startsWith "debug." then (type.drop 6).toString else type

/-- The runs of a flow, of all flows if none is named. -/
def runsOf (e : Engine) (flow : Value) : List Run :=
  match flow with
  | .null => e.listRuns none none 0
  | .str id => e.listRuns (some id) none 0
  | _ => []

def rejected (r : Rejection) : Value :=
  .obj [("ok", .bool false), ("error", .str r.message)]

def accepted (r : Reply) : Value :=
  .obj [("ok", .bool true), r]

/-- Carries out a command; the answer is the response to it. -/
def handle (e : Engine) (given : Value) : Engine × Value :=
  let type := ((given.field "type").orElse (.str "")).name
  let op := commandName type
  let run := given.field "runId"
  if !given.isObject then (e, rejected .notObject)
  else if op == "listRuns" then
    (e, accepted ("value", .list ((runsOf e (given.field "flowId")).map Run.summary)))
  else if !commands.contains op then (e, rejected (.unknownCommand type))
  else if run.isVacant then (e, rejected .noRunId)
  else
    match (command op run.name given).run.run e with
    | (.error r, e) => (e, rejected r)
    | (.ok r, e) => (e, accepted r)

end Workflow.Debugger
