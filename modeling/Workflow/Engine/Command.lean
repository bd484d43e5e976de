import Workflow.Engine.Basic
import Workflow.Flow.Wire
/-!
What clients ask of the engine: to keep flows, and to make, start, cancel and discard runs.
-/

namespace Workflow.Engine

/-! Flows. -/

/-- Keeps a flow that has no problems. -/
def keepFlow (e : Engine) (f : Flow) (replace : Bool) : Except Refusal Engine := do
  f.validate
  match Store.saveFlow e.flows f replace with
  | .ok flows => return { e with flows }
  | .error old => throw (.flowExists f.id old.version)

/-- The refusal of a flow that cannot be read. -/
def unreadable (fault : ShapeFault) : Refusal :=
  match fault.kind with
  | .key | .type | .value => .malformedFlow fault
  | _ => .shape fault

/-- Reads a flow and keeps it. -/
def registerFlow (e : Engine) (v : Value) (replace : Bool) : Except Refusal (Engine × Flow) := do
  let f ← (Flow.ofValue v).mapError unreadable
  return (← e.keepFlow f replace, f)

def getFlow (e : Engine) (id : String) : Except Refusal Flow :=
  match Entries.find? id e.flows with
  | some f => .ok f
  | none => .error (.flowNotFound id)

def deleteFlow (e : Engine) (id : String) : Except Refusal Engine :=
  if Entries.contains id e.flows then .ok { e with flows := Entries.erase id e.flows }
  else .error (.flowNotFound id)

/-! Runs. -/

/-- What a new run is made from. -/
structure RunRequest where
  /-- The id of the run; one is made up if it is missing or empty. -/
  id : Option String := none
  vars : Entries Value := []
  breakpoints : Breakpoints := []
  pauseOnStart : Bool := false

/-- Digits of a number in base sixteen, as many as are asked for. -/
def hexText (width n : Nat) : String :=
  let ds := (Nat.toDigits 16 n)
  String.ofList (List.replicate (width - ds.length) '0' ++ ds)

/-- The id that is made up for the `n`-th run that asks for one. -/
def generatedId (n : Nat) : String :=
  "00000000-0000-4000-8000-" ++ hexText 12 n

/-- Puts a run among those of the engine; it is held under its id and stored unless it stands
alone. -/
def addMachine (e : Engine) (m : Machine) : Engine × MachineId :=
  let k := e.machines.size
  let keep (runs : Entries MachineId) : Entries MachineId :=
    if m.standalone then runs else Entries.insert m.run.id k runs
  ({ e with
    machines := e.machines.push m, runs := keep e.runs, stored := keep e.stored
    stamp := e.stamp + 1 }, k)

def freshId (e : Engine) (id : Option String) : Engine × String :=
  match id.filter (!·.isEmpty) with
  | some id => (e, id)
  | none => ({ e with generated := e.generated + 1 }, generatedId e.generated)

/-- The variables that a run starts with: the shared ones, those of its flow, those asked for. -/
def startValues (e : Engine) (f : Flow) (r : RunRequest) : Entries Value :=
  Entries.update (Entries.update e.shared f.vars) r.vars

/-- Makes a run of a flow that has been checked. -/
def createFrom (e : Engine) (f : Flow) (r : RunRequest) : Except Refusal (Engine × MachineId) :=
  let (e, id) := e.freshId r.id
  if Entries.contains id e.runs || Entries.contains id e.stored then .error (.runExists id)
  else
    let m := Machine.create id f (e.startValues f r) r.breakpoints r.pauseOnStart e.stamp
    .ok (e.addMachine m)

/-- Makes a run of a flow that is given. -/
def createRun (e : Engine) (f : Flow) (r : RunRequest) : Except Refusal (Engine × MachineId) := do
  f.validate
  e.createFrom f r

/-- Makes a run of a flow that is kept. -/
def createRunOf (e : Engine) (flow : String) (r : RunRequest) :
    Except Refusal (Engine × MachineId) := do
  e.createFrom (← e.getFlow flow) r

/-- Makes a run that finds no flows but those inside its own and waits for no slot. -/
def createStandalone (e : Engine) (f : Flow) (r : RunRequest) : Engine × MachineId :=
  let (e, id) := e.freshId r.id
  let m := Machine.create id f r.vars r.breakpoints r.pauseOnStart e.stamp
  e.addMachine { m with standalone := true }

def find (e : Engine) (run : String) : Except Refusal MachineId :=
  match Entries.find? run e.runs with
  | some k => .ok k
  | none => .error (.runNotFound run)

/-- Starts a run, if it has not been started. -/
def startRun (e : Engine) (run : String) : Except Refusal Engine := do
  let k ← e.find run
  let m := e.machine k
  if m.main.isSome then return e
  else if m.run.status != .pending then throw (.runNotPending run m.run.status)
  else return e.onMachine k (·.start true)

/-- Starts a run that stands alone. -/
def startStandalone (e : Engine) (k : MachineId) : Engine :=
  e.onMachine k (·.start false)

/-- Changes a run that may say that it does not fit. -/
def commandRun (e : Engine) (k : MachineId) (f : Machine → Machine × Bool) : Engine × Bool :=
  let (m, ok) := f (e.machine k)
  (e.onMachine k fun _ => m, ok)

def cancelMachine (e : Engine) (k : MachineId) (reason : Option String) : Engine × Bool :=
  e.commandRun k fun m => m.cancel reason e.stamp

/-- Lets a client wait until a run's task has ended; nothing is to be waited for if there is no
such task or if it has ended. -/
def await (e : Engine) (k : MachineId) (after : AfterEnd) : Engine × Nat :=
  let c : Client := ⟨e.nextClient, k, after⟩
  let e := { e with nextClient := e.nextClient + 1 }
  let m := e.machine k
  (if m.main.isSome && !m.mainEnded then { e with clients := e.clients ++ [c] } else e.serve c,
    c.number)

def isServed (e : Engine) (client : Nat) : Bool :=
  e.served.contains client

/-- Cancels a run and lets a client wait for its end. -/
def cancelAndAwait (e : Engine) (run : String) (reason : Option String) :
    Except Refusal (Engine × Nat) := do
  let k ← e.find run
  let (e, _) := e.cancelMachine k reason
  return e.await k .nothing

/-- Lets go of a run. One that has not ended is cancelled first, and its end is waited for. -/
def discard (e : Engine) (run : String) : Except Refusal (Engine × Nat) := do
  let k ← e.find run
  if (e.machine k).run.status.isTerminal then
    return ({ e.release run with
      nextClient := e.nextClient + 1, served := e.nextClient :: e.served }, e.nextClient)
  else
    let (e, _) := e.cancelMachine k (some "discarded")
    return e.await k (.discard run)

/-- Cancels all runs that have not ended. -/
def shutdown (e : Engine) : Engine :=
  (Entries.values e.runs).foldl (fun e k =>
    if (e.machine k).run.status.isTerminal then e
    else (e.cancelMachine k (some "shutdown")).1) e

/-- Cancels the task that executes a run. -/
def cancelTask (e : Engine) (run : String) : Except Refusal Engine := do
  let k ← e.find run
  return e.onMachine k Machine.interruptMain

/-- The runs of a flow and a status, the newest first. -/
def listRuns (e : Engine) (flow : Option String) (status : Option Status) (limit : Int) :
    List Run :=
  let runs := (Entries.values e.stored).map fun k => (e.machine k).run
  Store.limit limit (Store.select Run.key runs flow status)

/-- Takes steps until a client is served or nothing is left to do, letting time pass if it must. -/
def serveClient (client : Nat) : Nat → Engine → Engine
  | 0, e => e
  | n + 1, e =>
    if e.isServed client then e
    else
      match e.step with
      | some e => serveClient client n e
      | none =>
        match e.nextTime? with
        | none => e
        | some t => serveClient client n { e with now := if t > e.now then t else e.now }

/-- Closes the debugger: it listens to nothing more, and all its sessions end. -/
def closeDebugger (e : Engine) : Engine :=
  { e with
    bus := (e.bus.unsubscribe .debugger none).unsubscribeForget .debugger
    debugger := e.debugger.close }

end Workflow.Engine
