import Workflow.Clock.Timers
import Workflow.Debug.Session
import Workflow.Event.Bus
import Workflow.Run.Command
import Workflow.Run.Store
/-!
The engine: flows, runs, the slots that runs execute in, and the queue of tasks that are ready. Time
is a part of its state.
-/

namespace Workflow

/-- A run of the engine, by the order in which the engine's runs were made. Ids of runs may be used
again; these numbers are not. -/
abbrev MachineId := Nat

/-- Who listens to the engine's events. -/
inductive Listener where
  | debugger
  deriving DecidableEq

/-- What a timer is for: the wait of a task. -/
structure Alarm where
  machine : MachineId
  task : TaskId
  ticket : Nat

/-- What a client does when the run that it waits for has ended. -/
inductive AfterEnd where
  | nothing
  | discard (run : String)

/-- A client that waits for the task which executes a run. -/
structure Client where
  number : Nat
  machine : MachineId
  after : AfterEnd

/-- What is ready to be done. -/
inductive Job where
  | step (machine : MachineId) (task : TaskId)
  | tell (a : Alarm)
  /-- A client is told of an end in so many steps. -/
  | client (c : Client) (steps : Nat)

/-- Slots: how many are free, and who waits for one. -/
structure Slots where
  free : Nat
  queue : List (MachineId × TaskId) := []

/-- A task in the middle of its steps. -/
structure Activity where
  machine : MachineId
  task : TaskId
  control : Control
  pending : List Pending

structure Engine where
  settings : Settings
  registry : Registry
  provider : Option ElementProvider := none
  /-- The variables that all runs start with. -/
  shared : Entries Value := []
  flows : Entries Flow := []
  machines : Array Machine := #[]
  /-- The runs that are held, under their ids. -/
  runs : Entries MachineId := []
  /-- The runs in the store, under their ids. -/
  stored : Entries MachineId := []
  bus : Bus Listener
  debugger : Debugger
  slots : Slots
  now : Seconds := 0.0
  timers : Timers Alarm := #[]
  /-- What is to be done in this round. -/
  round : List Job := []
  /-- What is to be done in the next round, the last first. -/
  later : List Job := []
  active : Option Activity := none
  clients : List Client := []
  /-- Clients that need not wait any longer. -/
  served : List Nat := []
  nextClient : Nat := 0
  /-- Grows with every step; things that happen later have later stamps. -/
  stamp : Instant := 0
  /-- How many ids of runs were made. -/
  generated : Nat := 0
  /-- How often planned handlers of each kind have been called. -/
  calls : Entries Nat := []
  /-- Events, calls and messages since they were last taken, the newest first. -/
  emitted : List RunEvent := []
  noted : List (String × CallNote) := []
  /-- Messages with the numbers of the rounds in which they were sent. -/
  pushed : List (Nat × Push) := []
  /-- How many rounds have begun. -/
  rounds : Nat := 0

namespace Engine

def create (settings : Settings) (registry : Registry) : Engine where
  settings
  registry
  bus := { ofAll := [.debugger], onForget := [.debugger] }
  debugger := { retain := settings.maxRunsRetained }
  slots := { free := settings.maxConcurrentRuns }

def machine (e : Engine) (k : MachineId) : Machine :=
  (e.machines[k]?).getD default

/-- The run that is held under an id. -/
def machine? (e : Engine) (run : String) : Option Machine :=
  (Entries.find? run e.runs).map e.machine

/-- The runs that are held, in the order in which they were made. -/
def heldMachines (e : Engine) : List Machine :=
  (Entries.values e.runs).map e.machine

/-- What is known of a run, seen from a machine that tells of itself. -/
def viewOf (e : Engine) (run : String) (k : MachineId) (own : RunView) : Option RunView :=
  match Entries.find? run e.runs with
  | none => none
  | some held => some (if held == k then own else (e.machine held).view)

def view? (e : Engine) (run : String) : Option RunView :=
  (e.machine? run).map Machine.view

def push (e : Engine) (ps : List Push) : Engine :=
  { e with pushed := (ps.map (e.rounds, ·)).reverse ++ e.pushed }

/-- The messages that have not been taken yet, the oldest first. -/
def messages (e : Engine) : List Push :=
  e.pushed.reverse.map (·.2)

def queue (e : Engine) (j : Job) : Engine :=
  { e with later := j :: e.later }

/-- Emits an event of a run and tells those who listen. -/
def emit (e : Engine) (k : MachineId) (type : String) (payload : Entries Value) (view : RunView) :
    Engine :=
  let run := (e.machine k).run.id
  let (bus, event, told) := e.bus.emit e.now run type payload
  let e := { e with bus, emitted := event :: e.emitted }
  told.foldl (fun e (_ : Listener) =>
    let (debugger, pushes) := e.debugger.observe event (e.viewOf run k view)
    { e with debugger }.push pushes) e

/-- Drops the numbers and events of a run and tells those who want to know. -/
def forget (e : Engine) (run : String) : Engine :=
  let (bus, told) := e.bus.forget run
  told.foldl (fun e (_ : Listener) => { e with debugger := e.debugger.forget run }) { e with bus }

/-- Lets go of a run for good. -/
def release (e : Engine) (run : String) : Engine :=
  { e with runs := Entries.erase run e.runs, stored := Entries.erase run e.stored }.forget run

/-- The ids of the oldest ended runs in the store beyond those that are retained. -/
def excess (e : Engine) : List String :=
  let key (r : String × MachineId) : RunKey := { (e.machine r.2).run.key with id := r.1 }
  (Store.excess key e.stored e.settings.maxRunsRetained).map (·.1)

/-- Lets go of the oldest ended runs beyond those that are retained. -/
def prune (e : Engine) : Engine :=
  e.excess.foldl release e

/-! Slots. -/

/-- Whether a task that asked for a slot still asks for one or has been promised one. -/
def asksForSlot (e : Engine) (t : MachineId × TaskId) : Bool :=
  match (e.machine t.1).state? t.2 with
  | some (.waiting _ _) => true
  | some (.woken _ signalled _) => signalled
  | _ => false

def slotsLocked (e : Engine) : Bool :=
  e.slots.free == 0 || e.slots.queue.any e.asksForSlot

def isWaiting (e : Engine) (t : MachineId × TaskId) : Bool :=
  match (e.machine t.1).state? t.2 with
  | some (.waiting _ _) => true
  | _ => false

/-- Promises a free slot to the first task that still waits for one. -/
def promiseSlot (e : Engine) : Engine :=
  match e.slots.queue.find? e.isWaiting with
  | none => e
  | some (k, t) =>
    let machines := e.machines.modify k fun m =>
      match m.state? t with
      | some (.waiting w _) => m.setState t (.woken w true false)
      | _ => m
    { e with machines, slots := { e.slots with free := e.slots.free - 1 } }.queue (.step k t)

def giveSlotBack (e : Engine) : Engine :=
  { e with slots := { e.slots with free := e.slots.free + 1 } }.promiseSlot

/-! Effects. -/

def ended (e : Engine) (k : MachineId) (t : TaskId) : Engine :=
  if (e.machine k).main == some t then
    let (here, others) := e.clients.partition (·.machine == k)
    here.foldl (fun e c => e.queue (.client c 2)) { e with clients := others }
  else e

def countCall (e : Engine) : CallNote → Engine
  | .handler c _ =>
    let n := (Entries.find? c.node.kind e.calls).getD 0
    { e with calls := Entries.insert c.node.kind (n + 1) e.calls }
  | .elements _ _ _ => e

def apply (k : MachineId) (e : Engine) : Effect → Engine
  | .emit type payload view => e.emit k type payload view
  | .ready t => e.queue (.step k t)
  | .tell t ticket => e.queue (.tell ⟨k, t, ticket⟩)
  | .startTimer t ticket after =>
    { e with timers := e.timers.start (e.now + after) ⟨k, t, ticket⟩ }
  | .stopTimer t =>
    { e with timers := e.timers.stop fun a => a.machine == k && a.task == t }
  | .takeSlot => { e with slots := { e.slots with free := e.slots.free - 1 } }
  | .queueForSlot t => { e with slots := { e.slots with queue := e.slots.queue ++ [(k, t)] } }
  | .leaveSlotQueue t =>
    { e with slots := { e.slots with queue := e.slots.queue.filter (· != (k, t)) } }
  | .giveSlotBack => e.giveSlotBack
  | .passSlotOn => if e.slots.free > 0 then e.promiseSlot else e
  | .note c => ({ e with noted := ((e.machine k).run.id, c) :: e.noted }).countCall c
  | .prune => e.prune
  | .ended t => e.ended k t

/-- Carries out what a machine asks for. -/
def settleEffects (e : Engine) (k : MachineId) : Engine :=
  let effects := (e.machine k).effects.reverse
  let e := { e with machines := e.machines.modify k ({ · with effects := [] }) }
  effects.foldl (apply k) e

/-- Changes a run and carries out what it then asks for. -/
def onMachine (e : Engine) (k : MachineId) (f : Machine → Machine) : Engine :=
  { e with machines := e.machines.modify k f }.settleEffects k

/-! Steps. -/

def surroundings (e : Engine) (k : MachineId) : Surroundings where
  settings := e.settings
  registry := e.registry
  flows := if (e.machine k).standalone then [] else e.flows
  provider := if (e.machine k).standalone then none else e.provider
  slotsLocked := e.slotsLocked
  calls := e.calls
  now := e.now
  stamp := e.stamp

/-- Lets the task in the middle of its steps take the next one. -/
def stepActive (e : Engine) (a : Activity) : Engine :=
  let env := e.surroundings a.machine
  let m := e.machine a.machine
  let e := { e with machines := e.machines.modify a.machine fun _ => default, active := none }
  let (m, turn) := m.step env a.task a.control a.pending
  let (m, goesOn) := m.turn a.task turn
  let e := { e with machines := e.machines.modify a.machine fun _ => m }.settleEffects a.machine
  match goesOn with
  | some (control, pending) => { e with active := some { a with control, pending } }
  | none => e

/-- Begins the steps of a task that is ready. -/
def begin (e : Engine) (k : MachineId) (t : TaskId) : Engine :=
  let m := e.machine k
  let go (control : Control) (task : Task) : Engine :=
    { e with
      machines := e.machines.modify k (·.setState t .running)
      active := some ⟨k, t, control, task.pending⟩ }
  match m.task? t with
  | none => e
  | some task =>
    match task.state with
    | .fresh control interrupted =>
      if interrupted then e.onMachine k (·.finish t .interrupted) else go control task
    | .woken w signalled interrupted => go (.wake w signalled interrupted) task
    | _ => e

def serve (e : Engine) (c : Client) : Engine :=
  let e := { e with served := c.number :: e.served }
  match c.after with
  | .nothing => e
  | .discard run => e.release run

def run (e : Engine) : Job → Engine
  | .step k t => e.begin k t
  | .tell a => e.onMachine a.machine (·.tell a.task a.ticket)
  | .client c 0 => e.serve c
  | .client c (n + 1) => e.queue (.client c n)

/-- The least time that the clock tells apart. -/
def resolution : Seconds := 1e-9

/-- Begins the next round: all that was queued, and the timers that are due. Nothing, if there is
none of either. -/
def nextRound (e : Engine) : Option Engine :=
  let timers := e.timers.tidy
  let (due, timers) := timers.takeDue (e.now + resolution) (timers.size + 1)
  let jobs := e.later.reverse ++ (due.filter (!·.stopped)).map (.tell ·.target)
  if jobs.isEmpty then none
  else some { e with round := jobs, later := [], timers, rounds := e.rounds + 1 }

/-- One step of the engine; nothing, if nothing can be done before time passes. -/
def step (e : Engine) : Option Engine :=
  let e := { e with stamp := e.stamp + 1 }
  match e.active with
  | some a => some (e.stepActive a)
  | none =>
    match e.round with
    | j :: rest => some ({ e with round := rest }.run j)
    | [] => e.nextRound

/-- Takes steps while there are any, but not more than so many. -/
def steps : Nat → Engine → Engine
  | 0, e => e
  | n + 1, e =>
    match e.step with
    | some e => steps n e
    | none => e

/-- More steps than any sequence of commands can lead to in practice. -/
def patience : Nat := 1000000000000

/-- Does all that can be done before time passes. -/
def drain (e : Engine) : Engine :=
  e.steps patience

/-- The time of the next timer. -/
def nextTime? (e : Engine) : Option Seconds :=
  e.timers.next?

/-- Lets time pass from timer to timer, but not beyond a limit. -/
def passTime (limit : Option Seconds) : Nat → Engine → Engine
  | 0, e => e
  | n + 1, e =>
    let e := e.drain
    match e.nextTime? with
    | none => e
    | some t =>
      if limit.any (t > · + resolution) then e
      else passTime limit n { e with now := if t > e.now then t else e.now }

/-- Lets time pass until no timer is left. -/
def settle (e : Engine) : Engine :=
  e.passTime none patience

/-- Lets some milliseconds pass. -/
def advance (e : Engine) (ms : Float) : Engine :=
  let limit := e.now + Seconds.ofMillis ms
  let e := e.passTime (some limit) patience
  { e with now := if limit > e.now then limit else e.now }

end Engine

end Workflow
