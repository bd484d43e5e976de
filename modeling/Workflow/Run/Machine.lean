import Workflow.Flow.Policy
import Workflow.Handler.Element
import Workflow.Handler.Plan
import Workflow.Handler.Registry
import Workflow.Run.Record
import Workflow.Run.Token
/-!
The state of a run while it executes. A run is carried out by tasks: one that walks its flow, one for
each handler that is called, and watchers. A task is its stack of pending work with what it does next
or waits for. What the tasks want of the world around the run is noted as effects.
-/

namespace Workflow

/-- A task of a run, by the order in which the run's tasks were made. -/
abbrev TaskId := Nat

/-- How an attempt, a node or a whole frame ended. A failure names the node that failed, once that is
known. -/
inductive Outcome where
  | completed (label : Option String)
  | failed (error : ErrorInfo) (node : Option String)
  | cancelled

/-- What finished work hands to the work that waits for it. -/
inductive Answer where
  | done
  | outcome (o : Outcome)
  | handled (r : HandlerResult)
  /-- The end of a rest, which a cancellation may have cut short. -/
  | rested (cutShort : Bool)
  | thrown (f : HandlerFault)
  /-- The task is being cancelled. -/
  | interrupted

/-- Where a node is carried out: the flow, the layers of the scope, the depth of the frame. -/
structure Place where
  flow : Flow
  layers : List Nat
  depth : Nat

/-- One attempt at a node. -/
structure Attempt where
  place : Place
  node : Node
  policy : Policy
  number : Nat

/-- A call of a handler. -/
structure Call where
  place : Place
  node : Node
  attempt : Nat
  config : Entries Value
  /-- The variables as they were when the handler was called. -/
  vars : Entries Value

/-- A walk through a flow: its place, its frame, and the number of nodes come to so far. -/
structure Walk where
  place : Place
  frame : Nat
  steps : Nat

/-- A body that a node carries out again and again. -/
structure Loop where
  place : Place
  node : Node
  body : Flow

/-- A loop over the elements of a live collection. -/
structure Collection where
  loop : Loop
  itemName : String
  saveAs : Value
  collected : List Value
  rest : List Element

/-- Work that waits for an answer. -/
inductive Pending where
  /-- A start that holds a slot or, if it was cancelled before, none. -/
  | slot (held : Bool)
  | execution
  /-- The pause before a node. -/
  | checkpoint (walk : Walk) (node : Node)
  | visit (walk : Walk) (node : Node)
  | attempt (a : Attempt) (since : Seconds)
  | backoff (a : Attempt)
  /-- The values that a handler gives are written for the node. -/
  | primitive (a : Attempt)
  | frame (key : Nat) (flow node : String)
  | foreach (loop : Loop) (itemName : String) (indexName : Option String) (index : Nat)
      (rest : List Value)
  | while (loop : Loop) (bound iterations : Nat)
  /-- A rest before an element comes. -/
  | element (c : Collection) (acts : List Act) (item : Except HandlerFault Value)
  | elements (c : Collection)
  /-- A call of another flow: the caller's place and node, the child's layers, what is returned. -/
  | invocation (place : Place) (node : Node) (child : List Nat) (returns : Option Value)
  | subexecution (child : List Nat)
  | plan (call : Call) (acts : List Act) (finish : Finish)
  | saving (saveAs : Option String)
  /-- The rest of a built-in handler. -/
  | rest

/-- What a suspended task waits for. -/
inductive Wait where
  /-- The first of two tasks: one that takes a slot and one that watches for cancellation. -/
  | start (taker watcher : TaskId)
  /-- A free slot. -/
  | grant
  /-- The cancellation of the run. -/
  | cancellation
  /-- The end of a pause. -/
  | resumption
  /-- A handler's end, the run's cancellation or the end of the time for the handler. -/
  | settlement (a : Attempt) (handler watcher : TaskId)
  /-- The end of a cancelled run's handler or of its grace. -/
  | grace (handler : TaskId)
  /-- The end of a handler's task that is being cancelled; then the attempt ends so. -/
  | removal (handler : TaskId) (then_ : Outcome) (interrupted : Bool)
  /-- The end of a rest or a cancellation that a watcher sees. -/
  | nap (watcher : TaskId)
  /-- The end of the watcher of a rest that is over. -/
  | rousing (watcher : TaskId) (interrupted : Bool)
  /-- The end of a sleep that nothing cuts short. -/
  | sleep

/-- What a task does next. -/
inductive Control where
  /-- Asks for a slot before it executes. -/
  | enqueue
  | takeSlot
  | execute
  | enter (place : Place) (frame : Nat)
  | next (walk : Walk) (node : Option Node)
  | dispatch (walk : Walk) (node : Node)
  | try (a : Attempt)
  | iterate (loop : Loop) (bound iterations : Nat)
  | supply (c : Collection)
  | element (c : Collection) (acts : List Act) (item : Except HandlerFault Value)
  | handle (call : Call)
  | act (call : Call) (acts : List Act) (finish : Finish)
  | watch
  /-- Goes on after a wait. -/
  | wake (w : Wait) (signalled interrupted : Bool)
  | answer (a : Answer)

/-- Where a task stands. A task that is woken has been signalled, or is to be interrupted, or both. -/
inductive TaskState where
  | fresh (control : Control) (interrupted : Bool)
  | running
  | waiting (w : Wait) (ticket : Nat)
  | woken (w : Wait) (signalled interrupted : Bool)
  | ended (a : Answer)

structure Task where
  state : TaskState
  pending : List Pending := []
  /-- The tasks to be told of this task's end, with the tickets of their waits. -/
  observers : List (TaskId × Nat) := []

/-- What others see of a run at some moment. -/
structure RunView where
  status : Status
  pauseReason : Option String
  current : Option String
  frames : Nat
  breakpoints : Breakpoints
  stepArmed : Bool
  pauseRequested : Bool

/-- The call of a planned handler, or the request for elements, as it is noted. -/
inductive CallNote where
  | handler (call : Call) (cancelled : Bool)
  | elements (selector : Value) (node : String) (attempt : Nat)

/-- A noted call in a run as an object. -/
def CallNote.toValue (run : String) : CallNote → Value
  | handler c cancelled => .obj [
      ("run", .str run), ("flow", .str c.place.flow.id), ("node", .str c.node.id),
      ("attempt", .nat c.attempt), ("depth", .nat c.place.depth), ("config", .obj c.config),
      ("scope", .obj c.vars), ("cancelled", .bool cancelled)]
  | elements selector node attempt => .obj [
      ("selector", selector), ("node", .str node), ("attempt", .nat attempt)]

/-- What a run asks of the world around it. -/
inductive Effect where
  | emit (type : String) (payload : Entries Value) (view : RunView)
  /-- The task is to go on. -/
  | ready (task : TaskId)
  /-- The task is to be told that something it waits for has come about. -/
  | tell (task : TaskId) (ticket : Nat)
  | startTimer (task : TaskId) (ticket : Nat) (after : Seconds)
  | stopTimer (task : TaskId)
  | takeSlot
  | queueForSlot (task : TaskId)
  | leaveSlotQueue (task : TaskId)
  | giveSlotBack
  /-- If a slot is free, the next task in the queue is to have it. -/
  | passSlotOn
  | note (call : CallNote)
  | prune
  | ended (task : TaskId)

structure Machine where
  run : Run
  /-- The layers of all scopes of the run; the first one is the run's own. -/
  layers : Array Layer
  token : CancelToken := {}
  /-- Whether the run belongs to no engine: then it finds no flows but its own. -/
  standalone : Bool := false
  pauseOnStart : Bool := false
  pauseRequested : Bool := false
  stepArmed : Bool := false
  tasks : Array Task := #[]
  /-- The tasks that wait for cancellation, in the order in which they began to. -/
  watchers : List TaskId := []
  /-- The tasks that wait for the end of a pause. -/
  paused : List TaskId := []
  /-- The task that executes the run, once it is started. -/
  main : Option TaskId := none
  nextTicket : Nat := 0
  nextFrame : Nat := 0
  /-- Effects since they were last taken, the newest first. -/
  effects : List Effect := []

instance : Inhabited Machine := ⟨{ run := { id := "", flow := default }, layers := #[] }⟩

/-- What a step of a run depends on besides the run itself. -/
structure Surroundings where
  settings : Settings
  registry : Registry
  /-- Flows that are found by their ids. -/
  flows : Entries Flow
  provider : Option ElementProvider
  /-- Whether all slots are taken or promised. -/
  slotsLocked : Bool
  /-- How often handlers of each kind have been called. -/
  calls : Entries Nat
  now : Seconds
  stamp : Instant

namespace Machine

def view (m : Machine) : RunView where
  status := m.run.status
  pauseReason := m.run.pauseReason
  current := m.run.current
  frames := m.run.stack.length
  breakpoints := m.run.breakpoints
  stepArmed := m.stepArmed
  pauseRequested := m.pauseRequested

def effect (m : Machine) (e : Effect) : Machine :=
  { m with effects := e :: m.effects }

def emit (m : Machine) (type : String) (payload : Entries Value) : Machine :=
  m.effect (.emit type payload m.view)

/-- The scope that is made of layers. -/
def scope (m : Machine) (layers : List Nat) : Scope :=
  layers.map fun i => (m.layers[i]?).getD {}

/-- Writes the layers of a scope back. -/
def putScope (m : Machine) (layers : List Nat) (s : Scope) : Machine :=
  { m with layers := (layers.zip s).foldl (fun ls (i, l) => ls.setIfInBounds i l) m.layers }

/-- Writes names through a scope. -/
def write (m : Machine) (layers : List Nat) (values : Entries Value) : Machine :=
  m.putScope layers ((m.scope layers).update values)

/-- Puts a new layer in front of others. -/
def addLayer (m : Machine) (l : Layer) (layers : List Nat) : Machine × List Nat :=
  let size := m.layers.size
  ({ m with layers := m.layers.push l }, size :: layers)

/-- The run's own scope. -/
def rootLayers : List Nat := [0]

def task? (m : Machine) (t : TaskId) : Option Task :=
  m.tasks[t]?

def modifyTask (m : Machine) (t : TaskId) (f : Task → Task) : Machine :=
  { m with tasks := m.tasks.modify t f }

def setState (m : Machine) (t : TaskId) (s : TaskState) : Machine :=
  m.modifyTask t ({ · with state := s })

def state? (m : Machine) (t : TaskId) : Option TaskState :=
  m.tasks[t]?.map (·.state)

/-- Whether a task has ended, and how. -/
def ending? (m : Machine) (t : TaskId) : Option Answer :=
  match m.state? t with
  | some (.ended a) => some a
  | _ => none

def hasEnded (m : Machine) (t : TaskId) : Bool :=
  (m.ending? t).isSome

/-- Makes a task, which is to begin soon. -/
def spawn (m : Machine) (control : Control) (pending : List Pending) : Machine × TaskId :=
  let t := m.tasks.size
  let m := { m with tasks := m.tasks.push { state := .fresh control false, pending } }
  (m.effect (.ready t), t)

/-- Wakes a task that waits. -/
def signal (m : Machine) (t : TaskId) : Machine :=
  match m.state? t with
  | some (.waiting (.removal h o i) _) =>
    (m.setState t (.woken (.removal h o i) true i)).effect (.ready t)
  | some (.waiting w _) => (m.setState t (.woken w true false)).effect (.ready t)
  | _ => m

/-- Tells a task that what it waits for under a ticket has come about. -/
def tell (m : Machine) (t : TaskId) (ticket : Nat) : Machine :=
  match m.state? t with
  | some (.waiting _ n) => if n == ticket then m.signal t else m
  | _ => m

/-- Cancels a task. One that waits for the removal of a handler hands the cancellation on to it. -/
def interrupt : Nat → Machine → TaskId → Machine
  | 0, m, _ => m
  | fuel + 1, m, t =>
    match m.state? t with
    | some (.fresh c _) => m.setState t (.fresh c true)
    | some (.waiting (.removal h o _) n) =>
      interrupt fuel (m.setState t (.waiting (.removal h o true) n)) h
    | some (.waiting w _) => (m.setState t (.woken w false true)).effect (.ready t)
    | some (.woken w s _) => m.setState t (.woken w s true)
    | _ => m

/-- Cancels a task of a run. -/
def interruptTask (m : Machine) (t : TaskId) : Machine :=
  m.interrupt (m.tasks.size + 1) t

/-- Lets a task wait, with the tasks whose ends it is to be told of. -/
def suspend (m : Machine) (t : TaskId) (w : Wait) (on : List TaskId) : Machine × Nat :=
  let ticket := m.nextTicket
  let m := { m with nextTicket := ticket + 1 }
  let m := m.setState t (.waiting w ticket)
  let m := on.foldl (fun m o =>
    if m.hasEnded o then m.effect (.tell t ticket)
    else m.modifyTask o fun k => { k with observers := k.observers ++ [(t, ticket)] }) m
  (m, ticket)

/-- Ends a task and tells its observers. -/
def finish (m : Machine) (t : TaskId) (a : Answer) : Machine :=
  let observers := ((m.task? t).map (·.observers)).getD []
  let m := m.modifyTask t fun _ => { state := .ended a }
  let m := observers.foldl (fun m (o, ticket) => m.effect (.tell o ticket)) m
  m.effect (.ended t)

/-- Cancels the run's token; all that wait for this are woken. -/
def cancelToken (m : Machine) (reason : Option String) : Machine :=
  if m.token.cancelled then m
  else
    let freed := { m with token := m.token.cancel reason, watchers := [] }
    m.watchers.foldl signal freed

end Machine

end Workflow
