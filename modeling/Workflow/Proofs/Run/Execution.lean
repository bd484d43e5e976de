import Workflow.Run.Command
/-!
A run as it is carried out, one move at a time: a task that is ready begins, the task that has begun
takes its steps until it waits, a task is told of an end or of the time, a free slot is granted.
Commands come in while no task is in the middle of its steps. Nothing is said about the order of
moves or about the time that passes between them.
-/

namespace Workflow

namespace Registry

/-- Whether all kinds are carried out by built-in handlers. -/
def IsBuiltin (r : Registry) : Prop :=
  ∀ e ∈ r, ∃ b, e.2.handler = .builtin b

theorem isBuiltin_nil : IsBuiltin [] := by
  simp [IsBuiltin]

end Registry

/-- Acts that only let time pass. -/
def Act.IsRest : Act → Prop
  | .sleep _ => True
  | _ => False

/-- Elements before which nothing happens but that time passes. -/
def Element.IsCalm (e : Element) : Prop :=
  ∀ a ∈ e.acts, a.IsRest

theorem Element.isCalm_of_none : ∀ p : ElementProvider, none = some p → ∀ es, p.elements = .ok es →
    ∀ e ∈ es, e.IsCalm := by
  intro p hp
  cases hp

/-- What a run obeys from its start to its end. -/
structure World where
  settings : Settings
  provider : Option ElementProvider := none
  calm : ∀ p, provider = some p → ∀ es, p.elements = .ok es → ∀ e ∈ es, e.IsCalm := by
    exact Element.isCalm_of_none

/-- What a step of a run finds around it. -/
structure Moment where
  registry : Registry
  builtin : registry.IsBuiltin
  flows : Entries Flow := []
  slotsLocked : Bool := false
  calls : Entries Nat := []
  now : Seconds := 0.0
  stamp : Instant := 0

/-- The surroundings that a moment makes in a world. -/
def World.surroundings (w : World) (now : Moment) : Surroundings where
  settings := w.settings
  registry := now.registry
  flows := now.flows
  provider := w.provider
  slotsLocked := now.slotsLocked
  calls := now.calls
  now := now.now
  stamp := now.stamp

/-- A task in the middle of its steps. -/
structure Strand where
  task : TaskId
  control : Control
  pending : List Pending

/-- A run as it is carried out. -/
structure Execution where
  machine : Machine
  active : Option Strand := none
  /-- The effects that the run has had, the newest first. -/
  log : List Effect := []

/-- What can go on in a run by itself. -/
inductive Move where
  | begin (task : TaskId)
  | step (now : Moment)
  | tell (task : TaskId) (ticket : Nat)
  | grant (task : TaskId)

/-- What can be done to a run from outside. -/
inductive Command where
  | start (slotted : Bool)
  | pause
  | resume
  | stepOver
  | cancel (reason : Option String) (stamp : Instant)
  | setVar (name : String) (v frame : Value)
  | edit (breakpoints : Breakpoints → Breakpoints)

inductive Input where
  | move (m : Move)
  | command (c : Command)

namespace Effect

/-- Whether a task is told under a ticket, by the end of another task or by a timer. -/
def tells (t : TaskId) (ticket : Nat) : Effect → Bool
  | .tell u n => u == t && n == ticket
  | .startTimer u n _ => u == t && n == ticket
  | _ => false

/-- The type and the payload of an event. -/
def event? : Effect → Option (String × Entries Value)
  | .emit type payload _ => some (type, payload)
  | _ => none

end Effect

/-- Carries out a command; the answer says whether it was accepted. -/
def Machine.obey (m : Machine) : Command → Machine × Bool
  | .start slotted => (m.start slotted, true)
  | .pause => m.pause
  | .resume => m.resumeRun
  | .stepOver => m.stepOver
  | .cancel reason stamp => m.cancel reason stamp
  | .setVar name v frame =>
    match m.setVar name v frame with
    | .ok m => (m, true)
    | .error _ => (m, false)
  | .edit f => ({ m with run := { m.run with breakpoints := f m.run.breakpoints } }, true)

/-- A variable is written with an event, or the frame is not found and nothing happens. -/
theorem Machine.obey_setVar (m : Machine) (name : String) (v frame : Value) :
    (m.obey (.setVar name v frame)).1 = m ∨
      ∃ layers s depth, (m.obey (.setVar name v frame)).1 = (m.putScope layers s).emit "vars.patch"
        [("patch", .obj [(name, v)]), ("frame", .int depth), ("source", .str "debugger")] := by
  simp only [obey]
  unfold setVar
  cases m.frameLayers frame with
  | error e => exact .inl rfl
  | ok layers => exact .inr ⟨layers, _, _, rfl⟩

namespace Execution

/-- The execution of a machine that nothing has been asked of. -/
def ofMachine (m : Machine) : Execution :=
  { machine := m }

/-- Puts a machine in place of the old one, and its effects into the log. -/
def put (p : Execution) (m : Machine) (active : Option Strand) : Execution where
  machine := { m with effects := [] }
  active
  log := m.effects ++ p.log

def isIdle (p : Execution) : Bool :=
  p.active.isNone

def isTold (p : Execution) (t : TaskId) (ticket : Nat) : Bool :=
  p.log.any (Effect.tells t ticket)

/-- Whether a move is possible. -/
def allows (p : Execution) : Move → Bool
  | .begin t => p.isIdle && match p.machine.state? t with
    | some (.fresh _ _) | some (.woken _ _ _) => true
    | _ => false
  | .step _ => !p.isIdle
  | .tell t ticket => p.isIdle && p.isTold t ticket && match p.machine.state? t with
    | some (.waiting _ n) => n == ticket
    | _ => false
  | .grant t => match p.machine.state? t with
    | some (.waiting .grant _) => true
    | _ => false

theorem allows_grant {p : Execution} {t : TaskId} :
    p.allows (.grant t) = true ↔ ∃ k, p.machine.state? t = some (.waiting .grant k) := by
  unfold allows
  dsimp only
  split
  · rename_i k hs
    exact ⟨fun _ => ⟨k, hs⟩, fun _ => rfl⟩
  · rename_i hs
    refine ⟨fun h => (by cases h), fun ⟨k, hk⟩ => ?_⟩
    exact absurd hk (hs k)

/-- Begins the steps of a task that is ready. -/
def begin (p : Execution) (t : TaskId) : Execution :=
  let go (control : Control) (pending : List Pending) : Execution :=
    { p with machine := p.machine.setState t .running, active := some ⟨t, control, pending⟩ }
  match p.machine.task? t with
  | none => p
  | some k =>
    match k.state with
    | .fresh control interrupted =>
      if interrupted then p.put (p.machine.finish t .interrupted) none else go control k.pending
    | .woken w signalled interrupted => go (.wake w signalled interrupted) k.pending
    | _ => p

/-- Lets the task in the middle of its steps take the next one. -/
def step (p : Execution) (w : World) (now : Moment) : Execution :=
  match p.active with
  | none => p
  | some s =>
    let r := p.machine.step (w.surroundings now) s.task s.control s.pending
    let (m, next) := r.1.turn s.task r.2
    p.put m (next.map fun (control, pending) => ⟨s.task, control, pending⟩)

/-- Lets the task in the middle of its steps take the next one, in any surroundings. -/
def stepIn (p : Execution) (env : Surroundings) : Execution :=
  match p.active with
  | none => p
  | some s =>
    let r := p.machine.step env s.task s.control s.pending
    let (m, next) := r.1.turn s.task r.2
    p.put m (next.map fun (control, pending) => ⟨s.task, control, pending⟩)

theorem stepIn_eq {p : Execution} {s : Strand} (hs : p.active = some s) (env : Surroundings) :
    let r := p.machine.step env s.task s.control s.pending
    p.stepIn env = p.put (r.1.turn s.task r.2).1
      ((r.1.turn s.task r.2).2.map fun (c, q) => ⟨s.task, c, q⟩) := by
  intro r
  unfold stepIn
  rw [hs]

/-- Gives a slot to a task that waits for one. -/
def grant (p : Execution) (t : TaskId) : Execution :=
  { p with machine := p.machine.setState t (.woken .grant true false) }

/-- Makes a move, if it is possible. -/
def move (p : Execution) (w : World) (a : Move) : Execution :=
  if p.allows a then
    match a with
    | .begin t => p.begin t
    | .step now => p.step w now
    | .tell t ticket => p.put (p.machine.tell t ticket) none
    | .grant t => p.grant t
  else p

/-- Carries out a command, if no task is in the middle of its steps. -/
def obey (p : Execution) (c : Command) : Execution :=
  if p.isIdle then p.put (p.machine.obey c).1 none else p

def take (p : Execution) (w : World) : Input → Execution
  | .move a => p.move w a
  | .command c => p.obey c

/-- The execution after some moves and commands. -/
def after (w : World) : List Input → Execution → Execution
  | [], p => p
  | i :: rest, p => after w rest (p.take w i)

/-- The events of the run, the oldest first. -/
def events (p : Execution) : List (String × Entries Value) :=
  p.log.reverse.filterMap Effect.event?

end Execution

end Workflow
