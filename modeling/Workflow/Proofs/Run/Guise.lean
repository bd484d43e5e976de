import Workflow.Proofs.Run.Execution
import Workflow.Proofs.Run.Task
/-!
Runs in another guise. What the tasks of a run do next, what they wait for and what waits in them is given
otherwise, but not what they have to do with one another. So tasks begin, are suspended, woken, cancelled and ended
in the guise as they are without it.
-/

namespace Workflow

/-- Effects between the tasks of a run and its scheduler: no event and no note of a call. -/
def Effect.IsInward : Effect → Prop
  | .emit _ _ _ | .note _ => False
  | _ => True

/-- Another way to give what a run is made of, which may depend on the task that it is found in. -/
structure Guise where
  run : Run → Run
  attempt : TaskId → Attempt → Attempt
  control : TaskId → Control → Control
  work : TaskId → List Pending → List Pending
  effect : Effect → Effect
  log : List Effect → List Effect
  work_nil : ∀ t, work t [] = []
  control_wake : ∀ t w signalled interrupted, control t (.wake w signalled interrupted) =
    .wake (match w with
      | .settlement a handler watcher => .settlement (attempt t a) handler watcher
      | w => w) signalled interrupted
  effect_plain : ∀ e, e.IsInward → effect e = e
  tells_log : ∀ es t ticket, (log es).any (Effect.tells t ticket) = es.any (Effect.tells t ticket)

namespace Guise

section guise

variable (g : Guise)

def wait (t : TaskId) : Wait → Wait
  | .settlement a handler watcher => .settlement (g.attempt t a) handler watcher
  | w => w

def turn (t : TaskId) : Turn → Turn
  | .go c p => .go (g.control t c) (g.work t p)
  | .wait w on limit p => .wait (g.wait t w) on limit (g.work t p)
  | .pass p => .pass (g.work t p)
  | .stop a => .stop a

def state (t : TaskId) : TaskState → TaskState
  | .fresh c interrupted => .fresh (g.control t c) interrupted
  | .running => .running
  | .waiting w ticket => .waiting (g.wait t w) ticket
  | .woken w signalled interrupted => .woken (g.wait t w) signalled interrupted
  | .ended a => .ended a

def task (t : TaskId) (k : Task) : Task :=
  { k with state := g.state t k.state, pending := g.work t k.pending }

def machine (m : Machine) : Machine := { m with
  run := g.run m.run
  tasks := m.tasks.mapIdx g.task
  effects := m.effects.map g.effect }

def strand (s : Strand) : Strand where
  task := s.task
  control := g.control s.task s.control
  pending := g.work s.task s.pending

def execution (x : Execution) : Execution where
  machine := g.machine x.machine
  active := x.active.map g.strand
  log := g.log x.log

/-- What a run logs from now on is given in the guise. -/
def Opens (x : Execution) : Prop :=
  ∀ es, g.log (es ++ x.log) = es.map g.effect ++ g.log x.log

end guise

variable {g : Guise} {t : TaskId} {x : Execution}

/-! Tasks. -/

theorem state?_machine (g : Guise) (m : Machine) (t : TaskId) :
    (g.machine m).state? t = (m.state? t).map (g.state t) := by
  simp only [Machine.state?, machine, Array.getElem?_mapIdx, Option.map_map]
  rfl

theorem ending?_machine (g : Guise) (m : Machine) (t : TaskId) : (g.machine m).ending? t = m.ending? t := by
  unfold Machine.ending?
  rw [state?_machine]
  rcases m.state? t with _ | s
  · rfl
  · cases s <;> rfl

theorem hasEnded_machine (g : Guise) (m : Machine) (t : TaskId) : (g.machine m).hasEnded t = m.hasEnded t := by
  rw [Machine.hasEnded, Machine.hasEnded, ending?_machine]

theorem effect_machine (m : Machine) {e : Effect} (h : e.IsInward) :
    (g.machine m).effect e = g.machine (m.effect e) := by
  unfold Machine.effect machine
  rw [List.map_cons, g.effect_plain e h]

/-- A change of a task that is the same in the guise and without it. -/
theorem modifyTask_machine (m : Machine) {f f' : Task → Task} (h : ∀ k, f' (g.task t k) = g.task t (f k)) :
    (g.machine m).modifyTask t f' = g.machine (m.modifyTask t f) := by
  unfold Machine.modifyTask machine
  congr 1
  refine Array.ext_getElem? fun i => ?_
  simp only [Array.getElem?_modify, Array.getElem?_mapIdx]
  split
  · rename_i hi
    subst hi
    cases m.tasks[t]? with
    | none => rfl
    | some k => exact congrArg some (h k)
  · rfl

theorem setState_machine (m : Machine) (t : TaskId) (s : TaskState) :
    (g.machine m).setState t (g.state t s) = g.machine (m.setState t s) :=
  modifyTask_machine m fun _ => rfl

theorem wake_machine (m : Machine) (t : TaskId) (w : Wait) (signalled interrupted : Bool) :
    ((g.machine m).setState t (.woken (g.wait t w) signalled interrupted)).effect (.ready t) =
      g.machine ((m.setState t (.woken w signalled interrupted)).effect (.ready t)) := by
  rw [← effect_machine (e := .ready t) _ trivial, ← setState_machine]
  rfl

theorem signal_machine (m : Machine) (t : TaskId) : (g.machine m).signal t = g.machine (m.signal t) := by
  unfold Machine.signal
  rw [state?_machine]
  rcases m.state? t with _ | _ | _ | ⟨w, k⟩ | _ | _
  case some.waiting =>
    cases w with
    | removal handler r passedOn => exact wake_machine m t (.removal handler r passedOn) true passedOn
    | _ => exact wake_machine m t _ true false
  all_goals rfl

theorem signals_machine (ts : List TaskId) (m : Machine) :
    ts.foldl Machine.signal (g.machine m) = g.machine (ts.foldl Machine.signal m) :=
  List.foldl_hom g.machine signal_machine

theorem tell_machine (m : Machine) (t : TaskId) (ticket : Nat) :
    (g.machine m).tell t ticket = g.machine (m.tell t ticket) := by
  unfold Machine.tell
  rw [state?_machine]
  rcases m.state? t with _ | _ | _ | _ | _ | _
  case some.waiting =>
    simp only [Option.map_some, state]
    split
    · exact signal_machine m t
    · rfl
  all_goals rfl

theorem interrupt_machine (fuel : Nat) (m : Machine) (t : TaskId) :
    (g.machine m).interrupt fuel t = g.machine (m.interrupt fuel t) := by
  induction fuel generalizing m t with
  | zero => rfl
  | succ fuel ih =>
    unfold Machine.interrupt
    rw [state?_machine]
    rcases m.state? t with _ | _ | _ | ⟨w, k⟩ | _ | _
    case some.waiting =>
      cases w with
      | removal handler r passedOn =>
        refine Eq.trans ?_ (ih _ handler)
        rw [← setState_machine]
        rfl
      | _ => exact wake_machine m t _ false true
    case some.fresh c i => exact setState_machine m t (.fresh c true)
    case some.woken w s i => exact setState_machine m t (.woken w s true)
    all_goals rfl

theorem interruptTask_machine (m : Machine) (t : TaskId) :
    (g.machine m).interruptTask t = g.machine (m.interruptTask t) := by
  unfold Machine.interruptTask
  rw [interrupt_machine]
  simp [machine]

theorem enlist_machine (ticket : Nat) (m : Machine) (u : TaskId) :
    Machine.enlist t ticket (g.machine m) u = g.machine (Machine.enlist t ticket m u) := by
  unfold Machine.enlist
  rw [hasEnded_machine]
  split
  · exact effect_machine m trivial
  · exact modifyTask_machine m fun k => rfl

theorem suspend_machine (m : Machine) (t : TaskId) (w : Wait) (on : List TaskId) :
    (g.machine m).suspend t (g.wait t w) on = (g.machine (m.suspend t w on).1, (m.suspend t w on).2) := by
  rw [Machine.suspend_eq, Machine.suspend_eq, ← List.foldl_hom g.machine (enlist_machine m.nextTicket),
    ← setState_machine]
  rfl

theorem finish_machine (m : Machine) (t : TaskId) (a : Answer) :
    (g.machine m).finish t a = g.machine (m.finish t a) := by
  have hobservers : (g.machine m).observers? t = m.observers? t := by
    simp only [Machine.observers?, machine, Array.getElem?_mapIdx, Option.map_map]
    rfl
  have hended : (g.machine m).modifyTask t (fun _ => { state := .ended a }) =
      g.machine (m.modifyTask t fun _ => { state := .ended a }) := by
    refine modifyTask_machine m fun k => ?_
    rw [task, g.work_nil]
    rfl
  have htold (os : List (TaskId × Nat)) (m : Machine) :
      os.foldl (fun m o => m.effect (.tell o.1 o.2)) (g.machine m) =
        g.machine (os.foldl (fun m o => m.effect (.tell o.1 o.2)) m) :=
    List.foldl_hom g.machine fun m _ => effect_machine m trivial
  rw [Machine.finish_eq, Machine.finish_eq, hobservers, hended, htold]
  exact effect_machine _ trivial

theorem spawn_machine (m : Machine) (c : Control) (p : List Pending) :
    (g.machine m).spawn (g.control m.tasks.size c) (g.work m.tasks.size p) =
      (g.machine (m.spawn c p).1, (m.spawn c p).2) := by
  have hsize : (g.machine m).tasks.size = m.tasks.size := Array.size_mapIdx
  unfold Machine.spawn
  rw [hsize]
  refine Prod.ext ?_ rfl
  refine Eq.trans (congrArg (Machine.effect · (.ready m.tasks.size)) ?_) (effect_machine _ trivial)
  unfold machine
  rw [Array.mapIdx_push]
  rfl

theorem cancelToken_machine (m : Machine) (reason : Option String) :
    (g.machine m).cancelToken reason = g.machine (m.cancelToken reason) := by
  unfold Machine.cancelToken
  rw [show (g.machine m).token = m.token from rfl]
  split
  · rfl
  · exact signals_machine m.watchers { m with token := m.token.cancel reason, watchers := [] }

theorem endPause_machine (m : Machine) : (g.machine m).endPause = g.machine m.endPause :=
  signals_machine m.paused { m with paused := [] }

/-- How a task goes on, the same in the guise and without it. -/
theorem turn_machine (m : Machine) (t : TaskId) (r : Turn) :
    (g.machine m).turn t (g.turn t r) = (g.machine (m.turn t r).1,
      (m.turn t r).2.map fun (c, p) => (g.control t c, g.work t p)) := by
  cases r with
  | go c p => rfl
  | wait w on limit p =>
    have hput : (g.machine m).modifyTask t ({ · with pending := g.work t p }) =
        g.machine (m.modifyTask t ({ · with pending := p })) :=
      modifyTask_machine m fun _ => rfl
    unfold Machine.turn turn
    dsimp only
    rw [hput, suspend_machine]
    cases limit with
    | none => rfl
    | some after => exact congrArg (·, none) (effect_machine _ trivial)
  | pass p =>
    refine Prod.ext ?_ rfl
    refine Eq.trans ?_ (effect_machine _ trivial)
    exact congrArg (Machine.effect · (.ready t)) (modifyTask_machine m
      (f := fun k => { k with pending := p, state := .woken .sleep true false }) fun _ => rfl)
  | stop a => exact Prod.ext (finish_machine m t a) rfl

/-! Moves. -/

theorem isTold_execution (g : Guise) (x : Execution) (t : TaskId) (ticket : Nat) :
    (g.execution x).isTold t ticket = x.isTold t ticket :=
  g.tells_log x.log t ticket

theorem put_execution (h : g.Opens x) (m : Machine) (a : Option Strand) :
    (g.execution x).put (g.machine m) (a.map g.strand) = g.execution (x.put m a) :=
  congrArg (Execution.mk _ (a.map g.strand)) (h m.effects).symm

theorem isIdle_execution (g : Guise) (x : Execution) : (g.execution x).isIdle = x.isIdle :=
  Option.isNone_map

theorem allows_execution (g : Guise) (x : Execution) (a : Move) : (g.execution x).allows a = x.allows a := by
  have hs (t : TaskId) : (g.execution x).machine.state? t = (x.machine.state? t).map (g.state t) :=
    g.state?_machine x.machine t
  unfold Execution.allows
  cases a with
  | begin t =>
    dsimp only
    rw [isIdle_execution, hs]
    rcases x.machine.state? t with _ | _ | _ | _ | _ | _ <;> rfl
  | step now =>
    dsimp only
    rw [isIdle_execution]
  | tell t ticket =>
    dsimp only
    rw [isIdle_execution, isTold_execution, hs]
    rcases x.machine.state? t with _ | _ | _ | _ | _ | _ <;> rfl
  | grant t =>
    dsimp only
    rw [hs]
    rcases x.machine.state? t with _ | _ | _ | ⟨w, k⟩ | _ | _
    case some.waiting => cases w <;> rfl
    all_goals rfl

theorem begin_execution (h : g.Opens x) (t : TaskId) : (g.execution x).begin t = g.execution (x.begin t) := by
  have hk : (g.execution x).machine.task? t = (x.machine.task? t).map (g.task t) := Array.getElem?_mapIdx
  have begun (c : Control) (p : List Pending) : ({ g.execution x with
      machine := (g.execution x).machine.setState t .running
      active := some ⟨t, g.control t c, g.work t p⟩ } : Execution) =
      g.execution { x with machine := x.machine.setState t .running, active := some ⟨t, c, p⟩ } :=
    congrArg (Execution.mk · (some ⟨t, g.control t c, g.work t p⟩) (g.log x.log))
      (setState_machine x.machine t .running)
  have dismissed : (g.execution x).put ((g.execution x).machine.finish t .interrupted) none =
      g.execution (x.put (x.machine.finish t .interrupted) none) := by
    rw [← put_execution h]
    congr 1
    exact finish_machine x.machine t .interrupted
  unfold Execution.begin
  dsimp only
  rw [hk]
  rcases x.machine.task? t with _ | ⟨⟨⟩, p, os⟩
  case some.fresh c i =>
    cases i
    · exact begun c p
    · exact dismissed
  case some.woken w s i =>
    have hw := begun (.wake w s i) p
    rw [g.control_wake] at hw
    exact hw
  all_goals rfl

theorem tell_execution (h : g.Opens x) (t : TaskId) (ticket : Nat) :
    (g.execution x).put ((g.execution x).machine.tell t ticket) none =
      g.execution (x.put (x.machine.tell t ticket) none) := by
  rw [← put_execution h]
  congr 1
  exact tell_machine x.machine t ticket

theorem grant_execution (g : Guise) (x : Execution) (t : TaskId) :
    (g.execution x).grant t = g.execution (x.grant t) :=
  congrArg (Execution.mk · (x.active.map g.strand) (g.log x.log))
    (setState_machine x.machine t (.woken .grant true false))

/-- A step that does the same in the guise, in whatever surroundings it is taken there. -/
theorem stepIn_execution (h : g.Opens x) {s : Strand} (hs : x.active = some s) {env env' : Surroundings}
    (he : let r := x.machine.step env s.task s.control s.pending
      (g.machine x.machine).step env' s.task (g.control s.task s.control) (g.work s.task s.pending) =
        (g.machine r.1, g.turn s.task r.2)) :
    (g.execution x).stepIn env' = g.execution (x.stepIn env) := by
  have hg : (g.execution x).active = some (g.strand s) := congrArg (Option.map g.strand) hs
  rw [Execution.stepIn_eq hg, Execution.stepIn_eq hs, ← put_execution h]
  have hr : (g.execution x).machine.step env' (g.strand s).task (g.strand s).control (g.strand s).pending = _ := he
  rw [hr, show (g.strand s).task = s.task from rfl, turn_machine]
  congr 1
  generalize (Machine.turn _ _ _).2 = next
  cases next <;> rfl

end Guise

end Workflow
