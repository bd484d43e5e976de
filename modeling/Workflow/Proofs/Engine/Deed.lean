import Workflow.Proofs.Debug.Rejection
import Workflow.Proofs.Run.Execution
/-!
An engine as it is used, one deed at a time: it takes a step, time passes, or a client asks for
something. Clients are heard while no task is in the middle of its steps. What clients ask for leaves
the engine as it is if it is refused.
-/

namespace Workflow

/-- What can happen to an engine. -/
inductive Deed where
  | step
  | pass (t : Seconds)
  | setHandlers (r : Registry)
  | keepFlow (f : Flow) (replace : Bool)
  | deleteFlow (id : String)
  | create (f : Flow) (r : Engine.RunRequest)
  | createOf (flow : String) (r : Engine.RunRequest)
  | createStandalone (f : Flow) (r : Engine.RunRequest)
  | start (run : String)
  | startStandalone (k : MachineId)
  /-- Cancels a run; the client may wait for its end. -/
  | cancel (run : String) (reason : Option String) (waits : Bool)
  | discard (run : String)
  | shutdown
  /-- Cancels the task that executes a run. -/
  | cancelTask (run : String)
  /-- A command that is given to a run and not to its engine. -/
  | command (k : MachineId) (c : Command)
  | debug (given : Value)
  | subscribe (name : String) (run : Option String)
  | unsubscribe (observer : Nat)
  | closeDebugger

/-- Whether a command makes the task that executes a run. -/
def Command.isStart : Command → Bool
  | .start _ => true
  | _ => false

def Command.isCancel : Command → Bool
  | .cancel _ _ => true
  | _ => false

/-- Whether a command is what a debugger asks a run for. -/
def Command.Steers (op : String) (given : Value) : Command → Prop
  | .pause => op = "pause"
  | .resume => op = "resume"
  | .stepOver => op = "stepOver"
  | .setVar name v frame => op = "setVar" ∧ name = (given.field "name").name ∧
    v = given.field "value" ∧ frame = given.field "frame"
  | .edit _ => op ∈ ["setBreakpoints", "addBreakpoint", "removeBreakpoint"]
  | .start _ | .cancel _ _ => False

/-- Whether a deed may give a command to a run. -/
def Deed.Gives (e : Engine) (k : MachineId) (c : Command) : Deed → Prop
  | .start run => Entries.find? run e.runs = some k ∧ c.isStart = true
  | .startStandalone j => j = k ∧ c.isStart = true
  | .cancel run _ _ | .discard run => Entries.find? run e.runs = some k ∧ c.isCancel = true
  | .shutdown => c.isCancel = true
  | .command j c' => j = k ∧ c = c'
  | .debug given => Entries.find? (given.field "runId").name e.runs = some k ∧
    c.Steers (Debugger.opOf given) given
  | _ => False

/-- Whether a deed makes a run. -/
def Deed.Makes : Deed → Prop
  | .create _ _ | .createOf _ _ | .createStandalone _ _ => True
  | _ => False

namespace Engine

/-- Does what a client asks for. -/
def ask (e : Engine) : Deed → Except Refusal Engine
  | .step | .pass _ => .ok e
  | .setHandlers registry => .ok { e with registry }
  | .keepFlow f replace => e.keepFlow f replace
  | .deleteFlow id => e.deleteFlow id
  | .create f r => (e.createRun f r).map (·.1)
  | .createOf flow r => (e.createRunOf flow r).map (·.1)
  | .createStandalone f r => .ok (e.createStandalone f r).1
  | .start run => e.startRun run
  | .startStandalone k => .ok (if (e.machine k).standalone then e.startStandalone k else e)
  | .cancel run reason waits =>
    if waits then (e.cancelAndAwait run reason).map (·.1)
    else (e.find run).map fun k => (e.cancelMachine k reason).1
  | .discard run => (e.discard run).map (·.1)
  | .shutdown => .ok e.shutdown
  | .cancelTask run => e.cancelTask run
  | .command k c => .ok (if c.isStart then e else (e.commandRun k (·.obey c)).1)
  | .debug given => .ok (Debugger.handle e given).1
  | .subscribe name run => .ok { e with debugger := (e.debugger.subscribe name run).1 }
  | .unsubscribe observer => .ok { e with debugger := e.debugger.unsubscribe observer }
  | .closeDebugger => .ok e.closeDebugger

/-- The engine after a deed. -/
def meet (e : Engine) : Deed → Engine
  | .step => e.step.getD e
  | .pass t => { e with now := if t > e.now then t else e.now }
  | d =>
    if e.active.isNone then
      match e.ask d with
      | .ok e' => e'
      | .error _ => e
    else e

/-- A deed that is no step and no wait is carried out while no task is in the middle of its steps. -/
theorem meet_cases (e : Engine) (d : Deed) : d = .step ∨ (∃ t, d = .pass t) ∨ e.meet d = e ∨
    (e.active = none ∧ e.ask d = .ok (e.meet d)) := by
  unfold meet
  split
  · exact .inl rfl
  · exact .inr (.inl ⟨_, rfl⟩)
  · split
    · rename_i ha
      split
      · exact .inr (.inr (.inr ⟨Option.isNone_iff_eq_none.mp ha, ‹_›⟩))
      · exact .inr (.inr (.inl rfl))
    · exact .inr (.inr (.inl rfl))

/-- The engine after some deeds. -/
def after : List Deed → Engine → Engine
  | [], e => e
  | d :: ds, e => after ds (e.meet d)

theorem after_append (ds es : List Deed) (e : Engine) :
    after (ds ++ es) e = after es (after ds e) := by
  induction ds generalizing e with
  | nil => rfl
  | cons d ds ih => exact ih _

/-- What every deed keeps is kept by all of them. -/
theorem after_keeps {P : Engine → Prop} {ds : List Deed} (hd : ∀ d ∈ ds, ∀ e, P e → P (e.meet d))
    {e : Engine} (he : P e) : P (after ds e) := by
  induction ds generalizing e with
  | nil => exact he
  | cons d ds ih =>
    exact ih (fun d hm => hd d (List.mem_cons_of_mem _ hm)) (hd d List.mem_cons_self e he)

/-- An engine that has just been made. -/
def opened (settings : Settings) (registry : Registry) (provider : Option ElementProvider)
    (shared : Entries Value) : Engine :=
  { create settings registry with provider, shared }

end Engine

end Workflow
