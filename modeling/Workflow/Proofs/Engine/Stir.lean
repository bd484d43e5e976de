import Workflow.Proofs.Engine.Change
import Workflow.Proofs.Value.Entries
/-!
What deeds do to what an engine keeps of its runs besides the runs themselves: which runs are held, the
events, and the sessions of the debugger.
-/

namespace Workflow

/-- What an engine keeps of its runs. -/
structure Books where
  /-- How many runs were made. -/
  made : Nat
  runs : Entries MachineId
  stored : Entries MachineId
  bus : Bus Listener
  sessions : Entries DebugSession
  lastValues : Entries (Entries Value)
  retired : List String
  emitted : List RunEvent

/-- A debugger attaches itself to a run. -/
def Deed.Attaches (run : String) : Deed → Prop
  | .debug given => Debugger.opOf given = "attach" ∧ (given.field "runId").name = run
  | _ => False

/-- A debugger detaches itself from a run. -/
def Deed.Detaches (run : String) : Deed → Prop
  | .debug given => Debugger.opOf given = "detach" ∧ (given.field "runId").name = run
  | _ => False

namespace Engine

def books (e : Engine) : Books where
  made := e.machines.size
  runs := e.runs
  stored := e.stored
  bus := e.bus
  sessions := e.debugger.sessions
  lastValues := e.debugger.lastValues
  retired := e.debugger.retired
  emitted := e.emitted

variable {d : Deed} {e e' : Engine} {k : MachineId} {run : String}

/-- A part of what a deed does to the books. -/
inductive Stir (d : Deed) : Engine → Engine → Prop
  | still {e e' : Engine} (h : e'.books = e.books) : Stir d e e'
  | emit (e : Engine) (k : MachineId) (type : String) (payload : Entries Value) (view : RunView) :
      Stir d e (e.emit k type payload view)
  | release (e : Engine) (run : String) : Stir d e (e.release run)
  | hold {e e' : Engine} (hd : d.Makes) (id : String) (hf : Entries.contains id e.runs = false)
      (h : e'.books = { e.books with
        made := e.machines.size + 1, runs := Entries.insert id e.machines.size e.runs
        stored := Entries.insert id e.machines.size e.stored }) : Stir d e e'
  | make {e e' : Engine} (hd : d.Makes) (h : e'.books = { e.books with made := e.machines.size + 1 }) : Stir d e e'
  | attach {e : Engine} {run : String} {k : MachineId} (hd : d.Attaches run)
      (hk : Entries.find? run e.runs = some k) : Stir d e (Debugger.openSession run k e)
  | detach {e : Engine} {run : String} (hd : d.Detaches run) :
      Stir d e (Debugger.dropRetired run (Debugger.closeSession run e))
  | close {e : Engine} (hd : d = .closeDebugger) : Stir d e e.closeDebugger

abbrev Stirs (d : Deed) : Engine → Engine → Prop :=
  Relation.ReflTransGen (Stir d)

theorem Stirs.still (h : e'.books = e.books) : Stirs d e e' :=
  .single (.still h)

theorem Stirs.after {e'' : Engine} (h : e'.books = e.books) (g : Stirs d e' e'') : Stirs d e e'' :=
  .head (.still h) g

theorem foldl_stirs {α : Type} {f : Engine → α → Engine} (hf : ∀ e a, Stirs d e (f e a))
    (as : List α) (e : Engine) : Stirs d e (as.foldl f e) := by
  induction as generalizing e with
  | nil => exact .refl
  | cons a as ih => exact (hf e a).trans (ih _)

theorem promiseSlot_stirs (e : Engine) : Stirs d e e.promiseSlot := by
  unfold promiseSlot
  split
  · exact .refl
  · exact .still (by simp [books, queue])

theorem apply_stirs (k : MachineId) (e : Engine) (x : Effect) : Stirs d e (apply k e x) := by
  cases x with
  | emit type payload view => exact .single (.emit e k type payload view)
  | giveSlotBack =>
    refine Stirs.after ?_ (promiseSlot_stirs _)
    rfl
  | passSlotOn =>
    show Stirs d e (if e.slots.free > 0 then e.promiseSlot else e)
    split
    · exact promiseSlot_stirs e
    · exact .refl
  | note c => cases c <;> exact .still rfl
  | prune => exact foldl_stirs (fun e run => .single (.release e run)) _ e
  | ended t =>
    show Stirs d e (e.ended k t)
    unfold ended
    dsimp only
    split
    · refine Stirs.after ?_ (foldl_stirs (fun e (c : Client) => ?_) _ _)
      · rfl
      · exact .still rfl
    · exact .refl
  | _ => exact .still rfl

theorem settleEffects_stirs (e : Engine) (k : MachineId) : Stirs d e (e.settleEffects k) := by
  refine Stirs.after ?_ (foldl_stirs (apply_stirs k) _ _)
  simp [books]

theorem onMachine_stirs (e : Engine) (k : MachineId) (f : Machine → Machine) :
    Stirs d e (e.onMachine k f) := by
  refine Stirs.after ?_ (settleEffects_stirs _ k)
  simp [books]

theorem stepActive_stirs (e : Engine) (a : Activity) : Stirs d e (e.stepActive a) := by
  unfold stepActive
  dsimp only
  have h (m : Machine) : Stirs d e (settleEffects { e with
      machines := (e.machines.modify a.machine fun _ => default).modify a.machine fun _ => m
      active := none } a.machine) := .after (by simp [books]) (settleEffects_stirs _ _)
  split
  · exact (h _).tail (.still rfl)
  · exact h _

theorem begin_stirs (e : Engine) (k : MachineId) (t : TaskId) : Stirs d e (e.begin k t) := by
  unfold Engine.begin
  dsimp only
  split
  · exact .refl
  · split
    · split
      · exact onMachine_stirs _ _ _
      · exact .still (by simp [books])
    · exact .still (by simp [books])
    · exact .refl

theorem addMachine_books (e : Engine) (m : Machine) :
    (e.addMachine m).1.books = { e.books with
      made := e.machines.size + 1
      runs := if m.standalone then e.runs else Entries.insert m.run.id e.machines.size e.runs
      stored := if m.standalone then e.stored else Entries.insert m.run.id e.machines.size e.stored } := by
  simp [books, addMachine]

theorem dropRetired_push (run : String) (e : Engine) (ps : List Push) :
    (Debugger.dropRetired run (e.push ps)).books = (Debugger.dropRetired run e).books := by
  unfold Debugger.dropRetired
  by_cases hr : e.debugger.retired.contains run = true
  · rw [if_pos hr, if_pos (show (e.push ps).debugger.retired.contains run = true from hr)]
    rfl
  · rw [if_neg hr, if_neg (show ¬ (e.push ps).debugger.retired.contains run = true from hr)]
    rfl

/-- Every change is one to the books, or leaves them as they are. -/
theorem Change.stirs (h : Change d e e') : Stirs d e e' := by
  cases h with
  | aside h => exact .still (by simp [books, h.machines, h.runs, h.stored, h.bus, h.debugger, h.emitted])
  | turn ha => exact stepActive_stirs _ _
  | begin ha hr =>
    refine Stirs.after ?_ (begin_stirs _ _ _)
    rfl
  | tell ha hr =>
    refine Stirs.after ?_ (onMachine_stirs _ _ _)
    rfl
  | command c ha hk hs => exact onMachine_stirs _ _ _
  | interrupt ha hd hk => exact onMachine_stirs _ _ _
  | release => exact .single (.release _ _)
  | make hd id f vars breakpoints pauses hf => exact .single (.hold hd id hf (addMachine_books _ _))
  | makeStandalone hd id f vars breakpoints pauses => exact .single (.make hd (addMachine_books _ _))
  | attach hd ho hk =>
    subst hd
    exact .tail (.single (.attach ⟨ho, rfl⟩ hk)) (.still rfl)
  | detach hd ho =>
    subst hd
    exact .tail (.single (.detach ⟨ho, rfl⟩)) (.still (dropRetired_push _ _ _))
  | observers => exact .still rfl
  | close hd => exact .single (.close hd)

theorem Changes.stirs (h : Changes d e e') : Stirs d e e' := by
  induction h with
  | refl => exact .refl
  | tail _ h ih => exact ih.trans h.stirs

end Engine

end Workflow
