import Workflow.Proofs.Run.Isolation
import Workflow.Proofs.Run.Site
/-!
What a run writes, whatever its surroundings are. A step writes through no other layers than those of the site
that it is taken at, or of the site of the work that it hands an answer to, and nothing else writes but what sets
a variable from outside.
-/

namespace Workflow

/-- Whether a variable is set from outside. -/
def Happening.IsWrite : Happening → Prop
  | .command (.setVar _ _ _) => True
  | _ => False

theorem Lies.place {P : List Nat → Prop} {k : Pending} (h : Lies P k.site?) : Lies P k.place? := by
  cases k with
  | plan c acts finish => exact Machine.lies_none
  | _ => exact h

namespace Machine

section functions

variable (m : Machine) (env : Surroundings) (self : TaskId) (p : List Pending)

theorem sleep_layers (seconds : Seconds) : (m.sleep seconds p).1.layers = m.layers := by
  unfold sleep
  split <;> rfl

theorem watch_layers : (m.watch self p).1.layers = m.layers := by
  unfold watch
  split <;> rfl

theorem enqueue_layers : (m.enqueue p).1.layers = m.layers := by
  unfold enqueue
  split <;> rfl

theorem takeSlot_layers : (m.takeSlot env self p).1.layers = m.layers := by
  unfold takeSlot
  split <;> rfl

theorem execute_layers : (m.execute env p).1.layers = m.layers := by
  unfold execute
  split
  · rfl
  · split
    · exact finalize_layers _ _ _
    · rfl

theorem handle_layers (c : Call) : (m.handle env c p).1.layers = m.layers := by
  unfold handle
  split
  · rfl
  · split
    · split
      · rfl
      · rfl
      · exact rest_layers _ _ _
    · rfl

theorem cancelToken_layers (reason : Option String) : (m.cancelToken reason).layers = m.layers :=
  (cancelToken_silent m reason).mute.layers

theorem interruptTask_layers (t : TaskId) : (m.interruptTask t).layers = m.layers :=
  (Silent.interruptTask m t).mute.layers

theorem wakeFromSettlement_layers (a : Attempt) (handler watcher : TaskId) (interrupted : Bool) :
    (m.wakeFromSettlement env a handler watcher interrupted p).1.layers = m.layers := by
  have left : (if m.hasEnded watcher then m else m.interruptTask watcher).layers = m.layers := by
    split
    · rfl
    · exact interruptTask_layers m watcher
  unfold wakeFromSettlement
  dsimp only
  generalize (if m.hasEnded watcher then m else m.interruptTask watcher) = n at left ⊢
  split
  · exact left
  · split
    · exact left
    · split
      · exact left
      · exact (interruptTask_layers n handler).trans left

theorem wake_layers (w : Wait) (signalled interrupted : Bool) :
    (m.wake env self w signalled interrupted p).1.layers = m.layers := by
  cases w with
  | start taker watcher =>
    unfold wake
    dsimp only
    split
    · refine (interruptTask_layers _ _).trans ?_
      split
      · rfl
      · exact interruptTask_layers m taker
    · split
      · exact interruptTask_layers m watcher
      · exact (interruptTask_layers _ _).trans (interruptTask_layers m watcher)
  | settlement a handler watcher => exact wakeFromSettlement_layers _ env p a handler watcher interrupted
  | grace handler =>
    unfold wake
    dsimp only
    split
    · rfl
    · split
      · rfl
      · exact interruptTask_layers _ _
  | nap watcher =>
    unfold wake
    dsimp only
    split
    · rfl
    · exact interruptTask_layers _ _
  | grant =>
    unfold wake
    dsimp only
    split
    · split <;> rfl
    · rfl
  | rousing watcher before =>
    unfold wake
    dsimp only
    split
    · rfl
    · split <;> rfl
  | _ => rfl

/-- A call changes the same of a run, whatever work is left to be done. -/
theorem call_fst (flow : Flow) (layers : List Nat) (node : Node) (shared : Bool) (q : List Pending) :
    (m.call env flow layers node shared p).1 = (m.call env flow layers node shared q).1 := by
  unfold call
  split <;> rfl

theorem invoke_fst (place : Place) (node : Node) (target : Flow) (args : Entries Value) (inline : Bool)
    (returns : Value) (wrap wrap' : List Nat → List Pending → List Pending) :
    (m.invoke env place node target args inline returns p wrap).1 =
      (m.invoke env place node target args inline returns p wrap').1 := by
  unfold invoke
  split
  · exact call_fst _ _ _ _ _ _ _ _
  · exact call_fst _ _ _ _ _ _ _ _

variable {P : Nat → List Nat → Prop} (hP : Widens P)

include hP

theorem element_spreads {c : Collection} (acts : List Act) (item : Except HandlerFault Value)
    (h : P m.layers.size c.loop.place.layers) : Spreads P m (m.element env self c acts item p).1 := by
  cases acts with
  | nil => exact (element_roams hP m env p self (List.forall_mem_nil _) item h).spreads
  | cons act acts =>
    cases act with
    | sleep ms => exact .same (sleep_layers m _ _)
    | cancel reason => exact .same (cancelToken_layers m reason)
    | awaitCancel => exact .same (watch_layers m self _)

theorem act_spreads (c : Call) (acts : List Act) (finish : Finish) (h : P m.layers.size c.place.layers) :
    Spreads P m (m.act env self c acts finish p).1 := by
  cases acts with
  | cons act acts =>
    cases act with
    | sleep ms => exact .same (sleep_layers m _ _)
    | cancel reason => exact .same (cancelToken_layers m reason)
    | awaitCancel => exact .same (watch_layers m self _)
  | nil =>
    cases finish with
    | subflow ref args inline saveAs =>
      show Spreads P m (m.subexecute env c ref args inline saveAs p).1
      unfold subexecute
      split
      · exact .refl m
      · rw [invoke_fst m env p _ _ _ _ _ _ _ fun _ p => p]
        exact (invoke_roams hP m env p _ _ _ _ _ h).spreads
    | _ => exact .refl m

/-- A step writes through no other layers than those of sites of the kind that it is taken at. -/
theorem step_spreads {c : Control} (hc : Lies (P m.layers.size) c.site?)
    (hp : ∀ a k q, c = .answer a → p = k :: q → Lies (P m.layers.size) k.site?) :
    Spreads P m (m.step env self c p).1 := by
  cases c with
  | enqueue => exact .same (enqueue_layers m p)
  | takeSlot => exact .same (takeSlot_layers m env self p)
  | watch => exact .same (watch_layers m self p)
  | execute => exact .same (execute_layers m env p)
  | enter place frame => exact (enter_roams m p frame (hc _ rfl)).spreads
  | next walk node => exact (next_roams hP m env p self node (hc _ rfl)).spreads
  | dispatch walk node => exact (dispatch_roams hP m env p node (hc _ rfl)).spreads
  | «try» a => exact (attempt_roams hP m env p (hc _ rfl)).spreads
  | iterate loop bound iterations => exact (iterate_roams hP m env p bound iterations (hc _ rfl)).spreads
  | supply d => exact (supply_roams m p (hc _ rfl)).spreads
  | element d acts item => exact element_spreads m env self p hP acts item (hc _ rfl)
  | handle d => exact .same (handle_layers m env p d)
  | act d acts finish => exact act_spreads m env self p hP d acts finish (hc _ rfl)
  | wake w s i => exact .same (wake_layers m env self p w s i)
  | answer a =>
    cases p with
    | nil => exact .refl m
    | cons k p => exact (resume_roams hP m env p (hp a k p rfl rfl).place a).spreads

end functions

end Machine

namespace Execution

variable {P : Nat → List Nat → Prop} {x : Execution} {a : Happening}

/-- Nothing but a step writes, unless a variable is set from outside. -/
theorem meet_layers (ha : ∀ env, a ≠ .step env) (hw : ¬ a.IsWrite) : (x.meet a).machine.layers = x.machine.layers := by
  have hu := x.undergoes a
  generalize x.meet a = y at hu ⊢
  cases hu with
  | refused => rfl
  | step env => exact absurd rfl (ha env)
  | @begin t =>
    have hb := x.begins t
    generalize x.begin t = z at hb ⊢
    cases hb with
    | dismissed => exact (Machine.Mute.finish x.machine t .interrupted).layers
    | _ => rfl
  | tell => exact (Machine.Silent.tell x.machine _ _).mute.layers
  | grant => rfl
  | @command c =>
    refine Machine.obey_layers x.machine fun name v frame hc => hw ?_
    rw [hc]
    trivial
  | interrupt =>
    show x.machine.interruptMain.layers = _
    unfold Machine.interruptMain
    split
    · exact Machine.interruptTask_layers _ _
    · rfl

theorem stepIn_layers (env : Surroundings) {s : Strand} (hs : x.active = some s) :
    (x.stepIn env).machine.layers = (x.machine.step env s.task s.control s.pending).1.layers := by
  rw [stepIn_eq hs]
  exact Machine.turn_layers _ _ _

/-- Whatever happens, it writes through layers of no other kind than those of all sites. -/
theorem IsHoused.spreads (hP : Widens P) (h : x.IsHoused P)
    (hw : a.IsWrite → (x.meet a).machine.layers = x.machine.layers) :
    Machine.Spreads P x.machine (x.meet a).machine := by
  by_cases hwrite : a.IsWrite
  · exact .same (hw hwrite)
  by_cases hstep : ∃ env, a = .step env
  · obtain ⟨env, rfl⟩ := hstep
    cases hx : x.active with
    | none =>
      show Machine.Spreads P x.machine (x.stepIn env).machine
      rw [show x.stepIn env = x by unfold Execution.stepIn; rw [hx]]
      exact .refl x.machine
    | some s =>
      obtain ⟨hc, hp⟩ := h.active s hx
      refine (Machine.step_spreads x.machine env s.task s.pending hP hc fun _ k _ _ he =>
        hp k (he ▸ List.mem_cons_self)).trans (.same (stepIn_layers env hx))
  · exact .same (meet_layers (fun env he => hstep ⟨env, he⟩) hwrite)

end Execution

end Workflow
