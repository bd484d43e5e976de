import Workflow.Proofs.Run.Execution
import Workflow.Proofs.Run.Task
/-!
What every step of a run upholds, whatever the surroundings are: what was settled when the run was made,
which task executes it, and where its tasks stand, but for signals and cancellations.
-/

namespace Workflow

namespace TaskState

/-- A state comes of another one by signals and by cancellations. A task that waits for the removal of a
handler hands its cancellation on. -/
inductive Shifts : TaskState → TaskState → Prop
  | refl (s : TaskState) : Shifts s s
  | signal {s s' : TaskState} (h : Shifts s s') : Shifts s s'.signalled
  | interrupt {s s' : TaskState} (h : Shifts s s') : Shifts s s'.interrupted
  | handOn {s : TaskState} {t : TaskId} {o : Outcome} {i : Bool} {n : Nat}
      (h : Shifts s (.waiting (.removal t o i) n)) : Shifts s (.waiting (.removal t o true) n)

namespace Shifts

variable {s s' s'' : TaskState}

theorem trans (h : Shifts s s') (k : Shifts s' s'') : Shifts s s'' := by
  induction k with
  | refl => exact h
  | signal _ ih => exact ih.signal
  | interrupt _ ih => exact ih.interrupt
  | handOn _ ih => exact ih.handOn

theorem of_nudges (h : Nudges s s') : Shifts s s' := by
  induction h with
  | refl => exact .refl s
  | signal _ ih => exact ih.signal
  | interrupt _ ih => exact ih.interrupt

theorem running_iff (h : Shifts s s') : s' = .running ↔ s = .running := by
  induction h with
  | refl => exact Iff.rfl
  | signal _ ih => exact (Nudges.signal (.refl _)).running_iff.trans ih
  | interrupt _ ih => exact (Nudges.interrupt (.refl _)).running_iff.trans ih
  | handOn _ ih => exact ⟨fun h => (by cases h), fun h => (by cases ih.mpr h)⟩

theorem ended_iff {a : Answer} (h : Shifts s s') : s' = .ended a ↔ s = .ended a := by
  induction h with
  | refl => exact Iff.rfl
  | signal _ ih => exact (Nudges.signal (.refl _)).ended_iff.trans ih
  | interrupt _ ih => exact (Nudges.interrupt (.refl _)).ended_iff.trans ih
  | handOn _ ih => exact ⟨fun h => (by cases h), fun h => (by cases ih.mpr h)⟩

end Shifts

end TaskState

/-- Whether an effect has to do with slots. -/
def Effect.isSlot : Effect → Bool
  | .takeSlot | .queueForSlot _ | .leaveSlotQueue _ | .giveSlotBack | .passSlotOn => true
  | _ => false

/-- Whether an effect has to do with the end of a task or of a run. -/
def Effect.isClosing : Effect → Bool
  | .prune | .ended _ => true
  | _ => false

/-- Whether an effect has to do with what the engine keeps account of for all runs. -/
def Effect.isBooked (e : Effect) : Bool :=
  e.isSlot || e.isClosing

/-- Whether a step has to do with slots. -/
def Control.Bargains : Control → List Pending → Prop
  | .takeSlot, _ | .wake (.start _ _) _ _, _ | .wake .grant _ _, _ => True
  | .answer _, .slot _ :: _ => True
  | _, _ => False

namespace Machine

/-- What is settled about a run when it is made. -/
structure Origin where
  id : String
  flow : Flow
  standalone : Bool

def origin (m : Machine) : Origin :=
  ⟨m.run.id, m.run.flow, m.standalone⟩

variable {m n o : Machine}

/-- The effects that have to do with slots. -/
def slotEffects (m : Machine) : List Effect :=
  m.effects.filter Effect.isSlot

def bookedEffects (m : Machine) : List Effect :=
  m.effects.filter Effect.isBooked

theorem slotEffects_congr (h : n.bookedEffects = m.bookedEffects) : n.slotEffects = m.slotEffects := by
  have among (o : Machine) : o.slotEffects = o.bookedEffects.filter Effect.isSlot := by
    rw [slotEffects, bookedEffects, List.filter_filter]
    exact List.filter_congr fun e _ => by cases e <;> rfl
  rw [among, among, h]

theorem bookedEffects_signal (m : Machine) (t : TaskId) : (m.signal t).bookedEffects = m.bookedEffects := by
  unfold signal
  split <;> rfl

theorem bookedEffects_signals (ts : List TaskId) (m : Machine) :
    (ts.foldl signal m).bookedEffects = m.bookedEffects := by
  induction ts generalizing m with
  | nil => rfl
  | cons t ts ih => rw [List.foldl_cons, ih, bookedEffects_signal]

theorem bookedEffects_interrupt (fuel : Nat) (m : Machine) (t : TaskId) :
    (m.interrupt fuel t).bookedEffects = m.bookedEffects := by
  induction fuel generalizing m t with
  | zero => rfl
  | succ fuel ih =>
    unfold Machine.interrupt
    split
    · rfl
    · exact ih _ _
    · rfl
    · rfl
    · rfl

theorem slotEffects_signal (m : Machine) (t : TaskId) : (m.signal t).slotEffects = m.slotEffects :=
  slotEffects_congr (bookedEffects_signal m t)

theorem slotEffects_interrupt (fuel : Nat) (m : Machine) (t : TaskId) :
    (m.interrupt fuel t).slotEffects = m.slotEffects :=
  slotEffects_congr (bookedEffects_interrupt fuel m t)

theorem Mute.origin (h : Mute m n) : n.origin = m.origin :=
  show n.bare.origin = m.bare.origin from congrArg Machine.origin h.bare

/-- What a step upholds. -/
structure Upholds (m n : Machine) : Prop where
  origin : n.origin = m.origin
  main : n.main = m.main
  size : m.tasks.size ≤ n.tasks.size
  old : ∀ {t s}, m.state? t = some s → ∃ s', n.state? t = some s' ∧ s.Shifts s'
  new : ∀ {t s}, m.tasks.size ≤ t → n.state? t = some s → ∃ c, (TaskState.fresh c false).Shifts s
  pending : ∀ {t}, t < m.tasks.size → n.pending? t = m.pending? t

namespace Upholds

theorem same (ho : n.origin = m.origin) (hm : n.main = m.main) (ht : n.tasks = m.tasks) :
    Upholds m n where
  origin := ho
  main := hm
  size := Nat.le_of_eq (congrArg Array.size ht.symm)
  old hs := ⟨_, by rw [state?, ht]; exact hs, .refl _⟩
  new hlt hs := by
    rw [state?, ht] at hs
    exact absurd (lt_of_state? hs) (Nat.not_lt.mpr hlt)
  pending _ := by rw [pending?, ht]; rfl

theorem refl (m : Machine) : Upholds m m :=
  same rfl rfl rfl

theorem trans (h : Upholds m n) (k : Upholds n o) : Upholds m o where
  origin := k.origin.trans h.origin
  main := k.main.trans h.main
  size := Nat.le_trans h.size k.size
  old hs := by
    obtain ⟨s', hs', hn⟩ := h.old hs
    obtain ⟨s'', hs'', hk⟩ := k.old hs'
    exact ⟨s'', hs'', hn.trans hk⟩
  new {t s} ht hs := by
    by_cases hlt : t < n.tasks.size
    · obtain ⟨s', hs'⟩ := exists_state? hlt
      obtain ⟨c, hc⟩ := h.new ht hs'
      obtain ⟨s'', hs'', hk⟩ := k.old hs'
      rw [hs] at hs''
      cases hs''
      exact ⟨c, hc.trans hk⟩
    · exact k.new (Nat.le_of_not_lt hlt) hs
  pending ht := (k.pending (Nat.lt_of_lt_of_le ht h.size)).trans (h.pending ht)

/-- What was done before left all of it alone. -/
theorem after (k : Upholds n o) (ho : n.origin = m.origin) (hm : n.main = m.main)
    (ht : n.tasks = m.tasks) : Upholds m o :=
  (same ho hm ht).trans k

theorem of_tends (ho : n.origin = m.origin) (hm : n.main = m.main) (h : Tends m n) :
    Upholds m n where
  origin := ho
  main := hm
  size := h.size
  old hs := by
    obtain ⟨s', hs', hn⟩ := h.old hs
    exact ⟨s', hs', .of_nudges hn⟩
  new ht hs := by
    obtain ⟨c, hc⟩ := h.new ht hs
    exact ⟨c, .of_nudges hc⟩
  pending ht := h.pending ht

theorem spawn (m : Machine) (c : Control) : Upholds m (m.spawn c []).1 :=
  of_tends rfl rfl (.spawn m c)

theorem tell (m : Machine) (t : TaskId) (ticket : Nat) : Upholds m (m.tell t ticket) :=
  have h := (Silent.tell m t ticket).mute
  of_tends h.origin h.main (.tell m t ticket)

theorem endPause (m : Machine) : Upholds m m.endPause :=
  have h := (Silent.endPause m).mute
  of_tends h.origin h.main (.endPause m)

theorem cancelToken (m : Machine) (reason : Option String) : Upholds m (m.cancelToken reason) := by
  cases h : m.token.cancelled with
  | true => rw [Machine.cancelToken, if_pos h]; exact refl m
  | false =>
    have hs := (Silent.cancelToken m reason h).mute
    exact of_tends hs.origin hs.main (.cancelToken m reason)

theorem setState {t : TaskId} {s s' : TaskState} (hs : m.state? t = some s) (h : s.Shifts s') :
    Upholds m (m.setState t s') where
  origin := rfl
  main := rfl
  size := Nat.le_of_eq (size_setState s').symm
  old {u x} hu := by
    rw [state?_setState]
    split
    · rename_i htu
      rw [← htu, hs] at hu
      cases hu
      exact ⟨s', by rw [← htu, hs]; rfl, h⟩
    · exact ⟨x, hu, .refl x⟩
  new hlt hu := by
    refine absurd (lt_of_state? hu) (Nat.not_lt.mpr ?_)
    rwa [size_setState]
  pending _ := pending?_setState s'

/-- A cancellation, handed on or not. -/
theorem interrupt (fuel : Nat) (m : Machine) (t : TaskId) : Upholds m (m.interrupt fuel t) := by
  induction fuel generalizing m t with
  | zero => exact refl m
  | succ fuel ih =>
    unfold Machine.interrupt
    split
    · rename_i hs
      exact setState hs (.interrupt (.refl _))
    · rename_i hs
      exact (setState hs (.handOn (.refl _))).trans (ih _ _)
    · rename_i hs
      exact (setState hs (.interrupt (.refl _))).trans (same rfl rfl rfl)
    · rename_i hs
      exact setState hs (.interrupt (.refl _))
    · exact refl m

theorem interruptTask (m : Machine) (t : TaskId) : Upholds m (m.interruptTask t) :=
  interrupt _ m t

theorem finalize (m : Machine) (stamp : Instant) (o : Outcome) : Upholds m (m.finalize stamp o) := by
  unfold Machine.finalize
  dsimp only
  split
  · exact refl m
  · have ended (n : Machine) (ho : n.origin = m.origin) (hm : n.main = m.main)
        (ht : n.tasks = m.tasks) : Upholds m n.endPause :=
      (endPause n).after ho hm ht
    split
    · exact ended _ rfl rfl rfl
    · cases o <;> exact ended _ rfl rfl rfl

end Upholds

/-- What a step upholds that has nothing to do with slots. -/
structure Abides (m n : Machine) : Prop extends Upholds m n where
  booked : n.bookedEffects = m.bookedEffects

namespace Abides

theorem slots (h : Abides m n) : n.slotEffects = m.slotEffects :=
  slotEffects_congr h.booked

theorem same (ho : n.origin = m.origin) (hm : n.main = m.main) (ht : n.tasks = m.tasks)
    (hs : n.bookedEffects = m.bookedEffects) : Abides m n :=
  ⟨.same ho hm ht, hs⟩

theorem refl (m : Machine) : Abides m m :=
  same rfl rfl rfl rfl

theorem trans (h : Abides m n) (k : Abides n o) : Abides m o :=
  ⟨h.toUpholds.trans k.toUpholds, k.booked.trans h.booked⟩

/-- What was done before left all of it alone. -/
theorem after (k : Abides n o) (ho : n.origin = m.origin) (hm : n.main = m.main)
    (ht : n.tasks = m.tasks) (hs : n.bookedEffects = m.bookedEffects) : Abides m o :=
  (same ho hm ht hs).trans k

theorem spawn (m : Machine) (c : Control) : Abides m (m.spawn c []).1 :=
  ⟨.spawn m c, rfl⟩

theorem endPause (m : Machine) : Abides m m.endPause :=
  ⟨.endPause m, bookedEffects_signals _ _⟩

theorem cancelToken (m : Machine) (reason : Option String) : Abides m (m.cancelToken reason) := by
  refine ⟨.cancelToken m reason, ?_⟩
  unfold Machine.cancelToken
  split
  · rfl
  · exact bookedEffects_signals _ _

theorem interruptTask (m : Machine) (t : TaskId) : Abides m (m.interruptTask t) :=
  ⟨.interruptTask m t, bookedEffects_interrupt _ _ _⟩

theorem finalize (m : Machine) (stamp : Instant) (o : Outcome) : Abides m (m.finalize stamp o) := by
  refine ⟨.finalize m stamp o, ?_⟩
  unfold Machine.finalize
  dsimp only
  split
  · rfl
  · split
    · exact (Abides.endPause _).booked
    · cases o <;> exact (Abides.endPause _).booked

end Abides

section functions

variable (m) (env : Surroundings) (self : TaskId) (p : List Pending)

theorem call_abides (flow : Flow) (layers : List Nat) (node : Node) (shared : Bool) :
    Abides m (m.call env flow layers node shared p).1 := by
  unfold call
  split <;> exact .same rfl rfl rfl rfl

theorem rest_abides (seconds : Seconds) : Abides m (m.rest seconds p).1 := by
  unfold rest
  split
  · exact .refl m
  · exact .spawn m .watch

theorem sleep_abides (seconds : Seconds) : Abides m (m.sleep seconds p).1 := by
  unfold sleep
  split <;> exact .same rfl rfl rfl rfl

theorem watch_abides : Abides m (m.watch self p).1 := by
  unfold watch
  split <;> exact .same rfl rfl rfl rfl

theorem takeSlot_upholds : Upholds m (m.takeSlot env self p).1 := by
  unfold takeSlot
  split <;> exact .same rfl rfl rfl

theorem enqueue_abides : Abides m (m.enqueue p).1 := by
  unfold enqueue
  split
  · exact .refl m
  · exact (Abides.spawn m .takeSlot).trans (.spawn _ .watch)

theorem execute_abides : Abides m (m.execute env p).1 := by
  unfold execute
  split
  · exact .same rfl rfl rfl rfl
  · split
    · dsimp only
      exact .finalize m _ _
    · exact .same rfl rfl rfl rfl

theorem enter_abides (place : Place) (frame : Nat) : Abides m (m.enter place frame p).1 := by
  unfold enter
  dsimp only
  split
  · exact .same rfl rfl rfl rfl
  · split <;> exact .same rfl rfl rfl rfl

theorem takePause_abides (node : Node) : Abides m (m.takePause node).1 := by
  unfold takePause
  repeat' split
  all_goals exact .same rfl rfl rfl rfl

theorem next_abides (walk : Walk) (node : Option Node) :
    Abides m (m.next env self walk node p).1 := by
  unfold next
  split
  · exact .same rfl rfl rfl rfl
  · split
    · exact .same rfl rfl rfl rfl
    · split
      · exact .same rfl rfl rfl rfl
      · rename_i node _ _
        have h : Abides m ((m.arrive walk.frame node.id).takePause node).1 :=
          (takePause_abides _ node).after rfl rfl rfl rfl
        dsimp only
        split
        · exact h
        · exact h.trans (.same rfl rfl rfl rfl)

theorem dispatch_abides (walk : Walk) (node : Node) :
    Abides m (m.dispatch env walk node p).1 := by
  unfold dispatch
  dsimp only
  split
  · exact .same rfl rfl rfl rfl
  · split
    · exact .same rfl rfl rfl rfl
    · split
      · exact .same rfl rfl rfl rfl
      · split <;> exact .same rfl rfl rfl rfl

theorem iterate_abides (loop : Loop) (bound iterations : Nat) :
    Abides m (m.iterate env loop bound iterations p).1 := by
  unfold iterate
  dsimp only
  split
  · exact .same rfl rfl rfl rfl
  · split
    · exact .same rfl rfl rfl rfl
    · split
      · exact .same rfl rfl rfl rfl
      · exact (call_abides _ _ _ _ _ _ _).after rfl rfl rfl rfl

theorem nextItem_abides (loop : Loop) (itemName : String) (indexName : Option String) (index : Nat)
    (items : List Value) : Abides m (m.nextItem env loop itemName indexName index items p).1 := by
  unfold nextItem
  split
  · exact .same rfl rfl rfl rfl
  · split
    · exact .same rfl rfl rfl rfl
    · exact (call_abides _ _ _ _ _ _ _).after rfl rfl rfl rfl

theorem startForeach_abides (place : Place) (node : Node) :
    Abides m (m.startForeach env place node p).1 := by
  unfold startForeach
  dsimp only
  split
  · exact .same rfl rfl rfl rfl
  · split
    · exact .same rfl rfl rfl rfl
    · exact (nextItem_abides _ _ _ _ _ _ _ _).after rfl rfl rfl rfl

theorem startWhile_abides (place : Place) (node : Node) :
    Abides m (m.startWhile env place node p).1 := by
  unfold startWhile
  dsimp only
  split
  · exact .same rfl rfl rfl rfl
  · split
    · exact .same rfl rfl rfl rfl
    · split <;> exact .same rfl rfl rfl rfl

theorem supply_abides (c : Collection) : Abides m (m.supply c p).1 := by
  unfold supply
  split
  · exact .same rfl rfl rfl rfl
  · dsimp only
    split <;> exact .same rfl rfl rfl rfl

theorem element_abides (c : Collection) (acts : List Act) (item : Except HandlerFault Value) :
    Abides m (m.element env self c acts item p).1 := by
  unfold element
  split
  · exact (sleep_abides _ _ _).after rfl rfl rfl rfl
  · exact .cancelToken _ _
  · exact (watch_abides _ _ _).after rfl rfl rfl rfl
  · split
    · exact .same rfl rfl rfl rfl
    · split
      · exact .same rfl rfl rfl rfl
      · exact (call_abides _ _ _ _ _ _ _).after rfl rfl rfl rfl

theorem startElements_abides (a : Attempt) : Abides m (m.startElements env a p).1 := by
  unfold startElements
  split
  · exact .same rfl rfl rfl rfl
  · split
    · exact .same rfl rfl rfl rfl
    · dsimp only
      split
      · exact .same rfl rfl rfl rfl
      · split
        · exact .same rfl rfl rfl rfl
        · split <;> exact .same rfl rfl rfl rfl

theorem invoke_abides (place : Place) (node : Node) (target : Flow) (args : Entries Value)
    (inline : Bool) (returns : Value) (wrap : List Nat → List Pending → List Pending) :
    Abides m (m.invoke env place node target args inline returns p wrap).1 := by
  unfold invoke
  split <;> exact (call_abides _ _ _ _ _ _ _).after rfl rfl rfl rfl

theorem startExecuteFlow_abides (place : Place) (node : Node) :
    Abides m (m.startExecuteFlow env place node p).1 := by
  unfold startExecuteFlow
  split
  · exact .same rfl rfl rfl rfl
  · split
    · exact .same rfl rfl rfl rfl
    · split
      · exact (invoke_abides _ _ _ _ _ _ _ _ _ _).after rfl rfl rfl rfl
      · exact .same rfl rfl rfl rfl

theorem startPrimitive_abides (a : Attempt) : Abides m (m.startPrimitive env a p).1 := by
  unfold startPrimitive
  dsimp only
  split
  · exact .refl m
  · split
    · exact .refl m
    · split
      · exact .refl m
      · exact (Abides.spawn m _).trans (.spawn _ .watch)

theorem attempt_abides (a : Attempt) : Abides m (m.attempt env a p).1 := by
  unfold attempt
  dsimp only
  split
  · exact .same rfl rfl rfl rfl
  · exact (startForeach_abides _ _ _ _ _).after rfl rfl rfl rfl
  · exact (startElements_abides _ _ _ _).after rfl rfl rfl rfl
  · exact (startWhile_abides _ _ _ _ _).after rfl rfl rfl rfl
  · exact (startExecuteFlow_abides _ _ _ _ _).after rfl rfl rfl rfl
  · exact (startPrimitive_abides _ _ _ _).after rfl rfl rfl rfl

theorem handle_abides (c : Call) : Abides m (m.handle env c p).1 := by
  unfold handle
  split
  · exact .same rfl rfl rfl rfl
  · split
    · split
      · exact .same rfl rfl rfl rfl
      · exact .same rfl rfl rfl rfl
      · exact (rest_abides _ _ _).after rfl rfl rfl rfl
    · exact .same rfl rfl rfl rfl

theorem act_abides (c : Call) (acts : List Act) (finish : Finish) :
    Abides m (m.act env self c acts finish p).1 := by
  unfold act
  split
  · exact (sleep_abides _ _ _).after rfl rfl rfl rfl
  · exact (watch_abides _ _ _).after rfl rfl rfl rfl
  · exact .cancelToken _ _
  · split
    · exact .same rfl rfl rfl rfl
    · exact .same rfl rfl rfl rfl
    · exact .same rfl rfl rfl rfl
    · unfold subexecute
      split
      · exact .same rfl rfl rfl rfl
      · exact (invoke_abides _ _ _ _ _ _ _ _ _ _).after rfl rfl rfl rfl

theorem afterFailure_abides (a : Attempt) (since : Seconds) (e : ErrorInfo) :
    Abides m (m.afterFailure env a since e p).1 := by
  unfold afterFailure
  dsimp only
  split
  · split
    · exact (rest_abides _ _ _).after rfl rfl rfl rfl
    · exact .same rfl rfl rfl rfl
  · exact .same rfl rfl rfl rfl
  · exact .same rfl rfl rfl rfl
  · exact .same rfl rfl rfl rfl

theorem afterAttempt_abides (a : Attempt) (since : Seconds) (o : Outcome) :
    Abides m (m.afterAttempt env a since o p).1 := by
  unfold afterAttempt
  split
  · exact .same rfl rfl rfl rfl
  · exact .same rfl rfl rfl rfl
  · exact (afterFailure_abides _ _ _ _ _ _).after rfl rfl rfl rfl

theorem writeReturns_abides (place : Place) (node : Node) (child : List Nat) (returns : Value) :
    Abides m (m.writeReturns place node child returns) := by
  unfold writeReturns
  dsimp only
  split <;> exact .same rfl rfl rfl rfl

theorem resumeSlot_upholds (held : Bool) (a : Answer) :
    Upholds m (m.resume env (.slot held) a p).1 := by
  unfold resume
  dsimp only
  split <;> split <;> exact .same rfl rfl rfl

theorem resume_abides {k : Pending} (hk : ∀ held, k ≠ .slot held) (a : Answer) :
    Abides m (m.resume env k a p).1 := by
  unfold resume
  split
  · exact absurd rfl (hk _)
  · dsimp only
    exact .finalize m _ _
  · dsimp only
    exact .finalize m _ _
  · dsimp only
    exact (Abides.cancelToken m _).trans (.finalize _ _ _)
  · exact .same rfl rfl rfl rfl
  · exact .same rfl rfl rfl rfl
  · exact (afterAttempt_abides _ _ _ _ _ _).after rfl rfl rfl rfl
  · split <;> exact .same rfl rfl rfl rfl
  · dsimp only
    split <;> exact .same rfl rfl rfl rfl
  · exact .same rfl rfl rfl rfl
  · exact .same rfl rfl rfl rfl
  · exact .same rfl rfl rfl rfl
  · exact (nextItem_abides _ _ _ _ _ _ _ _).after rfl rfl rfl rfl
  · exact .same rfl rfl rfl rfl
  · exact .same rfl rfl rfl rfl
  · exact .same rfl rfl rfl rfl
  · exact .same rfl rfl rfl rfl
  · exact (writeReturns_abides _ _ _ _ _).after rfl rfl rfl rfl
  · exact .same rfl rfl rfl rfl
  · exact .same rfl rfl rfl rfl
  · exact .same rfl rfl rfl rfl
  · exact .same rfl rfl rfl rfl
  · exact .same rfl rfl rfl rfl

theorem wakeFromSettlement_abides (a : Attempt) (handler watcher : TaskId) (interrupted : Bool) :
    Abides m (m.wakeFromSettlement env a handler watcher interrupted p).1 := by
  have h : Abides m (if m.hasEnded watcher = true then m else m.interruptTask watcher) := by
    split
    · exact .same rfl rfl rfl rfl
    · exact .interruptTask _ _
  unfold wakeFromSettlement
  dsimp only
  generalize (if m.hasEnded watcher = true then m else m.interruptTask watcher) = n at h ⊢
  split
  · exact h
  · split
    · exact h
    · split
      · exact h
      · exact h.trans (.interruptTask _ _)

theorem wakeStart_upholds (taker watcher : TaskId) (signalled interrupted : Bool) :
    Upholds m (m.wake env self (.start taker watcher) signalled interrupted p).1 := by
  unfold wake
  dsimp only
  split
  · refine Upholds.trans ?_ (.interruptTask _ _)
    split
    · exact .same rfl rfl rfl
    · exact .interruptTask _ _
  · split
    · exact .interruptTask _ _
    · exact (Upholds.interruptTask _ _).trans (.interruptTask _ _)

theorem wakeGrant_upholds (signalled interrupted : Bool) :
    Upholds m (m.wake env self .grant signalled interrupted p).1 := by
  unfold wake
  dsimp only
  split
  · split <;> exact .same rfl rfl rfl
  · exact .same rfl rfl rfl

/-! What the steps ask for that have to do with slots. -/

theorem takeSlot_slots : (m.takeSlot env self p).1.slotEffects =
    (if env.slotsLocked then .queueForSlot self else .takeSlot) :: m.slotEffects := by
  unfold takeSlot
  split <;> rfl

theorem resumeSlot_slots (held : Bool) (a : Answer) : (m.resume env (.slot held) a p).1.slotEffects =
    (if held then [.giveSlotBack] else []) ++ m.slotEffects := by
  unfold resume
  dsimp only
  split <;> cases held <;> rfl

theorem wakeStart_slots (taker watcher : TaskId) (signalled interrupted : Bool) :
    (m.wake env self (.start taker watcher) signalled interrupted p).1.slotEffects =
      (match interrupted, m.ending? taker with
        | true, some .done => [.giveSlotBack]
        | _, _ => []) ++ m.slotEffects := by
  unfold wake
  cases interrupted with
  | true =>
    dsimp only
    rw [if_pos rfl]
    unfold interruptTask
    rw [slotEffects_interrupt]
    split <;> rename_i h
    · rw [h]
      rfl
    · rw [slotEffects_interrupt]
      split <;> first | rfl | (rename_i h'; exact absurd h' (by simpa using h))
  | false =>
    dsimp only
    rw [if_neg (by simp)]
    unfold interruptTask
    split <;> simp only [slotEffects_interrupt] <;> rfl

theorem wakeGrant_effects (signalled interrupted : Bool) :
    (m.wake env self .grant signalled interrupted p).1.effects =
      (if interrupted then if signalled then [.giveSlotBack] else [] else [.passSlotOn]) ++
        .leaveSlotQueue self :: m.effects := by
  unfold wake
  cases interrupted <;> cases signalled <;> rfl

theorem wake_abides {w : Wait} (hs : ∀ t u, w ≠ .start t u) (hg : w ≠ .grant)
    (signalled interrupted : Bool) : Abides m (m.wake env self w signalled interrupted p).1 := by
  unfold wake
  split
  · exact absurd rfl (hs _ _)
  · exact absurd rfl hg
  · exact .same rfl rfl rfl rfl
  · exact .same rfl rfl rfl rfl
  · exact (wakeFromSettlement_abides _ _ _ _ _ _ _).after rfl rfl rfl rfl
  · dsimp only
    split
    · exact .same rfl rfl rfl rfl
    · split
      · exact .same rfl rfl rfl rfl
      · exact (Abides.interruptTask (m.dropTimer self) _).after rfl rfl rfl rfl
  · exact .same rfl rfl rfl rfl
  · dsimp only
    split
    · exact .same rfl rfl rfl rfl
    · exact (Abides.interruptTask (m.dropTimer self) _).after rfl rfl rfl rfl
  · split
    · exact .same rfl rfl rfl rfl
    · split <;> exact .same rfl rfl rfl rfl
  · exact .same rfl rfl rfl rfl

theorem step_abides {c : Control} (hc : ¬ c.Bargains p) : Abides m (m.step env self c p).1 := by
  cases c with
  | enqueue => exact (enqueue_abides _ _).after rfl rfl rfl rfl
  | takeSlot => exact absurd trivial hc
  | watch => exact (watch_abides _ _ _).after rfl rfl rfl rfl
  | execute => exact (execute_abides _ _ _).after rfl rfl rfl rfl
  | enter place frame => exact (enter_abides _ _ _ _).after rfl rfl rfl rfl
  | next walk node => exact (next_abides _ _ _ _ _ _).after rfl rfl rfl rfl
  | dispatch walk node => exact (dispatch_abides _ _ _ _ _).after rfl rfl rfl rfl
  | «try» a => exact (attempt_abides _ _ _ _).after rfl rfl rfl rfl
  | iterate loop bound iterations => exact (iterate_abides _ _ _ _ _ _).after rfl rfl rfl rfl
  | supply c => exact (supply_abides _ _ _).after rfl rfl rfl rfl
  | element c acts item => exact (element_abides _ _ _ _ _ _ _).after rfl rfl rfl rfl
  | handle c => exact (handle_abides _ _ _ _).after rfl rfl rfl rfl
  | act c acts finish => exact (act_abides _ _ _ _ _ _ _).after rfl rfl rfl rfl
  | wake w signalled interrupted =>
    refine (wake_abides _ _ _ _ ?_ ?_ _ _).after rfl rfl rfl rfl
    · rintro t u rfl
      exact hc trivial
    · rintro rfl
      exact hc trivial
  | answer a =>
    cases p with
    | nil => exact .same rfl rfl rfl rfl
    | cons k p =>
      refine (resume_abides _ _ _ (k := k) ?_ _).after rfl rfl rfl rfl
      rintro held rfl
      exact hc trivial

/-- Every step upholds what it must, also if it has to do with slots. -/
theorem step_upholds (c : Control) : Upholds m (m.step env self c p).1 := by
  by_cases hc : c.Bargains p
  · cases c with
    | takeSlot => exact (takeSlot_upholds _ _ _ _).after rfl rfl rfl
    | wake w s i =>
      cases w with
      | start t u => exact wakeStart_upholds m env self p t u s i
      | grant => exact wakeGrant_upholds m env self p s i
      | _ => exact absurd hc id
    | answer a =>
      rcases p with _ | ⟨_ | _, p⟩
      all_goals first
        | exact absurd hc id
        | exact resumeSlot_upholds m env p _ a
    | _ => exact absurd hc id
  · exact (step_abides m env self p hc).toUpholds

/-- A task that takes a step keeps running. -/
theorem step_running (ht : m.state? self = some .running) (c : Control) :
    (m.step env self c p).1.state? self = some .running := by
  obtain ⟨s, hs, h⟩ := (step_upholds m env self p c).old ht
  rw [hs, h.running_iff.mpr rfl]

theorem turn_slots (x : Turn) : (m.turn self x).1.slotEffects = m.slotEffects := by
  cases x with
  | go c p => rfl
  | wait w on limit p =>
    have enlists (ticket : Nat) (on : List TaskId) (m : Machine) :
        (on.foldl (enlist self ticket) m).slotEffects = m.slotEffects := by
      induction on generalizing m with
      | nil => rfl
      | cons o on ih =>
        rw [List.foldl_cons, ih]
        unfold enlist
        split <;> rfl
    have h : ((m.modifyTask self ({ · with pending := p })).suspend self w on).1.slotEffects =
        m.slotEffects := enlists _ _ _
    cases limit <;> exact h
  | pass p => rfl
  | stop a =>
    have tells (os : List (TaskId × Nat)) (m : Machine) :
        (os.foldl (fun m o => m.effect (.tell o.1 o.2)) m).slotEffects = m.slotEffects := by
      induction os generalizing m with
      | nil => rfl
      | cons o os ih => rw [List.foldl_cons, ih]; rfl
    exact tells _ _

theorem turn_origin (x : Turn) :
    (m.turn self x).1.origin = m.origin ∧ (m.turn self x).1.main = m.main := by
  cases x with
  | go c p => exact ⟨rfl, rfl⟩
  | wait w on limit p =>
    have h := Mute.suspend (m.modifyTask self ({ · with pending := p })) self w on
    cases limit <;> exact ⟨h.origin, h.main⟩
  | pass p => exact ⟨rfl, rfl⟩
  | stop a =>
    have h := Mute.finish m self a
    exact ⟨h.origin, h.main⟩

/-- What is done from outside upholds it too, starting apart. -/
theorem obey_abides (m : Machine) {c : Command} (hc : ∀ s, c ≠ .start s) :
    Abides m (m.obey c).1 := by
  have ended (n : Machine) (ho : n.origin = m.origin) (hm : n.main = m.main)
      (ht : n.tasks = m.tasks) (hs : n.bookedEffects = m.bookedEffects) : Abides m n.endPause :=
    (Abides.endPause n).after ho hm ht hs
  cases c with
  | start s => exact absurd rfl (hc s)
  | pause =>
    show Abides m m.pause.1
    unfold Machine.pause
    split <;> exact .same rfl rfl rfl rfl
  | resume =>
    show Abides m m.resumeRun.1
    unfold Machine.resumeRun
    split
    · exact ended _ rfl rfl rfl rfl
    · exact .refl m
  | stepOver =>
    show Abides m m.stepOver.1
    unfold Machine.stepOver
    split
    · exact ended _ rfl rfl rfl rfl
    · exact .refl m
  | cancel reason stamp =>
    show Abides m (m.cancel reason stamp).1
    have halted (reason : Option String) : Abides m (m.cancelToken reason).endPause :=
      (Abides.cancelToken m reason).trans (.endPause _)
    unfold Machine.cancel
    split
    · exact .refl m
    · dsimp only
      -- The reason that is given, and then whether the run has ended with that.
      split <;> split
      all_goals
        dsimp only
        first
          | exact (halted _).trans (.finalize _ _ _)
          | exact halted _
  | setVar name v frame =>
    obtain he | ⟨layers, s, depth, he⟩ := m.obey_setVar name v frame
    · rw [he]
      exact .refl m
    · rw [he]
      exact .same rfl rfl rfl rfl
  | edit f => exact .same rfl rfl rfl rfl

theorem start_upholds (m : Machine) (s : Bool) : Upholds m { m.start s with main := m.main } := by
  unfold Machine.start
  split
  · exact .same rfl rfl rfl
  · exact (Upholds.spawn m _).trans (.same rfl rfl rfl)

theorem interruptMain_abides (m : Machine) : Abides m m.interruptMain := by
  unfold Machine.interruptMain
  split
  · exact .interruptTask m _
  · exact .refl m

theorem obey_origin (m : Machine) (c : Command) : (m.obey c).1.origin = m.origin := by
  cases c with
  | start s => exact (start_upholds m s).origin
  | _ => exact (obey_abides m (by simp)).origin

theorem obey_slots (m : Machine) (c : Command) : (m.obey c).1.slotEffects = m.slotEffects := by
  cases c with
  | start s =>
    show (m.start s).slotEffects = _
    unfold Machine.start
    split <;> rfl
  | _ => exact (obey_abides m (by simp)).slots

end functions

end Machine

end Workflow
