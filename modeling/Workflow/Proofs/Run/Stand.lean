import Workflow.Proofs.Run.Upholding
/-!
How a run stands, and how its events show it. Every event carries a view of the run at its moment. Whatever a
step or a command does, all events of it show the status, the reason for a pause and the node that the run is
left with: where these change, they change before the first event.
-/

namespace Workflow

/-- How a run stands: its status, the reason for a pause, and the node that it has come to. -/
structure Stand where
  status : Status
  reason : Option String
  current : Option String
  deriving DecidableEq

def RunView.stand (v : RunView) : Stand :=
  ⟨v.status, v.pauseReason, v.current⟩

/-- How an event shows its run. -/
def Effect.stand? : Effect → Option Stand
  | .emit _ _ view => some view.stand
  | _ => none

namespace Machine

variable {m n o : Machine}

def stand (m : Machine) : Stand :=
  m.view.stand

/-- How the events that a run asks for show it, the newest first. -/
def shown (m : Machine) : List Stand :=
  m.effects.filterMap Effect.stand?

theorem shown_of_effects (he : m.effects = []) : m.shown = [] := by
  rw [shown, he]
  rfl

/-- All events show the run as it stands. -/
def IsFrank (m : Machine) : Prop :=
  ∀ s ∈ m.shown, s = m.stand

theorem IsFrank.of_shown (h : m.shown = []) : m.IsFrank := by
  rw [IsFrank, h]
  exact fun _ => nofun

/-- The only event shows the run as it stands. -/
theorem IsFrank.one (h : m.shown = []) (hn : n.shown = n.stand :: m.shown) : n.IsFrank := by
  rw [IsFrank, hn, h]
  exact fun _ => List.mem_singleton.mp

/-- The run stands as it did, and new events show it so. -/
structure Shows (m n : Machine) : Prop where
  stand : n.stand = m.stand
  shown : ∃ k, n.shown = List.replicate k m.stand ++ m.shown

/-- The run stands as it did, and there are no new events. -/
structure Still (m n : Machine) : Prop where
  stand : n.stand = m.stand
  shown : n.shown = m.shown

namespace Still

theorem refl (m : Machine) : Still m m :=
  ⟨rfl, rfl⟩

theorem trans (h : Still m n) (k : Still n o) : Still m o :=
  ⟨k.stand.trans h.stand, k.shown.trans h.shown⟩

/-- What was done before changed nothing of it. -/
theorem after (k : Still n o) (hs : n.stand = m.stand) (he : n.shown = m.shown) : Still m o :=
  trans ⟨hs, he⟩ k

theorem of_mute (h : Mute m n) : Still m n := by
  obtain ⟨d, hd, hmute⟩ := h.adds
  refine ⟨?_, ?_⟩
  · simp only [Machine.stand, view, RunView.stand, h.run]
  · have hnone : d.filterMap Effect.stand? = [] := by
      refine List.filterMap_eq_nil_iff.mpr fun e he => ?_
      have := hmute e he
      cases e <;> first | rfl | cases this
    rw [Machine.shown, hd, List.filterMap_append, hnone]
    rfl

theorem endPause (m : Machine) : Still m m.endPause :=
  (of_mute (Silent.endPause m).mute).after rfl rfl

theorem cancelToken (m : Machine) (reason : Option String) : Still m (m.cancelToken reason) := by
  cases h : m.token.cancelled with
  | true => rw [Machine.cancelToken, if_pos h]; exact refl m
  | false => exact (of_mute (Silent.cancelToken m reason h).mute).after rfl rfl

theorem spawn (m : Machine) (c : Control) (p : List Pending) : Still m (m.spawn c p).1 :=
  of_mute (Silent.spawn m c p).mute

theorem interruptTask (m : Machine) (t : TaskId) : Still m (m.interruptTask t) :=
  of_mute (Silent.interruptTask m t).mute

theorem shows (h : Still m n) : Shows m n :=
  ⟨h.stand, 0, h.shown⟩

theorem frank (h : Still m n) (hm : m.IsFrank) : n.IsFrank := by
  intro s hs
  rw [h.shown] at hs
  rw [h.stand]
  exact hm s hs

end Still

namespace Shows

theorem same (k : Nat) (hs : n.stand = m.stand) (he : n.shown = List.replicate k m.stand ++ m.shown) :
    Shows m n :=
  ⟨hs, k, he⟩

theorem trans (h : Shows m n) (g : Shows n o) : Shows m o := by
  obtain ⟨i, hi⟩ := h.shown
  obtain ⟨j, hj⟩ := g.shown
  refine ⟨g.stand.trans h.stand, j + i, ?_⟩
  rw [hj, hi, h.stand, ← List.append_assoc, List.replicate_append_replicate]

/-- What was done before changed nothing of it. -/
theorem after (g : Shows n o) (hs : n.stand = m.stand) (he : n.shown = m.shown) : Shows m o :=
  trans (same 0 hs he) g

theorem emit (m : Machine) (type : String) (payload : Entries Value) : Shows m (m.emit type payload) :=
  same 1 rfl rfl

theorem frank (h : Shows m n) (hm : m.IsFrank) : n.IsFrank := by
  obtain ⟨k, hk⟩ := h.shown
  intro s hs
  rw [hk] at hs
  rw [h.stand]
  rcases List.mem_append.mp hs with hs | hs
  · exact (List.mem_replicate.mp hs).2
  · exact hm s hs

end Shows

section functions

variable (m) (env : Surroundings) (self : TaskId) (p : List Pending)

theorem call_still (flow : Flow) (layers : List Nat) (node : Node) (shared : Bool) :
    Still m (m.call env flow layers node shared p).1 := by
  unfold call
  split <;> exact ⟨rfl, rfl⟩

theorem rest_still (seconds : Seconds) : Still m (m.rest seconds p).1 := by
  unfold rest
  split
  · exact .refl m
  · exact .spawn m .watch []

theorem sleep_still (seconds : Seconds) : Still m (m.sleep seconds p).1 := by
  unfold sleep
  split <;> exact .refl m

theorem watch_still : Still m (m.watch self p).1 := by
  unfold watch
  split <;> exact ⟨rfl, rfl⟩

theorem takeSlot_still : Still m (m.takeSlot env self p).1 := by
  unfold takeSlot
  split <;> exact ⟨rfl, rfl⟩

theorem enqueue_still : Still m (m.enqueue p).1 := by
  unfold enqueue
  split
  · exact .refl m
  · exact (Still.spawn m .takeSlot []).trans (.spawn _ .watch [])

theorem enter_still (place : Place) (frame : Nat) : Still m (m.enter place frame p).1 := by
  unfold enter
  dsimp only
  split
  · exact .refl m
  · split <;> exact .refl m

theorem takePause_still (node : Node) : Still m (m.takePause node).1 := by
  unfold takePause
  repeat' split
  all_goals exact ⟨rfl, rfl⟩

theorem iterate_still (loop : Loop) (bound iterations : Nat) :
    Still m (m.iterate env loop bound iterations p).1 := by
  unfold iterate
  dsimp only
  split
  · exact .refl m
  · split
    · exact .refl m
    · split
      · exact .refl m
      · exact (call_still _ _ _ _ _ _ _).after rfl rfl

theorem nextItem_still (loop : Loop) (itemName : String) (indexName : Option String) (index : Nat)
    (items : List Value) : Still m (m.nextItem env loop itemName indexName index items p).1 := by
  unfold nextItem
  split
  · exact .refl m
  · split
    · exact .refl m
    · exact (call_still _ _ _ _ _ _ _).after rfl rfl

theorem startForeach_still (place : Place) (node : Node) :
    Still m (m.startForeach env place node p).1 := by
  unfold startForeach
  dsimp only
  split
  · exact .refl m
  · split
    · exact .refl m
    · exact nextItem_still _ _ _ _ _ _ _ _

theorem startWhile_still (place : Place) (node : Node) : Still m (m.startWhile env place node p).1 := by
  unfold startWhile
  dsimp only
  split
  · exact .refl m
  · split
    · exact .refl m
    · split <;> exact .refl m

theorem startElements_still (a : Attempt) : Still m (m.startElements env a p).1 := by
  unfold startElements
  split
  · exact .refl m
  · split
    · exact .refl m
    · dsimp only
      split
      · exact .refl m
      · split
        · exact .refl m
        · split <;> exact ⟨rfl, rfl⟩

theorem invoke_still (place : Place) (node : Node) (target : Flow) (args : Entries Value)
    (inline : Bool) (returns : Value) (wrap : List Nat → List Pending → List Pending) :
    Still m (m.invoke env place node target args inline returns p wrap).1 := by
  unfold invoke
  split <;> exact (call_still _ _ _ _ _ _ _).after rfl rfl

theorem startExecuteFlow_still (place : Place) (node : Node) :
    Still m (m.startExecuteFlow env place node p).1 := by
  unfold startExecuteFlow
  split
  · exact .refl m
  · split
    · exact .refl m
    · split
      · exact invoke_still _ _ _ _ _ _ _ _ _ _
      · exact .refl m

theorem startPrimitive_still (a : Attempt) : Still m (m.startPrimitive env a p).1 := by
  unfold startPrimitive
  dsimp only
  split
  · exact .refl m
  · split
    · exact .refl m
    · split
      · exact .refl m
      · exact (Still.spawn m _ []).trans (.spawn _ .watch [])

theorem handle_still (c : Call) : Still m (m.handle env c p).1 := by
  unfold handle
  split
  · exact .refl m
  · split
    · split
      · exact .refl m
      · exact .refl m
      · exact rest_still _ _ _
    · exact ⟨rfl, rfl⟩

theorem act_still (c : Call) (acts : List Act) (finish : Finish) :
    Still m (m.act env self c acts finish p).1 := by
  unfold act
  split
  · exact sleep_still _ _ _
  · exact watch_still _ _ _
  · exact .cancelToken _ _
  · split
    · exact .refl m
    · exact .refl m
    · exact .refl m
    · unfold subexecute
      split
      · exact .refl m
      · exact invoke_still _ _ _ _ _ _ _ _ _ _

theorem element_still (c : Collection) (acts : List Act) (item : Except HandlerFault Value) :
    Still m (m.element env self c acts item p).1 := by
  unfold element
  split
  · exact sleep_still _ _ _
  · exact .cancelToken _ _
  · exact watch_still _ _ _
  · split
    · exact .refl m
    · split
      · exact .refl m
      · exact (call_still _ _ _ _ _ _ _).after rfl rfl

theorem wakeFromSettlement_still (a : Attempt) (handler watcher : TaskId) (interrupted : Bool) :
    Still m (m.wakeFromSettlement env a handler watcher interrupted p).1 := by
  have h : Still m (if m.hasEnded watcher = true then m else m.interruptTask watcher) := by
    split
    · exact .refl m
    · exact .interruptTask _ _
  unfold wakeFromSettlement
  dsimp only
  generalize (if m.hasEnded watcher = true then m else m.interruptTask watcher) = n at h ⊢
  split
  · exact h
  · split
    · exact h
    · split
      · exact h
      · exact h.trans (.interruptTask _ _)

theorem wake_still (w : Wait) (signalled interrupted : Bool) :
    Still m (m.wake env self w signalled interrupted p).1 := by
  have slot (n : Machine) (e : Effect) (he : e.stand? = none) : Still n (n.effect e) := by
    refine ⟨rfl, ?_⟩
    rw [shown, effect, List.filterMap_cons, he]
    rfl
  unfold wake
  split
  · rename_i taker watcher
    dsimp only
    split
    · refine Still.trans ?_ (.interruptTask _ _)
      split
      · exact slot m _ rfl
      · exact .interruptTask _ _
    · split
      · exact .interruptTask _ _
      · exact (Still.interruptTask _ _).trans (.interruptTask _ _)
  · dsimp only
    split
    · split <;> exact ⟨rfl, rfl⟩
    · exact ⟨rfl, rfl⟩
  · exact ⟨rfl, rfl⟩
  · exact .refl m
  · exact (wakeFromSettlement_still _ _ _ _ _ _ _).after rfl rfl
  · dsimp only
    split
    · exact ⟨rfl, rfl⟩
    · split
      · exact ⟨rfl, rfl⟩
      · exact (Still.interruptTask (m.dropTimer self) _).after rfl rfl
  · exact .refl m
  · dsimp only
    split
    · exact ⟨rfl, rfl⟩
    · exact (Still.interruptTask (m.dropTimer self) _).after rfl rfl
  · split
    · exact .refl m
    · split <;> exact .refl m
  · exact ⟨rfl, rfl⟩

/-! Events. -/

theorem merge_shows (layers : List Nat) (node : String) (values : Entries Value) :
    Shows m (m.merge layers node values) :=
  .same 1 rfl rfl

/-- The end of a run is told once it has its status. -/
theorem finalize_frank (h : m.shown = []) (stamp : Instant) (o : Outcome) :
    (m.finalize stamp o).IsFrank := by
  have ended {n : Machine} (hn : n.shown = n.stand :: m.shown) : n.endPause.IsFrank :=
    (Still.endPause n).frank (.one h hn)
  unfold finalize
  dsimp only
  split
  · exact .of_shown h
  · split
    · exact ended rfl
    · cases o <;> exact ended rfl

theorem execute_frank (h : m.shown = []) : (m.execute env p).1.IsFrank := by
  unfold execute
  split
  · exact .of_shown h
  · split
    · exact finalize_frank m h _ _
    · exact .one h rfl

/-- The pause before a node is told once the run has come to the node. -/
theorem next_frank (h : m.shown = []) (walk : Walk) (node : Option Node) :
    (m.next env self walk node p).1.IsFrank := by
  unfold next
  split
  · exact .of_shown h
  · split
    · exact .of_shown h
    · split
      · exact .of_shown h
      · rename_i node _ _
        have hp := (takePause_still (m.arrive walk.frame node.id) node).shown.trans h
        dsimp only
        split
        · exact .of_shown hp
        · exact .one hp rfl

theorem dispatch_shows (walk : Walk) (node : Node) : Shows m (m.dispatch env walk node p).1 := by
  unfold dispatch
  dsimp only
  split
  · exact .same 0 rfl rfl
  · split
    · exact .same 1 rfl rfl
    · split
      · exact .same 0 rfl rfl
      · split
        · exact .same 2 rfl rfl
        · exact .same 2 rfl rfl
        · exact .same 0 rfl rfl

theorem supply_shows (c : Collection) : Shows m (m.supply c p).1 := by
  unfold supply
  split
  · exact .same 0 rfl rfl
  · dsimp only
    split
    · exact .same 0 rfl rfl
    · exact merge_shows m _ _ _

theorem writeReturns_shows (place : Place) (node : Node) (child : List Nat) (returns : Value) :
    Shows m (m.writeReturns place node child returns) := by
  unfold writeReturns
  dsimp only
  split
  · exact .same 0 rfl rfl
  · exact merge_shows m _ _ _

theorem attempt_shows (a : Attempt) : Shows m (m.attempt env a p).1 := by
  have told := Shows.emit m "node.started" (startedPayload a.node a.number a.place.depth)
  unfold attempt
  dsimp only
  split
  · exact told
  · exact told.trans (startForeach_still _ _ _ _ _).shows
  · exact told.trans (startElements_still _ _ _ _).shows
  · exact told.trans (startWhile_still _ _ _ _ _).shows
  · exact told.trans (startExecuteFlow_still _ _ _ _ _).shows
  · exact told.trans (startPrimitive_still _ _ _ _).shows

theorem afterFailure_shows (a : Attempt) (since : Seconds) (e : ErrorInfo) :
    Shows m (m.afterFailure env a since e p).1 := by
  unfold afterFailure
  dsimp only
  split
  · split
    · refine Shows.trans ?_ (rest_still _ _ _).shows
      exact .same 1 rfl rfl
    · exact .same 1 rfl rfl
  · exact .same 1 rfl rfl
  · exact .same 1 rfl rfl
  · exact .same 1 rfl rfl

theorem afterAttempt_shows (a : Attempt) (since : Seconds) (o : Outcome) :
    Shows m (m.afterAttempt env a since o p).1 := by
  unfold afterAttempt
  split
  · exact .same 0 rfl rfl
  · exact .same 1 rfl rfl
  · exact afterFailure_shows _ _ _ _ _ _

theorem resume_frank (h : m.shown = []) (k : Pending) (a : Answer) :
    (m.resume env k a p).1.IsFrank := by
  have hm := IsFrank.of_shown h
  have slot (held : Bool) : (if held = true then m.effect .giveSlotBack else m).shown = [] := by
    split <;> exact h
  unfold resume
  split
  · dsimp only
    split <;> exact .of_shown (slot _)
  · exact finalize_frank m h _ _
  · exact finalize_frank m h _ _
  · exact finalize_frank _ ((Still.cancelToken m _).shown.trans h) _ _
  · exact hm
  · exact hm
  · exact (afterAttempt_shows _ _ _ _ _ _).frank hm
  · split <;> exact hm
  · dsimp only
    split
    · exact hm
    · exact (merge_shows m _ _ _).frank hm
  · exact hm
  · exact .of_shown h
  · exact .of_shown h
  · exact (nextItem_still _ _ _ _ _ _ _ _).frank hm
  · exact hm
  · exact hm
  · exact hm
  · exact hm
  · exact (writeReturns_shows _ _ _ _ _).frank hm
  · exact hm
  · exact hm
  · exact hm
  · exact hm
  · exact hm

/-- All events of a step show the run as the step leaves it. -/
theorem step_frank (h : m.shown = []) (c : Control) : (m.step env self c p).1.IsFrank := by
  have hm := IsFrank.of_shown h
  cases c with
  | enqueue => exact (enqueue_still _ _).frank hm
  | takeSlot => exact (takeSlot_still _ _ _ _).frank hm
  | watch => exact (watch_still _ _ _).frank hm
  | execute => exact execute_frank _ _ _ h
  | enter place frame => exact (enter_still _ _ _ _).frank hm
  | next walk node => exact next_frank _ _ _ _ h _ _
  | dispatch walk node => exact (dispatch_shows _ _ _ _ _).frank hm
  | «try» a => exact (attempt_shows _ _ _ _).frank hm
  | iterate loop bound iterations => exact (iterate_still _ _ _ _ _ _).frank hm
  | supply c => exact (supply_shows _ _ _).frank hm
  | element c acts item => exact (element_still _ _ _ _ _ _ _).frank hm
  | handle c => exact (handle_still _ _ _ _).frank hm
  | act c acts finish => exact (act_still _ _ _ _ _ _ _).frank hm
  | wake w signalled interrupted => exact (wake_still _ _ _ _ _ _ _).frank hm
  | answer a =>
    cases p with
    | nil => exact hm
    | cons k p => exact resume_frank _ _ _ h k a

/-- How a task goes on neither changes how its run stands nor is it told. -/
theorem turn_still (x : Turn) : Still m (m.turn self x).1 := by
  cases x with
  | go c p => exact .refl m
  | wait w on limit p =>
    have hs : Still m ((m.modifyTask self ({ · with pending := p })).suspend self w on).1 :=
      (Still.of_mute (.suspend _ self w on)).after rfl rfl
    cases limit with
    | none => exact hs
    | some after => exact hs.trans ⟨rfl, rfl⟩
  | pass p => exact ⟨rfl, rfl⟩
  | stop a => exact .of_mute (.finish m self a)

end functions

/-! Commands. -/

theorem release_frank (h : m.shown = []) (mode : String) : (m.release mode).IsFrank :=
  (Still.endPause _).frank (.one h rfl)

/-- All events of a command show the run as the command leaves it. -/
theorem obey_frank (h : m.shown = []) (c : Command) : (m.obey c).1.IsFrank := by
  have hm := IsFrank.of_shown h
  cases c with
  | start s =>
    show (m.start s).IsFrank
    unfold start
    split
    · exact hm
    · exact (Still.spawn m _ []).frank hm
  | pause =>
    show m.pause.1.IsFrank
    unfold pause
    split <;> exact hm
  | resume =>
    show m.resumeRun.1.IsFrank
    unfold resumeRun
    split
    · exact release_frank (m := { m with stepArmed := false }) h _
    · exact hm
  | stepOver =>
    show m.stepOver.1.IsFrank
    unfold stepOver
    split
    · exact release_frank (m := { m with stepArmed := true }) h _
    · exact hm
  | cancel reason stamp =>
    show (m.cancel reason stamp).1.IsFrank
    have halted (reason : Option String) : ((m.cancelToken reason).endPause).shown = [] :=
      ((Still.cancelToken m reason).trans (.endPause _)).shown.trans h
    unfold cancel
    split
    · exact hm
    · dsimp only
      split <;> split
      all_goals
        dsimp only
        first
          | exact finalize_frank _ (halted _) _ _
          | exact .of_shown (halted _)
  | setVar name v frame =>
    obtain he | ⟨layers, s, depth, he⟩ := m.obey_setVar name v frame
    · rw [he]
      exact hm
    · rw [he]
      exact .one h rfl
  | edit f => exact hm

theorem interruptMain_still (m : Machine) : Still m m.interruptMain := by
  unfold interruptMain
  split
  · exact .interruptTask m _
  · exact .refl m

/-! Pruning. -/

/-- A run that asks for old runs to be pruned has nothing to tell. -/
def IsTactful (m : Machine) : Prop :=
  .prune ∈ m.effects → m.shown = []

theorem unpruned_of_booked (h : m.bookedEffects = []) : .prune ∉ m.effects := by
  intro hp
  have hb : .prune ∈ m.bookedEffects := List.mem_filter.mpr ⟨hp, rfl⟩
  rw [h] at hb
  cases hb

theorem IsTactful.of_booked (h : m.bookedEffects = []) : m.IsTactful :=
  fun hp => absurd hp (unpruned_of_booked h)

theorem Adds.foldl {P : Effect → Prop} {α : Type} {f : Machine → α → Machine}
    (hf : ∀ m a, Adds P m (f m a)) (as : List α) (m : Machine) : Adds P m (as.foldl f m) := by
  induction as generalizing m with
  | nil => exact .refl m
  | cons a as ih => exact (hf m a).trans (ih (f m a))

/-- A task that goes on asks for no pruning. -/
theorem turn_unpruned (m : Machine) (self : TaskId) (x : Turn) : Adds (· ≠ .prune) m (m.turn self x).1 := by
  cases x with
  | go c p => exact .refl m
  | wait w on limit p =>
    have enlists (ticket : Nat) (m : Machine) (o : TaskId) : Adds (· ≠ .prune) m (enlist self ticket m o) := by
      unfold enlist
      split
      · exact .effect m (by simp)
      · exact .of_eq rfl
    have hs : Adds (· ≠ .prune) m ((m.modifyTask self ({ · with pending := p })).suspend self w on).1 :=
      (Adds.of_eq rfl).trans (.foldl (enlists _) on _)
    cases limit with
    | none => exact hs
    | some after => exact hs.trans (.effect _ (by simp))
  | pass p => exact (Adds.of_eq rfl).trans (.effect _ (by simp))
  | stop a =>
    have told (m : Machine) (o : TaskId × Nat) : Adds (· ≠ .prune) m (m.effect (.tell o.1 o.2)) :=
      .effect m (by simp)
    have ended : Adds (· ≠ .prune) m (m.modifyTask self fun _ => { state := .ended a }) := .of_eq rfl
    exact (ended.trans (.foldl told _ _)).trans (.effect _ (by simp))

theorem IsTactful.turn (h : m.IsTactful) (self : TaskId) (x : Turn) : (m.turn self x).1.IsTactful := by
  obtain ⟨d, hd, hp⟩ := turn_unpruned m self x
  intro hm
  rw [hd] at hm
  rcases List.mem_append.mp hm with hm | hm
  · exact absurd rfl (hp _ hm)
  · exact (turn_still m self x).shown.trans (h hm)

/-- Steps that have to do with slots have no events. -/
theorem shown_of_bargains (m : Machine) (env : Surroundings) (self : TaskId) {c : Control} {p : List Pending}
    (hc : c.Bargains p) : (m.step env self c p).1.shown = m.shown := by
  cases c with
  | takeSlot => exact (takeSlot_still m env self p).shown
  | wake w s i => exact (wake_still m env self p w s i).shown
  | answer a =>
    rcases p with _ | ⟨k, p⟩
    · exact absurd hc id
    · cases k with
      | slot held =>
        show (m.resume env (.slot held) a p).1.shown = m.shown
        cases held <;> cases a <;> rfl
      | _ => exact absurd hc id
  | _ => exact absurd hc id

theorem step_isTactful (he : m.effects = []) (env : Surroundings) (self : TaskId) (c : Control)
    (p : List Pending) : (m.step env self c p).1.IsTactful := by
  by_cases hc : c.Bargains p
  · intro _
    rw [shown_of_bargains m env self hc]
    exact shown_of_effects he
  · refine .of_booked ?_
    rw [(step_abides m env self p hc).booked, bookedEffects, he]
    rfl

theorem obey_isTactful (he : m.effects = []) (c : Command) : (m.obey c).1.IsTactful := by
  cases c with
  | start s =>
    intro _
    show (m.start s).shown = []
    unfold start
    split
    · exact shown_of_effects he
    · exact (Still.spawn m _ []).shown.trans (shown_of_effects he)
  | _ =>
    refine .of_booked ?_
    rw [(obey_abides m (by simp)).booked, bookedEffects, he]
    rfl

/-- All events show the run as it stands, and there are none if it asks for pruning. -/
structure IsForthright (m : Machine) : Prop where
  frank : m.IsFrank
  tactful : m.IsTactful

theorem Still.forthright (h : Still m n) (he : m.effects = []) : n.IsForthright :=
  have hs := h.shown.trans (shown_of_effects he)
  ⟨.of_shown hs, fun _ => hs⟩

/-- A step of a task leaves its run forthright, however the task goes on. -/
theorem turn_forthright (he : m.effects = []) (env : Surroundings) (self : TaskId) (c : Control)
    (p : List Pending) :
    let r := m.step env self c p
    (r.1.turn self r.2).1.IsForthright :=
  ⟨(turn_still _ _ _).frank (step_frank m env self p (shown_of_effects he) c),
    (step_isTactful he env self c p).turn self _⟩

/-- So does a command. -/
theorem obey_forthright (he : m.effects = []) (c : Command) : (m.obey c).1.IsForthright :=
  ⟨obey_frank (shown_of_effects he) c, obey_isTactful he c⟩

end Machine

end Workflow
