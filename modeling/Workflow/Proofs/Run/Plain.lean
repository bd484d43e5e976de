import Workflow.Proofs.Run.Stance
/-!
Runs of which no pause is asked. They never pause, since none of their own steps asks for one.
-/

namespace Workflow

namespace Machine

variable {roles : List Role} {m n : Machine} {c : Control} {p : List Pending} {t : TaskId}

/-- No pause is asked for, and the run does not pause. -/
structure IsUnasked (m : Machine) : Prop where
  onStart : m.pauseOnStart = false
  step : m.stepArmed = false
  request : m.pauseRequested = false
  breakpoints : m.run.breakpoints = []
  status : m.run.status ≠ .paused

namespace IsUnasked

theorem of_core (h : m.IsUnasked) (hn : { n.core with watchers := [] } = { m.core with watchers := [] }) :
    n.IsUnasked where
  onStart := (congrArg Machine.pauseOnStart hn :).trans h.onStart
  step := (congrArg Machine.stepArmed hn :).trans h.step
  request := (congrArg Machine.pauseRequested hn :).trans h.request
  breakpoints := (congrArg (·.run.breakpoints) hn :).trans h.breakpoints
  status hs := h.status ((congrArg (·.run.status) hn :).symm.trans hs)

theorem of_mute (h : m.IsUnasked) (hn : Mute m n) : n.IsUnasked :=
  h.of_core (congrArg (fun k : Machine => { k with watchers := [] }) hn.core)

theorem of_standing (h : m.IsUnasked) (hn : n.standing = m.standing) : n.IsUnasked where
  onStart := (congrArg Machine.pauseOnStart hn :).trans h.onStart
  step := (congrArg Machine.stepArmed hn :).trans h.step
  request := (congrArg Machine.pauseRequested hn :).trans h.request
  breakpoints := (congrArg (·.run.breakpoints) hn :).trans h.breakpoints
  status hs := h.status ((congrArg (·.run.status) hn :).symm.trans hs)

theorem of_walks {types : List String} {cs : List Control} {x : StepResult} (h : m.IsUnasked)
    (hx : Walks types roles cs m p x) : x.1.IsUnasked :=
  (h.of_mute (spawnAll_silent m cs).mute).of_standing hx.standing

theorem of_aside {more : List Role} (h : m.IsUnasked) (hn : Aside roles more m n) : n.IsUnasked :=
  h.of_core (congrArg (fun k : Machine => { k with watchers := [] }) hn.silent.mute.core)

theorem finalize (h : m.IsUnasked) (stamp : Instant) (o : Outcome) : (m.finalize stamp o).IsUnasked := by
  have ended {n : Machine} (hn : n.IsUnasked) : n.endPause.IsUnasked :=
    IsUnasked.of_mute (m := { n with paused := [] }) ⟨hn.1, hn.2, hn.3, hn.4, hn.5⟩
      (Silent.endPause n).mute
  unfold Machine.finalize
  split
  · exact h
  · dsimp only
    split
    · exact ended ⟨h.1, h.2, h.3, h.4, by simp [emit, effect]⟩
    · split <;> exact ended ⟨h.1, h.2, h.3, h.4, by simp [emit, effect]⟩

theorem takePause (h : m.IsUnasked) (node : Node) : m.takePause node = (m, none) := by
  unfold Machine.takePause
  rw [h.onStart, h.step, h.request, h.breakpoints]
  rfl

theorem next (h : m.IsUnasked) (env : Surroundings) (walk : Walk) (node : Option Node) :
    (m.next env t walk node p).1.IsUnasked := by
  unfold Machine.next
  split
  · exact h
  · split
    · exact h
    · split
      · exact h
      · have ha (k : Nat) (id : String) : (m.arrive k id).IsUnasked := ⟨h.1, h.2, h.3, h.4, h.5⟩
        dsimp only
        rw [(ha _ _).takePause]
        exact ha _ _

end IsUnasked

/-- The walker hands an answer to the work that waits for it. -/
theorem answer_isUnasked (hf : m.Fitting roles) (hm : m.IsUnasked) (env : Surroundings) {a : Answer}
    (hu : m.Underway p) (ha : a.Meets p) : (m.step env t (.answer a) p).1.IsUnasked := by
  obtain ⟨q, b, rfl, hq, -⟩ := hu.work
  cases q with
  | nil =>
    cases a with
    | outcome o => exact hm.finalize env.stamp o
    | thrown f => exact hm.finalize env.stamp (.failed (.internal f) none)
    | _ => exact absurd ha id
  | cons k q =>
    by_cases hk : frameKeys [k] = []
    · obtain ⟨cs, h⟩ := resume_walks roles m env (q ++ .execution :: b) hf.size
        (hq k List.mem_cons_self) hk ha
      exact hm.of_walks h
    · obtain ⟨key, flow, node, rfl⟩ : ∃ key flow node, k = .frame key flow node := by
        cases k <;> first | exact ⟨_, _, _, rfl⟩ | exact absurd rfl hk
      obtain ⟨b, hr, -⟩ := resume_frame m env ha
      show (m.resume env (.frame key flow node) a _).1.IsUnasked
      rw [hr]
      exact hm.of_standing (leaveFrame_standing m key node)

/-- A step within a walk. -/
theorem walk_isUnasked (hf : m.Fitting roles) (hm : m.IsUnasked) (w : World) (now : Moment)
    (hu : m.Underway p) (hc : c.IsWalk) (ha : c.Meets p) :
    (m.step (w.surroundings now) t c p).1.IsUnasked := by
  cases c with
  | enter place frame => exact hm.of_walks (enter_walks roles m _ place frame)
  | next walk node => exact hm.next _ walk node
  | dispatch walk node => exact hm.of_walks (dispatch_walks roles m _ _ walk node)
  | «try» a =>
    obtain ⟨cs, h⟩ := attempt_walks roles m p hf.size w now a
    exact hm.of_walks h
  | iterate loop bound iterations => exact hm.of_walks (iterate_walks roles m _ _ loop bound iterations)
  | supply c => exact hm.of_walks (supply_walks roles m _ hc)
  | element c acts item => exact hm.of_walks (element_walks roles m _ _ t hc.1 hc.2 item)
  | answer a => exact answer_isUnasked hf hm _ hu ha
  | _ => exact absurd hc id

/-- A step of the walker asks for no pause. -/
theorem Stands.isUnasked (h : Stands m c p) (hf : m.Fitting roles) (hm : m.IsUnasked) (w : World)
    (now : Moment) (hc : c.Suits roles .walker p) :
    (m.step (w.surroundings now) t c p).1.IsUnasked := by
  have woken {v : Wait} {s i : Bool} (hc : Control.Suits roles .walker (.wake v s i) p)
      (hmeets : v.Meets p) : (m.wake (w.surroundings now) t v s i p).1.IsUnasked :=
    hm.of_aside (walkerWake_aside t hf _ hc hmeets)
  cases h with
  | enqueue h =>
    show (m.enqueue []).1.IsUnasked
    unfold Machine.enqueue
    split
    · exact hm
    · exact ⟨hm.1, hm.2, hm.3, hm.4, hm.5⟩
  | start h t u s i => exact woken hc trivial
  | execute h hp =>
    show (m.execute _ _).1.IsUnasked
    unfold Machine.execute
    split
    · exact hm
    · split
      · exact hm.finalize (w.surroundings now).stamp .cancelled
      · exact ⟨hm.1, hm.2, hm.3, hm.4, by simp [emit, effect]⟩
  | walk h hu hw hmeets hl => exact walk_isUnasked hf hm w now hu hw hmeets
  | wake h hu hw hmeets s i => exact woken hc hmeets
  | resume h hu hmeets s i => exact woken hc hmeets
  | back h hu hmeets => exact absurd h.1 hm.status
  | refuse h hu walk node => exact absurd h.1 hm.status
  | unwind h hu => exact absurd h.1 hm.status
  | ended h hp a =>
    rcases p with _ | ⟨k, _ | ⟨l, q⟩⟩
    · exact hm
    · obtain ⟨held, rfl⟩ : ∃ held, k = .slot held := by
        cases k <;> first | exact ⟨_, rfl⟩ | exact absurd hp id
      cases held <;> cases a <;> exact ⟨hm.1, hm.2, hm.3, hm.4, hm.5⟩
    · cases k <;> exact absurd hp id

end Machine

namespace Execution

variable {x : Execution} {w : World}

/-- Moves ask for no pause. -/
theorem move_isUnasked (h : x.IsSound) (hx : x.machine.IsUnasked) (a : Move) :
    (x.move w a).machine.IsUnasked := by
  rcases move_cases (w := w) h a with ht | ⟨now, s, -, ht⟩
  · exact hx.of_core ht.watchers
  · obtain ⟨-, roles, hr⟩ := h
    rw [ht.active] at hr
    obtain ⟨-, q, hq, hsuits, hstands⟩ := hr.strand rfl
    rw [hr.main.mpr ht.main] at hq
    cases hq
    have hn := (hstands rfl).isUnasked (t := s.task) hr.fitting hx w now hsuits
    exact hn.of_core (congrArg (fun k : Machine => { k with watchers := [] }) ht.core)

theorem start_isUnasked (hx : x.machine.IsUnasked) (slotted : Bool) :
    (x.obey (.start slotted)).machine.IsUnasked := by
  unfold obey
  split
  · show (x.put (x.machine.start slotted) none).machine.IsUnasked
    unfold Machine.start
    split <;> exact ⟨hx.1, hx.2, hx.3, hx.4, hx.5⟩
  · exact hx

end Execution

end Workflow
