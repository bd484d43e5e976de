import Workflow.Proofs.Run.Isolation
/-!
How the record of a run agrees with its status: there is a reason for a pause exactly while the run is
paused, an end exactly once it has ended, an error exactly if it failed, outputs exactly if it completed,
and there are frames exactly while it is under way. Once a run has ended, its record stays as it is but
for its breakpoints, and only a write from outside changes its variables.
-/

namespace Workflow

/-- What a record holds is what its status says. -/
structure Run.IsCoherent (r : Run) : Prop where
  pauseReason : r.pauseReason ≠ none ↔ r.status = .paused
  finishedAt : r.finishedAt ≠ none ↔ r.status.isTerminal = true
  error : r.error ≠ none ↔ r.status = .failed
  outputs : r.outputs ≠ none ↔ r.status = .completed
  stack : r.stack ≠ [] ↔ r.status = .running ∨ r.status = .paused

/-- The record of a run without its breakpoints. -/
def Run.unmarked (r : Run) : Run :=
  { r with breakpoints := [] }

namespace Run.IsCoherent

variable {r r' : Run}

theorem congr (h : r.IsCoherent) (hs : r'.status = r.status) (hp : r'.pauseReason = r.pauseReason)
    (hf : r'.finishedAt = r.finishedAt) (he : r'.error = r.error) (ho : r'.outputs = r.outputs)
    (hk : r'.stack = [] ↔ r.stack = []) : r'.IsCoherent where
  pauseReason := by rw [hp, hs]; exact h.pauseReason
  finishedAt := by rw [hf, hs]; exact h.finishedAt
  error := by rw [he, hs]; exact h.error
  outputs := by rw [ho, hs]; exact h.outputs
  stack := by rw [ne_eq, hk, hs]; exact h.stack

theorem error_eq_none (h : r.IsCoherent) (hs : r.status ≠ .failed) : r.error = none :=
  Classical.not_not.mp fun he => hs (h.error.mp he)

theorem outputs_eq_none (h : r.IsCoherent) (hs : r.status ≠ .completed) : r.outputs = none :=
  Classical.not_not.mp fun ho => hs (h.outputs.mp ho)

theorem finishedAt_eq_none (h : r.IsCoherent) (hs : r.status.isTerminal = false) :
    r.finishedAt = none :=
  Classical.not_not.mp fun hf => by
    rw [h.finishedAt.mp hf] at hs
    cases hs

theorem pauseReason_eq_none (h : r.IsCoherent) (hs : r.status ≠ .paused) : r.pauseReason = none :=
  Classical.not_not.mp fun hp => hs (h.pauseReason.mp hp)

/-- A run that goes on has neither an end nor a result. -/
theorem of_underway (hs : r.status = .running ∧ r.pauseReason = none ∨
      r.status = .paused ∧ r.pauseReason ≠ none) (hf : r.finishedAt = none) (he : r.error = none)
    (ho : r.outputs = none) (hk : r.stack ≠ []) : r.IsCoherent := by
  rcases hs with ⟨hs, hp⟩ | ⟨hs, hp⟩ <;> constructor <;> simp [hs, hp, hf, he, ho, hk, Status.isTerminal]

end Run.IsCoherent

namespace Machine

/-- What becomes of a run that has ended, be its variables written from outside or not. -/
structure Settles (written : Prop) (m n : Machine) : Prop where
  record : n.run.unmarked = m.run.unmarked
  layers : ¬ written → n.layers = m.layers

namespace Settles

variable {P Q : Prop} {m n o : Machine}

theorem refl (m : Machine) : Settles P m m :=
  ⟨rfl, fun _ => rfl⟩

theorem trans (h : Settles P m n) (k : Settles P n o) : Settles P m o :=
  ⟨k.record.trans h.record, fun hn => (k.layers hn).trans (h.layers hn)⟩

theorem mono (h : Settles P m n) (hPQ : P → Q) : Settles Q m n :=
  ⟨h.record, fun hn => h.layers (mt hPQ hn)⟩

theorem status (h : Settles P m n) : n.run.status = m.run.status :=
  (congrArg Run.status h.record :)

end Settles

variable {roles : List Role} {m : Machine} {t : TaskId} {c : Control} {p : List Pending}

/-! Frames. -/

theorem Underway.stack_ne_nil (h : Underway m p) : m.run.stack ≠ [] := by
  obtain ⟨root, hr⟩ := h.keys
  intro hk
  simp [stackKeys, hk] at hr

theorem IsUnbegun.not_running (h : IsUnbegun m) : m.run.status ≠ .running := by
  intro hs
  rcases h with ⟨h, -⟩ | h <;> rw [hs] at h <;> cases h

theorem Stands.stack_ne_nil (h : Stands m c p) (hs : m.run.status = .running) : m.run.stack ≠ [] := by
  cases h with
  | enqueue h | start h | execute h => exact absurd hs h.not_running
  | walk _ hu | wake _ hu | resume _ hu | back _ hu | refuse _ hu | unwind _ hu => exact hu.stack_ne_nil
  | ended h =>
    rw [hs] at h
    cases h

theorem Reaches.stack_ne_nil {x : Turn} (h : Reaches m x) (hs : m.run.status = .running) :
    m.run.stack ≠ [] := by
  cases x with
  | go c p => exact Stands.stack_ne_nil h hs
  | wait w on limit p =>
    cases h with
    | start h => exact absurd hs h.not_running
    | walk _ hu => exact hu.stack_ne_nil
    | pause _ _ hu => exact hu.stack_ne_nil
  | pass p => exact Stands.stack_ne_nil h hs
  | stop a =>
    have h : m.run.status.isTerminal = true := h
    rw [hs] at h
    cases h

/-! Steps. -/

theorem Walks.coherent {types : List String} {cs : List Control} {x : StepResult}
    (h : Walks types roles cs m p x) (hs : m.run.status = .running) (hu : Underway m p)
    (hc : m.run.IsCoherent) : x.1.run.IsCoherent := by
  have hrun : { x.1.run with current := none, stack := [], trace := #[] } =
      { m.run with current := none, stack := [], trace := #[] } := by
    rw [← (spawnAll_silent m cs).mute.run]
    exact congrArg Machine.run h.standing
  have hstatus : x.1.run.status = m.run.status := (congrArg Run.status hrun :)
  have hk := (h.reaches hs hu).stack_ne_nil (hstatus.trans hs)
  exact hc.congr hstatus (congrArg Run.pauseReason hrun :) (congrArg Run.finishedAt hrun :)
    (congrArg Run.error hrun :) (congrArg Run.outputs hrun :) (iff_of_false hk hu.stack_ne_nil)

theorem finalize_coherent (hc : m.run.IsCoherent) (stamp : Instant) (o : Outcome) :
    (m.finalize stamp o).run.IsCoherent := by
  unfold finalize
  split
  · exact hc
  · rename_i hn
    have he : m.run.error = none := hc.error_eq_none fun hs => hn (by rw [hs]; rfl)
    have ho : m.run.outputs = none := hc.outputs_eq_none fun hs => hn (by rw [hs]; rfl)
    dsimp only
    rw [(Silent.endPause _).mute.run]
    split
    · constructor <;> simp [emit, effect, he, ho, Status.isTerminal]
    · split <;> constructor <;> simp [emit, effect, he, ho, Status.isTerminal]

theorem execute_coherent (hc : m.run.IsCoherent) (env : Surroundings) :
    (m.execute env p).1.run.IsCoherent := by
  unfold execute
  split
  · exact hc
  · rename_i hn
    have hs : m.run.status = .pending := by simpa using hn
    split
    · exact finalize_coherent hc _ _
    · refine .of_underway (.inl ⟨rfl, ?_⟩) ?_ ?_ ?_ (by simp)
      · exact hc.pauseReason_eq_none (by simp [hs])
      · exact hc.finishedAt_eq_none (by rw [hs]; rfl)
      · exact hc.error_eq_none (by simp [hs])
      · exact hc.outputs_eq_none (by simp [hs])

theorem takePause_run (m : Machine) (node : Node) : (m.takePause node).1.run = m.run := by
  rcases takePause_cases m node with h | ⟨n, reason, h, -, -, hr, -⟩
  · rw [h]
  · rw [h]
    exact hr

theorem next_coherent (hc : m.run.IsCoherent) (hs : m.run.status = .running) (hu : Underway m p)
    (env : Surroundings) (walk : Walk) (node : Option Node) :
    (m.next env t walk node p).1.run.IsCoherent := by
  unfold next
  split
  · exact hc
  · split
    · exact hc
    · split
      · exact hc
      · rename_i node _ _
        have hr := takePause_run (m.arrive walk.frame node.id) node
        dsimp only
        generalize (m.arrive walk.frame node.id).takePause node = r at hr ⊢
        obtain ⟨n, reason⟩ := r
        have hr : n.run = (m.arrive walk.frame node.id).run := hr
        have hk : n.run.stack ≠ [] := by
          rw [hr]
          simpa [arrive] using hu.stack_ne_nil
        cases reason with
        | none =>
          show n.run.IsCoherent
          exact hc.congr (by rw [hr]; rfl) (by rw [hr]; rfl) (by rw [hr]; rfl) (by rw [hr]; rfl)
            (by rw [hr]; rfl) (iff_of_false hk hu.stack_ne_nil)
        | some reason =>
          refine .of_underway (.inr ⟨rfl, Option.some_ne_none reason⟩) ?_ ?_ ?_ hk
          · show n.run.finishedAt = none
            rw [hr]
            exact hc.finishedAt_eq_none (by rw [hs]; rfl)
          · show n.run.error = none
            rw [hr]
            exact hc.error_eq_none (by simp [hs])
          · show n.run.outputs = none
            rw [hr]
            exact hc.outputs_eq_none (by simp [hs])

/-- Leaving a frame of a run that is under way leaves it others. -/
theorem leaveFrame_coherent (hc : m.run.IsCoherent) {key : Nat} {flow node : String}
    (hu : Underway m (.frame key flow node :: p)) : (m.leaveFrame key node).run.IsCoherent :=
  hc.congr rfl rfl rfl rfl rfl
    (iff_of_false (leaveFrame_underway hu).stack_ne_nil hu.stack_ne_nil)

theorem answer_coherent (hf : m.Fitting roles) (hc : m.run.IsCoherent) (env : Surroundings) {a : Answer}
    (hs : m.run.status = .running) (hu : Underway m p) (ha : a.Meets p) :
    (m.step env t (.answer a) p).1.run.IsCoherent := by
  obtain ⟨q, b, rfl, hq, hb⟩ := hu.work
  rcases q with _ | ⟨k, q⟩
  · cases a with
    | outcome o => exact finalize_coherent hc _ _
    | thrown f => exact finalize_coherent hc _ _
    | _ => exact absurd ha id
  · have hw := hq k List.mem_cons_self
    by_cases hk : frameKeys [k] = []
    · obtain ⟨cs, h⟩ := resume_walks roles m env (q ++ .execution :: b) hf.size hw hk ha
      exact h.coherent hs (hu.tail hw hk) hc
    · obtain ⟨key, flow, node, rfl⟩ : ∃ key flow node, k = .frame key flow node := by
        cases k <;> first | exact ⟨_, _, _, rfl⟩ | exact absurd rfl hk
      obtain ⟨a', hr, -⟩ := resume_frame m env (p := q ++ .execution :: b) ha
      show (m.resume env (.frame key flow node) a (q ++ .execution :: b)).1.run.IsCoherent
      rw [hr]
      exact leaveFrame_coherent hc hu

theorem walk_coherent (hf : m.Fitting roles) (hc : m.run.IsCoherent) (w : World) (now : Moment)
    (hs : m.run.status = .running) (hu : Underway m p) (hw : c.IsWalk) (hm : c.Meets p) :
    (m.step (w.surroundings now) t c p).1.run.IsCoherent := by
  cases c with
  | enter place frame => exact (enter_walks roles _ _ _ _).coherent hs hu hc
  | next walk node => exact next_coherent hc hs hu _ _ _
  | dispatch walk node => exact (dispatch_walks roles _ _ _ _ _).coherent hs hu hc
  | «try» a =>
    obtain ⟨cs, h⟩ := attempt_walks roles m p hf.size w now a
    exact h.coherent hs hu hc
  | iterate loop bound iterations =>
    exact (iterate_walks roles _ _ _ _ _ _).coherent hs hu hc
  | supply d => exact (supply_walks roles _ _ hw).coherent hs hu hc
  | element d acts item => exact (element_walks roles _ _ _ t hw.1 hw.2 item).coherent hs hu hc
  | answer a => exact answer_coherent hf hc _ hs hu hm
  | _ => exact absurd hw id

/-- A step on the way out of a walk that was cancelled during a pause. -/
theorem unwind_coherent (hc : m.run.IsCoherent) (env : Surroundings) (hu : Underway m p) :
    (m.step env t (.answer (.outcome .cancelled)) p).1.run.IsCoherent := by
  obtain ⟨q, b, rfl, hq, hb⟩ := hu.work
  rcases q with _ | ⟨k, q⟩
  · exact finalize_coherent hc _ _
  · have hw := hq k List.mem_cons_self
    show (m.resume env k (.outcome .cancelled) (q ++ .execution :: b)).1.run.IsCoherent
    by_cases hk : frameKeys [k] = []
    · obtain ⟨n, hr, rfl | ⟨e, rfl⟩⟩ := resume_cancelled m env hw hk (q ++ .execution :: b)
      · rw [hr]
        exact hc
      · rw [hr]
        exact hc.congr rfl rfl rfl rfl rfl .rfl
    · obtain ⟨key, flow, node, rfl⟩ : ∃ key flow node, k = .frame key flow node := by
        cases k <;> first | exact ⟨_, _, _, rfl⟩ | exact absurd rfl hk
      exact leaveFrame_coherent hc hu

/-- A step that gives a slot back leaves the record and the variables as they are. -/
theorem bottom_step (env : Surroundings) (hp : IsBottom p) (a : Answer) :
    (m.step env t (.answer a) p).1.run = m.run ∧ (m.step env t (.answer a) p).1.layers = m.layers := by
  rcases p with _ | ⟨k, _ | ⟨l, q⟩⟩
  · exact ⟨rfl, rfl⟩
  · obtain ⟨held, rfl⟩ : ∃ held, k = .slot held := by
      cases k <;> first | exact ⟨_, rfl⟩ | exact absurd hp id
    cases held <;> cases a <;> exact ⟨rfl, rfl⟩
  · cases k <;> exact absurd hp id

/-- A step of the walker before it executes the run. -/
theorem opening_step (hf : m.Fitting roles) (env : Surroundings) {u v : TaskId} {s i : Bool}
    (hs : (Control.wake (.start u v) s i).Suits roles .walker []) :
    (m.step env t (.wake (.start u v) s i) []).1.run = m.run ∧
      (m.step env t (.wake (.start u v) s i) []).1.layers = m.layers := by
  cases hs.2 rfl
  obtain ⟨n, held, he, ha⟩ := wakeFromStart_aside (p := []) t hf env s hs.1.1 hs.1.2
  show (m.wake env t (.start u v) s false []).1.run = _ ∧ (m.wake env t (.start u v) s false []).1.layers = _
  rw [he]
  exact ⟨ha.silent.mute.run, ha.silent.mute.layers⟩

theorem enqueue_step (m : Machine) :
    (m.enqueue []).1.run = m.run ∧ (m.enqueue []).1.layers = m.layers := by
  unfold enqueue
  split <;> exact ⟨rfl, rfl⟩

/-- A step of the walker leaves the record in agreement with the status that it then has. -/
theorem Stands.coherent (h : Stands m c p) (hf : m.Fitting roles) (w : World) (now : Moment) (t : TaskId)
    (hs : c.Suits roles .walker p) (hc : m.run.IsCoherent) :
    (m.step (w.surroundings now) t c p).1.run.IsCoherent := by
  cases h with
  | enqueue h =>
    show (m.enqueue []).1.run.IsCoherent
    rw [(enqueue_step m).1]
    exact hc
  | start h u v s i =>
    rw [(opening_step hf _ hs).1]
    exact hc
  | execute h hp => exact execute_coherent hc _
  | walk h hu hw hm hl => exact walk_coherent hf hc w now h hu hw hm
  | wake h hu hw hm s i =>
    have hstart : ∀ u v, ‹Wait› ≠ .start u v := by
      rintro u v rfl
      exact hw
    obtain ⟨ha, -⟩ := wake_aside t hf (w.surroundings now) s hs.1 hs.2 (fun _ => hm) hstart
    show (m.wake _ t _ s i p).1.run.IsCoherent
    rw [ha.silent.mute.run]
    exact hc
  | resume h hu hm s i => exact hc
  | back h hu hm =>
    cases p with
    | nil => exact absurd hm id
    | cons k p => cases k <;> first | exact hc | exact absurd hm id
  | refuse h hu walk node =>
    show (m.dispatch (w.surroundings now) walk node p).1.run.IsCoherent
    unfold dispatch
    rw [if_pos h.2]
    exact hc
  | unwind h hu => exact unwind_coherent hc _ hu
  | ended h hp a =>
    rw [(bottom_step _ hp a).1]
    exact hc

/-- A step of the walker of a run that has ended. -/
theorem Stands.settled (h : Stands m c p) (ht : m.run.status.isTerminal = true) (hf : m.Fitting roles)
    (env : Surroundings) (t : TaskId) (hs : c.Suits roles .walker p) :
    (m.step env t c p).1.run = m.run ∧ (m.step env t c p).1.layers = m.layers := by
  have running {s : Status} {P : Prop} (hs : m.run.status = s) (hn : s.isTerminal = false) : P := by
    rw [hs, hn] at ht
    cases ht
  cases h with
  | enqueue h => exact enqueue_step m
  | start h u v s i => exact opening_step hf env hs
  | execute h hp =>
    have hn : (m.run.status != .pending) = true := by
      cases hm : m.run.status <;> first | rfl | exact running hm rfl
    have he : m.step env t .execute p = (m, .answer .done p) := if_pos hn
    rw [he]
    exact ⟨rfl, rfl⟩
  | walk h => exact running h rfl
  | wake h => exact running h rfl
  | resume h => exact h.elim (running · rfl) (running ·.1 rfl)
  | back h | refuse h | unwind h => exact running h.1 rfl
  | ended h hp a => exact bottom_step env hp a

/-! Commands. -/

theorem release_coherent (hc : m.run.IsCoherent) (hs : m.run.status = .paused) (mode : String) :
    (m.release mode).run.IsCoherent := by
  have hr : (m.release mode).run = { m.run with status := .running, pauseReason := none } :=
    (Silent.endPause _).mute.run
  rw [hr]
  refine .of_underway (.inl ⟨rfl, rfl⟩) ?_ ?_ ?_ (hc.stack.mpr (.inr hs))
  · exact hc.finishedAt_eq_none (by rw [hs]; rfl)
  · exact hc.error_eq_none (by simp [hs])
  · exact hc.outputs_eq_none (by simp [hs])

theorem start_run (m : Machine) (slotted : Bool) : (m.start slotted).run = m.run := by
  unfold start
  split <;> rfl

theorem pause_run (m : Machine) : m.pause.1.run = m.run := by
  unfold pause
  split <;> rfl

theorem setVar_run (m : Machine) (name : String) (v frame : Value) :
    (m.obey (.setVar name v frame)).1.run = m.run := by
  obtain he | ⟨layers, s, depth, he⟩ := m.obey_setVar name v frame
  · rw [he]
  · rw [he]
    rfl

theorem obey_coherent (hc : m.run.IsCoherent) (c : Command) : (m.obey c).1.run.IsCoherent := by
  cases c with
  | start slotted =>
    show (m.start slotted).run.IsCoherent
    rw [start_run]
    exact hc
  | pause =>
    show m.pause.1.run.IsCoherent
    rw [pause_run]
    exact hc
  | resume =>
    show m.resumeRun.1.run.IsCoherent
    unfold resumeRun
    split
    · rename_i hs
      exact release_coherent (m := { m with stepArmed := false }) hc (beq_iff_eq.mp hs) _
    · exact hc
  | stepOver =>
    show m.stepOver.1.run.IsCoherent
    unfold stepOver
    split
    · rename_i hs
      exact release_coherent (m := { m with stepArmed := true }) hc (beq_iff_eq.mp hs) _
    · exact hc
  | cancel reason stamp =>
    show (m.cancel reason stamp).1.run.IsCoherent
    obtain ⟨-, he⟩ | ⟨hs, text, ⟨-, he⟩ | ⟨-, -, he⟩⟩ := cancel_cases m reason stamp
    · rw [he]
      exact hc
    · rw [he]
      show (m.halt text).run.IsCoherent
      rw [halt_run]
      exact hc
    · rw [he]
      exact finalize_coherent (by rw [halt_run]; exact hc) _ _
  | setVar name v frame =>
    rw [setVar_run]
    exact hc
  | edit f => exact hc.congr rfl rfl rfl rfl rfl .rfl

/-- A command to a run that has ended changes nothing of its record but its breakpoints. -/
theorem obey_settled (ht : m.run.status.isTerminal = true) (c : Command) :
    (m.obey c).1.run.unmarked = m.run.unmarked := by
  have hn : m.run.status ≠ .paused := by
    intro hs
    rw [hs] at ht
    cases ht
  cases c with
  | start slotted => exact congrArg Run.unmarked (start_run m slotted)
  | pause => exact congrArg Run.unmarked (pause_run m)
  | resume =>
    show m.resumeRun.1.run.unmarked = _
    unfold resumeRun
    rw [if_neg (by simpa using hn)]
  | stepOver =>
    show m.stepOver.1.run.unmarked = _
    unfold stepOver
    rw [if_neg (by simpa using hn)]
  | cancel reason stamp =>
    show (m.cancel reason stamp).1.run.unmarked = _
    unfold cancel
    rw [if_pos ht]
  | setVar name v frame => exact congrArg Run.unmarked (setVar_run m name v frame)
  | edit f => rfl

end Machine

namespace Execution

variable {x y : Execution} {w : World}

/-- The stage of a run whose walker takes a step. -/
theorem Treads.stands {now : Moment} {s : Strand} (ht : Treads w now s x y) (h : x.IsSound) :
    ∃ roles, x.machine.Fitting roles ∧ s.control.Suits roles .walker s.pending ∧
      x.machine.Stands s.control s.pending := by
  obtain ⟨-, roles, hs⟩ := h
  obtain ⟨-, r, hrole, hsuits, hstands⟩ := hs.strand ht.active
  rw [hs.main.mpr ht.main] at hrole
  cases hrole
  exact ⟨roles, hs.fitting, hsuits, hstands rfl⟩

theorem Treads.run {now : Moment} {s : Strand} (ht : Treads w now s x y) : y.machine.run =
    (x.machine.step (w.surroundings now) s.task s.control s.pending).1.run :=
  (congrArg Machine.run ht.core :)

theorem Attends.run (h : x.Attends y) : y.machine.run = x.machine.run :=
  (congrArg Machine.run h.watchers :)

/-- Whatever comes in to a run leaves its record in agreement with its status. -/
theorem take_coherent (h : x.IsSound) (hc : x.machine.run.IsCoherent) (i : Input) :
    (x.take w i).machine.run.IsCoherent := by
  cases i with
  | move a =>
    show (x.move w a).machine.run.IsCoherent
    rcases move_cases (w := w) h a with ha | ⟨now, s, -, ht⟩
    · rw [ha.run]
      exact hc
    · obtain ⟨roles, hf, hsuits, hs⟩ := ht.stands h
      rw [ht.run]
      exact hs.coherent hf w now s.task hsuits hc
  | command c =>
    show (x.obey c).machine.run.IsCoherent
    unfold obey
    split
    · exact Machine.obey_coherent hc c
    · exact hc

theorem after_coherent (h : x.IsSound) (hc : x.machine.run.IsCoherent) (is : List Input) :
    (after w is x).machine.run.IsCoherent := by
  induction is generalizing x with
  | nil => exact hc
  | cons i is ih => exact ih (take_isSound h i) (take_coherent h hc i)

theorem create_coherent (id : String) (flow : Flow) (bindings : Entries Value)
    (breakpoints : Breakpoints) (pauseOnStart : Bool) (stamp : Instant) :
    (Machine.create id flow bindings breakpoints pauseOnStart stamp).run.IsCoherent := by
  constructor <;> simp [Machine.create, Status.isTerminal]

/-- Whatever comes in to a run that has ended. -/
theorem take_settles (h : x.IsSound) (ht : x.machine.run.status.isTerminal = true) (i : Input) :
    x.machine.Settles i.IsWrite (x.take w i).machine := by
  cases i with
  | move a =>
    show x.machine.Settles _ (x.move w a).machine
    rcases move_cases (w := w) h a with ha | ⟨now, s, -, htread⟩
    · exact ⟨congrArg Run.unmarked ha.run, fun _ => ha.layers⟩
    · obtain ⟨roles, hf, hsuits, hs⟩ := htread.stands h
      obtain ⟨hr, hl⟩ := hs.settled ht hf (w.surroundings now) s.task hsuits
      exact ⟨congrArg Run.unmarked (htread.run.trans hr), fun _ => htread.layers.trans hl⟩
  | command c =>
    show x.machine.Settles _ (x.obey c).machine
    unfold obey
    split
    · refine ⟨Machine.obey_settled ht c, fun hi => ?_⟩
      exact Machine.obey_layers x.machine fun name v frame hv => hi (by rw [hv]; trivial)
    · exact .refl _

theorem after_settles (h : x.IsSound) (ht : x.machine.run.status.isTerminal = true) (is : List Input) :
    x.machine.Settles (∃ i ∈ is, i.IsWrite) (after w is x).machine := by
  induction is generalizing x with
  | nil => exact .refl _
  | cons i is ih =>
    have hi := take_settles (w := w) h ht i
    have his := ih (take_isSound h i) (hi.status ▸ ht)
    exact (hi.mono fun hw => ⟨i, List.mem_cons_self, hw⟩).trans
      (his.mono fun ⟨j, hj, hw⟩ => ⟨j, List.mem_cons_of_mem _ hj, hw⟩)

end Execution

end Workflow
