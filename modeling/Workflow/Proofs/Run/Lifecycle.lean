import Workflow.Proofs.Run.Obey
/-!
The life of a run: whatever moves and commands there are, and in whatever order they come, its events
are those of one life, and its status is the one that they tell.
-/

namespace Workflow.Execution

variable {x : Execution} {w : World}

/-- The invariant of an execution. -/
def IsSound (x : Execution) : Prop :=
  x.machine.effects = [] ∧ ∃ roles, x.machine.Sound roles x.log x.active

theorem create_isSound (id : String) (flow : Flow) (bindings : Entries Value)
    (breakpoints : Breakpoints) (pauseOnStart : Bool) (stamp : Instant) :
    (ofMachine (.create id flow bindings breakpoints pauseOnStart stamp)).IsSound :=
  ⟨rfl, [], Machine.create_sound id flow bindings breakpoints pauseOnStart stamp⟩

theorem put_isSound {roles : List Role} {m : Machine} {active : Option Strand}
    (h : m.Sound roles x.log active) : (x.put m active).IsSound :=
  ⟨rfl, roles, h.settle⟩

theorem begin_isSound (h : x.IsSound) (hi : x.active = none) (t : TaskId) : (x.begin t).IsSound := by
  obtain ⟨he, roles, hs⟩ := h
  rw [hi] at hs
  have hb := x.begins t
  generalize x.begin t = y at hb ⊢
  cases hb with
  | unready => exact ⟨he, roles, by rw [hi]; exact hs⟩
  | dismissed hst => exact put_isSound (hs.dismiss hst)
  | fresh hst hp | woken hst hp => exact ⟨he, roles, hs.begin hst hp rfl⟩

theorem step_isSound (h : x.IsSound) (now : Moment) : (x.step w now).IsSound := by
  obtain ⟨he, roles, hs⟩ := h
  unfold step
  cases hx : x.active with
  | none =>
    rw [hx] at hs
    exact ⟨he, roles, by rw [hx]; exact hs⟩
  | some s =>
    rw [hx] at hs
    obtain ⟨more, ht⟩ := hs.step w now
    exact put_isSound ht

/-- A move keeps the invariant. -/
theorem move_isSound (h : x.IsSound) (a : Move) : (x.move w a).IsSound := by
  unfold move
  split
  · rename_i ha
    cases a with
    | begin t =>
      simp only [allows, isIdle, Bool.and_eq_true, Option.isNone_iff_eq_none] at ha
      exact begin_isSound h ha.1 t
    | step now => exact step_isSound h now
    | tell t ticket =>
      simp only [allows, isIdle, isTold, Bool.and_eq_true, Option.isNone_iff_eq_none,
        List.any_eq_true] at ha
      obtain ⟨he, roles, hs⟩ := h
      rw [ha.1.1] at hs
      exact put_isSound (hs.tell (by unfold Machine.Tells; rw [he]; exact ha.1.2))
    | grant t =>
      obtain ⟨he, roles, hs⟩ := h
      obtain ⟨k, hk⟩ := allows_grant.mp ha
      exact ⟨he, roles, hs.grant hk⟩
  · exact h

/-- A command keeps the invariant. -/
theorem obey_isSound (h : x.IsSound) (c : Command) : (x.obey c).IsSound := by
  unfold obey
  split
  · rename_i hi
    obtain ⟨he, roles, hs⟩ := h
    rw [Option.isNone_iff_eq_none.mp hi] at hs
    obtain ⟨more, ht⟩ := hs.obey c
    exact put_isSound ht
  · exact h

theorem take_isSound (h : x.IsSound) (i : Input) : (x.take w i).IsSound := by
  cases i with
  | move a => exact move_isSound h a
  | command c => exact obey_isSound h c

/-- The invariant holds after any moves and commands. -/
theorem after_isSound (h : x.IsSound) (is : List Input) : (after w is x).IsSound := by
  induction is generalizing x with
  | nil => exact h
  | cons i is ih => exact ih (take_isSound h i)

/-- The status of a run is the one that its log tells. -/
theorem IsSound.lifecycle (h : x.IsSound) : IsLifecycle (kernelTypes x.log) x.machine.run.status := by
  obtain ⟨he, roles, hs⟩ := h
  have hp := hs.history
  rw [he] at hp
  exact hp.lifecycle

/-- A run that has ended stays as it is. -/
theorem status_eq_of_terminal {y : Execution} (h : x.IsSound) (hy : y.IsSound)
    (ht : x.machine.run.status.isTerminal = true) (hl : ∃ late, y.log = late ++ x.log) :
    y.machine.run.status = x.machine.run.status := by
  obtain ⟨late, hl⟩ := hl
  have hk := hy.lifecycle
  rw [hl, kernelTypes_append] at hk
  exact h.lifecycle.eq_of_terminal ht hk

/-- However a run is carried out and whatever is done to it, its own events are those of one life: it
begins with its start unless it was cancelled before, a pause is followed by nothing but its end or a
cancellation, nothing follows the end of the run, and the status is the one that the events name. -/
theorem run_lifecycle (w : World) (id : String) (flow : Flow) (bindings : Entries Value)
    (breakpoints : Breakpoints) (pauseOnStart : Bool) (stamp : Instant) (is : List Input) :
    let x := after w is (ofMachine (.create id flow bindings breakpoints pauseOnStart stamp))
    IsLifecycle (kernelTypes x.log) x.machine.run.status := by
  intro x
  have hx : x.IsSound :=
    after_isSound (create_isSound id flow bindings breakpoints pauseOnStart stamp) is
  exact hx.lifecycle

end Workflow.Execution
