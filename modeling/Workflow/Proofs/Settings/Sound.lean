import Workflow.Proofs.Value.Fallible
import Workflow.Settings.Reading
/-!
What settings that are accepted have in common: where a run divides its time by them they are positive, and the
defaults keep to the limits.
-/

namespace Workflow

namespace Settings

variable {given : Entries Value} {s : Settings}

/-- What single values have to be. -/
structure ArePositive (s : Settings) : Prop where
  nodeTimeout : 0 < s.defaultNodeTimeoutMs
  nodeTimeoutLimit : 0 < s.maxNodeTimeoutMs
  loopIterations : 0 < s.maxLoopIterations
  callDepth : 0 < s.maxCallDepth
  frameSteps : 0 < s.maxStepsPerFrame
  concurrentRuns : 0 < s.maxConcurrentRuns
  runsRetained : 0 < s.maxRunsRetained

/-- Settings that the rules on single values and on defaults let through. -/
structure IsSound (s : Settings) : Prop extends ArePositive s where
  nodeTimeout_le : s.defaultNodeTimeoutMs ≤ s.maxNodeTimeoutMs
  nodeRetries_le : s.defaultNodeRetries ≤ s.maxRetriesHardCap

theorem positive_pos {v : Value} {n : Nat} (h : positive v = .ok n) : 0 < n := by
  obtain ⟨i, -, hi⟩ := bind_ok h
  split at hi
  · cases hi
  · cases hi
    omega

/-- Reading one setting keeps all of them positive. -/
def Entry.IsCareful (e : Entry) : Prop :=
  ∀ (v : Value) (s t : Settings), e.read v s = .ok t → s.ArePositive → t.ArePositive

theorem isCareful_entry {α : Type} {name : String} {read : Value → Form.Read α} {put : Settings → α → Settings}
    (h : ∀ v a, read v = .ok a → ∀ s : Settings, s.ArePositive → (put s a).ArePositive) :
    (entry name read put).IsCareful := by
  intro v s t ht hs
  obtain ⟨a, ha, rfl⟩ := map_ok ht
  exact h v a ha s hs

theorem isCareful_entries : ∀ e ∈ entries, e.IsCareful := by
  simp only [entries, List.forall_mem_cons]
  refine ⟨?_, ?_, ?_, ?_, ?_, ?_, ?_, ?_, ?_, ?_, ?_, ?_, ?_, ?_, nofun⟩
  all_goals
    refine isCareful_entry fun v a ha s hs => ?_
  · exact { hs with nodeTimeout := positive_pos ha }
  · exact { hs with nodeTimeoutLimit := positive_pos ha }
  · exact { hs with }
  · exact { hs with }
  · exact { hs with }
  · exact { hs with }
  · exact { hs with loopIterations := positive_pos ha }
  · exact { hs with callDepth := positive_pos ha }
  · exact { hs with frameSteps := positive_pos ha }
  · exact { hs with }
  · exact { hs with concurrentRuns := positive_pos ha }
  · exact { hs with runsRetained := positive_pos ha }
  · exact { hs with }
  · exact { hs with }

theorem take_arePositive {e : Entry} (he : e.IsCareful) {state : Settings × List FieldProblem}
    (h : state.1.ArePositive) : (take given state e).1.ArePositive := by
  unfold take
  split
  · exact h
  · rename_i v _
    split
    · rename_i t ht
      exact he v state.1 t ht h
    · exact h

theorem foldl_arePositive {es : List Entry} (hes : ∀ e ∈ es, e.IsCareful) {state : Settings × List FieldProblem}
    (h : state.1.ArePositive) : (es.foldl (take given) state).1.ArePositive := by
  induction es generalizing state with
  | nil => exact h
  | cons e es ih =>
    rw [List.forall_mem_cons] at hes
    exact ih hes.2 (take_arePositive hes.1 h)

theorem ArePositive.clamp (h : s.ArePositive) : s.clamp.IsSound where
  toArePositive := { h with nodeTimeout := Nat.lt_min.mpr ⟨h.nodeTimeout, h.nodeTimeoutLimit⟩ }
  nodeTimeout_le := Nat.min_le_right _ _
  nodeRetries_le := Nat.min_le_right _ _

/-- Settings that are accepted are sound. -/
theorem isSound_of_ofFields (h : ofFields given = .ok s) : s.IsSound := by
  have hstart : ({} : Settings).ArePositive := by constructor <;> decide
  have hall : (entries.foldl (take given) ({}, [])).1.ArePositive := foldl_arePositive isCareful_entries hstart
  unfold ofFields at h
  split at h
  · rename_i t ht
    cases h
    rw [ht] at hall
    exact hall.clamp
  · cases h

theorem maxCallDepth_pos (h : ofFields given = .ok s) : 0 < s.maxCallDepth :=
  (isSound_of_ofFields h).callDepth

end Settings

end Workflow
