import Mathlib.Data.List.Induction
import Workflow.Clock.Timers
/-!
Which timers a heap holds. Putting timers in order makes none and loses none, and all that is taken from
a heap was in it.
-/

namespace Workflow.Timers

variable {α : Type} {ts rest : Timers α} {t top : Timer α}

theorem swapIfInBounds_perm (ts : Timers α) (i j : Nat) : (ts.swapIfInBounds i j).Perm ts := by
  rw [Array.swapIfInBounds_def]
  split
  · split
    · exact Array.swap_perm _ _
    · exact .rfl
  · exact .rfl

theorem lift_perm (floor fuel i : Nat) (ts : Timers α) : (lift floor fuel i ts).Perm ts := by
  induction fuel generalizing i ts with
  | zero => exact .rfl
  | succ fuel ih =>
    unfold lift
    split
    · exact .rfl
    · dsimp only
      split
      · exact (ih _ _).trans (swapIfInBounds_perm _ _ _)
      · exact .rfl

theorem sink_perm (floor fuel i : Nat) (ts : Timers α) : (sink floor fuel i ts).Perm ts := by
  induction fuel generalizing i ts with
  | zero => exact .rfl
  | succ fuel ih =>
    unfold sink
    split
    · exact (ih _ _).trans (swapIfInBounds_perm _ _ _)
    · exact lift_perm _ _ _ _

theorem heapify_perm (ts : Timers α) : (heapify ts).Perm ts := by
  unfold heapify
  induction (List.range (ts.size / 2)).reverse using List.reverseRecOn with
  | nil => exact .rfl
  | append_singleton is i ih =>
    rw [List.foldl_append]
    exact (sink_perm _ _ _ _).trans ih

theorem mem_start {time : Seconds} {target : α} (h : t ∈ ts.start time target) :
    t ∈ ts ∨ t = { time, target } :=
  Array.mem_push.mp ((lift_perm _ _ _ _).mem_iff.mp h)

/-- A stopped timer keeps its target. -/
theorem mem_stop {isFor : α → Bool} (h : t ∈ ts.stop isFor) : ∃ u ∈ ts, u.target = t.target := by
  obtain ⟨u, hu, rfl⟩ := Array.mem_map.mp h
  refine ⟨u, hu, ?_⟩
  split <;> rfl

theorem mem_pop? (h : ts.pop? = some (top, rest)) : top ∈ ts ∧ ∀ t ∈ rest, t ∈ ts := by
  unfold pop? at h
  split at h
  · cases h
  · rename_i u hu
    cases h
    refine ⟨Array.mem_of_getElem? hu, fun t ht => ?_⟩
    have hpop := (sink_perm _ _ _ _).mem_iff.mp ht
    obtain ⟨i, hi, rfl⟩ := Array.getElem_of_mem hpop
    rw [Array.getElem_pop]
    exact (swapIfInBounds_perm _ _ _).mem_iff.mp (Array.getElem_mem _)

theorem mem_dropStopped {fuel : Nat} (h : t ∈ dropStopped fuel ts) : t ∈ ts := by
  induction fuel generalizing ts with
  | zero => exact h
  | succ fuel ih =>
    unfold dropStopped at h
    split at h
    · rename_i top rest hp
      split at h
      · exact (mem_pop? hp).2 t (ih h)
      · exact h
    · exact h

theorem mem_tidy (h : t ∈ ts.tidy) : t ∈ ts := by
  unfold tidy at h
  dsimp only at h
  split at h
  · exact (Array.mem_filter.mp ((heapify_perm _).mem_iff.mp h)).1
  · exact mem_dropStopped h

theorem mem_takeDue {before : Seconds} {fuel : Nat}
    (h : t ∈ (takeDue before fuel ts).1 ∨ t ∈ (takeDue before fuel ts).2) : t ∈ ts := by
  induction fuel generalizing ts with
  | zero => simpa [takeDue] using h
  | succ fuel ih =>
    unfold takeDue at h
    split at h
    · simpa using h
    · rename_i top rest hp
      obtain ⟨htop, hrest⟩ := mem_pop? hp
      split at h
      · simp only [List.mem_cons] at h
        rcases h with (rfl | h) | h
        · exact htop
        · exact hrest t (ih (.inl h))
        · exact hrest t (ih (.inr h))
      · simpa using h

end Workflow.Timers
