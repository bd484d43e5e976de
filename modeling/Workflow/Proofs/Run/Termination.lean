import Workflow.Proofs.Run.Progress
/-!
Every run comes to its end. A move brings it nearer, whichever it is: one of the walker by the ranks
of what is left of its walk, one of others by what is left of their errands. Commands take it no
farther off. So a run that is not paused, and in which something that can happen always happens in the
end, cannot go on forever.
-/

namespace Workflow.Execution

variable {x : Execution} {w : World}

/-- How far a run is from its end: what is left of its walk, and of the errands of others. -/
def distance (s : Settings) (x : Execution) : Multiset Rank × Nat :=
  (Stance.ranks s x.stance, x.chores)

/-- Less is left of the walk, or as much of it and less of the errands. -/
def IsNearer : Multiset Rank × Nat → Multiset Rank × Nat → Prop :=
  Prod.Lex Multiset.IsDershowitzMannaLT (· < ·)

theorem isNearer_wf : WellFounded IsNearer :=
  Multiset.wellFounded_isDershowitzMannaLT.prod_lex Nat.lt_wfRel.wf

theorem Attends.isNearer {y : Execution} (h : x.Attends y) (s : Settings)
    (hc : y.chores < x.chores) : IsNearer (y.distance s) (x.distance s) := by
  unfold distance
  rw [h.stance.ranks]
  exact .right _ hc

/-- Every move brings a run nearer to its end. -/
theorem move_isNearer (h : x.IsSound) {a : Move} (ha : x.allows a = true) :
    IsNearer ((x.move w a).distance w.settings) (x.distance w.settings) := by
  have hmove := move_cases (w := w) h a
  unfold move at hmove ⊢
  rw [if_pos ha] at hmove ⊢
  have hidle {t : TaskId} (hb : x.allows (.begin t) = true) : x.active = none := by
    simp only [allows, isIdle, Bool.and_eq_true, Option.isNone_iff_eq_none] at hb
    exact hb.1
  cases a with
  | begin t => exact (begin_attends h (hidle ha) t).isNearer _ (begin_chores ha)
  | step now =>
    cases hs : x.active with
    | none => simp [allows, isIdle, hs] at ha
    | some s =>
      by_cases hm : x.machine.main = some s.task
      · have ht := step_treads (w := w) h hs hm now
        obtain ⟨-, roles, hr⟩ := h
        rw [hs] at hr
        obtain ⟨-, r, hrole, -, hstands⟩ := hr.strand rfl
        have hw : r = .walker := by
          have := hr.main.mpr hm
          rw [hrole] at this
          exact Option.some.inj this
        refine .left _ _ ?_
        rw [ht.stance, stance_of_walker hs hm]
        exact (hstands hw).sinks (w.surroundings now) s.task
      · exact (step_attends h hs hm now).isNearer _ (step_chores h hs hm now)
  | tell t k =>
    obtain ht | ⟨now, s, hstep, -⟩ := hmove
    · exact ht.isNearer _ (tell_chores ha)
    · cases hstep
  | grant t => exact (grant_attends h ha).isNearer _ (grant_chores ha)

/-- A command to a run that has started takes it no farther from its end. -/
theorem obey_isNearer (h : x.IsSound) (hm : x.machine.main ≠ none) (c : Command) :
    (x.obey c).distance w.settings = x.distance w.settings ∨
      IsNearer ((x.obey c).distance w.settings) (x.distance w.settings) := by
  have hc := obey_chores hm c
  rcases obey_cases h c with hs | ⟨hn, -⟩
  · unfold distance
    rw [hs.ranks]
    rcases Nat.lt_or_eq_of_le hc with hc | hc
    · exact .inr (.right _ hc)
    · exact .inl (by rw [hc])
  · exact absurd hn hm

theorem take_isNearer (h : x.IsSound) (hm : x.machine.main ≠ none) (i : Input) :
    (x.take w i).distance w.settings = x.distance w.settings ∨
      IsNearer ((x.take w i).distance w.settings) (x.distance w.settings) := by
  cases i with
  | move a =>
    by_cases ha : x.allows a = true
    · exact .inr (move_isNearer h ha)
    · refine .inl ?_
      show (x.move w a).distance _ = _
      unfold move
      rw [if_neg ha]
  | command c => exact obey_isNearer h hm c

/-- A run that has started keeps its walker. -/
theorem main_take (h : x.IsSound) (hm : x.machine.main ≠ none) (i : Input) :
    (x.take w i).machine.main = x.machine.main := by
  cases i with
  | move a =>
    rcases move_cases (w := w) h a with ht | ⟨now, s, -, ht⟩
    · exact (congrArg Machine.main ht.watchers :)
    · obtain ⟨-, roles, hr⟩ := h
      rw [ht.active] at hr
      obtain ⟨-, r, hrole, hsuits, hstands⟩ := hr.strand rfl
      have hw : r = .walker := by
        have := hr.main.mpr ht.main
        rw [hrole] at this
        exact Option.some.inj this
      subst hw
      obtain ⟨⟨more, hp⟩, -⟩ := (hstands rfl).steps s.task hr.fitting w now hsuits
      have hmain : (x.take w (.move a)).machine.main =
          (x.machine.step (w.surroundings now) s.task s.control s.pending).1.main :=
        (congrArg Machine.main ht.core :)
      rw [hmain, hp.main]
  | command c =>
    show (x.obey c).machine.main = _
    unfold obey
    split
    · exact (Machine.obey_tends x.machine fun hn => absurd hn hm).2
    · rfl

/-- A run that has started stays so. -/
theorem take_main (h : x.IsSound) (hm : x.machine.main ≠ none) (i : Input) :
    (x.take w i).machine.main ≠ none := by
  rw [main_take h hm]
  exact hm

/-- The states that a run goes through while moves and commands come in. -/
def along (w : World) (is : Nat → Input) (x : Execution) : Nat → Execution
  | 0 => x
  | n + 1 => (along w is x n).take w (is n)

/-- Something that can happen happens in the end: as long as moves are possible, one is made. -/
def IsFair (w : World) (is : Nat → Input) (x : Execution) : Prop :=
  ∀ n, (∃ a, (along w is x n).allows a = true) →
    ∃ k a, n ≤ k ∧ is k = .move a ∧ (along w is x k).allows a = true

section along

variable {is : Nat → Input}

theorem along_isSound (h : x.IsSound) (n : Nat) : (along w is x n).IsSound := by
  induction n with
  | zero => exact h
  | succ n ih => exact take_isSound ih _

theorem along_roused (h : x.IsSound) (hr : x.Roused) (n : Nat) : (along w is x n).Roused := by
  induction n with
  | zero => exact hr
  | succ n ih => exact ih.take (along_isSound h n) _

/-- A run that has started and is never paused ends, from whatever state on. -/
theorem exists_terminal (h : x.IsSound) (hr : x.Roused) (hf : IsFair w is x)
    (hp : ∀ n, (along w is x n).machine.run.status ≠ .paused) (n : Nat)
    (hm : (along w is x n).machine.main ≠ none) :
    ∃ k, (along w is x k).machine.run.status.isTerminal = true := by
  induction hd : (along w is x n).distance w.settings using isNearer_wf.induction generalizing n with
  | _ d ih =>
    by_cases ht : (along w is x n).machine.run.status.isTerminal = true
    · exact ⟨n, ht⟩
    · have hgoes := exists_allowed (along_isSound h n) (along_roused h hr n) hm (hp n)
        (Bool.eq_false_iff.mpr ht)
      obtain ⟨k, a, hk, hi, ha⟩ := hf n hgoes
      obtain ⟨j, rfl⟩ := Nat.exists_eq_add_of_le hk
      clear hk ht hgoes
      -- The run is no farther from its end when the move is made.
      induction j generalizing n with
      | zero =>
        refine ih _ ?_ (n + 1) (take_main (along_isSound h n) hm _) rfl
        rw [← hd]
        show IsNearer (((along w is x n).take w (is n)).distance w.settings) _
        rw [show is n = .move a from hi]
        exact move_isNearer (along_isSound h n) ha
      | succ j ihj =>
        have hm' := take_main (w := w) (along_isSound h n) hm (is n)
        have hstep : (along w is x (n + 1)).distance w.settings = d ∨
            IsNearer ((along w is x (n + 1)).distance w.settings) d := by
          rw [← hd]
          exact take_isNearer (along_isSound h n) hm (is n)
        rcases hstep with he | hlt
        · exact ihj (n + 1) hm' he (by rwa [Nat.add_right_comm]) (by rwa [Nat.add_right_comm])
        · exact ih _ hlt (n + 1) hm' rfl

theorem take_log (i : Input) : ∃ late, (x.take w i).log = late ++ x.log := by
  have same : ∃ late, x.log = late ++ x.log := ⟨[], rfl⟩
  cases i with
  | command c =>
    show ∃ late, (x.obey c).log = late ++ x.log
    unfold obey
    split
    · exact ⟨_, rfl⟩
    · exact same
  | move a =>
    show ∃ late, (x.move w a).log = late ++ x.log
    unfold move
    split
    · cases a with
      | begin t =>
        show ∃ late, (x.begin t).log = late ++ x.log
        have hb := x.begins t
        generalize x.begin t = y at hb ⊢
        cases hb with
        | dismissed => exact ⟨_, rfl⟩
        | _ => exact same
      | step now =>
        show ∃ late, (x.step w now).log = late ++ x.log
        unfold step
        split
        · exact same
        · exact ⟨_, rfl⟩
      | tell t k => exact ⟨_, rfl⟩
      | grant t => exact same
    · exact same

theorem along_log (n j : Nat) : ∃ late, (along w is x (n + j)).log = late ++ (along w is x n).log := by
  induction j with
  | zero => exact ⟨[], rfl⟩
  | succ j ih =>
    obtain ⟨late, hl⟩ := ih
    obtain ⟨later, hk⟩ := take_log (x := along w is x (n + j)) (w := w) (is (n + j))
    exact ⟨later ++ late, by rw [← Nat.add_assoc, along, hk, hl, List.append_assoc]⟩

end along

/-- A run that has ended has no more events of its own. -/
theorem IsSound.ceases {y : Execution} (hx : x.IsSound) (hy : y.IsSound) {late : List Effect}
    (hl : y.log = late ++ x.log) (ht : x.machine.run.status.isTerminal = true) :
    kernelTypes y.log = kernelTypes x.log := by
  have happ : kernelTypes y.log = kernelTypes x.log ++ kernelTypes late := by
    rw [kernelTypes, hl, List.reverse_append, List.filterMap_append]
    rfl
  -- The event that named the status is the last one there can be.
  obtain ⟨l, t, r, hs, hterm⟩ : ∃ l t r, kernelTypes x.log = l ++ t :: r ∧ t ∈ terminalTypes := by
    have named : ∀ t s, Status.named? t = some s → s.isTerminal = true → t ∈ terminalTypes := by
      intro t s hn hs
      unfold Status.named? at hn
      split at hn <;> cases hn <;> first | decide | cases hs
    cases hf : (kernelTypes x.log).reverse.findSome? Status.named? with
    | none =>
      rw [hx.lifecycle.status, hf] at ht
      cases ht
    | some s =>
      rw [hx.lifecycle.status, hf] at ht
      obtain ⟨t, hmem, hn⟩ := List.exists_of_findSome?_eq_some hf
      obtain ⟨l, r, hs⟩ := List.append_of_mem (List.mem_reverse.mp hmem)
      exact ⟨l, t, r, hs, named t s hn ht⟩
  have hend := hy.lifecycle.ends l t (r ++ kernelTypes late) (by rw [happ, hs]; simp) hterm
  rw [happ, (List.append_eq_nil_iff.mp hend).2, List.append_nil]

/-- How many attempts at nodes a run has begun. -/
def attempts (x : Execution) : Nat :=
  (kernelTypes x.log).count "node.started"

/-- Every run that is started and never paused ends after some number of attempts at nodes, whatever
it finds in the store and whatever its policies and its data are: its flows may call each other, its
loops may lengthen the lists that others go through, and all its nodes may fail. -/
theorem run_terminates (w : World) (id : String) (flow : Flow) (bindings : Entries Value)
    (breakpoints : Breakpoints) (pauseOnStart : Bool) (stamp : Instant) (is : Nat → Input) :
    let x := ofMachine (.create id flow bindings breakpoints pauseOnStart stamp)
    IsFair w is x → (∃ n, (along w is x n).machine.main ≠ none) →
      (∀ n, (along w is x n).machine.run.status ≠ .paused) →
        ∃ n, (along w is x n).machine.run.status.isTerminal = true ∧
          ∀ k, n ≤ k → (along w is x k).attempts = (along w is x n).attempts := by
  intro x hf hstart hp
  have hx : x.IsSound := create_isSound id flow bindings breakpoints pauseOnStart stamp
  have hr : x.Roused := by
    intro t u i k hw
    simp [x, ofMachine, Machine.create, Machine.state?] at hw
  obtain ⟨m, hm⟩ := hstart
  obtain ⟨n, ht⟩ := exists_terminal hx hr hf hp m hm
  refine ⟨n, ht, fun k hk => ?_⟩
  obtain ⟨j, rfl⟩ := Nat.exists_eq_add_of_le hk
  obtain ⟨late, hl⟩ : ∃ late, (along w is x (n + j)).log = late ++ (along w is x n).log := along_log n j
  rw [attempts, attempts, (along_isSound hx n).ceases (along_isSound hx _) hl ht]

theorem obey_edit (h : x.IsSound) : x.obey (.edit fun b => b) = x := by
  unfold obey
  split
  · rename_i hi
    obtain ⟨he, -⟩ := h
    obtain ⟨m, active, log⟩ := x
    cases Option.isNone_iff_eq_none.mp hi
    cases m
    cases he
    rfl
  · rfl

/-- No move is left once all tasks have ended. -/
theorem not_allows (hi : x.isIdle = true)
    (h : ∀ t, t < x.machine.tasks.size → x.machine.hasEnded t = true) (a : Move) :
    x.allows a = false := by
  have ended {t : TaskId} {s : TaskState} (hs : x.machine.state? t = some s) :
      ∃ b, s = .ended b := by
    obtain ⟨b, hb⟩ := Machine.hasEnded_iff.mp (h t (Machine.lt_of_state? hs))
    rw [hs] at hb
    exact ⟨b, Option.some.inj hb⟩
  cases a with
  | step now => simp [allows, hi]
  | begin t =>
    rw [allows]
    cases hs : x.machine.state? t with
    | none => simp
    | some s =>
      obtain ⟨b, rfl⟩ := ended hs
      simp
  | tell t k =>
    rw [allows]
    cases hs : x.machine.state? t with
    | none => simp
    | some s =>
      obtain ⟨b, rfl⟩ := ended hs
      simp
  | grant t =>
    rw [allows]
    cases hs : x.machine.state? t with
    | none => rfl
    | some s =>
      obtain ⟨b, rfl⟩ := ended hs
      rfl

/-- The moves of a run of one node, once it is started. -/
def singleMoves : List Move :=
  .begin 0 :: List.replicate 10 (.step { registry := [], builtin := Registry.isBuiltin_nil })

/-- A run of one node is started and carried out, and is left alone after its end. -/
def singleInputs : Nat → Input
  | 0 => .command (.start false)
  | n + 1 => match singleMoves[n]? with
    | some a => .move a
    | none => .command (.edit fun b => b)

/-- A run of one node. -/
def single : Execution :=
  ofMachine (.create "" { id := "", nodes := [{ id := "", kind := "if" }] } [] [] false 0)

theorem single_after (j : Nat) :
    along { settings := {} } singleInputs single (12 + j) =
      along { settings := {} } singleInputs single 12 := by
  induction j with
  | zero => rfl
  | succ j ih =>
    have hs : singleInputs (12 + j) = .command (.edit fun b => b) := by
      have hn : singleMoves[11 + j]? = none := List.getElem?_eq_none (Nat.le_add_right 11 j)
      rw [show 12 + j = (11 + j) + 1 by omega, singleInputs, hn]
    rw [← Nat.add_assoc, along, hs, ih]
    exact obey_edit (along_isSound (create_isSound ..) 12)

/-- The end of a run of one node. -/
theorem run_terminates_single :
    IsFair { settings := {} } singleInputs single ∧
      (∃ n, (along { settings := {} } singleInputs single n).machine.main ≠ none) ∧
      (∀ n, (along { settings := {} } singleInputs single n).machine.run.status ≠ .paused) ∧
      ∃ n, (along { settings := {} } singleInputs single n).machine.run.status.isTerminal = true ∧
        ∀ k, n ≤ k → (along { settings := {} } singleInputs single k).attempts =
          (along { settings := {} } singleInputs single n).attempts := by
  have hmoves : ∀ n < 11, (singleMoves[n]?.any fun a =>
      (along { settings := {} } singleInputs single (n + 1)).allows a) = true := by decide +kernel
  have hend : ∀ a, (along { settings := {} } singleInputs single 12).allows a = false :=
    not_allows (by decide +kernel) (by decide +kernel)
  have hfair : IsFair { settings := {} } singleInputs single := by
    intro n hn
    by_cases hlt : n < 12
    · -- The move that comes next is possible; the first one comes after the start.
      obtain ⟨k, hk, hnk⟩ : ∃ k < 11, n ≤ k + 1 := ⟨n - 1, by omega, by omega⟩
      obtain ⟨a, ha, hallowed⟩ := (Option.any_eq_true _ _).mp (hmoves k hk)
      exact ⟨k + 1, a, hnk, by rw [singleInputs, ha], hallowed⟩
    · obtain ⟨j, rfl⟩ := Nat.exists_eq_add_of_le (Nat.le_of_not_lt hlt)
      obtain ⟨a, ha⟩ := hn
      rw [single_after, hend] at ha
      cases ha
  have hmain : (along { settings := {} } singleInputs single 1).machine.main ≠ none := by
    decide +kernel
  have hpause : ∀ n, (along { settings := {} } singleInputs single n).machine.run.status ≠ .paused := by
    intro n
    by_cases hlt : n < 12
    · have hs : ∀ n < 12,
          (along { settings := {} } singleInputs single n).machine.run.status ≠ .paused := by
        decide +kernel
      exact hs n hlt
    · obtain ⟨j, rfl⟩ := Nat.exists_eq_add_of_le (Nat.le_of_not_lt hlt)
      rw [single_after]
      decide +kernel
  exact ⟨hfair, ⟨1, hmain⟩, hpause, run_terminates { settings := {} } "" _ [] [] false 0 singleInputs
    hfair ⟨1, hmain⟩ hpause⟩

end Workflow.Execution
