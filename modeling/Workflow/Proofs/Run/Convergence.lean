import Workflow.Proofs.Run.Course
/-!
Where the course of a run ends. Runs of one flow with the same variables, whose handlers end in time or
not alike, end with the same gist, however they were paused and resumed on the way and in whatever order
their tasks took their steps.
-/

namespace Workflow

/-- The course of a run has come to its end: what is left to be done is not a part of the walk. -/
structure Bearing.IsFinal (b : Bearing) : Prop where
  plain : b.machine.gist = b.machine
  terminal : b.machine.run.status.isTerminal = true
  stance : b.stance = none ∨ b.stance = some (.execute, []) ∨ ∃ a, b.stance = some (.answer a, [])

namespace Bearing

variable {b c d : Bearing} {e : Surroundings} {inTime : Nat → Bool}

/-- Nothing changes any more. -/
theorem IsFinal.next (h : b.IsFinal) (e : Surroundings) (inTime : Nat → Bool) :
    (b.next e inTime).IsFinal ∧ (b.next e inTime).machine = b.machine ∧
      (b.next e inTime).settled = b.settled := by
  obtain ⟨m, stance, n⟩ := b
  obtain ⟨hm, ht, rfl | rfl | ⟨a, rfl⟩⟩ := h
  · exact ⟨⟨hm, ht, .inl rfl⟩, rfl, rfl⟩
  · have hne : (m.run.status != .pending) = true := by
      have ht : m.run.status.isTerminal = true := ht
      cases hs : m.run.status <;> rw [hs] at ht <;> first | rfl | cases ht
    have hstep : Bearing.next e inTime ⟨m, some (.execute, []), n⟩ = ⟨m, some (.answer .done, []), n⟩ := by
      show (⟨(m.execute e []).1.gist, (m.execute e []).2.stance.gist, n⟩ : Bearing) = _
      unfold Machine.execute
      rw [if_pos hne]
      exact congrArg (fun g => (⟨g, some (.answer .done, []), n⟩ : Bearing)) hm
    rw [hstep]
    exact ⟨⟨hm, ht, .inr (.inr ⟨_, rfl⟩)⟩, rfl, rfl⟩
  · have hstep : Bearing.next e inTime ⟨m, some (.answer a, []), n⟩ = ⟨m, none, n⟩ :=
      congrArg (fun g => (⟨g, none, n⟩ : Bearing)) hm
    rw [hstep]
    exact ⟨⟨hm, ht, .inl rfl⟩, rfl, rfl⟩

theorem IsFinal.iterate (h : b.IsFinal) (j : Nat) :
    ((Bearing.next e inTime)^[j] b).machine = b.machine ∧
      ((Bearing.next e inTime)^[j] b).settled = b.settled := by
  induction j generalizing b with
  | zero => exact ⟨rfl, rfl⟩
  | succ j ih =>
    obtain ⟨hn, hm, hs⟩ := h.next e inTime
    rw [Function.iterate_succ_apply]
    exact ⟨(ih hn).1.trans hm, (ih hn).2.trans hs⟩

/-- A course has one end. -/
theorem IsFinal.unique {j k : Nat} (hj : ((Bearing.next e inTime)^[j] b).IsFinal)
    (hk : ((Bearing.next e inTime)^[k] b).IsFinal) :
    ((Bearing.next e inTime)^[j] b).machine = ((Bearing.next e inTime)^[k] b).machine ∧
      ((Bearing.next e inTime)^[j] b).settled = ((Bearing.next e inTime)^[k] b).settled := by
  have later {j k : Nat} (hjk : j ≤ k) (hj : ((Bearing.next e inTime)^[j] b).IsFinal) :
      ((Bearing.next e inTime)^[k] b).machine = ((Bearing.next e inTime)^[j] b).machine ∧
        ((Bearing.next e inTime)^[k] b).settled = ((Bearing.next e inTime)^[j] b).settled := by
    obtain ⟨i, rfl⟩ := Nat.exists_eq_add_of_le hjk
    rw [Nat.add_comm, Function.iterate_add_apply]
    exact hj.iterate i
  rcases Nat.le_total j k with hjk | hjk
  · exact ⟨(later hjk hj).1.symm, (later hjk hj).2.symm⟩
  · exact later hjk hk

end Bearing

/-- A run that has ended leaves nothing to its walker but to give its slot back. -/
theorem Machine.Stands.final {m : Machine} {c : Control} {p : List Pending} (h : Stands m c p)
    (ht : m.run.status.isTerminal = true) :
    Stance.gist (some (c, p)) = some (.execute, []) ∨
      ∃ a, Stance.gist (some (c, p)) = some (.answer a, []) := by
  have bottom (hp : IsBottom p) : Stance.work p = [] := by
    rcases p with _ | ⟨k, _ | ⟨l, q⟩⟩
    · rfl
    · cases k <;> first | rfl | exact absurd hp id
    · cases k <;> exact absurd hp id
  have running (h : m.run.status = .running) : False := by
    rw [h] at ht
    cases ht
  have halted (h : m.IsHalted) : False := by
    rw [h.1] at ht
    cases ht
  cases h with
  | enqueue h => exact .inl rfl
  | start h t u s i => exact .inl rfl
  | execute h hp =>
    refine .inl ?_
    show some (Control.execute, Stance.work p) = _
    rw [bottom hp]
  | walk h => exact (running h).elim
  | wake h => exact (running h).elim
  | resume h => exact (h.elim running halted).elim
  | back h => exact (halted h).elim
  | refuse h => exact (halted h).elim
  | unwind h => exact (halted h).elim
  | ended h hp a =>
    refine .inr ⟨a, ?_⟩
    show some (Stance.arrived (.answer a) (Stance.work p)) = _
    rw [bottom hp]
    cases a <;> rfl

namespace Execution

variable {x y : Execution} {w : World} {r : Registry} {flows : Entries Flow}

/-- A run that has ended has come to the end of its course. -/
theorem bearing_isFinal (h : x.IsSound) (ht : x.machine.run.status.isTerminal = true) (n : Nat) :
    (x.bearing n).IsFinal where
  plain := x.machine.gist_gist
  terminal := by
    show x.machine.run.status.unpaused.isTerminal = true
    rw [Status.isTerminal_unpaused]
    exact ht
  stance := by
    obtain ⟨-, roles, hr⟩ := h
    show x.position = none ∨ _
    cases hm : x.machine.main with
    | none =>
      refine .inr (.inl ?_)
      show x.position = _
      unfold position
      rw [hm]
      rfl
    | some t =>
      have hp : x.position = x.stance.gist := by
        unfold position
        rw [hm]
        rfl
      show x.position = none ∨ x.position = _ ∨ ∃ a, x.position = _
      rw [hp]
      have stands {c : Control} {p : List Pending} (hs : x.stance = some (c, p))
          (hc : x.machine.Stands c p) : Stance.gist x.stance = none ∨
            Stance.gist x.stance = some (.execute, []) ∨
              ∃ a, Stance.gist x.stance = some (.answer a, []) := by
        rw [hs]
        exact .inr (hc.final ht)
      by_cases hself : ∃ s, x.active = some s ∧ s.task = t
      · obtain ⟨s, hs, rfl⟩ := hself
        obtain ⟨-, q, hq, -, hstands⟩ := hr.strand hs
        rw [hr.main.mpr hm] at hq
        cases hq
        exact stands (stance_of_walker hs hm) (hstands rfl)
      · have hst : x.stance = x.machine.stance t := by
          cases ha : x.active with
          | none => exact stance_of_idle hm ha
          | some s => exact stance_of_other ha hm fun he => hself ⟨s, ha, he⟩
        obtain ⟨st, hstate⟩ := Machine.exists_state? (hr.fitting.lt (hr.main.mpr hm))
        obtain ⟨p, hpending⟩ := Machine.exists_pending? hstate
        have hpark := hr.parked hm hstate hpending
        have hstance : x.stance = st.stance p := by
          rw [hst, Machine.stance, hstate, hpending]
          rfl
        cases st with
        | fresh c i =>
          obtain ⟨hc, rfl, -⟩ := hpark
          rw [hstance]
          cases c <;> first | exact .inr (.inl rfl) | exact absurd hc id
        | waiting v k =>
          refine stands hstance ?_
          cases hpark with
          | start h t u => exact .start h t u false false
          | walk h hu hw hm => exact .wake h hu hw hm false false
          | pause h =>
            rw [h] at ht
            cases ht
        | woken v a i => exact stands hstance hpark
        | running =>
          obtain ⟨s, hs, he⟩ := hr.running hstate
          exact absurd ⟨s, hs, he⟩ hself
        | ended a =>
          rw [hstance]
          exact .inl rfl

/-! Runs. -/

/-- Which handlers had ended in time when the walker was done with them, in the order in which it
was. -/
def verdicts (w : World) : List Input → Execution → List Bool
  | [], _ => []
  | i :: rest, x => (x.verdict? i).toList ++ verdicts w rest (x.take w i)

/-- What comes in keeps a run such that nothing cuts it short. -/
theorem take_undisturbed (h : x.IsSound) (hx : x.Undisturbed r) {i : Input}
    (hi : i.Controls r flows) : (x.take w i).Undisturbed r := by
  cases i with
  | command c => exact (obey_eases h hi).undisturbed hx
  | move a =>
    show (x.move w a).Undisturbed r
    unfold move
    split
    · rename_i ha
      cases a with
      | begin t =>
        simp only [allows, isIdle, Bool.and_eq_true, Option.isNone_iff_eq_none] at ha
        exact (begin_eases ha.1 t).undisturbed hx
      | step now => exact hx.step h hi.1
      | tell t k => exact (tell_eases h ha).undisturbed hx
      | grant t => exact (grant_eases ha).undisturbed hx
    · exact hx

theorem after_undisturbed (h : x.IsSound) (hx : x.Undisturbed r) {is : List Input}
    (hi : ∀ i ∈ is, i.Controls r flows) : (after w is x).IsSound ∧ (after w is x).Undisturbed r := by
  induction is generalizing x with
  | nil => exact ⟨h, hx⟩
  | cons i is ih =>
    exact ih (take_isSound h i) (take_undisturbed h hx (hi i List.mem_cons_self))
      fun i hm => hi i (List.mem_cons_of_mem _ hm)

/-- A whole run goes along its course. -/
theorem after_bearing (h : x.IsSound) (hx : x.Undisturbed r) {is : List Input}
    (hi : ∀ i ∈ is, i.Controls r flows) {inTime : Nat → Bool} (n : Nat)
    (hv : ∀ k v, (verdicts w is x)[k]? = some v → inTime (n + k) = v) :
    ∃ j, (after w is x).bearing (n + (verdicts w is x).length) =
      (Bearing.next (w.background r flows) inTime)^[j] (x.bearing n) := by
  induction is generalizing x n with
  | nil => exact ⟨0, rfl⟩
  | cons i is ih =>
    have hi0 := hi i List.mem_cons_self
    obtain ⟨j, hj⟩ := take_bearing (w := w) h hx hi0 inTime n fun v hs => by
      refine hv 0 v ?_
      rw [verdicts, hs]
      rfl
    obtain ⟨k, hk⟩ := ih (take_isSound h i) (take_undisturbed h hx hi0)
      (fun i hm => hi i (List.mem_cons_of_mem _ hm)) (n + (x.verdict? i).toList.length)
      fun k v hs => by
        rw [Nat.add_assoc]
        refine hv _ v ?_
        rw [verdicts, List.getElem?_append_right (Nat.le_add_right _ _), Nat.add_sub_cancel_left]
        exact hs
    refine ⟨k + j, ?_⟩
    rw [Function.iterate_add_apply, ← hj, ← hk, verdicts, List.length_append, Nat.add_assoc]
    rfl

/-- Runs that start from one point of their course, and whose handlers end in time or not alike, come to
one end. -/
theorem after_gist (hx : x.IsSound) (hx' : x.Undisturbed r) (hy : y.IsSound) (hy' : y.Undisturbed r)
    (hb : x.bearing 0 = y.bearing 0) {is js : List Input} (hi : ∀ i ∈ is, i.Controls r flows)
    (hj : ∀ i ∈ js, i.Controls r flows) {inTime : Nat → Bool}
    (hvi : ∀ k v, (verdicts w is x)[k]? = some v → inTime k = v)
    (hvj : ∀ k v, (verdicts w js y)[k]? = some v → inTime k = v)
    (hti : (after w is x).machine.run.status.isTerminal = true)
    (htj : (after w js y).machine.run.status.isTerminal = true) :
    (after w is x).machine.gist = (after w js y).machine.gist ∧
      (verdicts w is x).length = (verdicts w js y).length := by
  obtain ⟨j, hj'⟩ := after_bearing hx hx' hi 0 fun k v hk => by rw [Nat.zero_add]; exact hvi k v hk
  obtain ⟨k, hk'⟩ := after_bearing hy hy' hj 0 fun k v hk => by rw [Nat.zero_add]; exact hvj k v hk
  have hfi := bearing_isFinal (after_undisturbed (w := w) hx hx' hi).1 hti
    (0 + (verdicts w is x).length)
  have hfj := bearing_isFinal (after_undisturbed (w := w) hy hy' hj).1 htj
    (0 + (verdicts w js y).length)
  rw [hj'] at hfi
  rw [hk', ← hb] at hfj
  have hu := hfi.unique hfj
  rw [← hj', hb, ← hk'] at hu
  refine ⟨hu.1, ?_⟩
  rw [← Nat.zero_add (verdicts w is x).length, ← Nat.zero_add (verdicts w js y).length]
  exact hu.2

end Execution

/-- What a run has computed: the steps that were traced, without their times, and how it ended. -/
structure Result where
  trace : Array TraceEntry
  status : Status
  error : Option ErrorInfo
  outputs : Option (Entries Value)

def Run.result (r : Run) : Result where
  trace := r.trace.map TraceEntry.undated
  status := r.status
  error := r.error
  outputs := r.outputs

/-- The gist of a run that has ended holds what it has computed. -/
theorem Machine.result_of_gist {m n : Machine} (h : m.gist = n.gist)
    (hm : m.run.status.isTerminal = true) : m.run.result = n.run.result := by
  have hn : n.run.status.isTerminal = true := by rw [← isTerminal_of_gist h, hm]
  have hstatus : m.run.status = n.run.status := by
    rw [← Status.unpaused_of_terminal hm, ← Status.unpaused_of_terminal hn, unpaused_of_gist h]
  have htrace : m.run.trace.map TraceEntry.undated = n.run.trace.map TraceEntry.undated :=
    congrArg (·.run.trace) h
  have herror : m.run.error = n.run.error := congrArg (·.run.error) h
  have houtputs : m.run.outputs = n.run.outputs := congrArg (·.run.outputs) h
  unfold Run.result
  rw [hstatus, htrace, herror, houtputs]

end Workflow
