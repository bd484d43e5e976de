import Workflow.Proofs.Run.Isolation
import Workflow.Proofs.Run.Upholding
/-!
The work of a run that an engine has started. It asks for a slot before anything else, its walk is done
above the slot that it has or goes without, and its task ends when it has given the slot back.
-/

namespace Workflow

namespace Machine

/-- Where the walker stands that asks for a slot first. -/
inductive OnSlot : Control → List Pending → Prop
  | enqueue : OnSlot .enqueue []
  | start (t u : TaskId) (s i : Bool) : OnSlot (.wake (.start t u) s i) []
  | execute (held : Bool) : OnSlot .execute [.slot held]
  | walk (c : Control) (ks : List Pending) (held : Bool) : OnSlot c (ks ++ [.execution, .slot held])
  | ended (held : Bool) : OnSlot (.answer .done) [.slot held]
  | closing : OnSlot (.answer .done) []

/-- How the walker goes on that asks for a slot first: it is about to end once it has given the slot
back, and then it ends. -/
structure Leaves (c : Control) (p : List Pending) (a : Stance) : Prop where
  stance : ∀ c' p', a = some (c', p') → OnSlot c' p'
  closes : a = some (.answer .done, []) → ∃ held, c = .answer .done ∧ p = [.slot held]
  ends : a = none → c = .answer .done ∧ p = []

theorem Leaves.above {c c' : Control} {p p' : List Pending} (h : OnSlot c' p') (hp : p' ≠ []) :
    Leaves c p (some (c', p')) where
  stance := by rintro _ _ ⟨⟩; exact h
  closes ha := absurd (Prod.ext_iff.mp (Option.some.inj ha)).2 hp
  ends ha := by cases ha

variable {roles : List Role} {m : Machine} {c : Control} {p : List Pending}

/-- A step within the walk stays above the slot. -/
theorem walk_leaves (held : Bool) {x : StepResult}
    (h : Roams (fun _ _ => True) m [.execution, .slot held] x) :
    Leaves c p x.2.stance := by
  have above {c' : Control} {p' : List Pending}
      (h : Above (fun _ => True) [.execution, .slot held] p') : Leaves c p (some (c', p')) := by
    obtain ⟨ks, rfl, -⟩ := h
    exact .above (.walk c' ks held) (by simp)
  have ht := h.turn
  cases hx : x.2 with
  | go c' p' =>
    rw [hx] at ht
    exact above ht.2
  | wait v on limit p' =>
    rw [hx] at ht
    exact above ht
  | pass p' =>
    rw [hx] at ht
    exact above ht
  | stop a =>
    rw [hx] at ht
    cases ht

theorem ended_of_mainEnded (h : m.mainEnded = true) :
    ∃ t a, m.main = some t ∧ m.state? t = some (.ended a) := by
  obtain ⟨t, hm, he⟩ := (Option.any_eq_true ..).mp h
  unfold hasEnded ending? at he
  split at he
  · exact ⟨t, _, hm, ‹_›⟩
  · cases he

theorem mainEnded_of_ended {t : TaskId} {a : Answer} (hm : m.main = some t)
    (hs : m.state? t = some (.ended a)) : m.mainEnded = true := by
  refine (Option.any_eq_true ..).mpr ⟨t, hm, ?_⟩
  unfold hasEnded ending?
  rw [hs]
  rfl

/-- A task that was signalled or cancelled has not ended by it. -/
theorem Upholds.mainEnded {n : Machine} (h : Upholds m n) (he : n.mainEnded = true) :
    m.mainEnded = true := by
  obtain ⟨t, a, hm, hs⟩ := ended_of_mainEnded he
  refine mainEnded_of_ended (h.main.symm.trans hm) (a := a) ?_
  cases hst : m.state? t with
  | none =>
    obtain ⟨c, hc⟩ := h.new (state?_eq_none.mp hst) hs
    cases hc.ended_iff.mp rfl
  | some s =>
    obtain ⟨s', hs', hshift⟩ := h.old hst
    cases hs.symm.trans hs'
    rw [hshift.ended_iff.mp rfl]

/-- A walk ends with an outcome, or by a fault. -/
theorem Stands.ends_walk {a : Answer} (h : Stands m (.answer a) (.execution :: p)) :
    (∃ o, a = .outcome o) ∨ ∃ f, a = .thrown f := by
  cases h with
  | walk _ _ _ hm _ =>
    cases a with
    | outcome o => exact .inl ⟨o, rfl⟩
    | thrown f => exact .inr ⟨f, rfl⟩
    | _ => exact absurd hm id
  | back _ _ hm => exact absurd hm id
  | unwind => exact .inl ⟨_, rfl⟩
  | ended _ hp => cases p <;> exact absurd hp id

/-- A step of the walker. -/
theorem OnSlot.leaves (h : OnSlot c p) (hs : Stands m c p) (hf : m.Fitting roles) (w : World)
    (now : Moment) (t : TaskId) (hc : c.Suits roles .walker p) :
    Leaves c p (m.step (w.surroundings now) t c p).2.stance := by
  have hP : Widens fun _ _ => True := ⟨fun _ h => h, fun h => h⟩
  cases h with
  | enqueue =>
    show Leaves _ _ (m.enqueue []).2.stance
    unfold Machine.enqueue
    split
    · exact .above (.execute false) (by simp)
    · refine ⟨?_, ?_, ?_⟩
      · rintro _ _ ⟨⟩
        exact .start _ _ false false
      · rintro ⟨⟩
      · rintro ⟨⟩
  | start u v s i =>
    cases hc.2 rfl
    obtain ⟨n, held, he, -⟩ := wakeFromStart_aside (p := []) t hf (w.surroundings now) s hc.1.1 hc.1.2
    show Leaves _ _ (m.wake (w.surroundings now) t (.start u v) s false []).2.stance
    rw [he]
    exact .above (.execute held) (by simp)
  | execute held =>
    show Leaves _ _ (m.execute (w.surroundings now) [.slot held]).2.stance
    unfold Machine.execute
    split
    · exact .above (.ended held) (by simp)
    · split
      · exact .above (.ended held) (by simp)
      · exact .above (.walk _ [] held) (by simp)
  | walk c ks held =>
    by_cases ha : ks = [] ∧ ∃ a, c = .answer a
    · obtain ⟨rfl, a, rfl⟩ := ha
      show Leaves _ _ (m.resume (w.surroundings now) .execution a [.slot held]).2.stance
      rcases hs.ends_walk with ⟨o, rfl⟩ | ⟨f, rfl⟩ <;> exact .above (.ended held) (by simp)
    · refine walk_leaves (m := m) held ?_
      refine hs.roams hP hf w now t hc (fun _ _ => trivial) ⟨ks, rfl, fun _ _ _ _ => trivial⟩
        (fun _ => trivial) fun _ a hca hp => ha ⟨?_, a, hca⟩
      exact List.append_left_eq_self.mp hp
  | ended held =>
    refine ⟨?_, fun _ => ⟨held, rfl, rfl⟩, ?_⟩
    · rintro _ _ ⟨⟩
      exact .closing
    · rintro ⟨⟩
  | closing =>
    refine ⟨?_, ?_, fun _ => ⟨rfl, rfl⟩⟩
    · rintro _ _ ⟨⟩
    · rintro ⟨⟩

theorem OnSlot.wake {v : Wait} {s i : Bool} (h : OnSlot (.wake v s i) p) (s' i' : Bool) :
    OnSlot (.wake v s' i') p := by
  generalize hc : Control.wake v s i = c at h
  cases h with
  | start t u s i =>
    cases hc
    exact .start t u s' i'
  | walk c ks held => exact .walk _ ks held
  | _ => cases hc

end Machine

namespace Execution

open Machine

variable {x y : Execution} {w : World}

/-- Whether the walker, once it is started, asks for a slot first. -/
def IsSlotted (x : Execution) : Prop :=
  ∀ c p, x.stance = some (c, p) → OnSlot c p

theorem IsSlotted.stirs (h : x.IsSlotted) (hs : x.stance.Stirs y.stance) : y.IsSlotted := by
  intro c p hc
  generalize hx : x.stance = a at hs
  generalize y.stance = b at hs hc
  cases hs with
  | refl => exact h c p (hx.trans hc)
  | wake v s i s' i' q =>
    cases hc
    exact (h _ _ hx).wake s' i'

/-- A step of the walker of such a run. -/
theorem Treads.leaves (h : x.IsSound) (hx : x.IsSlotted) {now : Moment} {s : Strand}
    (ht : Treads w now s x y) : Leaves s.control s.pending y.stance := by
  obtain ⟨-, roles, hr⟩ := h
  obtain ⟨-, r, hrole, hsuits, hstands⟩ := hr.strand ht.active
  rw [hr.main.mpr ht.main] at hrole
  cases hrole
  rw [ht.stance]
  exact (hx _ _ (stance_of_walker ht.active ht.main)).leaves (hstands rfl) hr.fitting w now s.task hsuits

/-- A run that is made to ask for a slot when it starts does so. -/
theorem obey_isSlotted (h : x.IsSound) (hx : x.IsSlotted) {c : Command} (hc : ∀ s, c = .start s → s = true) :
    (x.obey c).IsSlotted := by
  unfold obey
  split
  · rename_i hi
    have hidle := Option.isNone_iff_eq_none.mp hi
    by_cases hstart : x.machine.main = none ∧ ∃ slotted, c = .start slotted
    · obtain ⟨hm, slotted, rfl⟩ := hstart
      cases hc _ rfl
      rintro c p hs
      cases (start_stance hm true).symm.trans hs
      exact .enqueue
    · obtain ⟨ht, hm⟩ := Machine.obey_tends x.machine (c := c) fun hm slotted hs =>
        hstart ⟨hm, slotted, hs⟩
      exact hx.stirs (stirs_of_tends h hidle rfl (ht.trans (.of_tasks rfl)) hm)
  · exact hx

/-- Whatever comes in to such a run, its work is done on a slot. -/
theorem take_isSlotted (h : x.IsSound) (hx : x.IsSlotted) {i : Input}
    (hi : ∀ s, i = .command (.start s) → s = true) : (x.take w i).IsSlotted := by
  cases i with
  | move a =>
    rcases move_cases (w := w) h a with ha | ⟨now, s, -, ht⟩
    · exact hx.stirs ha.stance
    · exact (ht.leaves h hx).stance
  | command c => exact obey_isSlotted h hx fun s hs => hi s (congrArg Input.command hs)

theorem after_isSlotted (h : x.IsSound) (hx : x.IsSlotted) {is : List Input}
    (hi : ∀ i ∈ is, ∀ s, i = .command (.start s) → s = true) : (after w is x).IsSlotted := by
  induction is generalizing x with
  | nil => exact hx
  | cons i is ih =>
    exact ih (take_isSound h i) (take_isSlotted h hx (hi i List.mem_cons_self))
      fun j hj => hi j (List.mem_cons_of_mem _ hj)

theorem ofMachine_isSlotted {m : Machine} (h : m.main = none) : (ofMachine m).IsSlotted := by
  intro c p hs
  rw [stance, show (ofMachine m).machine.main = none from h] at hs
  cases hs

/-! The end of the walker. -/

/-- The walker stands nowhere when its task has ended. -/
theorem stance_of_mainEnded (h : x.IsSound) (he : x.machine.mainEnded = true) : x.stance = none := by
  obtain ⟨-, roles, hr⟩ := h
  obtain ⟨t, a, hm, hst⟩ := ended_of_mainEnded he
  have hstance : x.machine.stance t = none := by
    rw [Machine.stance, hst]
    rfl
  cases ha : x.active with
  | none => rw [stance_of_idle hm ha, hstance]
  | some s =>
    have hst' := (hr.strand ha).1
    rw [stance_of_other ha hm, hstance]
    rintro rfl
    rw [hst] at hst'
    cases hst'

theorem mainEnded_of_stance (h : x.IsSound) (hm : x.machine.main ≠ none) (hs : x.stance = none) :
    x.machine.mainEnded = true := by
  obtain ⟨t, hm⟩ := Option.ne_none_iff_exists'.mp hm
  have hlt := h.lt_main hm
  obtain ⟨-, roles, hr⟩ := h
  obtain ⟨s, hst⟩ := exists_state? hlt
  obtain ⟨p, hp⟩ := exists_pending? hst
  have hstance : s.stance p = none := by
    have hrest (hs : x.machine.stance t = none) : s.stance p = none := by
      rw [Machine.stance, hst, hp] at hs
      exact hs
    cases ha : x.active with
    | none => exact hrest (stance_of_idle hm ha ▸ hs)
    | some b =>
      by_cases ht : b.task = t
      · rw [stance_of_walker ha (ht ▸ hm)] at hs
        cases hs
      · exact hrest (stance_of_other ha hm ht ▸ hs)
  cases s with
  | running =>
    obtain ⟨b, hb, ht⟩ := hr.running hst
    rw [stance_of_walker hb (ht ▸ hm)] at hs
    cases hs
  | ended a => exact mainEnded_of_ended hm hst
  | _ => cases hstance

/-- The walker's task does not end by what others do. -/
theorem Attends.mainEnded (h : x.IsSound) (hy : y.IsSound) (ha : x.Attends y)
    (he : y.machine.mainEnded = true) : x.machine.mainEnded = true := by
  have hmain : y.machine.main = x.machine.main := (congrArg Machine.main ha.watchers :)
  refine mainEnded_of_stance h (fun hn => ?_) (ha.stance.eq_none (stance_of_mainEnded hy he))
  rw [Machine.mainEnded, hmain, hn] at he
  cases he

end Execution

end Workflow
