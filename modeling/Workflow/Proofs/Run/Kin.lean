import Workflow.Proofs.Run.Descent
import Workflow.Proofs.Run.Poise
import Workflow.Proofs.Run.Rounds
import Workflow.Proofs.Run.Writing
/-!
The tasks that a task makes, with those that these make, while anything may happen to the run. If a task does all
that it does at sites of some kind, then so do the tasks that it makes, and nothing that others do changes this.
-/

namespace Workflow

namespace Control

variable {c d : Control}

theorem site_aim (h : d.aim = c.aim) : d.site? = c.site? := by
  cases c with
  | wake w s i =>
    cases d with
    | wake w' s' i' => rfl
    | _ => cases w <;> cases h
  | _ => exact eq_of_aim h (by simp) ▸ rfl

end Control

theorem TaskState.post_of_aim? {s : TaskState} {e : Control} (h : s.aim? = some e) (p : List Pending) :
    ∃ c, s.post p = some (.doing c p) ∧ c.aim = e := by
  cases s with
  | waiting w k => exact ⟨_, rfl, Option.some.inj h⟩
  | woken w a i => exact ⟨_, rfl, Option.some.inj h⟩
  | _ => cases h

namespace Machine

variable {m n : Machine} {env : Surroundings} {P : Nat → List Nat → Prop} {t u : TaskId} {c d : Control}
  {base p q : List Pending} {x : StepResult}

/-- A task that does not execute the run goes on so. -/
theorem step_isInner (hc : c.IsInner) (hd : (m.step env t c p).2.post = .doing d q) : d.IsInner :=
  (m.step_deepens env t p c).isInner (not_not_intro hc) hd

theorem Lodges.heaped (h : Lodges P m base x) (hd : x.2.post = .doing d q) :
    Lies (P x.1.layers.size) d.site? ∧ Heaped (P x.1.layers.size) base q := by
  have ht := h.turn
  generalize x.2 = turn at ht hd
  cases turn with
  | go c p => cases hd; exact ht
  | wait w on limit p => cases hd; exact ⟨lies_none, ht⟩
  | pass p => cases hd; exact ⟨lies_none, ht⟩
  | stop a => cases hd

/-- Where a task stands after what others did. -/
theorem Upholds.post (h : Upholds m n) (ht : t < m.tasks.size) (hp : n.post t = some (.doing d q)) :
    ∃ c, m.post t = some (.doing c q) ∧ d.aim = c.aim := by
  obtain ⟨s, hs⟩ := exists_state? ht
  obtain ⟨s', hs', hk⟩ := h.old hs
  rw [post_of_state? hs', h.pending ht] at hp
  rw [post_of_state? hs]
  have rested (ha : s'.aim? = some d.aim) : ∃ c, s.post ((m.pending? t).getD []) =
      some (.doing c ((m.pending? t).getD [])) ∧ d.aim = c.aim := by
    obtain ⟨c, hc, he⟩ := TaskState.post_of_aim? (hk.aim?.symm.trans ha) ((m.pending? t).getD [])
    exact ⟨c, hc, he.symm⟩
  cases s' with
  | fresh e i =>
    cases i with
    | true => cases hp
    | false =>
      cases hp
      obtain ⟨j, rfl⟩ := hk.fresh
      obtain ⟨i, hi, hj⟩ := hk.of_fresh rfl
      cases hi
      cases j with
      | true => cases hj rfl
      | false => exact ⟨d, rfl, rfl⟩
  | waiting w k => cases hp; exact rested rfl
  | woken w a i => cases hp; exact rested rfl
  | running => cases hp
  | ended a => cases hp

/-- Where a task stands that a step has made. -/
theorem Houses.post (h : Houses P m n) (hu : m.tasks.size ≤ u) (hp : n.post u = some (.doing d q)) :
    Lies (P n.layers.size) d.site? ∧ q = [] ∧ ∃ i, n.state? u = some (.fresh d i) := by
  obtain ⟨s, hs, hpost⟩ := Option.bind_eq_some_iff.mp hp
  obtain ⟨c, hc⟩ := h.new hu hs
  obtain ⟨i, rfl, -⟩ := hc.of_fresh rfl
  rw [h.blank hu] at hpost
  cases i with
  | true => cases hpost
  | false =>
    cases hpost
    exact ⟨h.made hu hs, rfl, false, hs⟩

end Machine

namespace Execution

variable {P : Nat → List Nat → Prop} {Q : List Nat → Prop} {x : Execution} {a : Happening} {env : Surroundings}
  {t u : TaskId} {us : List TaskId} {c d : Control} {p q : List Pending} {s : Strand}

/-- There are never fewer tasks, nor fewer layers. -/
theorem meet_grows (x : Execution) (a : Happening) : x.machine.tasks.size ≤ (x.meet a).machine.tasks.size ∧
    x.machine.layers.size ≤ (x.meet a).machine.layers.size := by
  have grown {n : Machine} (h : Machine.Houses (fun _ _ => True) x.machine n) :
      x.machine.tasks.size ≤ n.tasks.size ∧ x.machine.layers.size ≤ n.layers.size := ⟨h.size, h.grows⟩
  have turned (t : TaskId) (turn : Turn) {n : Machine} (h : Machine.Houses (fun _ _ => True) x.machine n) :
      x.machine.tasks.size ≤ (n.turn t turn).1.tasks.size ∧ x.machine.layers.size ≤ (n.turn t turn).1.layers.size := by
    rw [Descent.size_turn, Machine.turn_layers]
    exact grown h
  have hu := x.undergoes a
  generalize x.meet a = y at hu ⊢
  cases hu with
  | refused => exact ⟨Nat.le_refl _, Nat.le_refl _⟩
  | @begin t =>
    have hb := x.begins t
    generalize x.begin t = z at hb ⊢
    cases hb with
    | unready => exact ⟨Nat.le_refl _, Nat.le_refl _⟩
    | dismissed => exact turned t (.stop .interrupted) (.refl x.machine)
    | fresh | woken => exact ⟨Nat.le_of_eq (Machine.size_setState _).symm, Nat.le_refl _⟩
  | step env =>
    cases hx : x.active with
    | none =>
      unfold Execution.stepIn
      rw [hx]
      exact ⟨Nat.le_refl _, Nat.le_refl _⟩
    | some s =>
      rw [stepIn_eq hx]
      exact turned s.task _ (Machine.step_lodges Machine.widens_trivial x.machine env s.task s.pending
        (fun _ _ => trivial) (fun _ _ _ _ _ _ _ => trivial) fun _ => trivial).houses
  | @tell t ticket => exact grown (n := x.machine.tell t ticket) (.tell x.machine _ _)
  | grant => exact ⟨Nat.le_of_eq (Machine.size_setState _).symm, Nat.le_refl _⟩
  | @command c =>
    refine ⟨?_, Nat.le_of_eq (Machine.size_obey x.machine c).symm⟩
    cases c with
    | start s => exact (Machine.start_upholds x.machine s).size
    | _ => exact (Machine.obey_abides x.machine (by simp)).size
  | interrupt =>
    refine grown (n := x.machine.interruptMain) ?_
    unfold Machine.interruptMain
    split
    · exact .interruptTask _ _
    · exact .refl x.machine

theorem stepIn_size (env : Surroundings) (hs : x.active = some s) : (x.stepIn env).machine.layers.size =
    (x.machine.step env s.task s.control s.pending).1.layers.size :=
  congrArg Array.size (stepIn_layers env hs)

/-- What is not a task's own step leaves it where it stands, but for how a wait is over. -/
theorem post_meet (hu : u < x.machine.tasks.size) (hs : x.stride? u a = none)
    (hp : (x.meet a).post u = some (.doing d q)) : ∃ c, x.post u = some (.doing c q) ∧ d.aim = c.aim := by
  have idle (hi : x.isIdle = true) : x.active = none := by simpa [isIdle] using hi
  have upheld {n : Machine} (hi : x.isIdle = true) (hn : Machine.Upholds x.machine n)
      (hp : n.post u = some (.doing d q)) : ∃ c, x.post u = some (.doing c q) ∧ d.aim = c.aim := by
    rw [post_idle (idle hi)]
    exact hn.post hu hp
  have hundergoes := x.undergoes a
  generalize x.meet a = y at hundergoes hp
  cases hundergoes with
  | refused => exact ⟨d, hp, rfl⟩
  | step env =>
    cases hx : x.active with
    | none =>
      unfold Execution.stepIn at hp
      rw [hx] at hp
      exact ⟨d, hp, rfl⟩
    | some s =>
      have hne : s.task ≠ u := by
        rintro rfl
        simp [stride?, hx] at hs
      have hother : ∀ s', x.active = some s' → s'.task ≠ u := by
        rintro s' hs'
        cases hx.symm.trans hs'
        exact hne
      rw [post_stepIn_other hx hne] at hp
      rw [post_other hother]
      exact (Machine.step_upholds x.machine env s.task s.pending s.control).post hu hp
  | tell hi => exact upheld hi (.tell x.machine _ _) hp
  | interrupt hi => exact upheld hi (Machine.interruptMain_abides x.machine).toUpholds hp
  | @command c hi =>
    cases c with
    | start s => exact upheld hi (Machine.start_upholds x.machine s) hp
    | _ => exact upheld hi (Machine.obey_abides x.machine (by simp)).toUpholds hp
  | grant ha =>
    rcases post_grant ha u with he | ⟨-, p, hold, hnew⟩
    · exact ⟨d, he.symm.trans hp, rfl⟩
    · cases hnew.symm.trans hp
      exact ⟨_, hold, rfl⟩
  | @begin t ha =>
    simp only [allows, Bool.and_eq_true] at ha
    have hx := idle ha.1
    have hb := x.begins t
    generalize x.begin t = z at hb hp
    cases hb with
    | unready => exact ⟨d, hp, rfl⟩
    | fresh hs hq =>
      exact ⟨d, (post_begun hx (by rw [Machine.post_of_state? hs, hq]; rfl) u).symm.trans hp, rfl⟩
    | woken hs hq =>
      exact ⟨d, (post_begun hx (by rw [Machine.post_of_state? hs, hq]; rfl) u).symm.trans hp, rfl⟩
    | dismissed hs =>
      rw [post_dismissed hx hs] at hp
      split at hp
      · cases hp
      · exact ⟨d, hp, rfl⟩

/-- A task, if it goes on, does not execute the run, and all that it does is at sites of some kind. -/
def Dwells (Q : List Nat → Prop) (x : Execution) (u : TaskId) : Prop :=
  ∀ c q, x.post u = some (.doing c q) → c.IsInner ∧ Lies Q c.site? ∧ ∀ k ∈ q, Lies Q k.site?

/-- What is not a task's own step leaves it at its sites. -/
theorem Dwells.others {Q' : List Nat → Prop} (h : x.Dwells Q u) (hu : u < x.machine.tasks.size)
    (hs : x.stride? u a = none) (hQ : ∀ layers, Q layers → Q' layers) : (x.meet a).Dwells Q' u := by
  intro d q hd
  obtain ⟨c, hc, haim⟩ := post_meet hu hs hd
  obtain ⟨hinner, hsite, hq⟩ := h c q hc
  exact ⟨hinner.aim haim, fun l hl => hQ _ (hsite l (Control.site_aim haim ▸ hl)),
    fun k hk l hl => hQ _ (hq k hk l hl)⟩

/-- Whatever happens, a task stays at sites of some kind. -/
theorem Dwells.meet (hP : Widens P) (hm : x.IsManned) (hu : u < x.machine.tasks.size)
    (h : x.Dwells (P x.machine.layers.size) u) (a : Happening) :
    (x.meet a).Dwells (P (x.meet a).machine.layers.size) u := by
  have hsize := (x.meet_grows a).2
  cases hs : x.stride? u a with
  | none => exact h.others hu hs fun _ => hP.mono hsize
  | some s =>
    cases a with
    | step env =>
      intro d q hd
      obtain ⟨hx, ht⟩ : x.active = some s ∧ s.task = u := by simpa [stride?] using hs
      subst ht
      obtain ⟨hinner, hsite, hp⟩ := h _ _ (post_self hx)
      have hlodges := Machine.step_lodges hP x.machine env s.task s.pending hsite
        (fun _ k _ _ he => hp k (he ▸ List.mem_cons_self)) fun he => by
          rw [he] at hinner
          exact absurd hinner id
      have hrunning := Machine.step_running x.machine env s.task s.pending (hm s hx) s.control
      have hpost : (x.machine.step env s.task s.control s.pending).2.post = .doing d q :=
        Option.some.inj ((post_stepIn hx hrunning).symm.trans hd)
      obtain ⟨hd', hq⟩ := hlodges.heaped hpost
      rw [← stepIn_size env hx] at hd' hq
      refine ⟨Machine.step_isInner hinner hpost, hd', hq.all fun k hk l hl => hP.mono hsize (hp k ?_ l hl)⟩
      unfold Control.rest at hk
      split at hk
      · exact List.mem_of_mem_tail hk
      · exact hk
    | _ => cases hs

/-- So does each task that it makes. -/
theorem dwells_made (hP : Widens P) (hm : x.IsManned) (hs : x.active = some s) (hc : s.control.IsInner)
    (hsite : Lies (P x.machine.layers.size) s.control.site?)
    (hp : ∀ b k q, s.control = .answer b → s.pending = k :: q → Lies (P x.machine.layers.size) k.site?)
    (hu : x.machine.tasks.size ≤ u) : (x.stepIn env).Dwells (P (x.stepIn env).machine.layers.size) u := by
  intro d q hd
  have hne : s.task ≠ u := fun he => Nat.not_lt.mpr hu (he ▸ Machine.lt_of_state? (hm s hs))
  rw [post_stepIn_other hs hne] at hd
  have hlodges := Machine.step_lodges hP x.machine env s.task s.pending hsite hp
    fun he => by
      rw [he] at hc
      exact absurd hc id
  obtain ⟨hlies, rfl, i, hfresh⟩ := hlodges.houses.post hu hd
  have herrand := (Machine.step_strides x.machine env s.task s.pending s.control).discreet.made hu hfresh
  rw [stepIn_size env hs]
  exact ⟨herrand.isInner, hlies, nofun⟩

/-- Whether it is a step of one of some tasks that happens. -/
def isBy (x : Execution) (us : List TaskId) : Happening → Bool
  | .step _ => x.active.any fun s => us.contains s.task
  | _ => false

/-- Some tasks with those that they make when something happens. -/
def kin (x : Execution) (a : Happening) (us : List TaskId) : List TaskId :=
  if x.isBy us a then
    us ++ List.range' x.machine.tasks.size ((x.meet a).machine.tasks.size - x.machine.tasks.size)
  else us

theorem isBy_iff : x.isBy us a = true ↔ ∃ env s, a = .step env ∧ x.active = some s ∧ s.task ∈ us := by
  cases a with
  | step env => simp [isBy, Option.any_eq_true]
  | _ => simp [isBy]

/-- What the tasks may do that make others holds of those as well. -/
theorem mem_kin (hu : u ∈ x.kin a us) : u ∈ us ∨
    (x.isBy us a = true ∧ x.machine.tasks.size ≤ u ∧ u < (x.meet a).machine.tasks.size) := by
  unfold kin at hu
  split at hu
  · rename_i hby
    refine (List.mem_append.mp hu).imp_right fun hr => ⟨hby, ?_⟩
    obtain ⟨hge, hlt⟩ := List.mem_range'_1.mp hr
    exact ⟨hge, by rwa [Nat.add_sub_cancel' (x.meet_grows a).1] at hlt⟩
  · exact .inl hu

end Execution

end Workflow
