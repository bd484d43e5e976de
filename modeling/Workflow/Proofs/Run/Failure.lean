import Workflow.Proofs.Run.Ledger
/-!
What becomes of the failures of a run. As long as no step strains, the end of every attempt that has
begun is told unless the run is broken off, no fault gets past the attempt that it comes up in, and so
no run ends with a failure of its own.
-/

namespace Workflow

namespace Stance

variable {a b : Stance}

/-- The attempts that are open where the walker stands. -/
def openTags (a : Stance) : List Tag :=
  a.elim [] fun x => Workflow.openTags x.2

def IsSafe (a : Stance) : Prop :=
  ∀ c p, a = some (c, p) → c.IsSafe ∧ IsSafeWork p

/-- A cancellation is on its way through the work of a walk. -/
def IsUnwinding (a : Stance) : Prop :=
  ∃ p, a = some (.answer (.outcome .cancelled), p) ∧ ¬ Machine.IsBottom p

namespace Stirs

theorem openTags (h : Stirs a b) : b.openTags = a.openTags := by
  cases h <;> rfl

theorem isSafe (h : Stirs a b) (ha : a.IsSafe) : b.IsSafe := by
  cases h with
  | refl => exact ha
  | wake w s i s' i' p =>
    rintro c q ⟨⟩
    exact ha (.wake w s i) p rfl

theorem isUnwinding (h : Stirs a b) (ha : a.IsUnwinding) : b.IsUnwinding := by
  obtain ⟨p, rfl, hp⟩ := ha
  cases h
  exact ⟨p, rfl, hp⟩

end Stirs

end Stance

theorem Turn.openTags_stance (x : Turn) : x.stance.openTags = openTags x.pending := by
  cases x <;> rfl

theorem Turn.IsSafe.stance {x : Turn} (h : x.IsSafe) : x.stance.IsSafe := by
  cases x with
  | go c p =>
    rintro c q ⟨⟩
    exact h
  | wait v on limit p =>
    rintro c q ⟨⟩
    exact ⟨⟨by simp [Control.flows], h.1⟩, h.2⟩
  | pass p =>
    rintro c q ⟨⟩
    exact ⟨⟨by simp [Control.flows], trivial⟩, h⟩
  | stop a => rintro c q ⟨⟩

theorem Control.IsOpening.isSafe {c : Control} (h : c.IsOpening) : c.IsSafe := by
  cases c <;> first | exact absurd h id | exact ⟨by simp [Control.flows], trivial⟩

namespace Machine

variable {m : Machine} {p : List Pending} {c : Control}

/-- An answer that is not at the bottom of the work is within a walk. -/
theorem Stands.underway {a : Answer} (h : Stands m (.answer a) p) (hp : ¬ IsBottom p) :
    Underway m p ∧ m.run.status.isTerminal = false := by
  cases h with
  | walk h hu => exact ⟨hu, by rw [h]; rfl⟩
  | back h hu => exact ⟨hu, by rw [h.1]; rfl⟩
  | unwind h hu => exact ⟨hu, by rw [h.1]; rfl⟩
  | ended h hb => exact absurd hb hp

/-- Once the run has ended there is no work left but at the bottom. -/
theorem Stands.isBottom (h : Stands m c p) (ht : m.run.status.isTerminal = true) : IsBottom p := by
  have running {s : Status} (hs : m.run.status = s) (hn : s.isTerminal = false) : IsBottom p := by
    rw [hs, hn] at ht
    cases ht
  cases h with
  | enqueue => trivial
  | start => trivial
  | execute h hp => exact hp
  | walk h => exact running h rfl
  | wake h => exact running h rfl
  | resume h => exact h.elim (running · rfl) (running ·.1 rfl)
  | back h => exact running h.1 rfl
  | refuse h => exact running h.1 rfl
  | unwind h => exact running h.1 rfl
  | ended h hp => exact hp

theorem Waits.isBottom {v : Wait} (h : Waits m v p) (ht : m.run.status.isTerminal = true) :
    IsBottom p := by
  cases h with
  | start => trivial
  | walk h => rw [h] at ht; cases ht
  | pause h => rw [h] at ht; cases ht

theorem openTags_of_isBottom (h : IsBottom p) : openTags p = [] := by
  rcases p with _ | ⟨k, _ | ⟨l, p⟩⟩
  · rfl
  · cases k <;> first | rfl | exact absurd h id
  · cases k <;> exact absurd h id

end Machine

namespace Execution

variable {x y : Execution} {w : World}

/-- The run was cancelled, or a cancellation is about to end it. -/
def IsBrokenOff (x : Execution) : Prop :=
  x.machine.run.status = .cancelled ∨ x.stance.IsUnwinding

/-- The invariant of a run in which no step strains. -/
structure IsAccounted (x : Execution) : Prop where
  flow : x.machine.run.flow.IsValid
  error : ∀ e, x.machine.run.error = some e → e.IsOrdinary
  candid : x.machine.IsCandid
  strand : ∀ s, x.active = some s → s.control.IsOrdinary
  stance : x.stance.IsSafe
  tally : x.IsBrokenOff ∨ Tallies [] x.log x.stance.openTags

/-- A change by which no attempt begins or ends. -/
def Abides (x y : Execution) : Prop :=
  ∃ m active, y = x.put m active ∧ (∀ o, Machine.Notes o x.machine m o) ∧
    ∀ s, active = some s → s.control.IsOrdinary

section put

variable {m : Machine} {active : Option Strand}

theorem put_of_quiet (h : m.effects = []) : x.put m active = { x with machine := m, active } := by
  obtain ⟨⟩ := m
  cases h
  rfl

/-- A cancelled run stays cancelled. -/
theorem put_cancelled (h : x.IsSound) (hy : (x.put m active).IsSound)
    (hc : x.machine.run.status = .cancelled) : (x.put m active).machine.run.status = .cancelled :=
  (status_eq_of_terminal h hy (by rw [hc]; rfl) ⟨m.effects, rfl⟩).trans hc

theorem IsAccounted.put {o : List Tag} (h : x.IsAccounted) (he : x.machine.effects = [])
    (hn : Machine.Notes x.stance.openTags x.machine m o)
    (hs : ∀ s, active = some s → s.control.IsOrdinary) (hsafe : (x.put m active).stance.IsSafe)
    (hb : x.IsBrokenOff → (x.put m active).IsBrokenOff)
    (ho : (x.put m active).IsBrokenOff ∨ (x.put m active).stance.openTags = o) :
    (x.put m active).IsAccounted where
  flow := by
    show m.run.flow.IsValid
    rw [hn.flow]
    exact h.flow
  error e hm := (hn.error e hm).elim (h.error e) id
  candid := hn.candid h.candid
  strand := hs
  stance := hsafe
  tally := by
    obtain ⟨d, hd, ht⟩ := hn.tally
    rcases h.tally with hx | hx
    · exact .inl (hb hx)
    · refine ho.imp_right fun ho => ?_
      rw [ho]
      show Tallies [] (m.effects ++ x.log) o
      rw [hd, he, List.append_nil]
      exact hx.append ht

end put

/-- What others than the walker do, and the start of the walker. -/
theorem IsAccounted.abides (h : x.IsAccounted) (hx : x.IsSound) (hy : y.IsSound) (ha : x.Abides y)
    (hs : x.stance.Stirs y.stance ∨
      x.stance = none ∧ ∃ d : Control, y.stance = some (d, []) ∧ d.IsOpening) : y.IsAccounted := by
  obtain ⟨m, active, rfl, hn, hc⟩ := ha
  rcases hs with hs | ⟨hnone, d, hs, hd⟩
  · exact h.put hx.1 (hn _) hc (hs.isSafe h.stance) (fun hb => hb.imp (put_cancelled hx hy) hs.isUnwinding)
      (.inr hs.openTags)
  · refine h.put hx.1 (hn _) hc ?_ (fun hb => hb.imp (put_cancelled hx hy) ?_) (.inr ?_)
    · rw [hs]
      rintro c q ⟨⟩
      exact ⟨hd.isSafe, by simp [IsSafeWork]⟩
    · rw [hnone]
      rintro ⟨p, ⟨⟩, -⟩
    · rw [hs, hnone]
      rfl

/-! Moves and commands. -/

theorem IsAccounted.abides_refl (h : x.IsAccounted) (he : x.machine.effects = []) : x.Abides x :=
  ⟨x.machine, x.active, (put_of_quiet he).symm, fun _ => .refl _, h.strand⟩

theorem begin_abides (h : x.IsAccounted) (he : x.machine.effects = []) (t : TaskId) :
    x.Abides (x.begin t) := by
  have begun {c : Control} {p : List Pending} (hc : c.IsOrdinary) : x.Abides { x with
      machine := x.machine.setState t .running, active := some ⟨t, c, p⟩ } := by
    refine ⟨x.machine.setState t .running, some ⟨t, c, p⟩, (put_of_quiet (by exact he)).symm, fun o => ?_, ?_⟩
    · refine .of_mute (Machine.Silent.setState x.machine t .running).mute fun hm u s hs => ?_
      rw [Machine.state?_setState] at hs
      split at hs
      · obtain ⟨-, -, rfl⟩ := Option.map_eq_some_iff.mp hs
        trivial
      · exact hm u s hs
    · rintro s ⟨⟩
      exact hc
  have hb := x.begins t
  generalize x.begin t = y at hb ⊢
  cases hb with
  | unready => exact h.abides_refl he
  | dismissed =>
    refine ⟨x.machine.finish t .interrupted, none, rfl, fun o => ?_, by simp⟩
    exact .turn x.machine t (x := .stop .interrupted) trivial
  | fresh hs => exact begun fun a ha => absurd ha (h.candid t _ hs a)
  | woken => exact begun (by rintro a ⟨⟩)

/-- What a task does next after its turn. -/
theorem next_isOrdinary {m : Machine} {t : TaskId} {turn : Turn} (h : turn.IsOrdinary) {s : Strand}
    (hs : (m.turn t turn).2.map (fun (c, p) => (⟨t, c, p⟩ : Strand)) = some s) :
    s.control.IsOrdinary := by
  cases turn with
  | go c p =>
    cases hs
    exact h
  | _ => cases hs

/-- Another task than the walker takes a step. -/
theorem step_abides (h : x.IsAccounted) (hx : x.IsSound) {s : Strand} (hs : x.active = some s)
    (hm : x.machine.main ≠ some s.task) (now : Moment) : x.Abides (x.step w now) := by
  obtain ⟨-, roles, hr⟩ := hx
  obtain ⟨-, r, hrole, hsuits, -⟩ := hr.strand hs
  have hne : r ≠ .walker := by
    rintro rfl
    exact hm (hr.main.mp hrole)
  have hn (o : List Tag) := Machine.errand_notes (o := o) hr.fitting w now hrole hne hsuits (h.strand s hs)
  rw [step_eq hs]
  exact ⟨_, _, rfl, fun o => (hn o).1.trans (.turn _ _ (hn o).2), fun _ => next_isOrdinary (hn []).2⟩

/-- A move in which the walker does not take a step. -/
theorem move_abides (h : x.IsAccounted) (hx : x.IsSound) {a : Move}
    (hw : ∀ now s, a = .step now → x.active = some s → x.machine.main ≠ some s.task) :
    x.Abides (x.move w a) := by
  unfold move
  split
  · cases a with
    | begin t => exact begin_abides h hx.1 t
    | step now =>
      cases hs : x.active with
      | none =>
        show x.Abides (x.step w now)
        rw [step, hs]
        exact h.abides_refl hx.1
      | some s => exact step_abides h hx hs (hw now s rfl hs) now
    | tell t k =>
      refine ⟨x.machine.tell t k, none, rfl, fun o => ?_, by simp⟩
      refine .of_mute (Machine.Silent.tell x.machine t k).mute fun hm => hm.of_size (.tell _ t k) ?_
      unfold Machine.tell
      split
      · split
        · exact Machine.size_signal
        · rfl
      · rfl
    | grant t =>
      refine ⟨x.machine.setState t (.woken .grant true false), x.active,
        (put_of_quiet (by exact hx.1)).symm, fun o => ?_, h.strand⟩
      refine .of_mute (Machine.Silent.setState x.machine t _).mute fun hm u s hs => ?_
      rw [Machine.state?_setState] at hs
      split at hs
      · obtain ⟨-, -, rfl⟩ := Option.map_eq_some_iff.mp hs
        trivial
      · exact hm u s hs
  · exact h.abides_refl hx.1

theorem obey_abides (h : x.IsAccounted) (he : x.machine.effects = []) (c : Command) :
    x.Abides (x.obey c) := by
  unfold obey
  split
  · exact ⟨_, none, rfl, fun _ => Machine.obey_notes x.machine c, by simp⟩
  · exact h.abides_refl he

section turned

/-- The execution after a step of a task. -/
def turned (x : Execution) (t : TaskId) (r : Machine.StepResult) : Execution :=
  x.put (r.1.turn t r.2).1 ((r.1.turn t r.2).2.map fun (c, p) => ⟨t, c, p⟩)

variable {t : TaskId} {r : Machine.StepResult} (h : x.IsAccounted) (hx : x.IsSound)
  (hs : (x.turned t r).stance = r.2.stance)

include h hx hs

/-- A step on the way out of a walk. -/
theorem IsAccounted.unwinds (hn : ∀ o, Machine.Notes o x.machine r.1 o) (hsafe : r.2.IsSafe)
    (hout : r.1.run.status = .cancelled ∨
      ∃ q, r.2 = .outcome .cancelled q ∧ ¬ Machine.IsBottom q) : (x.turned t r).IsAccounted := by
  have hbroken : (x.turned t r).IsBrokenOff := by
    refine hout.imp (fun hc => ?_) fun ⟨q, hq, hb⟩ => ⟨q, by rw [hs, hq]; rfl, hb⟩
    exact (congrArg (·.run.status) (Machine.turn_core r.1 t r.2) :).trans hc
  exact h.put hx.1 ((hn _).trans (.turn _ _ hsafe.isOrdinary))
    (fun _ => next_isOrdinary hsafe.isOrdinary) (hs ▸ hsafe.stance) (fun _ => hbroken) (.inl hbroken)

/-- A step that accounts for what it begins and ends. -/
theorem IsAccounted.advances (hy : (x.turned t r).IsSound) (hu : ¬ x.stance.IsUnwinding)
    (ha : Machine.Accounts x.stance.openTags x.machine r) : (x.turned t r).IsAccounted := by
  have hsafe := ha.turn
  refine h.put hx.1 (ha.notes.trans (.turn _ _ hsafe.isOrdinary))
    (fun _ => next_isOrdinary hsafe.isOrdinary) (hs ▸ hsafe.stance) (fun hb => .inl ?_) (.inr ?_)
  · exact put_cancelled hx hy (hb.resolve_right hu)
  · exact (congrArg Stance.openTags hs).trans (Turn.openTags_stance r.2)

end turned

/-- The walker takes a step. -/
theorem IsAccounted.treads (h : x.IsAccounted) (hx : x.IsSound) {s : Strand} (hs : x.active = some s)
    (hm : x.machine.main = some s.task) {now : Moment} (hf : ∀ e ∈ now.flows, e.2.IsValid)
    (hn : x.machine.strains s.control s.pending = false) : (x.step w now).IsAccounted := by
  have hy : (x.step w now).IsSound := step_isSound hx now
  have hnext := (step_treads (w := w) hx hs hm now).stance
  have hstance := stance_of_walker hs hm
  obtain ⟨hc, hp⟩ := h.stance _ _ hstance
  obtain ⟨roles, hr⟩ := hx.2
  obtain ⟨-, r, hrole, hsuits, hstands⟩ := hr.strand hs
  rw [hr.main.mpr hm] at hrole
  cases hrole
  rw [step_eq hs] at hy hnext ⊢
  by_cases hu : x.stance.IsUnwinding
  · obtain ⟨p, hxp, hb⟩ := hu
    obtain ⟨t, c, q⟩ := s
    cases hstance.symm.trans hxp
    obtain ⟨hunder, hstatus⟩ := (hstands rfl).underway hb
    obtain ⟨hnotes, hsafe, hout⟩ := hunder.unwinds hstatus (w.surroundings now) t hp
    exact h.unwinds hx hnext hnotes hsafe hout
  · refine h.advances hx hnext hy hu ?_
    rw [show x.stance.openTags = Workflow.openTags s.pending by rw [hstance]; rfl]
    refine (hstands rfl).accounts hr.fitting w now s.task hsuits h.flow hf h.candid hc hp (fun hc => ?_) hn
    exact Classical.byContradiction fun hb => hu ⟨_, by rw [hstance, hc], hb⟩

theorem IsAccounted.move (h : x.IsAccounted) (hx : x.IsSound) {a : Move}
    (hf : ∀ now, a = .step now → ∀ e ∈ now.flows, e.2.IsValid) (hn : x.strains (.move a) = false) :
    (x.move w a).IsAccounted := by
  by_cases hw : ∃ now s, a = .step now ∧ x.active = some s ∧ x.machine.main = some s.task
  · obtain ⟨now, s, rfl, hs, hm⟩ := hw
    have hstep : x.move w (.step now) = x.step w now := if_pos (by simp [allows, isIdle, hs])
    rw [hstep]
    exact h.treads hx hs hm (hf now rfl) (by simpa [strains, hs] using hn)
  · refine h.abides hx (move_isSound hx a) (move_abides h hx fun now s ha hs hm => hw ⟨now, s, ha, hs, hm⟩)
      (.inl ?_)
    rcases move_cases (w := w) hx a with ha | ⟨now, s, ha, ht⟩
    · exact ha.stance
    · exact absurd ⟨now, s, ha, ht.active, ht.main⟩ hw

theorem IsAccounted.obey (h : x.IsAccounted) (hx : x.IsSound) (c : Command) :
    (x.obey c).IsAccounted := by
  refine h.abides hx (obey_isSound hx c) (obey_abides h hx.1 c) ((obey_cases hx c).imp_right ?_)
  rintro ⟨hm, d, hd⟩
  exact ⟨by rw [Execution.stance, hm]; rfl, d, hd⟩

theorem IsAccounted.take (h : x.IsAccounted) (hx : x.IsSound) {i : Input}
    (hf : ∀ now, i = .move (.step now) → ∀ e ∈ now.flows, e.2.IsValid) (hn : x.strains i = false) :
    (x.take w i).IsAccounted := by
  cases i with
  | move a => exact h.move hx (fun now ha => hf now (congrArg Input.move ha)) hn
  | command c => exact h.obey hx c

theorem IsAccounted.after (h : x.IsAccounted) (hx : x.IsSound) {is : List Input}
    (hf : ∀ now, .move (.step now) ∈ is → ∀ e ∈ now.flows, e.2.IsValid)
    (hn : isUnstrained w is x = true) : (after w is x).IsAccounted := by
  induction is generalizing x with
  | nil => exact h
  | cons i is ih =>
    simp only [isUnstrained, Bool.and_eq_true, Bool.not_eq_true'] at hn
    refine ih (h.take hx (fun now hi => hf now (by simp [hi])) hn.1) (take_isSound hx i) ?_ hn.2
    exact fun now hi => hf now (List.mem_cons_of_mem _ hi)

/-- What becomes of the attempts of a run and of what goes wrong in them. -/
structure IsDecided (x : Execution) : Prop where
  /-- The attempts that have begun and whose end is not told are those that the walker is in. -/
  attempts : x.IsBrokenOff ∨ Tallies [] x.log x.stance.openTags
  /-- In a run that has completed or failed, the end of every attempt is told. -/
  ended : x.machine.run.status = .completed ∨ x.machine.run.status = .failed →
    ∀ late e early tag, x.log = late ++ e :: early → e.begins? = some tag →
      ∃ e' ∈ late, e'.ends? = some tag
  /-- No fault gets to the work of the walk. -/
  faults : ∀ f p, x.stance ≠ some (.answer (.thrown f), p)
  /-- No run fails but by the failure of a node. -/
  error : ∀ e, x.machine.run.error = some e → e.code ≠ "internal"

theorem IsAccounted.isDecided (h : x.IsAccounted) (hx : x.IsSound) : x.IsDecided where
  attempts := h.tally
  ended hs late e early tag hl hb := by
    have ht : x.machine.run.status.isTerminal = true := by rcases hs with hs | hs <;> rw [hs] <;> rfl
    have hc : x.machine.run.status ≠ .cancelled := by rcases hs with hs | hs <;> rw [hs] <;> decide
    have bottom {c : Control} {p : List Pending} (hs : x.stance = some (c, p)) : Machine.IsBottom p := by
      obtain hs | ⟨v, -, hv⟩ := hx.stands hs
      · exact hs.isBottom ht
      · exact hv.isBottom ht
    rcases h.tally with (hb | ⟨p, hp, hn⟩) | htally
    · exact absurd hb hc
    · exact absurd (bottom hp) hn
    · rw [hl] at htally
      refine (htally.closed_or_open hb).resolve_right fun hm => ?_
      cases hst : x.stance with
      | none =>
        rw [hst] at hm
        cases hm
      | some cp =>
        rw [hst] at hm
        have hm : tag ∈ Workflow.openTags cp.2 := hm
        rw [Machine.openTags_of_isBottom (bottom hst)] at hm
        cases hm
  faults f p hs := (h.stance _ _ hs).1.2.2 trivial
  error e he := h.error e he

/-- A moment at which one flow is known. -/
def knowing (flow : Flow) : Moment where
  registry := []
  builtin := Registry.isBuiltin_nil
  flows := [("main", flow)]

end Execution

end Workflow
