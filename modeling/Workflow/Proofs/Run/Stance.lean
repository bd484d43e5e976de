import Workflow.Proofs.Run.Cancel
/-!
Where the walker stands while a run is carried out. Only its own steps change what it does next and
the work that waits in it; all that others do to it is to wake it.
-/

namespace Workflow

/-- What the walker does next, with the work that waits in it; nothing before its start and after its
end. If it waits, it is to go on after its wait. -/
abbrev Stance := Option (Control × List Pending)

namespace Stance

variable {a b c : Stance}

/-- Whether a stance differs from another one at most in how a wait is over. -/
inductive Stirs : Stance → Stance → Prop
  | refl (a : Stance) : Stirs a a
  | wake (w : Wait) (s i s' i' : Bool) (p : List Pending) :
      Stirs (some (.wake w s i, p)) (some (.wake w s' i', p))

theorem Stirs.trans (h : Stirs a b) (k : Stirs b c) : Stirs a c := by
  cases h with
  | refl => exact k
  | wake w s i s' i' p =>
    cases k with
    | refl => exact .wake ..
    | wake => exact .wake ..

theorem Stirs.eq_none (h : Stirs a b) (hb : b = none) : a = none := by
  cases h with
  | refl => exact hb
  | wake => cases hb

end Stance

namespace TaskState

def control? : TaskState → Option Control
  | .fresh c _ => some c
  | .waiting w _ => some (.wake w false false)
  | .woken w s i => some (.wake w s i)
  | .running | .ended _ => none

def stance (p : List Pending) (s : TaskState) : Stance :=
  s.control?.map (·, p)

theorem Nudges.stirs {s s' : TaskState} (h : s.Nudges s') (p : List Pending) :
    Stance.Stirs (s.stance p) (s'.stance p) := by
  induction h with
  | refl => exact .refl _
  | @signal s' _ ih =>
    refine ih.trans ?_
    rcases s' with _ | _ | ⟨_ | _ | _ | _ | _ | _ | _ | _ | _ | _, _⟩ | _ | _ <;>
      first | exact .refl _ | exact .wake ..
  | @interrupt s' _ ih =>
    refine ih.trans ?_
    cases s' <;> first | exact .refl _ | exact .wake ..

end TaskState

namespace Turn

/-- Where a task stands that goes on in some way. -/
def stance : Turn → Stance
  | .go c p => some (c, p)
  | .wait w _ _ p => some (.wake w false false, p)
  | .pass p => some (.wake .sleep true false, p)
  | .stop _ => none

end Turn

namespace Machine

variable {m n : Machine} {t u : TaskId}

/-- Where a task stands that is not in the middle of its steps. -/
def stance (m : Machine) (t : TaskId) : Stance :=
  (m.state? t).bind fun s => s.stance ((m.pending? t).getD [])

theorem stance_congr (hs : n.state? t = m.state? t) (hp : n.pending? t = m.pending? t) :
    n.stance t = m.stance t := by
  rw [stance, stance, hs, hp]

theorem Tends.stirs (h : Tends m n) (ht : t < m.tasks.size) :
    Stance.Stirs (m.stance t) (n.stance t) := by
  unfold stance
  rw [h.pending ht]
  obtain ⟨s, hs⟩ := exists_state? ht
  obtain ⟨s', hs', hn⟩ := h.old hs
  rw [hs, hs']
  exact hn.stirs _

/-- A task that goes on as its step said stands where the step said, if it is not yet on its way. -/
theorem stance_turn {x : Turn} (ht : m.state? t = some .running) (hx : ∀ c p, x ≠ .go c p) :
    (m.turn t x).1.stance t = x.stance := by
  cases x with
  | go c p => exact absurd rfl (hx c p)
  | wait w on limit p =>
    have he : (m.turn t (.wait w on limit p)).1 = (m.putPending t p).lull t w on limit := by
      cases limit <;> rfl
    rw [he, stance, state?_lull, if_pos rfl, state?_putPending, ht, pending?_lull, own_pending? ht]
    rfl
  | pass p =>
    have he : (m.turn t (.pass p)).1 =
        ((m.putPending t p).setState t (.woken .sleep true false)).effect (.ready t) :=
      congrArg (·.effect (.ready t)) (modifyTask_eq m t p _)
    rw [he, stance, state?_effect, state?_setState, if_pos rfl, state?_putPending, ht,
      pending?_effect, pending?_setState, own_pending? ht]
    rfl
  | stop a =>
    show (m.finish t a).stance t = none
    rw [stance, state?_finish, if_pos rfl, ht]
    rfl

/-- How a task goes on after its step leaves the other tasks where they stand. -/
theorem stance_turn_other (x : Turn) (h : t ≠ u) : (m.turn t x).1.stance u = m.stance u := by
  cases x with
  | go c p => rfl
  | wait w on limit p =>
    have he : (m.turn t (.wait w on limit p)).1 = (m.putPending t p).lull t w on limit := by
      cases limit <;> rfl
    rw [he]
    refine stance_congr ?_ ?_
    · rw [state?_lull, if_neg h, state?_putPending]
    · rw [pending?_lull, pending?_putPending, if_neg h]
  | pass p =>
    have he : (m.turn t (.pass p)).1 =
        ((m.putPending t p).setState t (.woken .sleep true false)).effect (.ready t) :=
      congrArg (·.effect (.ready t)) (modifyTask_eq m t p _)
    rw [he]
    refine stance_congr ?_ ?_
    · rw [state?_effect, state?_setState, if_neg h, state?_putPending]
    · rw [pending?_effect, pending?_setState, pending?_putPending, if_neg h]
  | stop a =>
    refine stance_congr ?_ ?_
    · exact (state?_finish a).trans (if_neg h)
    · exact (pending?_finish a).trans (if_neg h)

/-- The machine without its tasks, its effects and the tickets that are taken. -/
def core (m : Machine) : Machine :=
  { m.bare with nextTicket := 0 }

theorem Mute.core (h : Mute m n) : n.core = m.core :=
  congrArg (fun b : Machine => { b with nextTicket := 0 }) h.bare

theorem turn_core (m : Machine) (t : TaskId) (x : Turn) : (m.turn t x).1.core = m.core := by
  cases x with
  | go c p => rfl
  | wait w on limit p =>
    have he : (m.turn t (.wait w on limit p)).1 = (m.putPending t p).lull t w on limit := by
      cases limit <;> rfl
    rw [he, (Mute.lull _ t w on limit).core]
    rfl
  | pass p => rfl
  | stop a => exact (Mute.finish m t a).core

/-- The start of a run makes the walker. -/
theorem start_eq (h : m.main = none) (slotted : Bool) : m.start slotted =
    { (m.spawn (if slotted then .enqueue else .execute) []).1 with main := some m.tasks.size } := by
  unfold start
  rw [h]
  rfl

/-- A command, the start of a run apart, only signals and cancels tasks. -/
theorem obey_tends (m : Machine) {c : Command} (h : m.main = none → ∀ slotted, c ≠ .start slotted) :
    Tends m (m.obey c).1 ∧ (m.obey c).1.main = m.main := by
  have released (m : Machine) (mode : String) :
      Tends m (m.release mode) ∧ (m.release mode).main = m.main :=
    ⟨.trans (n := ({ m with
      pauseRequested := false
      run := { m.run with status := .running, pauseReason := none } } : Machine).emit "run.resumed" [
        ("nodeId", .ofText? m.run.current), ("mode", .str mode)]) (.of_tasks rfl) (.endPause _),
      (Silent.endPause _).mute.main⟩
  cases c with
  | start slotted =>
    obtain ⟨t, ht⟩ := Option.ne_none_iff_exists'.mp fun hm => h hm slotted rfl
    show Tends m (m.start slotted) ∧ (m.start slotted).main = _
    unfold start
    rw [ht]
    exact ⟨.refl m, ht⟩
  | pause =>
    show Tends m m.pause.1 ∧ m.pause.1.main = _
    unfold pause
    split <;> exact ⟨.of_tasks rfl, rfl⟩
  | resume =>
    show Tends m m.resumeRun.1 ∧ m.resumeRun.1.main = _
    unfold resumeRun
    split
    · obtain ⟨ht, hm⟩ := released { m with stepArmed := false } "resume"
      exact ⟨.trans (n := { m with stepArmed := false }) (.of_tasks rfl) ht, hm⟩
    · exact ⟨.refl m, rfl⟩
  | stepOver =>
    show Tends m m.stepOver.1 ∧ m.stepOver.1.main = _
    unfold stepOver
    split
    · obtain ⟨ht, hm⟩ := released { m with stepArmed := true } "step"
      exact ⟨.trans (n := { m with stepArmed := true }) (.of_tasks rfl) ht, hm⟩
    · exact ⟨.refl m, rfl⟩
  | cancel reason stamp =>
    show Tends m (m.cancel reason stamp).1 ∧ (m.cancel reason stamp).1.main = _
    obtain ⟨-, he⟩ | ⟨hs, text, ⟨-, he⟩ | ⟨-, -, he⟩⟩ := cancel_cases m reason stamp
    · rw [he]
      exact ⟨.refl m, rfl⟩
    · rw [he]
      exact ⟨(halt_changes m text).tends, (halt_changes m text).main⟩
    · rw [he]
      have ht : (m.halt text).run.status.isTerminal = false := by rw [halt_run, hs]
      have hk := (halt_changes m text).trans
        (finalize_changes ht (halt_cancelled m text) stamp .cancelled)
      exact ⟨hk.tends, hk.main⟩
  | setVar name v frame =>
    obtain he | ⟨layers, s, depth, he⟩ := m.obey_setVar name v frame
    · rw [he]
      exact ⟨.refl m, rfl⟩
    · rw [he]
      exact ⟨.of_tasks rfl, rfl⟩
  | edit f => exact ⟨.of_tasks rfl, rfl⟩

end Machine

namespace Execution

variable {x y : Execution} {w : World}

/-- Where the walker stands. -/
def stance (x : Execution) : Stance :=
  x.machine.main.bind fun t =>
    match x.active with
    | some s => if s.task = t then some (s.control, s.pending) else x.machine.stance t
    | none => x.machine.stance t

theorem stance_of_idle {t : TaskId} (hm : x.machine.main = some t) (hi : x.active = none) :
    x.stance = x.machine.stance t := by
  rw [stance, hm, hi]
  rfl

theorem stance_of_walker {s : Strand} (hs : x.active = some s) (hm : x.machine.main = some s.task) :
    x.stance = some (s.control, s.pending) := by
  rw [stance, hm, hs]
  exact if_pos rfl

theorem stance_of_other {s : Strand} {t : TaskId} (hs : x.active = some s)
    (hm : x.machine.main = some t) (ht : s.task ≠ t) : x.stance = x.machine.stance t := by
  rw [stance, hm, hs]
  exact if_neg ht

theorem stance_put {m : Machine} {t : TaskId} (hm : m.main = some t) :
    (x.put m none).stance = m.stance t :=
  stance_of_idle (x := x.put m none) hm rfl

/-- A step of the walker. -/
structure Treads (w : World) (now : Moment) (s : Strand) (x y : Execution) : Prop where
  active : x.active = some s
  main : x.machine.main = some s.task
  stance : y.stance =
    (x.machine.step (w.surroundings now) s.task s.control s.pending).2.stance
  core : y.machine.core =
    (x.machine.step (w.surroundings now) s.task s.control s.pending).1.core

/-- A move of others, or one that lets the walker begin its steps. -/
structure Attends (x y : Execution) : Prop where
  stance : x.stance.Stirs y.stance
  watchers : { y.machine.core with watchers := [] } = { x.machine.core with watchers := [] }

theorem Treads.layers {now : Moment} {s : Strand} (h : Treads w now s x y) : y.machine.layers =
    (x.machine.step (w.surroundings now) s.task s.control s.pending).1.layers :=
  (congrArg Machine.layers h.core :)

theorem Attends.layers (h : x.Attends y) : y.machine.layers = x.machine.layers :=
  (congrArg Machine.layers h.watchers :)

theorem IsSound.lt_main (h : x.IsSound) {t : TaskId} (hm : x.machine.main = some t) :
    t < x.machine.tasks.size := by
  obtain ⟨-, roles, hs⟩ := h
  exact hs.fitting.lt (hs.main.mpr hm)

/-- The walker stands where the stage of the run allows, or it waits for what the stage allows. -/
theorem IsSound.stands (h : x.IsSound) {c : Control} {p : List Pending}
    (hs : x.stance = some (c, p)) :
    x.machine.Stands c p ∨ ∃ v, c = .wake v false false ∧ x.machine.Waits v p := by
  obtain ⟨-, roles, hr⟩ := h
  cases hm : x.machine.main with
  | none =>
    rw [stance, hm] at hs
    cases hs
  | some t =>
    have parked (hs : x.machine.stance t = some (c, p)) :
        x.machine.Stands c p ∨ ∃ v, c = .wake v false false ∧ x.machine.Waits v p := by
      rw [Machine.stance] at hs
      obtain ⟨s, hst, hs⟩ := Option.bind_eq_some_iff.mp hs
      obtain ⟨q, hq⟩ := Machine.exists_pending? hst
      have hpark := hr.parked hm hst hq
      rw [hq] at hs
      obtain ⟨c', hc, he⟩ := Option.map_eq_some_iff.mp hs
      cases he
      cases s with
      | fresh d i =>
        cases hc
        obtain ⟨ho, rfl, hu⟩ := hpark
        cases c <;> first | exact .inl (.enqueue hu) | exact .inl (.execute hu trivial) | exact absurd ho id
      | waiting v k =>
        cases hc
        exact .inr ⟨v, rfl, hpark⟩
      | woken v a i =>
        cases hc
        exact .inl hpark
      | _ => cases hc
    cases ha : x.active with
    | none =>
      rw [stance_of_idle hm ha] at hs
      exact parked hs
    | some s =>
      by_cases ht : s.task = t
      · subst ht
        rw [stance_of_walker ha hm] at hs
        cases hs
        obtain ⟨-, r, hrole, -, hstands⟩ := hr.strand ha
        rw [hr.main.mpr hm] at hrole
        cases hrole
        exact .inl (hstands rfl)
      · rw [stance_of_other ha hm ht] at hs
        exact parked hs

/-- Where the walker stands after a change by others while no task is in the middle of its steps. -/
theorem stirs_of_tends (h : x.IsSound) (hx : x.active = none) (hy : y.active = none)
    (ht : x.machine.Tends y.machine) (hm : y.machine.main = x.machine.main) :
    x.stance.Stirs y.stance := by
  cases hmain : x.machine.main with
  | none =>
    rw [stance, stance, hm, hmain]
    exact .refl _
  | some t =>
    rw [stance_of_idle hmain hx, stance_of_idle (hm.trans hmain) hy]
    exact ht.stirs (h.lt_main hmain)

/-- A task that is ready begins its steps. -/
theorem begin_attends (h : x.IsSound) (hx : x.active = none) (t : TaskId) :
    x.Attends (x.begin t) := by
  have begun {c : Control} {p : List Pending} {s : TaskState} (hst : x.machine.state? t = some s)
      (hp : x.machine.pending? t = some p) (hc : s.control? = some c) :
      x.Attends { x with machine := x.machine.setState t .running, active := some ⟨t, c, p⟩ } := by
    let y : Execution := { x with machine := x.machine.setState t .running, active := some ⟨t, c, p⟩ }
    refine ⟨?_, rfl⟩
    show x.stance.Stirs y.stance
    cases hm : x.machine.main with
    | none =>
      have hm' : y.machine.main = none := hm
      rw [stance, stance, hm, hm']
      exact .refl _
    | some u =>
      have hm' : y.machine.main = some u := hm
      rw [stance_of_idle hm hx]
      by_cases htu : t = u
      · subst htu
        rw [stance_of_walker rfl hm', Machine.stance, hst, hp]
        simp only [Option.map_some, Option.bind_some, Option.getD_some, TaskState.stance, hc]
        exact .refl _
      · rw [stance_of_other rfl hm' htu, Machine.stance_congr (n := y.machine) (m := x.machine)]
        · exact .refl _
        · show (x.machine.setState t .running).state? u = _
          rw [Machine.state?_setState, if_neg htu]
        · exact Machine.pending?_setState ..
  have dismissed {c : Control} (hs : x.machine.state? t = some (.fresh c true)) :
      x.Attends (x.put (x.machine.finish t .interrupted) none) := by
    obtain ⟨-, roles, hr⟩ := h
    have hmute := Machine.Mute.finish x.machine t .interrupted
    refine ⟨?_, congrArg (fun m : Machine => { m with watchers := [] }) hmute.core⟩
    cases hm : x.machine.main with
    | none =>
      have hm' : (x.put (x.machine.finish t .interrupted) none).machine.main = none :=
        hmute.main.trans hm
      rw [stance, stance, hm, hm']
      exact .refl _
    | some u =>
      have htu : t ≠ u := by
        rintro rfl
        obtain ⟨p, hp⟩ := Machine.exists_pending? hs
        rw [hx] at hr
        cases (hr.fitting.state (hr.main.mpr hm) hs hp).2 rfl
      have hm' : (x.put (x.machine.finish t .interrupted) none).machine.main = some u :=
        hmute.main.trans hm
      rw [stance_of_idle hm hx, stance_of_idle hm' rfl]
      exact Machine.stance_turn_other (m := x.machine) (.stop .interrupted) htu ▸ .refl _
  have hb := x.begins t
  generalize x.begin t = y at hb ⊢
  cases hb with
  | unready => exact ⟨.refl _, rfl⟩
  | dismissed hs => exact dismissed hs
  | fresh hs hp | woken hs hp => exact begun hs hp rfl

theorem step_eq {s : Strand} (hs : x.active = some s) (now : Moment) :
    let r := x.machine.step (w.surroundings now) s.task s.control s.pending
    x.step w now = x.put (r.1.turn s.task r.2).1
      ((r.1.turn s.task r.2).2.map fun (c, p) => ⟨s.task, c, p⟩) := by
  exact stepIn_eq hs _

/-- The walker takes a step. -/
theorem step_treads (h : x.IsSound) {s : Strand} (hs : x.active = some s)
    (hm : x.machine.main = some s.task) (now : Moment) : Treads w now s x (x.step w now) := by
  obtain ⟨-, roles, hr⟩ := h
  rw [hs] at hr
  have hrole := hr.main.mpr hm
  obtain ⟨more, ht⟩ := hr.stepWalker w now hrole
  have hmain := ht.main.mp (getElem?_of_append hrole)
  rw [step_eq hs]
  refine ⟨hs, hm, ?_, Machine.turn_core _ _ _⟩
  generalize x.machine.step (w.surroundings now) s.task s.control s.pending = r at ht hmain ⊢
  obtain ⟨n, turn⟩ := r
  have hturned : (n.turn s.task turn).1.main = some s.task :=
    (congrArg Machine.main (Machine.turn_core n s.task turn)).trans hmain
  cases turn with
  | go c p => exact stance_of_walker (x := x.put n (some ⟨s.task, c, p⟩)) rfl hturned
  | wait v on limit p => exact (stance_put hturned).trans (Machine.stance_turn ht.self (by simp))
  | pass p => exact (stance_put hturned).trans (Machine.stance_turn ht.self (by simp))
  | stop a => exact (stance_put hturned).trans (Machine.stance_turn ht.self (by simp))

/-- Another task takes a step. -/
theorem step_attends (h : x.IsSound) {s : Strand} (hs : x.active = some s)
    (hm : x.machine.main ≠ some s.task) (now : Moment) : x.Attends (x.step w now) := by
  obtain ⟨-, roles, hr⟩ := h
  rw [hs] at hr
  obtain ⟨-, r, hrole, hsuits, -⟩ := hr.strand rfl
  have hne : r ≠ .walker := by
    rintro rfl
    exact hm (hr.main.mp hrole)
  obtain ⟨more, ha, -⟩ := Machine.step_aside hr.fitting w now hrole hne hsuits
  rw [step_eq hs]
  generalize x.machine.step (w.surroundings now) s.task s.control s.pending = q at ha ⊢
  obtain ⟨n, turn⟩ := q
  have hcore : (n.turn s.task turn).1.core = n.core := Machine.turn_core n s.task turn
  have haside : { n.core with watchers := [] } = { x.machine.core with watchers := [] } :=
    congrArg (fun m : Machine => { m with watchers := [] }) ha.silent.mute.core
  refine ⟨?_, (congrArg (fun m : Machine => { m with watchers := [] }) hcore).trans haside⟩
  cases hmain : x.machine.main with
  | none =>
    have hmain' : (n.turn s.task turn).1.main = none :=
      (congrArg Machine.main hcore).trans ((congrArg Machine.main haside).trans hmain)
    rw [stance, stance, hmain, put, hmain']
    exact .refl _
  | some t =>
    have hmain' : (n.turn s.task turn).1.main = some t :=
      (congrArg Machine.main hcore).trans ((congrArg Machine.main haside).trans hmain)
    have hst : s.task ≠ t := by
      rintro rfl
      exact hm hmain
    have hlt := hr.fitting.lt (hr.main.mpr hmain)
    have hkept : (n.turn s.task turn).1.stance t = x.machine.stance t :=
      (Machine.stance_turn_other turn hst).trans
        (Machine.stance_congr (ha.walker (hr.main.mpr hmain)) (ha.tends.pending hlt))
    rw [stance_of_other hs hmain hst, ← hkept]
    cases turn with
    | go c p =>
      exact stance_of_other (x := x.put n (some ⟨s.task, c, p⟩)) rfl hmain' hst ▸ .refl _
    | wait v on limit p => exact stance_put (x := x) hmain' ▸ .refl _
    | pass p => exact stance_put (x := x) hmain' ▸ .refl _
    | stop a => exact stance_put (x := x) hmain' ▸ .refl _

/-- The walker never waits for a slot itself. -/
theorem grant_attends (h : x.IsSound) {t : TaskId} (ha : x.allows (.grant t) = true) :
    x.Attends (x.grant t) := by
  obtain ⟨-, roles, hr⟩ := h
  obtain ⟨k, hk⟩ := allows_grant.mp ha
  refine ⟨?_, rfl⟩
  cases hm : x.machine.main with
  | none =>
    have hm' : (x.grant t).machine.main = none := hm
    rw [stance, stance, hm, hm']
    exact .refl _
  | some u =>
    have htu : t ≠ u := by
      rintro rfl
      obtain ⟨p, hp⟩ := Machine.exists_pending? hk
      exact absurd (hr.fitting.state (hr.main.mpr hm) hk hp) id
    have hkept : (x.grant t).machine.stance u = x.machine.stance u :=
      Machine.stance_congr ((Machine.state?_setState ..).trans (if_neg htu))
        (Machine.pending?_setState ..)
    have hsame : (x.grant t).stance = x.stance := by
      rw [stance, stance, hm, show (x.grant t).machine.main = some u from hm, Option.bind_some,
        Option.bind_some, hkept]
      rfl
    rw [hsame]
    exact .refl _

/-- What a move does: the walker takes a step, or others change at most what it waits for. -/
theorem move_cases (h : x.IsSound) (a : Move) :
    x.Attends (x.move w a) ∨ ∃ now s, a = .step now ∧ Treads w now s x (x.move w a) := by
  unfold move
  split
  · rename_i ha
    cases a with
    | begin t =>
      simp only [allows, isIdle, Bool.and_eq_true, Option.isNone_iff_eq_none] at ha
      exact .inl (begin_attends h ha.1 t)
    | step now =>
      cases hs : x.active with
      | none =>
        simp [allows, isIdle, hs] at ha
      | some s =>
        by_cases hm : x.machine.main = some s.task
        · exact .inr ⟨now, s, rfl, step_treads h hs hm now⟩
        · exact .inl (step_attends h hs hm now)
    | tell t ticket =>
      simp only [allows, isIdle, Bool.and_eq_true, Option.isNone_iff_eq_none] at ha
      have hs := Machine.Silent.tell x.machine t ticket
      refine .inl ⟨stirs_of_tends h ha.1.1 rfl ?_ hs.mute.main,
        congrArg (fun m : Machine => { m with watchers := [] }) hs.mute.core⟩
      exact (Machine.Tends.tell x.machine t ticket).trans (.of_tasks rfl)
    | grant t => exact .inl (grant_attends h ha)
  · exact .inl ⟨.refl _, rfl⟩

/-- Where the walker stands once it is started. -/
theorem start_stance (hm : x.machine.main = none) (slotted : Bool) :
    (x.put (x.machine.start slotted) none).stance =
      some (if slotted then .enqueue else .execute, []) := by
  rw [Machine.start_eq hm, stance_put rfl]
  show (x.machine.spawn _ []).1.stance x.machine.tasks.size = _
  rw [Machine.stance, Machine.state?_spawn, Machine.pending?_spawn, if_pos rfl, if_pos rfl]
  rfl

/-- What a command does: it starts the walker, or changes at most what the walker waits for. -/
theorem obey_cases (h : x.IsSound) (c : Command) :
    x.stance.Stirs (x.obey c).stance ∨
      x.machine.main = none ∧
        ∃ d : Control, (x.obey c).stance = some (d, []) ∧ d.IsOpening := by
  unfold obey
  split
  · rename_i hi
    have hx := Option.isNone_iff_eq_none.mp hi
    by_cases hc : x.machine.main = none ∧ ∃ slotted, c = .start slotted
    · obtain ⟨hm, slotted, rfl⟩ := hc
      exact .inr ⟨hm, if slotted then .enqueue else .execute, start_stance hm slotted,
        by cases slotted <;> trivial⟩
    · obtain ⟨ht, hm⟩ := Machine.obey_tends x.machine (c := c) fun hm slotted hs => hc ⟨hm, slotted, hs⟩
      exact .inl (stirs_of_tends h hx rfl (ht.trans (.of_tasks rfl)) hm)
  · exact .inl (.refl _)

end Execution

end Workflow
