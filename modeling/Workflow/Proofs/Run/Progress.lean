import Workflow.Proofs.Run.Chore
import Workflow.Proofs.Run.Rank
/-!
A run that has started and has not ended can always go on, unless it pauses. Whatever its tasks wait
for comes about: the end of another task that can go on itself, the end of some time, a slot. A watcher
only waits for a cancellation that may never come as long as nobody waits for its end.
-/

namespace Workflow

/-- A task in such a state ends without waiting any more, if it does not begin to watch. -/
def TaskState.IsSpent : TaskState → Prop
  | .fresh _ i => i = true
  | .waiting _ _ => False
  | _ => True

/-- The task that a move is made by, steps apart. -/
def Move.task? : Move → Option TaskId
  | .begin t | .tell t _ | .grant t => some t
  | .step _ => none

theorem TaskState.Nudges.isSpent {s s' : TaskState} (h : s.Nudges s') (hs : s.IsSpent) :
    s'.IsSpent := by
  induction h with
  | refl => exact hs
  | @signal s' _ ih => cases s' <;> first | exact ih | exact absurd ih id
  | @interrupt s' _ ih => cases s' <;> first | rfl | trivial

namespace Machine

variable {roles : List Role} {m n : Machine} {t u : TaskId} {c : Control} {p : List Pending}

/-- How a task goes on after its step leaves the states of the other tasks as they are. -/
theorem state?_turn_other (x : Turn) (h : t ≠ u) : (m.turn t x).1.state? u = m.state? u := by
  cases x with
  | go c p => rfl
  | wait w on limit p =>
    have he : (m.turn t (.wait w on limit p)).1 = (m.putPending t p).lull t w on limit := by
      cases limit <;> rfl
    rw [he, state?_lull, if_neg h, state?_putPending]
  | pass p =>
    have he : (m.turn t (.pass p)).1 =
        ((m.putPending t p).setState t (.woken .sleep true false)).effect (.ready t) :=
      congrArg (·.effect (.ready t)) (modifyTask_eq m t p _)
    rw [he, state?_effect, state?_setState, if_neg h, state?_putPending]
  | stop a => exact (state?_finish a).trans (if_neg h)

theorem turn_waiting {x : Turn} {w : Wait} {k : Nat} (ht : m.state? t = some .running)
    (h : (m.turn t x).1.state? t = some (.waiting w k)) : ∃ on limit p, x = .wait w on limit p := by
  cases x with
  | go c p =>
    have h : m.state? t = some (.waiting w k) := h
    rw [ht] at h
    cases h
  | wait v on limit p =>
    have he : (m.turn t (.wait v on limit p)).1 = (m.putPending t p).lull t v on limit := by
      cases limit <;> rfl
    rw [he, state?_lull, if_pos rfl, state?_putPending, ht] at h
    cases h
    exact ⟨on, limit, p, rfl⟩
  | pass p =>
    have he : (m.turn t (.pass p)).1 =
        ((m.putPending t p).setState t (.woken .sleep true false)).effect (.ready t) :=
      congrArg (·.effect (.ready t)) (modifyTask_eq m t p _)
    rw [he, state?_effect, state?_setState, if_pos rfl, state?_putPending, ht] at h
    cases h
  | stop a =>
    have h : (m.finish t a).state? t = some (.waiting w k) := h
    rw [state?_finish, if_pos rfl, ht] at h
    cases h

/-- Only a task whose rest is over waits for the end of a watcher, and it has told it to end. -/
theorem wake_rousing {env : Surroundings} {self : TaskId} {w : Wait} {s i j : Bool} {on : List TaskId}
    {limit : Option Seconds} {q : List Pending}
    (h : (m.wake env self w s i p).2 = .wait (.rousing u j) on limit q) :
    w = .nap u ∧ (m.wake env self w s i p).1 = (m.dropTimer self).interruptTask u := by
  unfold wake wakeFromSettlement removeHandler at *
  cases w with
  | nap watcher =>
    dsimp only at *
    split at h
    · cases h
    · rename_i he
      cases h
      rw [if_neg he]
      exact ⟨rfl, rfl⟩
  | start taker watcher =>
    exfalso
    dsimp only at h
    split at h
    · cases h
    · split at h <;> cases h
  | grant =>
    exfalso
    dsimp only at h
    split at h <;> cases h
  | settlement a handler watcher =>
    exfalso
    dsimp only at h
    split at h
    · cases h
    · split at h
      · cases h
      · split at h <;> cases h
  | grace handler =>
    exfalso
    dsimp only at h
    split at h
    · cases h
    · split at h <;> cases h
  | rousing watcher before =>
    exfalso
    dsimp only at h
    split at h
    · cases h
    · split at h <;> cases h
  | _ => cases h

/-- A step of the walker, if it has not waited just before. -/
theorem Stands.isFresh (h : Stands m c p) (env : Surroundings) (self : TaskId)
    (hc : ∀ w s i, c ≠ .wake w s i) : (m.step env self c p).2.IsFresh := by
  have answered (a : Answer)
      (hd : ∀ k q, p = k :: q → k.IsWalk → frameKeys [k] = [] → m.Deep q) :
      (m.step env self (.answer a) p).2.IsFresh := by
    cases p with
    | nil => rintro w on limit q ⟨⟩
    | cons k q => exact (resume_descends m env q k a (hd k q rfl)).fresh
  have underway (hu : Underway m p) :
      ∀ k q, p = k :: q → k.IsWalk → frameKeys [k] = [] → m.Deep q := by
    rintro k q rfl hk hf
    exact (hu.tail hk hf).deep
  cases h with
  | enqueue h => exact (enqueue_descends (s := env.settings) m).fresh
  | start h t u s i => exact absurd rfl (hc _ s i)
  | execute h hp => exact (execute_descends (s := env.settings) m env p).fresh
  | walk h hu hw hm hl =>
    by_cases ha : ∃ a, c = .answer a
    · obtain ⟨a, rfl⟩ := ha
      exact answered a (underway hu)
    · exact (walk_descends m env p self hw (fun a he => ha ⟨a, he⟩) hu.deep).fresh
  | wake h hu hw hm s i => exact absurd rfl (hc _ s i)
  | resume h hu hm s i => exact absurd rfl (hc _ s i)
  | back h hu hm => exact answered _ (underway hu)
  | refuse h hu walk node => exact (dispatch_descends m env p walk node).fresh
  | unwind h hu => exact answered _ (underway hu)
  | ended h hp a =>
    refine answered a ?_
    rintro k q rfl hk -
    cases k <;> first | exact absurd hk id | exact absurd hp id

/-- A step of another task, if it has not waited just before. -/
theorem errand_isFresh {r : Role} (w : World) (now : Moment) (self : TaskId) (hr : r ≠ .walker)
    (hs : c.Suits roles r p) (hc : ∀ w s i, c ≠ .wake w s i) :
    (m.step (w.surroundings now) self c p).2.IsFresh := by
  have going {n : Machine} {d : Control} {q : List Pending} : (n, Turn.go d q).2.IsFresh := by
    rintro v on limit q ⟨⟩
  have waiting {n : Machine} {v : Wait} {on : List TaskId} {limit : Option Seconds}
      {q : List Pending} (hv : ¬ v.IsRousing) : (n, Turn.wait v on limit q).2.IsFresh := by
    rintro _ _ _ _ ⟨⟩
    exact hv
  cases c with
  | takeSlot =>
    show (m.takeSlot (w.surroundings now) self p).2.IsFresh
    unfold takeSlot
    split
    · exact waiting id
    · exact going
  | watch => exact (watch_descends (s := w.settings) m p self).fresh
  | handle call =>
    show (m.handle (w.surroundings now) call p).2.IsFresh
    unfold handle
    split
    · exact going
    · rename_i reg hreg
      obtain ⟨b, hb⟩ := now.builtin.handler hreg
      rw [hb]
      dsimp only
      split
      · exact going
      · exact going
      · unfold rest
        split
        · exact going
        · exact waiting id
  | wake v s i => exact absurd rfl (hc v s i)
  | answer a =>
    cases p with
    | nil => rintro v on limit q ⟨⟩
    | cons k q =>
      obtain ⟨rfl, rfl⟩ := hs.of_answer hr
      exact (resume_descends m (w.surroundings now) [] .rest a fun hk _ => absurd hk id).fresh
  | _ => cases r <;> first | exact absurd rfl hr | exact absurd hs id

/-- The task in the middle of its steps at most signals and cancels others. -/
theorem Sound.step_tends {log : List Effect} {s : Strand} (h : Sound roles log (some s) m) (w : World)
    (now : Moment) : Tends m (m.step (w.surroundings now) s.task s.control s.pending).1 := by
  obtain ⟨-, r, hr, hsuits, hstands⟩ := h.strand rfl
  by_cases hw : r = .walker
  · subst hw
    obtain ⟨⟨more, hp⟩, -⟩ := (hstands rfl).steps s.task h.fitting w now hsuits
    exact hp.tends
  · obtain ⟨more, ha, -⟩ := step_aside h.fitting w now hr hw hsuits
    exact ha.tends

end Machine

namespace Execution

variable {x : Execution} {w : World} {t u : TaskId}

/-- A task that ends without waiting any more. -/
def Spent (x : Execution) (u : TaskId) : Prop :=
  (∃ s, x.machine.state? u = some s ∧ s.IsSpent) ∧
    ∀ a, x.active = some a → a.task = u → a.control ≠ .watch

/-- Whoever waits for the end of a watcher has told it to end. -/
def Roused (x : Execution) : Prop :=
  ∀ t u i k, x.machine.state? t = some (.waiting (.rousing u i) k) → x.Spent u

/-- Signals and cancellations. -/
theorem Roused.of_tends {y : Execution} (h : x.Roused) (hy : y.active = x.active)
    (ht : x.machine.Tends y.machine) : y.Roused := by
  intro t u i k hw
  obtain ⟨⟨s, hs, hspent⟩, ha⟩ := h t u i k (ht.waiting hw)
  obtain ⟨s', hs', hn⟩ := ht.old hs
  exact ⟨⟨s', hs', hn.isSpent hspent⟩, by rw [hy]; exact ha⟩

theorem Roused.begin (h : x.Roused) (t : TaskId) : (x.begin t).Roused := by
  have begun {c : Control} {p : List Pending} {s : TaskState} (hs : x.machine.state? t = some s)
      (hc : s.IsSpent → c ≠ .watch) :
      Roused { x with machine := x.machine.setState t .running, active := some ⟨t, c, p⟩ } := by
    intro v u i j hw
    have hst (u : TaskId) : (x.machine.setState t .running).state? u =
        if t = u then (x.machine.state? u).map fun _ => .running else x.machine.state? u :=
      Machine.state?_setState _
    have hw : (x.machine.setState t .running).state? v = some (.waiting (.rousing u i) j) := hw
    rw [hst] at hw
    split at hw
    · obtain ⟨_, -, hw⟩ := Option.map_eq_some_iff.mp hw
      cases hw
    · obtain ⟨⟨s', hs', hspent⟩, -⟩ := h v u i j hw
      refine ⟨?_, ?_⟩
      · show ∃ s, (x.machine.setState t .running).state? u = some s ∧ _
        rw [hst]
        split
        · rw [hs']
          exact ⟨_, rfl, trivial⟩
        · exact ⟨s', hs', hspent⟩
      · rintro a ⟨⟩ rfl
        cases hs.symm.trans hs'
        exact hc hspent
  have dismissed : (x.put (x.machine.finish t .interrupted) none).Roused := by
    intro v u i j hw
    have hst (u : TaskId) : (x.machine.finish t .interrupted).state? u =
        if t = u then (x.machine.state? u).map fun _ => .ended .interrupted
        else x.machine.state? u := Machine.state?_finish _
    have hw : (x.machine.finish t .interrupted).state? v = some (.waiting (.rousing u i) j) := hw
    rw [hst] at hw
    split at hw
    · obtain ⟨_, -, hw⟩ := Option.map_eq_some_iff.mp hw
      cases hw
    · obtain ⟨⟨s, hs, hspent⟩, -⟩ := h v u i j hw
      refine ⟨?_, by rintro a ⟨⟩⟩
      show ∃ s, (x.machine.finish t .interrupted).state? u = some s ∧ _
      rw [hst]
      split
      · rw [hs]
        exact ⟨_, rfl, trivial⟩
      · exact ⟨s, hs, hspent⟩
  have hb := x.begins t
  generalize x.begin t = y at hb ⊢
  cases hb with
  | unready => exact h
  | dismissed => exact dismissed
  | fresh hs => exact begun hs fun hspent => absurd hspent Bool.false_ne_true
  | woken hs => exact begun hs fun _ => by simp

/-- A watcher that has been told to end does not wait after its step. -/
theorem Spent.step {roles : List Role} {s : Strand} (h : x.Spent u) (hx : x.active = some s)
    (hr : x.machine.Sound roles x.log (some s)) (hu : roles[u]? = some .watcher) (now : Moment) :
    (x.step w now).Spent u := by
  obtain ⟨hrun, r, hrole, hsuits, -⟩ := hr.strand rfl
  obtain ⟨⟨v, hv, hspent⟩, hwatch⟩ := h
  have ht := hr.step_tends w now
  rw [step_eq hx]
  by_cases hsu : s.task = u
  · subst hsu
    rw [hrole] at hu
    cases hu
    have hr' := ht.running_iff.mpr hrun
    cases hc : s.control with
    | watch => exact absurd hc (hwatch s hx rfl)
    | wake w a i =>
      rw [hc] at hsuits hr'
      obtain rfl : w = .cancellation := by
        cases w <;> first | rfl | exact absurd hsuits.1 id
      exact ⟨⟨_, hr', trivial⟩, by rintro _ ⟨⟩ -; simp⟩
    | answer a =>
      rw [hc] at hsuits
      have hp : s.pending = [] := hsuits
      rw [hp]
      refine ⟨⟨.ended a, ?_, trivial⟩, by rintro _ ⟨⟩⟩
      refine (Machine.state?_finish (m := x.machine) a).trans ?_
      rw [if_pos rfl, hrun]
      rfl
    | _ => rw [hc] at hsuits; exact absurd hsuits id
  · obtain ⟨v', hv', hn⟩ := ht.old hv
    refine ⟨⟨v', (Machine.state?_turn_other _ hsu).trans hv', hn.isSpent hspent⟩, ?_⟩
    intro a ha hau
    obtain ⟨y, -, rfl⟩ := Option.map_eq_some_iff.mp ha
    exact absurd hau hsu

theorem Roused.step (hx : x.IsSound) (h : x.Roused) (now : Moment) : (x.step w now).Roused := by
  cases hs : x.active with
  | none =>
    rw [Execution.step, hs]
    exact h
  | some s =>
    obtain ⟨-, roles, hr⟩ := hx
    rw [hs] at hr
    obtain ⟨hrun, r, hrole, hsuits, hstands⟩ := hr.strand rfl
    have ht := hr.step_tends w now
    intro t u i k hw
    by_cases hst : s.task = t
    · subst hst
      have hw' := hw
      rw [step_eq hs] at hw'
      obtain ⟨on, limit, p, hturn⟩ := Machine.turn_waiting (ht.running_iff.mpr hrun) hw'
      -- The task has just told the watcher to end.
      obtain ⟨v, a, j, hc⟩ : ∃ v a j, s.control = .wake v a j := by
        by_contra hne
        have hc : ∀ v a j, s.control ≠ .wake v a j := fun v a j hc => hne ⟨v, a, j, hc⟩
        have hfresh : (x.machine.step (w.surroundings now) s.task s.control s.pending).2.IsFresh := by
          by_cases hwalk : r = .walker
          · exact (hstands hwalk).isFresh _ _ hc
          · exact Machine.errand_isFresh w now s.task hwalk hsuits hc
        exact hfresh _ _ _ _ hturn trivial
      rw [hc] at hturn hsuits
      obtain ⟨rfl, hm⟩ := Machine.wake_rousing hturn
      have hu : roles[u]? = some .watcher := by
        cases r with
        | walker => exact hsuits.1
        | handler => exact hsuits.1.1
        | taker => exact absurd hsuits.1 id
        | watcher => exact absurd hsuits.1 id
      have hne : s.task ≠ u := by
        intro he
        rw [he, hu] at hrole
        cases hrole
        exact absurd hsuits.1 id
      have hd := Machine.dropTimer_aside hr.fitting s.task
      have hnot := hd.fits.not_handsOn hu (by decide)
      obtain ⟨v, hv⟩ := Machine.exists_state? (hr.fitting.lt hu)
      rw [step_eq hs, hc]
      refine ⟨⟨v.interrupted, ?_, by cases v <;> first | rfl | trivial⟩, ?_⟩
      · refine (Machine.state?_turn_other _ hne).trans ?_
        show (x.machine.wake _ _ _ _ _ _).1.state? u = _
        rw [hm, Machine.state?_interruptTask hnot, if_pos rfl]
        show (x.machine.state? u).map _ = _
        rw [hv]
        rfl
      · intro a ha hau
        obtain ⟨y, -, rfl⟩ := Option.map_eq_some_iff.mp ha
        exact absurd hau hne
    · have hold : x.machine.state? t = some (.waiting (.rousing u i) k) := by
        rw [step_eq hs] at hw
        exact ht.waiting ((Machine.state?_turn_other _ hst).symm.trans hw)
      have hu : roles[u]? = some .watcher := by
        obtain ⟨r', hr'⟩ := Machine.exists_role hr.fitting hold
        obtain ⟨p, hp⟩ := Machine.exists_pending? hold
        have hfit := hr.fitting.state hr' hold hp
        cases r' with
        | walker => exact hfit.1
        | handler => exact hfit.1
        | taker => exact absurd hfit id
        | watcher => exact absurd hfit id
      exact (h t u i k hold).step hs hr hu now

theorem Roused.take (hx : x.IsSound) (h : x.Roused) (i : Input) : (x.take w i).Roused := by
  cases i with
  | move a =>
    show (x.move w a).Roused
    unfold Execution.move
    split
    · rename_i ha
      cases a with
      | begin t => exact h.begin t
      | step now => exact h.step hx now
      | tell t k =>
        simp only [allows, isIdle, Bool.and_eq_true, Option.isNone_iff_eq_none] at ha
        exact h.of_tends ha.1.1.symm ((Machine.Tends.tell x.machine t k).trans (.of_tasks rfl))
      | grant t =>
        simp only [allows] at ha
        split at ha
        · rename_i k hk
          exact h.of_tends rfl (.grant hk)
        · cases ha
    · exact h
  | command c =>
    show (x.obey c).Roused
    unfold obey
    split
    · rename_i hi
      have hnone := Option.isNone_iff_eq_none.mp hi
      refine h.of_tends hnone.symm (Machine.Tends.trans (n := (x.machine.obey c).1) ?_ (.of_tasks rfl))
      by_cases hc : x.machine.main = none ∧ ∃ slotted, c = .start slotted
      · obtain ⟨hm, slotted, rfl⟩ := hc
        show Machine.Tends _ (x.machine.start slotted)
        rw [Machine.start_eq hm]
        exact (Machine.Tends.spawn x.machine _).trans (.of_tasks rfl)
      · exact (Machine.obey_tends x.machine fun hm slotted hs => hc ⟨hm, slotted, hs⟩).1
    · exact h

/-- A task can go on. -/
def CanGo (x : Execution) (t : TaskId) : Prop :=
  ∃ a, x.allows a = true ∧ a.task? = some t

section idle

variable {roles : List Role} {v : Wait} {k : Nat} {o : TaskId}

theorem isIdle_of_active (ha : x.active = none) : x.isIdle = true := by
  rw [isIdle, ha]
  rfl

variable (hs : x.machine.Sound roles x.log none) (ha : x.active = none)

include hs in
theorem ne_running {s : TaskState} (hu : x.machine.state? u = some s) : s ≠ .running := by
  rintro rfl
  obtain ⟨s, hs', -⟩ := hs.running hu
  cases hs'

include ha

/-- A task that does not wait can begin, unless it has ended. -/
theorem canGo_of_ready {s : TaskState} (hu : x.machine.state? u = some s) (hr : s ≠ .running)
    (hend : ∀ a, s ≠ .ended a) (hwait : ∀ v k, s ≠ .waiting v k) : x.CanGo u := by
  refine ⟨.begin u, ?_, rfl⟩
  rw [allows, isIdle_of_active ha, hu]
  cases s with
  | fresh c i => rfl
  | woken v a i => rfl
  | running => exact absurd rfl hr
  | waiting v k => exact absurd rfl (hwait v k)
  | ended a => exact absurd rfl (hend a)

theorem canGo_of_tells (he : x.machine.effects = []) (hu : x.machine.state? u = some (.waiting v k))
    (ht : Machine.Tells x.log x.machine u k) : x.CanGo u := by
  obtain ⟨e, hmem, htells⟩ := ht
  rw [he, List.nil_append] at hmem
  refine ⟨.tell u k, ?_, rfl⟩
  rw [allows, isIdle_of_active ha, hu, isTold, List.any_eq_true.mpr ⟨e, hmem, htells⟩]
  simp

variable (he : x.machine.effects = [])

include hs he

theorem canGo_of_timed (hu : x.machine.state? u = some (.waiting v k)) (hv : v.isTimed = true) :
    x.CanGo u :=
  canGo_of_tells ha he hu (hs.tickets.timed hu hv)

/-- A task that waits for another one can go on, or the other one has not ended. -/
theorem canGo_of_awaited (hu : x.machine.state? u = some (.waiting v k)) (ho : o ∈ v.awaited) :
    x.CanGo u ∨ ∃ s, x.machine.state? o = some s ∧ ∀ a, s ≠ .ended a := by
  rcases hs.tickets.awaits hu ho with ht | ⟨-, hend⟩
  · exact .inl (canGo_of_tells ha he hu ht)
  · obtain ⟨r, hr⟩ := Machine.exists_role hs.fitting hu
    obtain ⟨p, hp⟩ := Machine.exists_pending? hu
    cases hst : x.machine.state? o with
    | none =>
      exact absurd (Machine.lt_of_awaited hs.fitting (hs.fitting.state hr hu hp) o ho)
        (Nat.not_lt.mpr (Machine.state?_eq_none.mp hst))
    | some s =>
      refine .inr ⟨s, rfl, ?_⟩
      rintro a rfl
      rw [Machine.hasEnded_iff.mpr ⟨a, hst⟩] at hend
      cases hend

/-- Whoever waits for the end of a watcher can go on, or the watcher can. -/
theorem canGo_of_rousing (h : x.Roused) {i : Bool}
    (hu : x.machine.state? u = some (.waiting (.rousing o i) k)) : x.CanGo u ∨ x.CanGo o := by
  rcases canGo_of_awaited hs ha he hu List.mem_cons_self with hgo | ⟨s, hst, hend⟩
  · exact .inl hgo
  · refine .inr (canGo_of_ready ha hst (ne_running hs hst) hend ?_)
    rintro v j rfl
    obtain ⟨⟨s, hs', hspent⟩, -⟩ := h u o i k hu
    rw [hst] at hs'
    cases hs'
    exact hspent

/-- A handler that has not ended can go on, or its watcher can. -/
theorem canGo_of_handler (h : x.Roused) (hrole : roles[u]? = some .handler) {s : TaskState}
    (hu : x.machine.state? u = some s) (hend : ∀ a, s ≠ .ended a) :
    x.CanGo u ∨ ∃ o, roles[o]? = some .watcher ∧ x.CanGo o := by
  by_cases hw : ∃ v k, s = .waiting v k
  · obtain ⟨v, k, rfl⟩ := hw
    obtain ⟨q, hq⟩ := Machine.exists_pending? hu
    have hsuits : v.Suits roles .handler q := hs.fitting.state hrole hu hq
    cases v with
    | nap watcher => exact .inl (canGo_of_timed hs ha he hu rfl)
    | rousing watcher before =>
      exact (canGo_of_rousing hs ha he h hu).imp_right fun hgo => ⟨_, hsuits.1, hgo⟩
    | _ => exact absurd hsuits id
  · exact .inl (canGo_of_ready ha hu (ne_running hs hu) hend fun v k hv => hw ⟨v, k, hv⟩)

end idle

/-- A run that has started can go on until it ends, unless it pauses. -/
theorem exists_allowed (hx : x.IsSound) (h : x.Roused) (hm : x.machine.main ≠ none)
    (hp : x.machine.run.status ≠ .paused) (ht : x.machine.run.status.isTerminal = false) :
    ∃ a, x.allows a = true := by
  have allowed {t : TaskId} (hgo : x.CanGo t) : ∃ a, x.allows a = true := by
    obtain ⟨a, ha, -⟩ := hgo
    exact ⟨a, ha⟩
  cases ha : x.active with
  | some s => exact ⟨.step ⟨[], by simp [Registry.IsBuiltin], [], false, [], 0.0, 0⟩,
      by simp [allows, isIdle, ha]⟩
  | none =>
    obtain ⟨he, roles, hs⟩ := hx
    rw [ha] at hs
    obtain ⟨t, hmain⟩ := Option.ne_none_iff_exists'.mp hm
    have hrole := hs.main.mpr hmain
    obtain ⟨s, hst⟩ := Machine.exists_state? (hs.fitting.lt hrole)
    obtain ⟨p, hpending⟩ := Machine.exists_pending? hst
    have hpark := hs.parked hmain hst hpending
    have hend : ∀ a, s ≠ .ended a := by
      rintro a rfl
      rw [show x.machine.run.status.isTerminal = true from hpark] at ht
      cases ht
    by_cases hw : ∃ v k, s = .waiting v k
    · obtain ⟨v, k, rfl⟩ := hw
      have hfit : v.Suits roles .walker p := hs.fitting.state hrole hst hpending
      have hwaits : x.machine.Waits v p := hpark
      cases hwaits with
      | start hu taker watcher =>
        rcases canGo_of_awaited hs ha he hst List.mem_cons_self with hgo | ⟨s, htaker, hlive⟩
        · exact allowed hgo
        · by_cases hw : ∃ v k, s = .waiting v k
          · obtain ⟨v, k, rfl⟩ := hw
            obtain ⟨q, hq⟩ := Machine.exists_pending? htaker
            obtain rfl : v = .grant := by
              have : v.Suits roles .taker q := hs.fitting.state hfit.1 htaker hq
              cases v <;> first | rfl | exact absurd this id
            exact ⟨.grant taker, by rw [allows, htaker]⟩
          · exact allowed (canGo_of_ready ha htaker (ne_running hs htaker) hlive
              fun v k hv => hw ⟨v, k, hv⟩)
      | pause hpause => exact absurd hpause hp
      | walk hrun hu hw hmeets =>
        cases v with
        | settlement a handler watcher => exact allowed (canGo_of_timed hs ha he hst rfl)
        | grace handler => exact allowed (canGo_of_timed hs ha he hst rfl)
        | nap watcher => exact allowed (canGo_of_timed hs ha he hst rfl)
        | sleep => exact allowed (canGo_of_timed hs ha he hst rfl)
        | rousing watcher before =>
          exact (canGo_of_rousing hs ha he h hst).elim allowed allowed
        | removal handler o i =>
          rcases canGo_of_awaited hs ha he hst List.mem_cons_self with hgo | ⟨s, hhandler, hlive⟩
          · exact allowed hgo
          · rcases canGo_of_handler hs ha he h hfit.1 hhandler hlive with hgo | ⟨o, -, hgo⟩
            · exact allowed hgo
            · exact allowed hgo
        | _ => exact absurd hw id
    · exact allowed (canGo_of_ready ha hst (ne_running hs hst) hend
        fun v k hv => hw ⟨v, k, hv⟩)

end Execution

end Workflow
