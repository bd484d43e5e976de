import Mathlib.Algebra.BigOperators.Fin
import Mathlib.Algebra.Order.BigOperators.Group.Finset
import Workflow.Proofs.Run.Stance
/-!
What is left to be done by others than the walker. They only carry out short errands, so that a few
moves are left to each of them, and a move takes one of these away, whichever it is.
-/

namespace Workflow

/-- How many moves are left, those of a watcher that is made for a rest included, if a task that does
not walk does something next and then answers. -/
def Control.chores : Control → Nat
  | .wake (.nap _) _ _ | .watch | .takeSlot => 4
  | .wake _ _ _ => 1
  | .handle _ => 14
  | _ => 0

namespace TaskState

/-- How many moves are left until a task takes its next step. -/
def delay : TaskState → Nat
  | .waiting _ _ => 2
  | .fresh _ _ | .woken _ _ _ => 1
  | .running | .ended _ => 0

/-- How many moves are left to a task that does not walk. -/
def chores (p : List Pending) (s : TaskState) : Nat :=
  match s.control? with
  | some c => s.delay + (c.chores + p.length + 1)
  | none => 0

theorem Nudges.delay_le {s s' : TaskState} (h : s.Nudges s') : s'.delay ≤ s.delay := by
  induction h with
  | refl => exact Nat.le_refl _
  | @signal s' _ ih =>
    refine Nat.le_trans ?_ ih
    rcases s' with _ | _ | ⟨_ | _ | _ | _ | _ | _ | _ | _ | _ | _, _⟩ | _ | _ <;>
      simp [signalled, delay]
  | @interrupt s' _ ih =>
    refine Nat.le_trans ?_ ih
    cases s' <;> simp [interrupted, delay]

theorem Nudges.chores_le {s s' : TaskState} (h : s.Nudges s') (p : List Pending) :
    s'.chores p ≤ s.chores p := by
  induction h with
  | refl => exact Nat.le_refl _
  | @signal s' _ ih =>
    refine Nat.le_trans ?_ ih
    rcases s' with _ | _ | ⟨_ | _ | _ | _ | _ | _ | _ | _ | _ | _, _⟩ | _ | _ <;>
      simp [signalled, chores, control?, delay, Control.chores]
  | @interrupt s' _ ih =>
    refine Nat.le_trans ?_ ih
    rcases s' with _ | _ | ⟨_ | _ | _ | _ | _ | _ | _ | _ | _ | _, _⟩ | ⟨_ | _ | _ | _ | _ | _ | _ | _ | _ | _⟩ | _ <;>
      simp [interrupted, chores, control?, delay, Control.chores]

end TaskState

/-- How many moves are left to a task that goes on in some way and does not walk. -/
def Turn.chores : Turn → Nat
  | .go c p => c.chores + p.length + 1
  | .wait w _ _ p => (TaskState.waiting w 0).chores p
  | .pass p => (TaskState.woken .sleep true false).chores p
  | .stop _ => 0

/-- Only a handler has work that waits when it has an answer: its rest. -/
theorem Control.Suits.of_answer {roles : List Role} {r : Role} {a : Answer} {k : Pending}
    {q : List Pending} (h : (Control.answer a).Suits roles r (k :: q)) (hr : r ≠ .walker) :
    k = .rest ∧ q = [] := by
  cases r with
  | walker => exact absurd rfl hr
  | taker => cases (show k :: q = [] from h)
  | watcher => cases (show k :: q = [] from h)
  | handler =>
    have ha : a.Concludes (k :: q) := h
    cases k <;> cases q <;> cases a <;> first | exact ⟨rfl, rfl⟩ | exact absurd ha id

namespace Machine

variable {m n : Machine} {t u : TaskId}

/-- How many moves are left to a task, or until the walker takes its next step. -/
def chores (m : Machine) (t : TaskId) : Nat :=
  match m.state? t with
  | some s => if m.main = some t then s.delay else s.chores ((m.pending? t).getD [])
  | none => 0

/-- How many moves are left to all tasks. -/
def allChores (m : Machine) : Nat :=
  (Finset.range m.tasks.size).sum m.chores

theorem chores_congr (hs : n.state? t = m.state? t) (hp : n.pending? t = m.pending? t)
    (hm : n.main = m.main) : n.chores t = m.chores t := by
  rw [chores, chores, hs, hp, hm]

theorem chores_eq_zero {s : TaskState} (hs : m.state? t = some s) (hd : s.delay = 0) :
    m.chores t = 0 := by
  rw [chores, hs]
  dsimp only
  split
  · exact hd
  · cases s <;> first | rfl | cases hd

/-- Signals and cancellations leave no more to be done. -/
theorem Tends.chores_le (h : Tends m n) (hm : n.main = m.main) (ht : t < m.tasks.size) :
    n.chores t ≤ m.chores t := by
  obtain ⟨s, hs⟩ := exists_state? ht
  obtain ⟨s', hs', hn⟩ := h.old hs
  rw [chores, chores, hs, hs', h.pending ht, hm]
  dsimp only
  split
  · exact hn.delay_le
  · exact hn.chores_le _

theorem Tends.allChores_le (h : Tends m n) (hm : n.main = m.main)
    (hs : n.tasks.size = m.tasks.size) : n.allChores ≤ m.allChores := by
  unfold allChores
  rw [hs]
  exact Finset.sum_le_sum fun t ht => h.chores_le hm (Finset.mem_range.mp ht)

/-- A signal leaves less to be done if it wakes a task. -/
theorem Tends.allChores_lt (h : Tends m n) (hm : n.main = m.main)
    (hs : n.tasks.size = m.tasks.size) {w : Wait} {k : Nat} {s i : Bool}
    (hw : m.state? t = some (.waiting w k)) (hn : n.state? t = some (.woken w s i)) :
    n.allChores < m.allChores := by
  have ht := lt_of_state? hw
  unfold allChores
  rw [hs]
  refine Finset.sum_lt_sum (fun t ht => h.chores_le hm (Finset.mem_range.mp ht))
    ⟨t, Finset.mem_range.mpr ht, ?_⟩
  rw [chores, chores, hw, hn, h.pending ht, hm]
  dsimp only
  split
  · exact Nat.lt_succ_self 1
  · cases w <;> simp [TaskState.chores, TaskState.control?, TaskState.delay, Control.chores]

/-- What is left to be done if no more than one task is in another state. -/
theorem allChores_of_other (ht : t < m.tasks.size) (hs : n.tasks.size = m.tasks.size)
    (hn : ∀ u, u ≠ t → n.chores u = m.chores u) :
    n.allChores + m.chores t = m.allChores + n.chores t := by
  have hmem : t ∈ Finset.range m.tasks.size := Finset.mem_range.mpr ht
  have hold : m.chores t + ((Finset.range m.tasks.size).erase t).sum m.chores = m.allChores :=
    Finset.add_sum_erase _ m.chores hmem
  have hnew : n.chores t + ((Finset.range m.tasks.size).erase t).sum n.chores = n.allChores := by
    rw [allChores, hs]
    exact Finset.add_sum_erase _ n.chores hmem
  have hsame : ((Finset.range m.tasks.size).erase t).sum n.chores =
      ((Finset.range m.tasks.size).erase t).sum m.chores :=
    Finset.sum_congr rfl fun u hu => hn u (Finset.ne_of_mem_erase hu)
  omega

/-- What is left to be done once a task goes on as its step said. -/
theorem allChores_turn (x : Turn) (ht : m.state? t = some .running) (hm : m.main ≠ some t) :
    (m.turn t x).1.allChores +
      ((m.turn t x).2.elim 0 fun (c, p) => c.chores + p.length + 1) = m.allChores + x.chores := by
  have hzero : m.chores t = 0 := chores_eq_zero ht rfl
  have hlt := lt_of_state? ht
  have turned {n : Machine} (hs : n.tasks.size = m.tasks.size) (hn : n.main = m.main)
      (ho : ∀ u, u ≠ t → n.state? u = m.state? u ∧ n.pending? u = m.pending? u)
      (hx : n.chores t = x.chores) : n.allChores + 0 = m.allChores + x.chores := by
    have := allChores_of_other hlt hs fun u hu => chores_congr (ho u hu).1 (ho u hu).2 hn
    omega
  cases x with
  | go c p => rfl
  | wait w on limit p =>
    have he : (m.turn t (.wait w on limit p)) = ((m.putPending t p).lull t w on limit, none) := by
      cases limit <;> rfl
    have hmain : ((m.putPending t p).lull t w on limit).main = m.main :=
      (Mute.lull _ t w on limit).main
    rw [he]
    refine turned ?_ hmain (fun u hu => ?_) ?_
    · rw [tasks_lull, size_suspend]
      simp [putPending]
    · rw [state?_lull, if_neg fun h => hu h.symm, state?_putPending, pending?_lull,
        pending?_putPending, if_neg fun h => hu h.symm]
      exact ⟨rfl, rfl⟩
    · rw [chores, state?_lull, if_pos rfl, state?_putPending, ht, hmain, pending?_lull,
        own_pending? ht]
      simp [hm, Turn.chores, TaskState.chores, TaskState.control?, TaskState.delay]
  | pass p =>
    have he : m.turn t (.pass p) =
        (((m.putPending t p).setState t (.woken .sleep true false)).effect (.ready t), none) :=
      congrArg (fun n : Machine => (n.effect (.ready t), none)) (modifyTask_eq m t p _)
    rw [he]
    refine turned ?_ rfl (fun u hu => ?_) ?_
    · simp [putPending]
    · rw [state?_effect, state?_setState, if_neg fun h => hu h.symm, state?_putPending,
        pending?_effect, pending?_setState, pending?_putPending, if_neg fun h => hu h.symm]
      exact ⟨rfl, rfl⟩
    · rw [chores, state?_effect, state?_setState, if_pos rfl, state?_putPending, ht,
        pending?_effect, pending?_setState, own_pending? ht]
      have : (((m.putPending t p).setState t (.woken .sleep true false)).effect (.ready t)).main ≠
          some t := hm
      simp [this, Turn.chores, TaskState.chores, TaskState.control?, TaskState.delay]
  | stop a =>
    have hmain : (m.finish t a).main = m.main := (Mute.finish m t a).main
    refine turned ?_ hmain (fun u hu => ?_) ?_
    · show (m.finish t a).tasks.size = _
      rw [tasks_finish]
      simp
    · exact ⟨(state?_finish a).trans (if_neg fun h => hu h.symm),
        (pending?_finish a).trans (if_neg fun h => hu h.symm)⟩
    · refine chores_eq_zero (s := .ended a) ?_ rfl
      exact (state?_finish a).trans (by rw [if_pos rfl, ht]; rfl)

/-- A free slot is given to a task that waits for one. -/
theorem Tends.grant {k : Nat} (hk : m.state? t = some (.waiting .grant k)) :
    Tends m (m.setState t (.woken .grant true false)) := by
  refine .of_old (by simp) (fun u s hu => ?_) (by simp) (by simp)
  rw [state?_setState, hu]
  split
  · rename_i htu
    rw [← htu, hk] at hu
    cases hu
    exact ⟨_, rfl, .signal (.refl _)⟩
  · exact ⟨s, rfl, .refl s⟩

/-! Errands. -/

theorem size_interrupt (fuel : Nat) (m : Machine) (t : TaskId) :
    (m.interrupt fuel t).tasks.size = m.tasks.size := by
  induction fuel generalizing m t with
  | zero => rfl
  | succ fuel ih =>
    unfold interrupt
    split
    · exact size_setState _
    · rw [ih, size_setState]
    · exact size_setState _
    · exact size_setState _
    · rfl

theorem size_wake (m : Machine) (env : Surroundings) (w : Wait) (s i : Bool) (p : List Pending) :
    (m.wake env t w s i p).1.tasks.size = m.tasks.size := by
  have interrupted (m : Machine) (u : TaskId) : (m.interruptTask u).tasks.size = m.tasks.size :=
    size_interrupt _ m u
  unfold wake wakeFromSettlement removeHandler dropTimer
  cases w with
  | start taker watcher =>
    dsimp only
    split
    · rw [interrupted]
      split
      · rfl
      · exact interrupted _ _
    · split
      · exact interrupted _ _
      · rw [interrupted, interrupted]
  | grant =>
    dsimp only
    split
    · split <;> rfl
    · rfl
  | settlement a handler watcher =>
    have hm : (if (m.effect (.stopTimer t)).hasEnded watcher then m.effect (.stopTimer t)
        else (m.effect (.stopTimer t)).interruptTask watcher).tasks.size = m.tasks.size := by
      split
      · rfl
      · exact interrupted _ _
    dsimp only
    generalize (if (m.effect (.stopTimer t)).hasEnded watcher then m.effect (.stopTimer t)
        else (m.effect (.stopTimer t)).interruptTask watcher) = n at hm ⊢
    split
    · exact hm
    · split
      · exact hm
      · split
        · exact hm
        · exact (interrupted _ _).trans hm
  | grace handler =>
    dsimp only
    split
    · rfl
    · split
      · rfl
      · exact interrupted _ _
  | nap watcher =>
    dsimp only
    split
    · rfl
    · exact interrupted _ _
  | rousing watcher before =>
    dsimp only
    split
    · rfl
    · split <;> rfl
  | _ => rfl

/-- A new watcher has a few moves left. -/
theorem allChores_spawn (hm : m.main ≠ some m.tasks.size) :
    (m.spawn .watch []).1.allChores = m.allChores + 6 := by
  have hsize : (m.spawn .watch []).1.tasks.size = m.tasks.size + 1 := by simp [spawn]
  unfold allChores
  rw [hsize, Finset.sum_range_succ]
  congr 1
  · refine Finset.sum_congr rfl fun u hu => ?_
    have hne : u ≠ m.tasks.size := Nat.ne_of_lt (Finset.mem_range.mp hu)
    refine chores_congr ?_ ?_ rfl
    · rw [state?_spawn, if_neg hne]
    · rw [pending?_spawn, if_neg hne]
  · rw [chores, state?_spawn, if_pos rfl, pending?_spawn, if_pos rfl]
    exact if_neg hm

/-- A step of a task that does not walk leaves less to be done, the watcher included that a handler
makes for a rest. -/
theorem step_chores {roles : List Role} {r : Role} {c : Control} {p : List Pending}
    (h : m.Fitting roles) (w : World) (now : Moment) (hs : roles[t]? = some r) (hr : r ≠ .walker)
    (hc : c.Suits roles r p) (hm : m.main ≠ some m.tasks.size) :
    (m.step (w.surroundings now) t c p).1.allChores +
      (m.step (w.surroundings now) t c p).2.chores < m.allChores + (c.chores + p.length + 1) := by
  obtain ⟨more, ha, -⟩ := step_aside h w now hs hr hc
  have kept {x : StepResult} (hx : m.step (w.surroundings now) t c p = x)
      (hsize : x.1.tasks.size = m.tasks.size) (hlt : x.2.chores < c.chores + p.length + 1) :
      (m.step (w.surroundings now) t c p).1.allChores +
        (m.step (w.surroundings now) t c p).2.chores < m.allChores + (c.chores + p.length + 1) := by
    rw [hx] at ha ⊢
    have := ha.tends.allChores_le ha.silent.mute.main hsize
    omega
  cases c with
  | takeSlot =>
    have hr : r = .taker := by cases r <;> first | rfl | exact absurd rfl hr | exact absurd hc id
    subst hr
    have hp : p = [] := hc
    subst hp
    refine kept rfl ?_ ?_
    · show (m.takeSlot (w.surroundings now) t []).1.tasks.size = _
      unfold takeSlot
      split <;> rfl
    · show (m.takeSlot (w.surroundings now) t []).2.chores < _
      unfold takeSlot
      split
      · exact (by decide : 4 < 5)
      · exact (by decide : 1 < 5)
  | watch =>
    have hr : r = .watcher := by cases r <;> first | rfl | exact absurd rfl hr | exact absurd hc id
    subst hr
    have hp : p = [] := hc
    subst hp
    refine kept rfl ?_ ?_
    · show (m.watch t []).1.tasks.size = _
      unfold watch
      split <;> rfl
    · show (m.watch t []).2.chores < _
      unfold watch
      split
      · exact (by decide : 1 < 5)
      · exact (by decide : 4 < 5)
  | handle call =>
    have hr : r = .handler := by cases r <;> first | rfl | exact absurd rfl hr | exact absurd hc id
    subst hr
    have hp : p = [] := hc
    subst hp
    have answered (b : Answer) (hx : m.step (w.surroundings now) t (.handle call) [] =
        (m, .answer b [])) : _ := kept hx rfl (by decide : 1 < 15)
    have hx : m.step (w.surroundings now) t (.handle call) [] =
      m.handle (w.surroundings now) call [] := rfl
    unfold handle at hx
    split at hx
    · exact answered _ hx
    · rename_i reg hreg
      obtain ⟨b, hb⟩ := now.builtin.handler hreg
      rw [hb] at hx
      dsimp only at hx
      split at hx
      · exact answered _ hx
      · exact answered _ hx
      · unfold rest at hx
        split at hx
        · exact kept hx rfl (by decide : 2 < 15)
        · rw [hx]
          show (m.spawn .watch []).1.allChores + 8 < m.allChores + 15
          rw [allChores_spawn hm]
          omega
  | wake v signalled interrupted =>
    refine kept rfl (size_wake m _ v signalled interrupted p) ?_
    show (m.wake (w.surroundings now) t v signalled interrupted p).2.chores < _
    have answered (a : Answer) : (Turn.answer a p).chores < 1 + p.length + 1 := by
      show 0 + p.length + 1 < _
      omega
    have hw := hc.1
    unfold wake
    cases v with
    | grant =>
      dsimp only
      split <;> exact answered _
    | cancellation => exact answered _
    | nap u =>
      dsimp only
      split
      · exact (answered _).trans (by simp only [Control.chores]; omega)
      · show 2 + (1 + p.length + 1) < 4 + p.length + 1
        omega
    | rousing u before =>
      dsimp only
      split
      · exact answered _
      · split <;> exact answered _
    | _ => cases r <;> first | exact absurd rfl hr | exact absurd hw id
  | answer a =>
    cases p with
    | nil => exact kept rfl rfl (by decide : 0 < 1)
    | cons k q =>
      obtain ⟨rfl, rfl⟩ := hc.of_answer hr
      cases a <;> exact kept rfl rfl (by decide : 1 < 2)
  | _ => cases r <;> first | exact absurd rfl hr | exact absurd hc id

/-- A command, the start of a run apart, makes no tasks. -/
theorem tasks_size_obey (h : m.main ≠ none) (c : Command) : (m.obey c).1.tasks.size = m.tasks.size := by
  have released (m : Machine) (mode : String) : (m.release mode).tasks.size = m.tasks.size :=
    size_signals m.paused _
  cases c with
  | start slotted =>
    obtain ⟨t, ht⟩ := Option.ne_none_iff_exists'.mp h
    show (m.start slotted).tasks.size = _
    unfold start
    rw [ht]
  | pause =>
    show m.pause.1.tasks.size = _
    unfold pause
    split <;> rfl
  | resume =>
    show m.resumeRun.1.tasks.size = _
    unfold resumeRun
    split
    · exact released _ _
    · rfl
  | stepOver =>
    show m.stepOver.1.tasks.size = _
    unfold stepOver
    split
    · exact released _ _
    · rfl
  | cancel reason stamp =>
    have halted (text : String) : (m.halt text).tasks.size = m.tasks.size := by
      refine (size_signals _ _).trans ?_
      show (m.cancelToken (some text)).tasks.size = _
      unfold cancelToken
      split
      · rfl
      · exact size_signals m.watchers _
    show (m.cancel reason stamp).1.tasks.size = _
    obtain ⟨-, he⟩ | ⟨hs, text, ⟨-, he⟩ | ⟨-, hm, he⟩⟩ := cancel_cases m reason stamp
    · rw [he]
    · rw [he]
      exact halted text
    · exact absurd hm h
  | setVar name v frame =>
    obtain he | ⟨layers, s, depth, he⟩ := m.obey_setVar name v frame
    · rw [he]
    · rw [he]
      rfl
  | edit f => rfl

end Machine

namespace Execution

variable {x : Execution} {w : World} {t : TaskId}

/-- How many moves are left to all tasks, and until the walker takes its next step. -/
def chores (x : Execution) : Nat :=
  x.machine.allChores + x.active.elim 0 fun s =>
    if x.machine.main = some s.task then 0 else s.control.chores + s.pending.length + 1

/-- A task that is ready has a move less left once it begins. -/
theorem begin_chores (h : x.allows (.begin t) = true) : (x.begin t).chores < x.chores := by
  simp only [allows, isIdle, Bool.and_eq_true, Option.isNone_iff_eq_none] at h
  obtain ⟨hx, hready⟩ := h
  obtain ⟨k, hk⟩ : ∃ k, x.machine.tasks[t]? = some k := by
    cases hk : x.machine.tasks[t]? with
    | none => simp [Machine.state?, hk] at hready
    | some k => exact ⟨k, rfl⟩
  have hst : x.machine.state? t = some k.state := by simp [Machine.state?, hk]
  have hp : x.machine.pending? t = some k.pending := by simp [Machine.pending?, hk]
  have hlt := Machine.lt_of_state? hst
  have hold : x.chores = x.machine.allChores := by rw [chores, hx]; rfl
  have begun {c : Control} (hc : k.state.control? = some c) (hd : k.state.delay = 1) :
      chores { x with
        machine := x.machine.setState t .running, active := some ⟨t, c, k.pending⟩ } < x.chores := by
    have hother := Machine.allChores_of_other (n := x.machine.setState t .running) hlt (by simp)
      fun u hu => Machine.chores_congr
        ((Machine.state?_setState _).trans (if_neg fun h => hu h.symm))
        (Machine.pending?_setState _) rfl
    have hzero : (x.machine.setState t .running).chores t = 0 :=
      Machine.chores_eq_zero (s := .running)
        ((Machine.state?_setState _).trans (by rw [if_pos rfl, hst]; rfl)) rfl
    have hown : x.machine.chores t = 1 + if x.machine.main = some t then 0
        else c.chores + k.pending.length + 1 := by
      rw [Machine.chores, hst, hp]
      simp only [TaskState.chores, hc, hd, Option.getD_some]
      split <;> rfl
    rw [hold]
    show (x.machine.setState t .running).allChores + (if x.machine.main = some t then 0
      else c.chores + k.pending.length + 1) < _
    omega
  have dismissed (hd : k.state.delay = 1) :
      (x.put (x.machine.finish t .interrupted) none).chores < x.chores := by
    have hother := Machine.allChores_of_other (n := x.machine.finish t .interrupted) hlt
      (by rw [Machine.tasks_finish]; simp) fun u hu => Machine.chores_congr
        ((Machine.state?_finish _).trans (if_neg fun h => hu h.symm))
        ((Machine.pending?_finish _).trans (if_neg fun h => hu h.symm))
        (Machine.Mute.finish x.machine t .interrupted).main
    have hzero : (x.machine.finish t .interrupted).chores t = 0 :=
      Machine.chores_eq_zero (s := .ended .interrupted)
        ((Machine.state?_finish _).trans (by rw [if_pos rfl, hst]; rfl)) rfl
    have hown : 0 < x.machine.chores t := by
      rw [Machine.chores, hst]
      dsimp only
      split
      · omega
      · cases hs : k.state <;> rw [hs] at hd <;>
          simp_all [TaskState.chores, TaskState.control?, TaskState.delay]
    rw [hold]
    show (x.machine.finish t .interrupted).allChores + 0 < _
    omega
  unfold begin Machine.task?
  rw [hk]
  dsimp only
  rw [hst] at hready
  split
  · rename_i c i hs
    split
    · exact dismissed (by rw [hs]; rfl)
    · exact begun (by rw [hs]; rfl) (by rw [hs]; rfl)
  · rename_i v s i hs
    exact begun (by rw [hs]; rfl) (by rw [hs]; rfl)
  · rename_i hf hw
    cases hs : k.state with
    | fresh c i => exact absurd hs (hf c i)
    | woken v s i => exact absurd hs (hw v s i)
    | _ => rw [hs] at hready; cases hready

/-- A step of a task that does not walk leaves less to be done. -/
theorem step_chores (h : x.IsSound) {s : Strand} (hs : x.active = some s)
    (hm : x.machine.main ≠ some s.task) (now : Moment) : (x.step w now).chores < x.chores := by
  obtain ⟨-, roles, hr⟩ := h
  rw [hs] at hr
  obtain ⟨hrun, r, hrole, hsuits, -⟩ := hr.strand rfl
  have hne : r ≠ .walker := by
    rintro rfl
    exact hm (hr.main.mp hrole)
  have hmain : x.machine.main ≠ some x.machine.tasks.size := by
    intro hm
    exact Nat.lt_irrefl _ (hr.fitting.lt (hr.main.mpr hm))
  obtain ⟨more, ha, -⟩ := Machine.step_aside hr.fitting w now hrole hne hsuits
  have hlt := Machine.step_chores hr.fitting w now hrole hne hsuits hmain
  rw [step_eq hs]
  generalize x.machine.step (w.surroundings now) s.task s.control s.pending = q at ha hlt ⊢
  obtain ⟨n, turn⟩ := q
  have hnmain : n.main ≠ some s.task := fun hn => hm (ha.silent.mute.main.symm.trans hn)
  have hturn := Machine.allChores_turn turn (ha.tends.running_iff.mpr hrun) hnmain
  have htmain : (n.turn s.task turn).1.main ≠ some s.task := fun ht =>
    hnmain ((congrArg Machine.main (Machine.turn_core n s.task turn)).symm.trans ht)
  have hold : x.chores = x.machine.allChores + (s.control.chores + s.pending.length + 1) := by
    rw [chores, hs, Option.elim_some, if_neg hm]
  have hnew : (x.put (n.turn s.task turn).1
      ((n.turn s.task turn).2.map fun (c, p) => ⟨s.task, c, p⟩)).chores =
      (n.turn s.task turn).1.allChores +
        ((n.turn s.task turn).2.elim 0 fun (c, p) => c.chores + p.length + 1) := by
    show (n.turn s.task turn).1.allChores + _ = _
    congr 1
    cases (n.turn s.task turn).2 with
    | none => rfl
    | some y => exact if_neg htmain
  dsimp only at hlt
  show chores (x.put _ _) < _
  rw [hold, hnew, hturn]
  exact hlt

/-- A task that is told of what it waits for has a move less left. -/
theorem tell_chores {k : Nat} (h : x.allows (.tell t k) = true) :
    (x.put (x.machine.tell t k) none).chores < x.chores := by
  simp only [allows, isIdle, Bool.and_eq_true, Option.isNone_iff_eq_none] at h
  obtain ⟨⟨hx, -⟩, hw⟩ := h
  split at hw
  · rename_i v j hs
    rw [beq_iff_eq] at hw
    subst hw
    have ht : x.machine.tell t j = x.machine.signal t := by
      unfold Machine.tell
      rw [hs]
      exact if_pos (beq_self_eq_true j)
    have hold : x.chores = x.machine.allChores := by rw [chores, hx]; rfl
    obtain ⟨s, i, hw⟩ : ∃ s i, (x.machine.signal t).state? t = some (.woken v s i) := by
      rw [Machine.state?_signal, if_pos rfl, hs]
      cases v <;> exact ⟨_, _, rfl⟩
    rw [hold, ht]
    exact (Machine.Tends.signals [t] x.machine).allChores_lt (Machine.Silent.signal _ t).mute.main
      Machine.size_signal hs hw
  · cases hw

/-- A task that is given a slot has a move less left. -/
theorem grant_chores (h : x.allows (.grant t) = true) : (x.grant t).chores < x.chores := by
  obtain ⟨k, hk⟩ := allows_grant.mp h
  have hlt := (Machine.Tends.grant hk).allChores_lt rfl (by simp) hk
    (show (x.machine.setState t (.woken .grant true false)).state? t =
      some (.woken .grant true false) by rw [Machine.state?_setState, if_pos rfl, hk]; rfl)
  exact Nat.add_lt_add_right hlt _

/-- A command, the start of a run apart, leaves no more to be done. -/
theorem obey_chores (h : x.machine.main ≠ none) (c : Command) : (x.obey c).chores ≤ x.chores := by
  unfold obey
  split
  · rename_i hi
    have hx := Option.isNone_iff_eq_none.mp hi
    have hold : x.chores = x.machine.allChores := by rw [chores, hx]; rfl
    obtain ⟨ht, hm⟩ := Machine.obey_tends x.machine (c := c) fun hm => absurd hm h
    rw [hold]
    exact ht.allChores_le hm (Machine.tasks_size_obey h c)
  · exact Nat.le_refl _

end Execution

end Workflow
