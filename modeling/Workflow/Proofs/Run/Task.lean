import Workflow.Proofs.Run.Update
/-!
What the operations on the tasks of a run do to each single task: to its state, to the work that
waits in it, and to those who are told of its end.
-/

namespace Workflow

namespace TaskState

/-- The state of a task after it has been woken. -/
def signalled : TaskState → TaskState
  | .waiting (.removal h o i) _ => .woken (.removal h o i) true i
  | .waiting w _ => .woken w true false
  | s => s

/-- The state of a task after it has been cancelled, unless that is handed on. -/
def interrupted : TaskState → TaskState
  | .fresh c _ => .fresh c true
  | .waiting w _ => .woken w false true
  | .woken w s _ => .woken w s true
  | s => s

/-- Whether the task hands its own cancellation on to another one. -/
def HandsOn : TaskState → Prop
  | .waiting (.removal _ _ _) _ => True
  | _ => False

@[simp] theorem signalled_signalled (s : TaskState) : s.signalled.signalled = s.signalled := by
  rcases s with _ | _ | ⟨_ | _ | _ | _ | _ | _ | _ | _ | _ | _, _⟩ | _ | _ <;> rfl

/-- A state comes of another one by signals and cancellations. -/
inductive Nudges : TaskState → TaskState → Prop
  | refl (s : TaskState) : Nudges s s
  | signal {s s' : TaskState} (h : Nudges s s') : Nudges s s'.signalled
  | interrupt {s s' : TaskState} (h : Nudges s s') : Nudges s s'.interrupted

namespace Nudges

variable {s s' s'' : TaskState}

theorem trans (h : Nudges s s') (k : Nudges s' s'') : Nudges s s'' := by
  induction k with
  | refl => exact h
  | signal _ ih => exact ih.signal
  | interrupt _ ih => exact ih.interrupt

theorem eq_of_waiting {w : Wait} {n : Nat} (h : Nudges s s') (hs : s' = .waiting w n) :
    s = .waiting w n := by
  induction h with
  | refl => exact hs
  | signal _ ih =>
    refine ih ?_
    rename_i s' _
    rcases s' with _ | _ | ⟨_ | _ | _ | _ | _ | _ | _ | _ | _ | _, _⟩ | _ | _ <;> cases hs
  | interrupt _ ih =>
    refine ih ?_
    rename_i s' _
    cases s' <;> cases hs

theorem ended_iff {a : Answer} (h : Nudges s s') : s' = .ended a ↔ s = .ended a := by
  induction h with
  | refl => exact Iff.rfl
  | signal _ ih =>
    rw [← ih]
    rename_i s' _
    rcases s' with _ | _ | ⟨_ | _ | _ | _ | _ | _ | _ | _ | _ | _, _⟩ | _ | _ <;>
      simp [signalled]
  | interrupt _ ih =>
    rw [← ih]
    rename_i s' _
    cases s' <;> simp [interrupted]

theorem running_iff (h : Nudges s s') : s' = .running ↔ s = .running := by
  induction h with
  | refl => exact Iff.rfl
  | signal _ ih =>
    rw [← ih]
    rename_i s' _
    rcases s' with _ | _ | ⟨_ | _ | _ | _ | _ | _ | _ | _ | _ | _, _⟩ | _ | _ <;>
      simp [signalled]
  | interrupt _ ih =>
    rw [← ih]
    rename_i s' _
    cases s' <;> simp [interrupted]

end Nudges

end TaskState

namespace Machine

variable {m : Machine} {t u : TaskId}

/-- The work that waits in a task. -/
def pending? (m : Machine) (t : TaskId) : Option (List Pending) :=
  m.tasks[t]?.map (·.pending)

/-- Who is to be told of the end of a task. -/
def observers? (m : Machine) (t : TaskId) : Option (List (TaskId × Nat)) :=
  m.tasks[t]?.map (·.observers)

theorem state?_eq_none : m.state? t = none ↔ m.tasks.size ≤ t := by
  simp [state?]

theorem lt_of_state? {s : TaskState} (h : m.state? t = some s) : t < m.tasks.size := by
  refine Nat.lt_of_not_le fun hn => ?_
  rw [state?_eq_none.mpr hn] at h
  cases h

theorem exists_state? (h : t < m.tasks.size) : ∃ s, m.state? t = some s :=
  Option.ne_none_iff_exists'.mp fun hn => absurd h (Nat.not_lt.mpr (state?_eq_none.mp hn))

section effect

variable (m) (e : Effect)

@[simp] theorem tasks_effect : (m.effect e).tasks = m.tasks := rfl
@[simp] theorem state?_effect : (m.effect e).state? u = m.state? u := rfl
@[simp] theorem pending?_effect : (m.effect e).pending? u = m.pending? u := rfl
@[simp] theorem observers?_effect : (m.effect e).observers? u = m.observers? u := rfl

end effect

@[simp] theorem tasks_modifyTask (f : Task → Task) :
    (m.modifyTask t f).tasks = m.tasks.modify t f := rfl

theorem tasks_setState (s : TaskState) :
    (m.setState t s).tasks = m.tasks.modify t ({ · with state := s }) := rfl

theorem state?_setState (s : TaskState) :
    (m.setState t s).state? u = if t = u then (m.state? u).map fun _ => s else m.state? u := by
  simp only [state?, tasks_setState, Array.getElem?_modify]
  split <;> simp [Function.comp_def]

@[simp] theorem pending?_setState (s : TaskState) :
    (m.setState t s).pending? u = m.pending? u := by
  simp only [pending?, tasks_setState, Array.getElem?_modify]
  split <;> simp [Function.comp_def]

@[simp] theorem observers?_setState (s : TaskState) :
    (m.setState t s).observers? u = m.observers? u := by
  simp only [observers?, tasks_setState, Array.getElem?_modify]
  split <;> simp [Function.comp_def]

@[simp] theorem size_setState (s : TaskState) : (m.setState t s).tasks.size = m.tasks.size := by
  simp [tasks_setState]

/-! Waking and cancelling. -/

theorem state?_signal :
    (m.signal t).state? u = if t = u then (m.state? u).map TaskState.signalled else m.state? u := by
  by_cases htu : t = u
  · subst htu
    rw [if_pos rfl]
    cases hs : m.state? t with
    | none => simp [signal, hs]
    | some s =>
      rcases s with _ | _ | ⟨_ | _ | _ | _ | _ | _ | _ | _ | _ | _, _⟩ | _ | _ <;>
        simp [signal, hs, state?_setState, TaskState.signalled]
  · rw [if_neg htu]
    unfold signal
    split <;> simp [state?_setState, htu]

@[simp] theorem pending?_signal : (m.signal t).pending? u = m.pending? u := by
  unfold signal
  split <;> simp

@[simp] theorem observers?_signal : (m.signal t).observers? u = m.observers? u := by
  unfold signal
  split <;> simp

@[simp] theorem size_signal : (m.signal t).tasks.size = m.tasks.size := by
  unfold signal
  split <;> simp

theorem state?_signals (ts : List TaskId) (m : Machine) :
    (ts.foldl signal m).state? u =
      if u ∈ ts then (m.state? u).map TaskState.signalled else m.state? u := by
  induction ts generalizing m with
  | nil => rfl
  | cons t ts ih =>
    rw [List.foldl_cons, ih, state?_signal]
    by_cases ht : t = u
    · subst ht
      by_cases hm : t ∈ ts <;> simp [hm, Function.comp_def]
    · have hu : u ≠ t := fun h => ht h.symm
      simp [ht, hu]

theorem pending?_signals (ts : List TaskId) (m : Machine) :
    (ts.foldl signal m).pending? u = m.pending? u := by
  induction ts generalizing m with
  | nil => rfl
  | cons t ts ih => rw [List.foldl_cons, ih, pending?_signal]

theorem observers?_signals (ts : List TaskId) (m : Machine) :
    (ts.foldl signal m).observers? u = m.observers? u := by
  induction ts generalizing m with
  | nil => rfl
  | cons t ts ih => rw [List.foldl_cons, ih, observers?_signal]

theorem size_signals (ts : List TaskId) (m : Machine) :
    (ts.foldl signal m).tasks.size = m.tasks.size := by
  induction ts generalizing m with
  | nil => rfl
  | cons t ts ih => rw [List.foldl_cons, ih, size_signal]

theorem interruptTask_eq (h : ∀ s, m.state? t = some s → ¬ s.HandsOn) :
    m.interruptTask t = match m.state? t with
      | some (.fresh c _) => m.setState t (.fresh c true)
      | some (.waiting w _) => (m.setState t (.woken w false true)).effect (.ready t)
      | some (.woken w s _) => m.setState t (.woken w s true)
      | _ => m := by
  unfold interruptTask interrupt
  cases hs : m.state? t with
  | none => rfl
  | some s =>
    have hn := h s hs
    rcases s with _ | _ | ⟨_ | _ | _ | _ | _ | _ | _ | _ | _ | _, _⟩ | _ | _ <;>
      first | rfl | exact absurd trivial hn

theorem state?_interruptTask (h : ∀ s, m.state? t = some s → ¬ s.HandsOn) :
    (m.interruptTask t).state? u =
      if t = u then (m.state? u).map TaskState.interrupted else m.state? u := by
  rw [interruptTask_eq h]
  by_cases htu : t = u
  · subst htu
    rw [if_pos rfl]
    cases hs : m.state? t with
    | none => simp [hs]
    | some s => cases s <;> simp [hs, state?_setState, TaskState.interrupted]
  · rw [if_neg htu]
    split <;> simp [state?_setState, htu]

theorem pending?_interruptTask (h : ∀ s, m.state? t = some s → ¬ s.HandsOn) :
    (m.interruptTask t).pending? u = m.pending? u := by
  rw [interruptTask_eq h]
  split <;> simp

theorem observers?_interruptTask (h : ∀ s, m.state? t = some s → ¬ s.HandsOn) :
    (m.interruptTask t).observers? u = m.observers? u := by
  rw [interruptTask_eq h]
  split <;> simp

theorem size_interruptTask (h : ∀ s, m.state? t = some s → ¬ s.HandsOn) :
    (m.interruptTask t).tasks.size = m.tasks.size := by
  rw [interruptTask_eq h]
  split <;> simp

/-! Making, suspending and ending tasks. -/

theorem state?_spawn (c : Control) (p : List Pending) :
    (m.spawn c p).1.state? u =
      if u = m.tasks.size then some (.fresh c false) else m.state? u := by
  simp only [spawn, state?, tasks_effect, Array.getElem?_push]
  split <;> rfl

theorem pending?_spawn (c : Control) (p : List Pending) :
    (m.spawn c p).1.pending? u = if u = m.tasks.size then some p else m.pending? u := by
  simp only [spawn, pending?, tasks_effect, Array.getElem?_push]
  split <;> rfl

theorem observers?_spawn (c : Control) (p : List Pending) :
    (m.spawn c p).1.observers? u = if u = m.tasks.size then some [] else m.observers? u := by
  simp only [spawn, observers?, tasks_effect, Array.getElem?_push]
  split <;> rfl

/-- Sees to it that a task is told of the end of another one. -/
def enlist (t : TaskId) (ticket : Nat) (m : Machine) (o : TaskId) : Machine :=
  if m.hasEnded o then m.effect (.tell t ticket)
  else m.modifyTask o fun k => { k with observers := k.observers ++ [(t, ticket)] }

theorem suspend_eq (w : Wait) (on : List TaskId) :
    m.suspend t w on = (on.foldl (enlist t m.nextTicket)
      (({ m with nextTicket := m.nextTicket + 1 } : Machine).setState t (.waiting w m.nextTicket)),
      m.nextTicket) := rfl

@[simp] theorem state?_enlist (ticket : Nat) (o : TaskId) :
    (enlist t ticket m o).state? u = m.state? u := by
  unfold enlist
  split
  · rfl
  · simp only [state?, tasks_modifyTask, Array.getElem?_modify]
    split <;> simp [Function.comp_def]

@[simp] theorem pending?_enlist (ticket : Nat) (o : TaskId) :
    (enlist t ticket m o).pending? u = m.pending? u := by
  unfold enlist
  split
  · rfl
  · simp only [pending?, tasks_modifyTask, Array.getElem?_modify]
    split <;> simp [Function.comp_def]

theorem state?_enlists (ticket : Nat) (on : List TaskId) (m : Machine) :
    (on.foldl (enlist t ticket) m).state? u = m.state? u := by
  induction on generalizing m with
  | nil => rfl
  | cons o on ih => rw [List.foldl_cons, ih, state?_enlist]

theorem pending?_enlists (ticket : Nat) (on : List TaskId) (m : Machine) :
    (on.foldl (enlist t ticket) m).pending? u = m.pending? u := by
  induction on generalizing m with
  | nil => rfl
  | cons o on ih => rw [List.foldl_cons, ih, pending?_enlist]

theorem state?_suspend (w : Wait) (on : List TaskId) :
    (m.suspend t w on).1.state? u =
      if t = u then (m.state? u).map fun _ => .waiting w m.nextTicket else m.state? u := by
  rw [suspend_eq, state?_enlists, state?_setState]
  rfl

theorem pending?_suspend (w : Wait) (on : List TaskId) :
    (m.suspend t w on).1.pending? u = m.pending? u := by
  rw [suspend_eq, pending?_enlists, pending?_setState]
  rfl

theorem size_enlists (ticket : Nat) (on : List TaskId) (m : Machine) :
    (on.foldl (enlist t ticket) m).tasks.size = m.tasks.size := by
  induction on generalizing m with
  | nil => rfl
  | cons o on ih =>
    rw [List.foldl_cons, ih, enlist]
    split <;> simp

theorem size_suspend (w : Wait) (on : List TaskId) :
    (m.suspend t w on).1.tasks.size = m.tasks.size := by
  rw [suspend_eq, size_enlists, size_setState]

/-- The machine after all who wait for the end of a task have been told. -/
theorem finish_eq (a : Answer) :
    m.finish t a = (((m.observers? t).getD []).foldl (fun m (o, ticket) => m.effect (.tell o ticket))
      (m.modifyTask t fun _ => { state := .ended a })).effect (.ended t) := rfl

theorem tasks_tells (os : List (TaskId × Nat)) (m : Machine) :
    (os.foldl (fun m (o, ticket) => m.effect (.tell o ticket)) m).tasks = m.tasks := by
  induction os generalizing m with
  | nil => rfl
  | cons o os ih => rw [List.foldl_cons, ih, tasks_effect]

theorem tasks_finish (a : Answer) :
    (m.finish t a).tasks = m.tasks.modify t fun _ => { state := .ended a } := by
  rw [finish_eq, tasks_effect, tasks_tells, tasks_modifyTask]

theorem state?_finish (a : Answer) :
    (m.finish t a).state? u = if t = u then (m.state? u).map fun _ => .ended a else m.state? u := by
  simp only [state?, tasks_finish, Array.getElem?_modify]
  split <;> simp [Function.comp_def]

theorem pending?_finish (a : Answer) :
    (m.finish t a).pending? u = if t = u then (m.pending? u).map fun _ => [] else m.pending? u := by
  simp only [pending?, tasks_finish, Array.getElem?_modify]
  split <;> simp [Function.comp_def]

/-! What steps do to the tasks that do not take them. -/

/-- The tasks have at most been signalled or cancelled, and some may be new. -/
structure Tends (m n : Machine) : Prop where
  size : m.tasks.size ≤ n.tasks.size
  old : ∀ {t s}, m.state? t = some s → ∃ s', n.state? t = some s' ∧ s.Nudges s'
  new : ∀ {t s}, m.tasks.size ≤ t → n.state? t = some s → ∃ c, (TaskState.fresh c false).Nudges s
  pending : ∀ {t}, t < m.tasks.size → n.pending? t = m.pending? t
  observers : ∀ {t}, t < m.tasks.size → n.observers? t = m.observers? t
  blank : ∀ {t}, m.tasks.size ≤ t →
    (n.pending? t).getD [] = [] ∧ (n.observers? t).getD [] = []

namespace Tends

variable {n o : Machine}

/-- Tasks that are all kept but for signals and cancellations. -/
theorem of_old (hn : n.tasks.size = m.tasks.size)
    (hs : ∀ t s, m.state? t = some s → ∃ s', n.state? t = some s' ∧ s.Nudges s')
    (hp : ∀ t, n.pending? t = m.pending? t) (ho : ∀ t, n.observers? t = m.observers? t) :
    Tends m n where
  size := Nat.le_of_eq hn.symm
  old := hs _ _
  new ht hs := absurd (lt_of_state? hs) (Nat.not_lt.mpr (hn ▸ ht))
  pending _ := hp _
  observers _ := ho _
  blank ht := by
    have hnone : m.tasks[_]? = none := Array.getElem?_eq_none ht
    rw [hp, ho]
    simp [pending?, observers?, hnone]

theorem of_tasks (h : n.tasks = m.tasks) : Tends m n :=
  of_old (by rw [h]) (fun t s hs => ⟨s, by simpa [state?, h] using hs, .refl s⟩)
    (fun t => by simp [pending?, h]) (fun t => by simp [observers?, h])

theorem refl (m : Machine) : Tends m m :=
  of_tasks rfl

theorem trans (h : Tends m n) (k : Tends n o) : Tends m o where
  size := Nat.le_trans h.size k.size
  old hs := by
    obtain ⟨s', hs', hn⟩ := h.old hs
    obtain ⟨s'', hs'', hk⟩ := k.old hs'
    exact ⟨s'', hs'', hn.trans hk⟩
  new {t s} ht hs := by
    by_cases hlt : t < n.tasks.size
    · obtain ⟨s', hs'⟩ := exists_state? hlt
      obtain ⟨c, hc⟩ := h.new ht hs'
      obtain ⟨s'', hs'', hk⟩ := k.old hs'
      rw [hs] at hs''
      cases hs''
      exact ⟨c, hc.trans hk⟩
    · exact k.new (Nat.le_of_not_lt hlt) hs
  pending ht := (k.pending (Nat.lt_of_lt_of_le ht h.size)).trans (h.pending ht)
  observers ht := (k.observers (Nat.lt_of_lt_of_le ht h.size)).trans (h.observers ht)
  blank {t} ht := by
    by_cases hlt : t < n.tasks.size
    · rw [k.pending hlt, k.observers hlt]
      exact h.blank ht
    · exact k.blank (Nat.le_of_not_lt hlt)

theorem effect (m : Machine) (e : Effect) : Tends m (m.effect e) :=
  of_tasks rfl

theorem spawn (m : Machine) (c : Control) : Tends m (m.spawn c []).1 where
  size := by simp [Machine.spawn]
  old {t s} hs := by
    rw [state?_spawn, if_neg (Nat.ne_of_lt (lt_of_state? hs))]
    exact ⟨s, hs, .refl s⟩
  new {t s} ht hs := by
    rw [state?_spawn] at hs
    split at hs
    · cases hs
      exact ⟨c, .refl _⟩
    · exact absurd (lt_of_state? hs) (Nat.not_lt.mpr ht)
  pending ht := by rw [pending?_spawn, if_neg (Nat.ne_of_lt ht)]
  observers ht := by rw [observers?_spawn, if_neg (Nat.ne_of_lt ht)]
  blank {t} ht := by
    rw [pending?_spawn, observers?_spawn]
    split
    · exact ⟨rfl, rfl⟩
    · simp [pending?, observers?, Array.getElem?_eq_none ht]

theorem signals (ts : List TaskId) (m : Machine) : Tends m (ts.foldl signal m) := by
  refine of_old (size_signals ts m) (fun t s hs => ?_) (fun _ => pending?_signals ts m)
    (fun _ => observers?_signals ts m)
  rw [state?_signals, hs]
  split
  · exact ⟨_, rfl, .signal (.refl s)⟩
  · exact ⟨s, rfl, .refl s⟩

theorem tell (m : Machine) (t : TaskId) (ticket : Nat) : Tends m (m.tell t ticket) := by
  unfold Machine.tell
  split
  · split
    · exact signals [t] m
    · exact refl m
  · exact refl m

theorem endPause (m : Machine) : Tends m m.endPause :=
  trans (n := { m with paused := [] }) (of_tasks rfl) (signals m.paused _)

theorem cancelToken (m : Machine) (reason : Option String) : Tends m (m.cancelToken reason) := by
  unfold Machine.cancelToken
  split
  · exact refl m
  · exact trans (n := { m with token := m.token.cancel reason, watchers := [] }) (of_tasks rfl)
      (signals m.watchers _)

theorem interruptTask (h : ∀ s, m.state? t = some s → ¬ s.HandsOn) :
    Tends m (m.interruptTask t) := by
  refine of_old (size_interruptTask h) (fun u s hs => ?_) (fun _ => pending?_interruptTask h)
    (fun _ => observers?_interruptTask h)
  rw [state?_interruptTask h, hs]
  split
  · exact ⟨_, rfl, .interrupt (.refl s)⟩
  · exact ⟨s, rfl, .refl s⟩

end Tends

end Machine

namespace Execution

/-- What becomes of a run in which a task begins its steps. -/
inductive Begins (x : Execution) (t : TaskId) : Execution → Prop
  /-- The task is not ready. -/
  | unready : Begins x t x
  /-- The task has been interrupted before it began. -/
  | dismissed {c : Control} (hs : x.machine.state? t = some (.fresh c true)) :
    Begins x t (x.put (x.machine.finish t .interrupted) none)
  | fresh {c : Control} {p : List Pending} (hs : x.machine.state? t = some (.fresh c false))
      (hp : x.machine.pending? t = some p) :
    Begins x t { x with machine := x.machine.setState t .running, active := some ⟨t, c, p⟩ }
  | woken {w : Wait} {signalled interrupted : Bool} {p : List Pending}
      (hs : x.machine.state? t = some (.woken w signalled interrupted))
      (hp : x.machine.pending? t = some p) :
    Begins x t { x with
      machine := x.machine.setState t .running, active := some ⟨t, .wake w signalled interrupted, p⟩ }

theorem begins (x : Execution) (t : TaskId) : x.Begins t (x.begin t) := by
  unfold begin
  dsimp only
  split
  · exact .unready
  · rename_i k hk
    have hs : x.machine.state? t = some k.state := congrArg (Option.map Task.state) hk
    have hp : x.machine.pending? t = some k.pending := congrArg (Option.map Task.pending) hk
    split
    · rename_i c i hc
      rw [hc] at hs
      split
      · rename_i hi
        exact .dismissed (hi ▸ hs)
      · rename_i hi
        exact .fresh (Bool.eq_false_iff.mpr hi ▸ hs) hp
    · rename_i w s i hc
      exact .woken (hc ▸ hs) hp
    · exact .unready

end Execution

end Workflow
