import Workflow.Proofs.Run.Happening
import Workflow.Proofs.Run.Upholding
/-!
How a single task of a run gets on, whatever the surroundings are. Only its own steps take it on: what else
happens leaves its work alone, and what it does next but for how a wait is over.
-/

namespace Workflow

/-- What is done next, apart from how a wait is over. -/
def Control.aim : Control → Control
  | .wake (.removal h o _) _ _ => .wake (.removal h o false) false false
  | .wake w _ _ => .wake w false false
  | c => c

namespace Control

variable {c d : Control}

/-- Only waits can be over in different ways. -/
theorem eq_of_aim (h : d.aim = c.aim) (hc : ∀ w s i, c ≠ .wake w s i) : d = c := by
  have kept (c : Control) (hc : ∀ w s i, c ≠ .wake w s i) : c.aim = c := by
    cases c with
    | wake w s i => exact absurd rfl (hc w s i)
    | _ => rfl
  rw [kept c hc] at h
  cases d with
  | wake w s i =>
    cases w <;> exact absurd h.symm (hc _ _ _)
  | _ => exact h

theorem eq_answer {b : Answer} (h : d.aim = (answer b).aim) : d = answer b :=
  eq_of_aim h fun _ _ _ h => Control.noConfusion h

end Control

/-- What a task is going to do after the wait that it is in. -/
def TaskState.aim? : TaskState → Option Control
  | .waiting w _ => some (Control.wake w false false).aim
  | .woken w s i => some (Control.wake w s i).aim
  | _ => none

theorem TaskState.Shifts.aim? {s s' : TaskState} (h : s.Shifts s') : s'.aim? = s.aim? := by
  induction h with
  | refl => rfl
  | @signal s' _ ih =>
    rw [← ih]
    rcases s' with _ | _ | ⟨_ | _ | _ | _ | _ | _ | _ | _ | _ | _, _⟩ | _ | _ <;> rfl
  | @interrupt s' _ ih =>
    rw [← ih]
    rcases s' with _ | _ | ⟨_ | _ | _ | _ | _ | _ | _ | _ | _ | _, _⟩ |
      ⟨_ | _ | _ | _ | _ | _ | _ | _ | _ | _, _, _⟩ | _ <;> rfl
  | handOn _ ih => exact ih

namespace Machine

variable {m n : Machine} {t u : TaskId} {c : Control} {p : List Pending}

/-- A task waits, or has been woken, with some work. -/
structure Rests (m : Machine) (t : TaskId) (c : Control) (p : List Pending) : Prop where
  state : (m.state? t).bind TaskState.aim? = some c.aim
  pending : m.pending? t = some p

namespace Rests

theorem upholds (h : m.Rests t c p) (k : Upholds m n) : n.Rests t c p := by
  obtain ⟨s, hs, ha⟩ := Option.bind_eq_some_iff.mp h.state
  obtain ⟨s', hs', hk⟩ := k.old hs
  refine ⟨?_, (k.pending (lt_of_state? hs)).trans h.pending⟩
  rw [hs', Option.bind_some, hk.aim?, ha]

theorem congr (h : m.Rests t c p) (hs : n.state? t = m.state? t) (hp : n.pending? t = m.pending? t) :
    n.Rests t c p :=
  ⟨hs ▸ h.state, hp ▸ h.pending⟩

theorem turn_other (h : m.Rests t c p) (x : Turn) (hne : u ≠ t) : (m.turn u x).1.Rests t c p :=
  h.congr (state?_turn_other x hne) (pending?_turn_other x hne)

/-- A task that does not go on at once rests. -/
theorem of_turn {x : Turn} (ht : m.state? t = some .running) (hx : ∀ d q, x ≠ .go d q)
    (hp : x.post = .doing c p) : (m.turn t x).1.Rests t c p := by
  cases x with
  | go d q => exact absurd rfl (hx d q)
  | wait w on limit q =>
    cases hp
    have he : (m.turn t (.wait w on limit p)).1 = (m.putPending t p).lull t w on limit := by
      cases limit <;> rfl
    rw [he]
    refine ⟨?_, ?_⟩
    · rw [state?_lull, if_pos rfl, state?_putPending, ht]
      rfl
    · rw [pending?_lull, own_pending? ht]
  | pass q =>
    cases hp
    have he : (m.turn t (.pass p)).1 =
        ((m.putPending t p).setState t (.woken .sleep true false)).effect (.ready t) :=
      congrArg (·.effect (.ready t)) (modifyTask_eq m t p _)
    rw [he]
    refine ⟨?_, ?_⟩
    · rw [state?_effect, state?_setState, if_pos rfl, state?_putPending, ht]
      rfl
    · rw [pending?_effect, pending?_setState, own_pending? ht]
  | stop a => cases hp

end Rests

end Machine

namespace Execution

variable {x y : Execution} {t u : TaskId} {c d : Control} {p q : List Pending} {s : Strand}

/-- Where a task is: in the middle of its steps, or in a wait or after one. -/
inductive IsAt (x : Execution) (t : TaskId) (c : Control) (p : List Pending) : Prop
  | active (hs : x.active = some ⟨t, c, p⟩) (ht : x.machine.state? t = some .running)
  | rests (hs : ∀ s, x.active = some s → s.task ≠ t) (ht : x.machine.Rests t c p)

/-- A task rests if no task is in the middle of its steps. -/
theorem IsAt.idle (hx : x.active = none) (ht : x.machine.Rests t c p) : x.IsAt t c p :=
  .rests (fun s hs => by rw [hx] at hs; cases hs) ht

/-- What a task takes a step from, if it is a step of this task that happens. -/
def stride? (x : Execution) (t : TaskId) : Happening → Option Strand
  | .step _ => x.active.filter (·.task == t)
  | _ => none

/-- A task goes on as its step said. -/
theorem IsAt.stepIn {env : Surroundings} (hs : x.active = some ⟨t, c, p⟩)
    (ht : x.machine.state? t = some .running)
    (hd : (x.machine.step env t c p).2.post = .doing d q) : (x.stepIn env).IsAt t d q := by
  have hr := Machine.step_running _ env _ p ht c
  rw [stepIn_eq hs]
  dsimp only
  generalize x.machine.step env t c p = r at hd hr ⊢
  obtain ⟨n, turn⟩ := r
  have resting (hgo : ∀ e q, turn ≠ .go e q) :
      (x.put (n.turn t turn).1 none).IsAt t d q :=
    .idle rfl ((Machine.Rests.of_turn hr hgo hd).congr rfl rfl)
  cases turn with
  | go e q' =>
    cases hd
    exact .active rfl hr
  | wait w on limit q' =>
    have hn : (n.turn t (.wait w on limit q')).2 = none := rfl
    rw [hn]
    exact resting (by simp)
  | pass q' => exact resting (by simp)
  | stop a => cases hd

/-- A step of another task leaves a task where it is. -/
theorem IsAt.stepIn_other {env : Surroundings} (h : x.IsAt t c p) (hs : ∀ s, x.active = some s → s.task ≠ t) :
    (x.stepIn env).IsAt t c p := by
  cases h with
  | active ha => exact absurd rfl (hs _ ha)
  | rests _ ht =>
    cases hx : x.active with
    | none =>
      unfold Execution.stepIn
      rw [hx]
      exact .rests hs ht
    | some s =>
      have hne := hs s hx
      rw [stepIn_eq hx]
      refine .rests (fun s' hs' => ?_) ?_
      · obtain ⟨z, -, rfl⟩ := Option.map_eq_some_iff.mp hs'
        exact hne
      · exact ((ht.upholds (Machine.step_upholds _ env s.task s.pending s.control)).turn_other _ hne).congr
          rfl rfl

/-- What is done while no task is in the middle of its steps leaves a task where it is. -/
theorem IsAt.put {n : Machine} (h : x.IsAt t c p) (hi : x.isIdle = true)
    (hn : x.machine.Rests t c p → n.Rests t c p) : (x.put n none).IsAt t c p := by
  have hi : x.active = none := by simpa [isIdle] using hi
  cases h with
  | active hs => rw [hi] at hs; cases hs
  | rests _ ht => exact .idle rfl ((hn ht).congr rfl rfl)

theorem IsAt.begin (h : x.IsAt t c p) (ha : x.allows (.begin u) = true) :
    ∃ d, d.aim = c.aim ∧ (x.begin u).IsAt t d p := by
  simp only [allows, Bool.and_eq_true] at ha
  have hi : x.active = none := by simpa [isIdle] using ha.1
  have ht : x.machine.Rests t c p := by
    cases h with
    | active hs => rw [hi] at hs; cases hs
    | rests _ ht => exact ht
  have aimed {s : TaskState} (hs : x.machine.state? u = some s) (hut : u = t) : s.aim? = some c.aim := by
    have h := ht.state
    rwa [← hut, hs] at h
  have go {s : TaskState} {e : Control} {q : List Pending} (hs : x.machine.state? u = some s)
      (hq : x.machine.pending? u = some q) (he : u = t → e.aim = c.aim) : ∃ d, d.aim = c.aim ∧
        IsAt { x with machine := x.machine.setState u .running, active := some ⟨u, e, q⟩ } t d p := by
    by_cases hne : u = t
    · subst hne
      cases hq.symm.trans ht.pending
      refine ⟨e, he rfl, .active rfl ?_⟩
      rw [Machine.state?_setState, if_pos rfl, hs]
      rfl
    · refine ⟨c, rfl, .rests (by rintro _ ⟨⟩; exact hne) (ht.congr ?_ (Machine.pending?_setState _))⟩
      rw [Machine.state?_setState, if_neg hne]
  have hb := x.begins u
  generalize x.begin u = y at hb ⊢
  cases hb with
  | unready => exact ⟨c, rfl, h⟩
  | dismissed hs =>
    have hne : u ≠ t := fun hut => by cases aimed hs hut
    exact ⟨c, rfl, .idle rfl (ht.congr ((Machine.state?_finish _).trans (if_neg hne))
      ((Machine.pending?_finish _).trans (if_neg hne)))⟩
  | fresh hs hq => exact go hs hq fun hut => by cases aimed hs hut
  | woken hs hq => exact go hs hq fun hut => Option.some.inj (aimed hs hut)

theorem IsAt.grant (h : x.IsAt t c p) (ha : x.allows (.grant u) = true) : (x.grant u).IsAt t c p := by
  obtain ⟨n, hu⟩ := allows_grant.mp ha
  cases h with
  | active hs ht =>
    refine .active hs ((Machine.state?_setState _).trans ?_)
    rw [if_neg (by rintro rfl; rw [hu] at ht; cases ht), ht]
  | rests hs ht =>
    refine .rests hs ⟨?_, (Machine.pending?_setState _).trans ht.pending⟩
    show ((x.machine.setState u (.woken .grant true false)).state? t).bind _ = _
    rw [Machine.state?_setState]
    split
    · rename_i hut
      subst hut
      have hstate := ht.state
      rw [hu] at hstate ⊢
      exact hstate
    · exact ht.state

/-- A command leaves a task where it is. -/
theorem IsAt.command (h : x.IsAt t c p) (hi : x.isIdle = true) (k : Command) :
    (x.put (x.machine.obey k).1 none).IsAt t c p := by
  cases k with
  | start s => exact h.put hi fun ht => (ht.upholds (Machine.start_upholds x.machine s)).congr rfl rfl
  | _ => exact h.put hi (·.upholds (Machine.obey_abides x.machine (by simp)).toUpholds)

/-- Whatever happens to a run, a task stays where it is, unless it is the task that takes a step. -/
theorem IsAt.stays (h : x.IsAt t c p) (a : Happening) :
    (x.stride? t a = none ∧ ∃ d, d.aim = c.aim ∧ (x.meet a).IsAt t d p) ∨
    ∃ env, a = .step env ∧ x.active = some ⟨t, c, p⟩ ∧ x.machine.state? t = some .running := by
  have hu := x.undergoes a
  generalize x.meet a = y at hu ⊢
  cases hu with
  | refused ha =>
    refine .inl ⟨?_, c, rfl, h⟩
    cases a with
    | step env => exact absurd rfl (ha env)
    | _ => rfl
  | begin ha => exact .inl ⟨rfl, h.begin ha⟩
  | step env =>
    by_cases hs : ∃ s, x.active = some s ∧ s.task = t
    · obtain ⟨s, hs, rfl⟩ := hs
      cases h with
      | active ha ht => exact .inr ⟨env, rfl, ha, ht⟩
      | rests hn => exact absurd rfl (hn s hs)
    · have hs : ∀ s, x.active = some s → s.task ≠ t := fun s hx ht => hs ⟨s, hx, ht⟩
      refine .inl ⟨?_, c, rfl, h.stepIn_other hs⟩
      simpa [stride?, Option.filter_eq_none_iff] using hs
  | tell hi => exact .inl ⟨rfl, c, rfl, h.put hi (·.upholds (.tell _ _ _))⟩
  | grant ha => exact .inl ⟨rfl, c, rfl, h.grant ha⟩
  | @command k hi => exact .inl ⟨rfl, c, rfl, h.command hi k⟩
  | interrupt hi =>
    exact .inl ⟨rfl, c, rfl, h.put hi (·.upholds (Machine.interruptMain_abides _).toUpholds)⟩

/-- Whatever happens to a run, a task takes its own step or stays where it is. -/
theorem IsAt.meet (h : x.IsAt t c p) (a : Happening) :
    (x.stride? t a = none ∧ ∃ d, d.aim = c.aim ∧ (x.meet a).IsAt t d p) ∨
    ∃ env, x.stride? t a = some ⟨t, c, p⟩ ∧ ∀ d q, (x.machine.step env t c p).2.post = .doing d q →
      (x.meet a).IsAt t d q := by
  obtain h | ⟨env, rfl, ha, ht⟩ := h.stays a
  · exact .inl h
  · exact .inr ⟨env, by simp [stride?, ha], fun d q hd => .stepIn ha ht hd⟩

/-- The task in the middle of its steps is running. -/
def IsManned (x : Execution) : Prop :=
  ∀ s, x.active = some s → x.machine.state? s.task = some .running

theorem IsManned.of_idle (h : x.active = none) : x.IsManned := by
  intro s hs
  rw [h] at hs
  cases hs

theorem IsManned.stepIn (h : x.IsManned) (env : Surroundings) : (x.stepIn env).IsManned := by
  intro s' hs'
  cases hx : x.active with
  | none =>
    unfold Execution.stepIn at hs'
    rw [hx] at hs'
    cases hx.symm.trans hs'
  | some s =>
    have hr := Machine.step_running _ env _ s.pending (h s hx) s.control
    rw [stepIn_eq hx] at hs' ⊢
    generalize x.machine.step env s.task s.control s.pending = r at hs' hr ⊢
    obtain ⟨n, turn⟩ := r
    cases turn with
    | go c p =>
      cases hs'
      exact hr
    | wait w on limit p => cases hs'
    | pass p => cases hs'
    | stop a => cases hs'

theorem IsManned.begin (h : x.IsManned) (u : TaskId) : (x.begin u).IsManned := by
  have hb := x.begins u
  generalize x.begin u = y at hb ⊢
  cases hb with
  | unready => exact h
  | dismissed => exact .of_idle rfl
  | fresh hs | woken hs =>
    rintro _ ⟨⟩
    rw [Machine.state?_setState, if_pos rfl, hs]
    rfl

theorem IsManned.meet (h : x.IsManned) (a : Happening) : (x.meet a).IsManned := by
  have hu := x.undergoes a
  generalize x.meet a = y at hu ⊢
  cases hu with
  | refused => exact h
  | begin => exact h.begin _
  | step env => exact h.stepIn env
  | tell | command | interrupt => exact .of_idle rfl
  | grant ha =>
    intro s hs
    have hx : x.IsAt s.task s.control s.pending := .active hs (h s hs)
    cases hx.grant ha with
    | active _ ht => exact ht
    | rests hn => exact absurd rfl (hn s hs)

theorem IsManned.following (h : x.IsManned) (hs : List Happening) : (following hs x).IsManned := by
  induction hs generalizing x with
  | nil => exact h
  | cons a hs ih => exact ih (h.meet a)

end Execution

end Workflow
