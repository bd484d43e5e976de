import Workflow.Proofs.Run.Onward
import Workflow.Proofs.Run.Progress
/-!
Where the tasks of a run stand, whether or not they are in the middle of their steps: what a task does
next, or how it has ended. Moves and commands other than steps change no more of this than how a wait is
over.
-/

namespace Workflow

/-- What a task does next with the work that waits in it, or how it has ended. One that was told to end
before it could begin is leaving. -/
inductive Post where
  | doing (c : Control) (p : List Pending)
  | leaving
  | ended (a : Answer)

/-- What a registry of built-in handlers answers to a call that nothing cuts short. -/
def Registry.reply (r : Registry) (c : Call) : Answer :=
  match Entries.find? c.node.kind r with
  | none => .thrown (.unknownKind c.node.kind)
  | some reg =>
    match reg.handler with
    | .planned _ => .interrupted
    | .builtin b =>
      match b.act c.config c.vars with
      | .error f => .thrown (.ofShape f)
      | .ok (.reply r _) => .handled r
      | .ok (.rest _) => .handled (Builtin.rested false)

namespace Post

/-- A handler is going to end with an answer if nothing cuts it short. -/
inductive Heads (r : Registry) : Post → Answer → Prop
  | handle (c : Call) : Heads r (doing (.handle c) []) (r.reply c)
  | nap (u : TaskId) (s : Bool) :
      Heads r (doing (.wake (.nap u) s false) [.rest]) (.handled (Builtin.rested false))
  | rousing (u : TaskId) (s : Bool) :
      Heads r (doing (.wake (.rousing u false) s false) [.rest]) (.handled (Builtin.rested false))
  | rested (b : Bool) : Heads r (doing (.answer (.rested b)) [.rest]) (.handled (Builtin.rested b))
  | answer (a : Answer) : Heads r (doing (.answer a) []) a
  | ended (a : Answer) : Heads r (ended a) a

/-- A watcher has been told to end. -/
inductive IsDismissed : Post → Prop
  | leaving : IsDismissed leaving
  | woken (s : Bool) : IsDismissed (doing (.wake .cancellation s true) [])
  | answer : IsDismissed (doing (.answer .interrupted) [])
  | ended : IsDismissed (ended .interrupted)

/-- Posts that differ at most in how a wait is over, or in whether a task that was told to end has. -/
inductive Stirs : Post → Post → Prop
  | refl (a : Post) : Stirs a a
  | leave : Stirs leaving (ended .interrupted)
  | wake {w : Wait} (hw : w ≠ .cancellation) (s s' i i' : Bool)
      (hi : (∀ h o j, w ≠ .removal h o j) → i' = i) (p : List Pending) :
      Stirs (doing (.wake w s i) p) (doing (.wake w s' i') p)

/-- A task keeps its post but for what others may do to it, or is new. -/
inductive Keeps : Option Post → Option Post → Prop
  | same (a : Option Post) : Keeps a a
  | stirs {a b : Post} (h : Stirs a b) : Keeps (some a) (some b)
  | made {c : Control} (hc : c.wait? = none) : Keeps none (some (doing c []))

variable {a b : Post}

theorem Stirs.heads {r : Registry} {e : Answer} (h : Stirs a b) (ha : a.Heads r e) : b.Heads r e := by
  cases h with
  | refl => exact ha
  | leave => cases ha
  | wake _ s s' i i' hi p =>
    cases ha with
    | nap u =>
      cases hi (by simp)
      exact .nap u s'
    | rousing u =>
      cases hi (by simp)
      exact .rousing u s'

theorem Stirs.isDismissed (h : Stirs a b) (ha : a.IsDismissed) : b.IsDismissed := by
  cases h with
  | refl => exact ha
  | leave => exact .ended
  | wake hw =>
    cases ha with
    | woken => exact absurd rfl hw

theorem Keeps.of_some {c : Option Post} (h : Keeps (some a) c) : ∃ b, c = some b ∧ a.Stirs b := by
  cases h with
  | same => exact ⟨a, rfl, .refl a⟩
  | stirs h => exact ⟨_, rfl, h⟩

end Post

namespace TaskState

def post (p : List Pending) : TaskState → Option Post
  | .fresh c false => some (.doing c p)
  | .fresh _ true => some .leaving
  | .waiting w _ => some (.doing (.wake w false false) p)
  | .woken w s i => some (.doing (.wake w s i) p)
  | .running => none
  | .ended a => some (.ended a)

theorem post_signalled {s : TaskState} (h : ∀ k, s ≠ .waiting .cancellation k) (p : List Pending) :
    Post.Keeps (s.post p) (s.signalled.post p) := by
  cases s with
  | waiting w k =>
    cases w with
    | cancellation => exact absurd rfl (h k)
    | removal t o i => exact .stirs (.wake (by simp) _ _ _ _ (fun hn => absurd rfl (hn t o i)) p)
    | _ => exact .stirs (.wake (by simp) _ _ _ _ (fun _ => rfl) p)
  | _ => exact .same _

/-- A task that is being cancelled goes on after the wait that it was in, if after any. -/
theorem post_interrupted {s : TaskState} {p : List Pending} {c : Control} {q : List Pending}
    (h : s.interrupted.post p = some (.doing c q)) :
    ∃ w a i, s.post p = some (.doing (.wake w a i) p) ∧ c = .wake w a true ∧ q = p := by
  cases s with
  | waiting w k => cases h; exact ⟨w, false, false, rfl, rfl, rfl⟩
  | woken w a i => cases h; exact ⟨w, a, i, rfl, rfl, rfl⟩
  | _ => cases h

end TaskState

/-- Where a task stands that goes on in some way. -/
def Turn.post : Turn → Post
  | .go c p => .doing c p
  | .wait w _ _ p => .doing (.wake w false false) p
  | .pass p => .doing (.wake .sleep true false) p
  | .stop a => .ended a

namespace Machine

variable {m n : Machine} {t u : TaskId}

/-- Where a task stands that is not in the middle of its steps. -/
def post (m : Machine) (t : TaskId) : Option Post :=
  (m.state? t).bind fun s => s.post ((m.pending? t).getD [])

theorem post_of_state? {s : TaskState} (hs : m.state? t = some s) :
    m.post t = s.post ((m.pending? t).getD []) := by
  rw [post, hs]
  rfl

theorem post_congr (hs : n.state? t = m.state? t) (hp : n.pending? t = m.pending? t) :
    n.post t = m.post t := by
  rw [post, post, hs, hp]

theorem pending?_turn_other (x : Turn) (h : t ≠ u) : (m.turn t x).1.pending? u = m.pending? u := by
  cases x with
  | go c p => rfl
  | wait w on limit p =>
    have he : (m.turn t (.wait w on limit p)).1 = (m.putPending t p).lull t w on limit := by
      cases limit <;> rfl
    rw [he, pending?_lull, pending?_putPending, if_neg h]
  | pass p =>
    have he : (m.turn t (.pass p)).1 =
        ((m.putPending t p).setState t (.woken .sleep true false)).effect (.ready t) :=
      congrArg (·.effect (.ready t)) (modifyTask_eq m t p _)
    rw [he, pending?_effect, pending?_setState, pending?_putPending, if_neg h]
  | stop a => exact (pending?_finish a).trans (if_neg h)

theorem state?_turn_wait (ht : m.state? t = some .running) (w : Wait) (on : List TaskId)
    (limit : Option Seconds) (p : List Pending) :
    (m.turn t (.wait w on limit p)).1.state? t = some (.waiting w m.nextTicket) := by
  have he : (m.turn t (.wait w on limit p)).1 = (m.putPending t p).lull t w on limit := by
    cases limit <;> rfl
  rw [he, state?_lull, if_pos rfl, state?_putPending, ht]
  rfl

theorem post_turn_other (x : Turn) (h : t ≠ u) : (m.turn t x).1.post u = m.post u :=
  post_congr (state?_turn_other x h) (pending?_turn_other x h)

theorem post_turn {x : Turn} (ht : m.state? t = some .running) (hx : ∀ c p, x ≠ .go c p) :
    (m.turn t x).1.post t = some x.post := by
  cases x with
  | go c p => exact absurd rfl (hx c p)
  | wait w on limit p =>
    have he : (m.turn t (.wait w on limit p)).1 = (m.putPending t p).lull t w on limit := by
      cases limit <;> rfl
    rw [he, post, state?_lull, if_pos rfl, state?_putPending, ht, pending?_lull, own_pending? ht]
    rfl
  | pass p =>
    have he : (m.turn t (.pass p)).1 =
        ((m.putPending t p).setState t (.woken .sleep true false)).effect (.ready t) :=
      congrArg (·.effect (.ready t)) (modifyTask_eq m t p _)
    rw [he, post, state?_effect, state?_setState, if_pos rfl, state?_putPending, ht,
      pending?_effect, pending?_setState, own_pending? ht]
    rfl
  | stop a =>
    show (m.finish t a).post t = _
    rw [post, state?_finish, if_pos rfl, ht]
    rfl

end Machine

namespace Execution

variable {x y : Execution} {w : World} {t u : TaskId} {s : Strand}

/-- Where a task stands. -/
def post (x : Execution) (t : TaskId) : Option Post :=
  match x.active with
  | some s => if s.task = t then some (.doing s.control s.pending) else x.machine.post t
  | none => x.machine.post t

theorem post_self (hs : x.active = some s) : x.post s.task = some (.doing s.control s.pending) := by
  rw [post, hs]
  exact if_pos rfl

theorem post_other (hs : ∀ s, x.active = some s → s.task ≠ t) : x.post t = x.machine.post t := by
  rw [post]
  split
  · exact if_neg (hs _ ‹_›)
  · rfl

theorem post_idle (hx : x.active = none) : x.post t = x.machine.post t :=
  post_other fun s hs => by
    rw [hx] at hs
    cases hs

/-- Where the task that takes a step stands after it. -/
theorem post_stepIn {env : Surroundings} (hs : x.active = some s)
    (hr : (x.machine.step env s.task s.control s.pending).1.state? s.task = some .running) :
    (x.stepIn env).post s.task = some (x.machine.step env s.task s.control s.pending).2.post := by
  rw [stepIn_eq hs]
  generalize x.machine.step env s.task s.control s.pending = r at hr ⊢
  obtain ⟨n, turn⟩ := r
  cases turn with
  | go c p => exact post_self (x := x.put n (some ⟨s.task, c, p⟩)) rfl
  | wait v on limit p =>
    exact (post_idle rfl).trans (Machine.post_turn (x := .wait v on limit p) hr (by simp))
  | pass p => exact (post_idle rfl).trans (Machine.post_turn (x := .pass p) hr (by simp))
  | stop a => exact (post_idle rfl).trans (Machine.post_turn (x := .stop a) hr (by simp))

/-- Where the others stand then. -/
theorem post_stepIn_other {env : Surroundings} (hs : x.active = some s) (h : s.task ≠ t) :
    (x.stepIn env).post t = (x.machine.step env s.task s.control s.pending).1.post t := by
  rw [stepIn_eq hs]
  refine (post_other fun a ha => ?_).trans (Machine.post_turn_other _ h)
  obtain ⟨z, -, rfl⟩ := Option.map_eq_some_iff.mp ha
  exact h

theorem post_step (hs : x.active = some s) (now : Moment)
    (hr : (x.machine.step (w.surroundings now) s.task s.control s.pending).1.state? s.task =
      some .running) :
    (x.step w now).post s.task =
      some (x.machine.step (w.surroundings now) s.task s.control s.pending).2.post :=
  post_stepIn hs hr

theorem post_step_other (hs : x.active = some s) (now : Moment) (h : s.task ≠ t) :
    (x.step w now).post t =
      (x.machine.step (w.surroundings now) s.task s.control s.pending).1.post t :=
  post_stepIn_other hs h

/-! Where all stand after a move that is no step. -/

theorem post_begun {c : Control} {p : List Pending} (hx : x.active = none)
    (hp : x.machine.post t = some (.doing c p)) (u : TaskId) :
    post { x with machine := x.machine.setState t .running, active := some ⟨t, c, p⟩ } u = x.post u := by
  rw [post_idle hx]
  by_cases htu : t = u
  · subst htu
    exact (post_self (s := ⟨t, c, p⟩) rfl).trans hp.symm
  · refine (post_other (by rintro _ ⟨⟩; exact htu)).trans (Machine.post_congr ?_ (Machine.pending?_setState _))
    exact (Machine.state?_setState _).trans (if_neg htu)

/-- A task that was told to end before it could begin has ended. -/
theorem post_dismissed {c : Control} (hx : x.active = none) (hs : x.machine.state? t = some (.fresh c true))
    (u : TaskId) : (x.put (x.machine.finish t .interrupted) none).post u =
      if t = u then some (.ended .interrupted) else x.post u := by
  rw [post_idle hx]
  show (x.machine.finish t .interrupted).post u = _
  by_cases htu : t = u
  · subst htu
    have hended : (x.machine.finish t .interrupted).state? t = some (.ended .interrupted) := by
      rw [Machine.state?_finish, if_pos rfl, hs]
      rfl
    rw [Machine.post_of_state? hended, if_pos rfl]
    rfl
  · rw [if_neg htu]
    exact Machine.post_congr ((Machine.state?_finish _).trans (if_neg htu))
      ((Machine.pending?_finish _).trans (if_neg htu))

/-- A task that a slot is given to has waited for it, and the others stay where they stand. -/
theorem post_grant (ha : x.allows (.grant t) = true) (u : TaskId) : (x.grant t).post u = x.post u ∨
    t = u ∧ ∃ p, x.post u = some (.doing (.wake .grant false false) p) ∧
      (x.grant t).post u = some (.doing (.wake .grant true false) p) := by
  obtain ⟨k, hw⟩ := allows_grant.mp ha
  have hstate : (x.grant t).machine.state? u =
      if t = u then (x.machine.state? u).map fun _ => .woken .grant true false else x.machine.state? u :=
    Machine.state?_setState _
  have hpending : (x.grant t).machine.pending? u = x.machine.pending? u := Machine.pending?_setState _
  by_cases hact : ∃ s, x.active = some s ∧ s.task = u
  · obtain ⟨s, hx, rfl⟩ := hact
    exact .inl ((post_self (x := x.grant t) hx).trans (post_self hx).symm)
  · have hother : ∀ s, x.active = some s → s.task ≠ u := fun s hx he => hact ⟨s, hx, he⟩
    rw [post_other (x := x.grant t) hother, post_other hother]
    by_cases htu : t = u
    · subst htu
      have hwoken : (x.grant t).machine.state? t = some (.woken .grant true false) := by
        rw [hstate, if_pos rfl, hw]
        rfl
      refine .inr ⟨rfl, _, Machine.post_of_state? hw, ?_⟩
      rw [Machine.post_of_state? hwoken, hpending]
      rfl
    · exact .inl (Machine.post_congr (hstate.trans (if_neg htu)) hpending)

end Execution

end Workflow
