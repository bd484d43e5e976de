import Workflow.Proofs.Run.Post
/-!
Runs that nothing cuts short. As long as nobody cancels a run, whoever waits with a watcher finds it on
the watch, since no other task waits with that watcher, and a handler that a node waits for is headed for
the one answer that its call has. So it makes no difference to a run when its tasks take their steps, but
for the handlers that do not end before their time.
-/

namespace Workflow

/-- Commands that neither cancel a run nor write its variables. -/
def Command.IsControl : Command → Prop
  | .start _ | .pause | .resume | .stepOver | .edit _ => True
  | .cancel _ _ | .setVar _ _ _ => False

namespace Execution

variable {x y : Execution} {w : World} {t u : TaskId} {v : Wait} {r : Registry}

/-- A task waits, or goes on after that wait. -/
def Bides (x : Execution) (t : TaskId) (v : Wait) : Prop :=
  ∃ s i p, x.post t = some (.doing (.wake v s i) p)

/-- A watcher waits for a cancellation, or is about to. -/
def Vigilant (x : Execution) (u : TaskId) : Prop :=
  x.post u = some (.doing .watch []) ∨ ∃ k, x.machine.state? u = some (.waiting .cancellation k)

/-- A watcher has been told to end. -/
def Dismissed (x : Execution) (u : TaskId) : Prop :=
  ∃ a, x.post u = some a ∧ a.IsDismissed

/-- A handler is headed for an answer. -/
def Heads (r : Registry) (x : Execution) (h : TaskId) (e : Answer) : Prop :=
  ∃ a, x.post h = some a ∧ a.Heads r e

/-- The invariant of runs that nothing cuts short. -/
structure Undisturbed (r : Registry) (x : Execution) : Prop where
  live : x.machine.token.cancelled = false
  guarded : ∀ {t v u}, x.Bides t v → v.guard? = some u → x.Vigilant u
  guardian : ∀ {t t' v v' u}, x.Bides t v → v.guard? = some u → x.Bides t' v' →
    v'.guard? = some u → t' = t
  dismissed : ∀ {t u i}, x.Bides t (.rousing u i) → x.Dismissed u
  handler : ∀ {t a h u}, x.Bides t (.settlement a h u) →
    ∃ call, x.machine.call? a = some call ∧ x.Heads r h (r.reply call)
  graceless : ∀ {t h}, ¬ x.Bides t (.grace h)

theorem create_undisturbed (r : Registry) (id : String) (flow : Flow) (bindings : Entries Value)
    (breakpoints : Breakpoints) (pauseOnStart : Bool) (stamp : Instant) :
    (ofMachine (.create id flow bindings breakpoints pauseOnStart stamp)).Undisturbed r := by
  have none (t : TaskId) (v : Wait) :
      ¬ (ofMachine (.create id flow bindings breakpoints pauseOnStart stamp)).Bides t v := by
    rintro ⟨s, i, p, hp⟩
    cases hp
  exact {
    live := rfl
    guarded := fun hb => absurd hb (none _ _)
    guardian := fun hb => absurd hb (none _ _)
    dismissed := fun hb => absurd hb (none _ _)
    handler := fun hb => absurd hb (none _ _)
    graceless := none _ _ }

/-! Moves of others than steps, and commands. -/

/-- Nothing has changed but how waits are over, and which tasks are about to begin. -/
structure Eases (x y : Execution) : Prop where
  token : y.machine.token = x.machine.token
  layers : y.machine.layers = x.machine.layers
  posts : ∀ t, Post.Keeps (x.post t) (y.post t)
  watches : ∀ {u k}, x.machine.state? u = some (.waiting .cancellation k) →
    y.machine.state? u = some (.waiting .cancellation k)

namespace Eases

theorem refl (x : Execution) : x.Eases x :=
  ⟨rfl, rfl, fun _ => .same _, id⟩

theorem bides (h : x.Eases y) (hb : y.Bides t v) : x.Bides t v := by
  obtain ⟨s, i, p, hp⟩ := hb
  have hk := h.posts t
  rw [hp] at hk
  generalize hx : x.post t = a at hk
  cases hk with
  | same => exact ⟨s, i, p, hx⟩
  | stirs hs =>
    cases hs with
    | refl => exact ⟨s, i, p, hx⟩
    | wake => exact ⟨_, _, p, hx⟩
  | made hc => cases hc

theorem vigilant (h : x.Eases y) (hv : x.Vigilant u) : y.Vigilant u := by
  rcases hv with hv | ⟨k, hk⟩
  · have hp := h.posts u
    rw [hv] at hp
    obtain ⟨b, hb, hs⟩ := hp.of_some
    cases hs
    exact .inl hb
  · exact .inr ⟨k, h.watches hk⟩

theorem dismissed (h : x.Eases y) (hd : x.Dismissed u) : y.Dismissed u := by
  obtain ⟨a, ha, hd⟩ := hd
  have hp := h.posts u
  rw [ha] at hp
  obtain ⟨b, hb, hs⟩ := hp.of_some
  exact ⟨b, hb, hs.isDismissed hd⟩

theorem heads (h : x.Eases y) {e : Answer} (hh : x.Heads r u e) : y.Heads r u e := by
  obtain ⟨a, ha, hh⟩ := hh
  have hp := h.posts u
  rw [ha] at hp
  obtain ⟨b, hb, hs⟩ := hp.of_some
  exact ⟨b, hb, hs.heads hh⟩

theorem undisturbed (h : x.Eases y) (hx : x.Undisturbed r) : y.Undisturbed r where
  live := by rw [h.token, hx.live]
  guarded hb hg := h.vigilant (hx.guarded (h.bides hb) hg)
  guardian hb hg hb' hg' := hx.guardian (h.bides hb) hg (h.bides hb') hg'
  dismissed hb := h.dismissed (hx.dismissed (h.bides hb))
  handler hb := by
    obtain ⟨call, hc, hh⟩ := hx.handler (h.bides hb)
    exact ⟨call, (Machine.call?_congr h.layers _).trans hc, h.heads hh⟩
  graceless hb := hx.graceless (h.bides hb)

/-- Some tasks are signalled, none of them a watcher. -/
theorem of_signals {n : Machine} (ts : List TaskId)
    (hs : ∀ u, n.state? u =
      if u ∈ ts then (x.machine.state? u).map TaskState.signalled else x.machine.state? u)
    (hp : ∀ u, n.pending? u = x.machine.pending? u) (hy : y.active = x.active)
    (hn : y.machine = { n with effects := y.machine.effects })
    (ht : n.token = x.machine.token) (hl : n.layers = x.machine.layers)
    (hw : ∀ u ∈ ts, ∀ k, x.machine.state? u ≠ some (.waiting .cancellation k)) : x.Eases y where
  token := by rw [hn]; exact ht
  layers := by rw [hn]; exact hl
  posts u := by
    have hpost : Post.Keeps (x.machine.post u) (y.machine.post u) := by
      have hst : y.machine.post u = n.post u := by rw [hn]; rfl
      rw [hst, Machine.post, Machine.post, hs, hp]
      split
      · rename_i hu
        cases hx : x.machine.state? u with
        | none => exact .same _
        | some s => exact TaskState.post_signalled (fun k hk => hw u hu k (by rw [hx, hk])) _
      · exact .same _
    unfold Execution.post
    rw [hy]
    split
    · split
      · exact .same _
      · exact hpost
    · exact hpost
  watches {u k} hu := by
    have hst : y.machine.state? u = n.state? u := by rw [hn]; rfl
    rw [hst, hs, if_neg]
    · exact hu
    · intro hm
      exact hw u hm k hu

/-- Nothing has changed about the tasks. -/
theorem of_tasks (hy : y.active = x.active) (hn : y.machine.tasks = x.machine.tasks)
    (ht : y.machine.token = x.machine.token) (hl : y.machine.layers = x.machine.layers) :
    x.Eases y :=
  of_signals (n := y.machine) [] (fun u => by simp [Machine.state?, hn])
    (fun u => by rw [Machine.pending?, Machine.pending?, hn]) hy rfl ht hl (by simp)

end Eases

/-- A task that is ready begins its steps. -/
theorem begin_eases (hx : x.active = none) (t : TaskId) : x.Eases (x.begin t) := by
  have begun {c : Control} {p : List Pending} {s : TaskState} (hst : x.machine.state? t = some s)
      (hpd : x.machine.pending? t = some p) (hc : s.post p = some (.doing c p))
      (hw : ∀ j, s ≠ .waiting .cancellation j) : x.Eases { x with
        machine := x.machine.setState t .running, active := some ⟨t, c, p⟩ } := by
    have hpost : x.machine.post t = some (.doing c p) := by
      rw [Machine.post_of_state? hst, hpd]
      exact hc
    refine ⟨rfl, rfl, fun u => ?_, fun {u j} hu => ?_⟩
    · rw [post_begun hx hpost]
      exact .same _
    · show (x.machine.setState t .running).state? u = _
      rw [Machine.state?_setState, if_neg, hu]
      rintro rfl
      rw [hst] at hu
      exact hw j (Option.some.inj hu)
  have dismissed {c : Control} (hs : x.machine.state? t = some (.fresh c true)) :
      x.Eases (x.put (x.machine.finish t .interrupted) none) := by
    have hm := Machine.Mute.finish x.machine t .interrupted
    refine ⟨hm.token, hm.layers, fun u => ?_, fun {u j} hu => ?_⟩
    · rw [post_dismissed hx hs]
      split
      · rename_i htu
        subst htu
        rw [(post_idle hx).trans (Machine.post_of_state? hs)]
        exact .stirs .leave
      · exact .same _
    · show (x.machine.finish t .interrupted).state? u = _
      rw [Machine.state?_finish, if_neg, hu]
      rintro rfl
      rw [hs] at hu
      cases hu
  have hb := x.begins t
  generalize x.begin t = y at hb ⊢
  cases hb with
  | unready => exact .refl x
  | dismissed hs => exact dismissed hs
  | fresh hs hp | woken hs hp => exact begun hs hp rfl (by simp)

/-- A task is told of what it waits for. -/
theorem tell_eases (h : x.IsSound) {k : Nat} (ha : x.allows (.tell t k) = true) :
    x.Eases (x.put (x.machine.tell t k) none) := by
  obtain ⟨he, roles, hs⟩ := h
  simp only [allows, isIdle, isTold, Bool.and_eq_true, Option.isNone_iff_eq_none,
    List.any_eq_true] at ha
  obtain ⟨⟨hx, e, hmem, htells⟩, hw⟩ := ha
  split at hw
  · rename_i v j hst
    rw [beq_iff_eq] at hw
    subst hw
    have ht : x.machine.tell t j = x.machine.signal t := by
      unfold Machine.tell
      rw [hst]
      exact if_pos (beq_self_eq_true j)
    have hm := (Machine.Silent.signal x.machine t).mute
    rw [ht]
    refine .of_signals (n := x.machine.signal t) [t] (fun u => ?_) (fun u => Machine.pending?_signal)
      hx.symm rfl hm.token hm.layers ?_
    · rw [Machine.state?_signal]
      simp only [List.mem_singleton, eq_comm]
    · intro u hu i hc
      rw [List.mem_singleton.mp hu, hst] at hc
      cases hc
      exact (hs.tickets.silent hst rfl rfl).1 ⟨e, by rw [he, List.nil_append]; exact hmem, htells⟩
  · cases hw

/-- A slot is given to a task that waits for one. -/
theorem grant_eases (ha : x.allows (.grant t) = true) : x.Eases (x.grant t) := by
  obtain ⟨k, hk⟩ := allows_grant.mp ha
  refine .of_signals (n := x.machine.setState t (.woken .grant true false)) [t] (fun u => ?_)
    (fun u => Machine.pending?_setState _) rfl rfl rfl rfl ?_
  · rw [Machine.state?_setState]
    simp only [List.mem_singleton, eq_comm (a := u)]
    split
    · rename_i htu
      rw [← htu, hk]
      rfl
    · rfl
  · intro u hu i hc
    rw [List.mem_singleton.mp hu, hk] at hc
    cases hc

/-- A command that controls the pauses of a run, or starts it. -/
theorem obey_eases (h : x.IsSound) {c : Command} (hc : c.IsControl) : x.Eases (x.obey c) := by
  obtain ⟨-, roles, hs⟩ := h
  unfold obey
  split
  · rename_i hi
    have hx := Option.isNone_iff_eq_none.mp hi
    have released (m : Machine) (hp : m.paused = x.machine.paused) (hm : m.tasks = x.machine.tasks)
        (ht : m.token = x.machine.token) (hl : m.layers = x.machine.layers) :
        x.Eases (x.put m.endPause none) := by
      have hmute := (Machine.Silent.endPause m).mute
      refine .of_signals (n := m.endPause) x.machine.paused (fun u => ?_) (fun u => ?_) hx.symm rfl
        (hmute.token.trans ht) (hmute.layers.trans hl) ?_
      · unfold Machine.endPause
        rw [hp, Machine.state?_signals]
        simp [Machine.state?, hm]
      · unfold Machine.endPause
        rw [Machine.pending?_signals]
        simp [Machine.pending?, hm]
      · intro u hu k hk
        obtain ⟨-, j, hj⟩ := hs.paused u hu
        rw [hk] at hj
        cases hj
    cases c with
    | start slotted =>
      show x.Eases (x.put (x.machine.start slotted) none)
      cases hm : x.machine.main with
      | some t =>
        unfold Machine.start
        rw [hm]
        exact .of_tasks hx.symm rfl rfl rfl
      | none =>
        let n := (x.machine.spawn (if slotted then .enqueue else .execute) []).1
        have hst (u : TaskId) : n.state? u = if u = x.machine.tasks.size
            then some (.fresh (if slotted then .enqueue else .execute) false)
            else x.machine.state? u := Machine.state?_spawn _ _
        have hpd (u : TaskId) : n.pending? u = if u = x.machine.tasks.size then some []
            else x.machine.pending? u := Machine.pending?_spawn _ _
        rw [Machine.start_eq hm]
        refine ⟨rfl, rfl, fun u => ?_, fun {u k} hu => ?_⟩
        · rw [post_idle hx, post_idle (x := x.put _ none) rfl]
          show Post.Keeps _ (n.post u)
          by_cases hnew : u = x.machine.tasks.size
          · have hold : x.machine.post u = none := by
              rw [Machine.post, Machine.state?_eq_none.mpr (Nat.le_of_eq hnew.symm)]
              rfl
            rw [hold, Machine.post_of_state? ((hst u).trans (if_pos hnew)), hpd, if_pos hnew]
            exact .made (by cases slotted <;> rfl)
          · rw [Machine.post_congr (m := x.machine) (n := n) ((hst u).trans (if_neg hnew))
              ((hpd u).trans (if_neg hnew))]
            exact .same _
        · show n.state? u = _
          rw [hst, if_neg (Nat.ne_of_lt (Machine.lt_of_state? hu)), hu]
    | pause =>
      show x.Eases (x.put x.machine.pause.1 none)
      unfold Machine.pause
      split <;> exact .of_tasks hx.symm rfl rfl rfl
    | resume =>
      show x.Eases (x.put x.machine.resumeRun.1 none)
      unfold Machine.resumeRun
      split
      · exact released _ rfl rfl rfl rfl
      · exact .of_tasks hx.symm rfl rfl rfl
    | stepOver =>
      show x.Eases (x.put x.machine.stepOver.1 none)
      unfold Machine.stepOver
      split
      · exact released _ rfl rfl rfl rfl
      · exact .of_tasks hx.symm rfl rfl rfl
    | edit f => exact .of_tasks hx.symm rfl rfl rfl
    | cancel reason stamp => exact absurd hc id
    | setVar name v frame => exact absurd hc id
  · exact .refl x

end Execution

end Workflow
