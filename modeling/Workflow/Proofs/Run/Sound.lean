import Workflow.Proofs.Run.Stage
import Workflow.Proofs.Run.Ticket
/-!
What holds of a run between any two of its moves: its tasks fit their parts, tickets are in order,
the walker is in a stage that the status of the run allows, and the events so far are those of a run
with that status.
-/

namespace Workflow

/-- What the task that executes a run begins with. -/
def Control.IsOpening : Control → Prop
  | .enqueue | .execute => True
  | _ => False

/-- Where the walker stands or waits, by the stage of the run. -/
def TaskState.Parked (m : Machine) (p : List Pending) : TaskState → Prop
  | .fresh c _ => c.IsOpening ∧ p = [] ∧ m.IsUnbegun
  | .waiting w _ => m.Waits w p
  | .woken w s i => m.Stands (.wake w s i) p
  | .running => True
  | .ended _ => m.run.status.isTerminal = true

/-- What a task that is ready is to do. -/
def TaskState.next? : TaskState → Option Control
  | .fresh c false => some c
  | .woken w s i => some (.wake w s i)
  | _ => none

namespace Machine

variable {roles more : List Role} {log : List Effect} {active : Option Strand} {m n : Machine}
  {t u : TaskId} {p : List Pending}

/-- The part of the invariant that no task in the middle of its steps has a share in. -/
structure Sane (roles : List Role) (log : List Effect) (m : Machine) : Prop where
  fitting : m.Fitting roles
  main : ∀ {t}, roles[t]? = some .walker ↔ m.main = some t
  watchers : ∀ t ∈ m.watchers, roles[t]? = some .watcher
  tickets : m.Ticketed log
  parked : ∀ {t s p}, m.main = some t → m.state? t = some s → m.pending? t = some p → s.Parked m p
  unstarted : m.main = none → IsUnbegun m
  history : Status.Passes .pending (m.effects ++ log) m.run.status
  results : m.run.status ≠ .completed → m.run.status ≠ .failed →
    m.run.error = none ∧ m.run.outputs = none

/-- The invariant of a run, with the task in the middle of its steps. -/
structure Sound (roles : List Role) (log : List Effect) (active : Option Strand) (m : Machine) :
    Prop extends Sane roles log m where
  paused : ∀ t ∈ m.paused, m.main = some t ∧ ∃ k, m.state? t = some (.waiting .resumption k)
  strand : ∀ {s}, active = some s → m.state? s.task = some .running ∧
    ∃ r, roles[s.task]? = some r ∧ s.control.Suits roles r s.pending ∧
      (r = .walker → m.Stands s.control s.pending)
  running : ∀ {t}, m.state? t = some .running → ∃ s, active = some s ∧ s.task = t

section congr

variable (hs : n.run.status = m.run.status) (hk : n.run.stack = m.run.stack) (ht : n.token = m.token)

include hs hk ht

theorem parked_congr (hq : n.paused = m.paused) {s : TaskState} (h : s.Parked m p) :
    s.Parked n p := by
  cases s with
  | fresh c i => exact ⟨h.1, h.2.1, h.2.2.congr hs hk⟩
  | waiting w k => exact Waits.congr hs hk ht hq h
  | woken w s i => exact Stands.congr hs hk ht h
  | running => trivial
  | ended a =>
    unfold TaskState.Parked at *
    rw [hs]
    exact h

end congr

/-- A wait that is over, a pause apart, leads to the stage after it. -/
theorem Waits.signalled {w : Wait} (h : Waits m w p) (hw : w ≠ .resumption) (s i : Bool) :
    Stands m (.wake w s i) p := by
  cases h with
  | start h t u => exact .start h t u s i
  | walk h hu hw hm => exact .wake h hu hw hm s i
  | pause => exact absurd rfl hw

theorem parked_signalled {s : TaskState} (h : s.Parked m p) (hs : ∀ k, s ≠ .waiting .resumption k) :
    s.signalled.Parked m p := by
  cases s with
  | waiting w k =>
    have hw : w ≠ .resumption := by
      rintro rfl
      exact hs k rfl
    have hst := Waits.signalled h hw
    cases w <;> exact hst _ _
  | _ => exact h

/-- The effects of a machine become a part of the log. -/
theorem Sound.settle (h : Sound roles log active m) :
    Sound roles (m.effects ++ log) active { m with effects := [] } where
  fitting := h.fitting.of_tasks rfl
  main := h.main
  watchers := h.watchers
  tickets := {
    told := h.tickets.told
    listed := h.tickets.listed
    waits := h.tickets.waits
    silent := h.tickets.silent
    awaits := h.tickets.awaits
    timed := h.tickets.timed }
  parked hm hs hp :=
    parked_congr (m := m) (n := { m with effects := [] }) rfl rfl rfl rfl (h.parked hm hs hp)
  unstarted := h.unstarted
  history := h.history
  results := h.results
  paused := h.paused
  strand hs := by
    obtain ⟨hr, r, hrole, hc, hst⟩ := h.strand hs
    exact ⟨hr, r, hrole, hc, fun hw => Stands.congr (m := m) rfl rfl rfl (hst hw)⟩
  running := h.running

theorem create_sound (id : String) (flow : Flow) (bindings : Entries Value) (breakpoints : Breakpoints)
    (pauseOnStart : Bool) (stamp : Instant) :
    Sound [] [] none (create id flow bindings breakpoints pauseOnStart stamp) where
  fitting := ⟨rfl, fun h => by simp at h⟩
  main := by simp [create]
  watchers := by simp [create]
  tickets := {
    told := by simp [Tells, create]
    listed := by simp [Lists, observers?, create]
    waits := by simp [state?, create]
    silent := by simp [state?, create]
    awaits := by simp [state?, create]
    timed := by simp [state?, create] }
  parked := by simp [create]
  unstarted _ := .inl ⟨rfl, rfl⟩
  history := .nil _
  results _ _ := ⟨rfl, rfl⟩
  paused := by simp [create]
  strand := by simp
  running := by simp [state?, create]

theorem exists_role (h : m.Fitting roles) {s : TaskState} (hs : m.state? t = some s) :
    ∃ r, roles[t]? = some r := by
  have hlt := lt_of_state? hs
  rw [← h.size] at hlt
  exact ⟨_, List.getElem?_eq_getElem hlt⟩

/-- A task that is ready begins its steps. -/
theorem Sound.begin (h : Sound roles log none m) {s : TaskState} {c : Control}
    (hs : m.state? t = some s) (hp : m.pending? t = some p) (hc : s.next? = some c) :
    Sound roles log (some ⟨t, c, p⟩) (m.setState t .running) := by
  obtain ⟨r, hr⟩ := exists_role h.fitting hs
  have hfit := h.fitting.state hr hs hp
  have hsuits : c.Suits roles r p := by
    cases s with
    | fresh c' i => cases i <;> cases hc; exact hfit.1
    | woken w a i => cases hc; exact hfit
    | _ => cases hc
  have hstands (hw : r = .walker) : Stands m c p := by
    have hm := h.main.mp (hw ▸ hr)
    have hpark := h.parked hm hs hp
    cases s with
    | fresh c' i =>
      cases i <;> cases hc
      obtain ⟨ho, rfl, hu⟩ := hpark
      cases c <;> first | exact .enqueue hu | exact .execute hu trivial | exact absurd ho id
    | woken w a i => cases hc; exact hpark
    | _ => cases hc
  have hnotwaiting : ∀ w k, s ≠ .waiting w k := by
    rintro w k rfl
    cases hc
  have hnotended : ∀ a, m.state? t ≠ some (.ended a) := by
    intro a ha
    rw [hs] at ha
    cases ha
    cases hc
  have other {u : TaskId} (hu : t ≠ u) : (m.setState t .running).state? u = m.state? u := by
    rw [state?_setState, if_neg hu]
  have self : (m.setState t .running).state? t = some .running := by
    rw [state?_setState, if_pos rfl, hs]
    rfl
  exact {
    fitting := h.fitting.modifyTask t _ fun _ _ _ _ => trivial
    main := h.main
    watchers := h.watchers
    tickets := h.tickets.setState hnotended (by simp) (by simp)
    parked := fun {u s' q} hm hu hq => by
      by_cases htu : t = u
      · subst htu
        rw [self] at hu
        cases hu
        trivial
      · rw [other htu] at hu
        rw [pending?_setState] at hq
        exact parked_congr (m := m) (n := m.setState t .running) rfl rfl rfl rfl (h.parked hm hu hq)
    unstarted := h.unstarted
    history := h.history
    results := h.results
    paused := fun u hu => by
      obtain ⟨hm, k, hk⟩ := h.paused u hu
      refine ⟨hm, k, ?_⟩
      rw [other, hk]
      rintro rfl
      rw [hs] at hk
      exact hnotwaiting _ _ (Option.some.inj hk)
    strand := fun hs' => by
      cases hs'
      exact ⟨self, r, hr, hsuits, fun hw => Stands.congr (m := m) rfl rfl rfl (hstands hw)⟩
    running := fun {u} hu => by
      by_cases htu : t = u
      · exact ⟨_, rfl, htu⟩
      · rw [other htu] at hu
        obtain ⟨s', hs', -⟩ := h.running hu
        cases hs' }

/-- Events of no kind leave the history as it is. -/
theorem history_of_mute (h : Status.Passes .pending (m.effects ++ log) m.run.status)
    (ha : Adds Effect.IsMute m n) (hr : n.run.status = m.run.status) :
    Status.Passes .pending (n.effects ++ log) n.run.status := by
  obtain ⟨d, hd, hm⟩ := ha
  rw [hd, hr, List.append_assoc]
  exact h.append (.mute _ hm)

/-- A task ends. -/
theorem Sane.finish (h : Sane roles log m) {a : Answer} (ha : roles[t]? = some .handler → a.Concludes [])
    (ht : m.main = some t → m.run.status.isTerminal = true) : Sane roles log (m.finish t a) := by
  have hm := Mute.finish m t a
  have hr := hm.run
  exact {
    fitting := h.fitting.finish t ha
    main := by rw [hm.main]; exact h.main
    watchers := by rw [hm.watchers]; exact h.watchers
    tickets := h.tickets.finish a
    parked := fun {u s p} hu hs hp => by
      rw [hm.main] at hu
      refine parked_congr (m := m) (congrArg Run.status hr) (congrArg Run.stack hr) hm.token
        hm.paused ?_
      rw [state?_finish] at hs
      rw [pending?_finish] at hp
      split at hs
      · rename_i htu
        obtain ⟨_, -, rfl⟩ := Option.map_eq_some_iff.mp hs
        exact ht (htu ▸ hu)
      · rename_i htu
        rw [if_neg htu] at hp
        exact h.parked hu hs hp
    unstarted := fun hu => by
      rw [hm.main] at hu
      exact (h.unstarted hu).congr (congrArg Run.status hr) (congrArg Run.stack hr)
    history := history_of_mute h.history hm.adds (congrArg Run.status hr)
    results := by rw [hr]; exact h.results }

/-- A task that was cancelled before it could begin ends. -/
theorem Sound.dismiss (h : Sound roles log none m) {c : Control}
    (hs : m.state? t = some (.fresh c true)) : Sound roles log none (m.finish t .interrupted) := by
  have hm := Mute.finish m t .interrupted
  have hw : m.main ≠ some t := by
    intro hmain
    obtain ⟨p, hp⟩ := exists_pending? hs
    cases (h.fitting.state (h.main.mpr hmain) hs hp).2 rfl
  have other {u : TaskId} (hu : t ≠ u) : (m.finish t .interrupted).state? u = m.state? u := by
    rw [state?_finish, if_neg hu]
  exact {
    toSane := h.toSane.finish (fun _ => trivial) fun hmain => absurd hmain hw
    paused := fun u hu => by
      rw [hm.paused] at hu
      obtain ⟨hmain, k, hk⟩ := h.paused u hu
      refine ⟨by rw [hm.main]; exact hmain, k, ?_⟩
      rw [other, hk]
      rintro rfl
      exact hw hmain
    strand := fun hs' => by cases hs'
    running := fun {u} hu => by
      rw [state?_finish] at hu
      split at hu
      · obtain ⟨_, -, hu⟩ := Option.map_eq_some_iff.mp hu
        cases hu
      · exact h.running hu }

/-- A task is woken, and not from a pause. -/
theorem Sound.woken (h : Sound roles log active m) (hs : Silent m n) (ht : Tends m n)
    (hf : n.Fitting roles)
    (hst : ∀ u, n.state? u = if t = u then (m.state? u).map TaskState.signalled else m.state? u)
    (hn : ∀ k, m.state? t ≠ some (.waiting .resumption k)) : Sound roles log active n := by
  have hr := hs.mute.run
  have hstatus := congrArg Run.status hr
  have hstack := congrArg Run.stack hr
  exact {
    fitting := hf
    main := by rw [hs.mute.main]; exact h.main
    watchers := by rw [hs.mute.watchers]; exact h.watchers
    tickets := h.tickets.tends ht hs.mute.nextTicket (hs.adds.mono fun _ he => he.2)
    parked := fun {u s p} hu hs' hp => by
      rw [hs.mute.main] at hu
      rw [hst] at hs'
      obtain ⟨s', hu'⟩ : ∃ s', m.state? u = some s' := by
        split at hs'
        · obtain ⟨s', hu', -⟩ := Option.map_eq_some_iff.mp hs'
          exact ⟨s', hu'⟩
        · exact ⟨s, hs'⟩
      rw [ht.pending (lt_of_state? hu')] at hp
      refine parked_congr (m := m) hstatus hstack hs.mute.token hs.mute.paused ?_
      rw [hu'] at hs'
      split at hs'
      · rename_i htu
        cases hs'
        refine parked_signalled (h.parked hu hu' hp) ?_
        rintro k rfl
        exact hn k (htu ▸ hu')
      · cases hs'
        exact h.parked hu hu' hp
    unstarted := fun hu => by
      rw [hs.mute.main] at hu
      exact (h.unstarted hu).congr hstatus hstack
    history := history_of_mute h.history hs.mute.adds hstatus
    results := by rw [hr]; exact h.results
    paused := fun u hu => by
      rw [hs.mute.paused] at hu
      obtain ⟨hm, k, hk⟩ := h.paused u hu
      refine ⟨by rw [hs.mute.main]; exact hm, k, ?_⟩
      rw [hst, if_neg, hk]
      rintro rfl
      exact hn k hk
    strand := fun hs' => by
      obtain ⟨hrun, r, hrole, hc, hstands⟩ := h.strand hs'
      exact ⟨ht.running_iff.mpr hrun, r, hrole, hc,
        fun hw => (hstands hw).congr hstatus hstack hs.mute.token⟩
    running := fun hu => h.running (ht.running_iff.mp hu) }

theorem Sound.signal (h : Sound roles log active m)
    (hn : ∀ k, m.state? t ≠ some (.waiting .resumption k)) : Sound roles log active (m.signal t) :=
  h.woken (.signal m t) (.signals [t] m) (h.fitting.signal t) (fun _ => state?_signal) hn

/-- A task is told that what it waits for has come about. -/
theorem Sound.tell (h : Sound roles log none m) {k : Nat} (ht : Tells log m t k) :
    Sound roles log none (m.tell t k) := by
  unfold Machine.tell
  split
  · rename_i w k' hs
    split
    · rename_i hk
      rw [beq_iff_eq.mp hk] at hs
      refine h.signal fun j hj => ?_
      rw [hs] at hj
      cases hj
      exact (h.tickets.silent hs rfl rfl).1 ht
    · exact h
  · exact h

/-- A free slot is given to a task that waits for one. -/
theorem Sound.grant (h : Sound roles log active m) {k : Nat}
    (hs : m.state? t = some (.waiting .grant k)) :
    Sound roles log active (m.setState t (.woken .grant true false)) := by
  obtain ⟨r, hr⟩ := exists_role h.fitting hs
  obtain ⟨p, hp⟩ := exists_pending? hs
  have hw : Wait.grant.Suits roles r p := h.fitting.state hr hs hp
  have hst (u : TaskId) : (m.setState t (.woken .grant true false)).state? u =
      if t = u then (m.state? u).map TaskState.signalled else m.state? u := by
    rw [state?_setState]
    split
    · rename_i htu
      rw [← htu, hs]
      rfl
    · rfl
  refine h.woken (.setState m t _) (.of_old (by simp) (fun u s hu => ?_) (by simp) (by simp))
    (h.fitting.modifyTask t _ fun r' k' hr' hk' => ?_) hst fun j hj => ?_
  · rw [hst, hu]
    split
    · exact ⟨_, rfl, .signal (.refl s)⟩
    · exact ⟨s, rfl, .refl s⟩
  · have hp' : k'.pending = p := by
      have hk : m.tasks[t]? = some k' := hk'
      simpa [pending?, hk] using hp
    rw [hr] at hr'
    cases hr'
    rw [hp']
    exact ⟨hw, fun _ => rfl⟩
  · rw [hs] at hj
    cases hj

/-- The invariant of a run whose task has taken a step and is about to go on as the step said. -/
structure InTurn (roles : List Role) (log : List Effect) (t : TaskId) (turn : Turn) (m : Machine) :
    Prop extends Sane roles log m where
  paused : ∀ u ∈ m.paused, m.main = some u ∧
    ((∃ k, m.state? u = some (.waiting .resumption k)) ∨ u = t ∧ ∃ q, turn = .wait .resumption [] none q)
  self : m.state? t = some .running
  role : ∃ r, roles[t]? = some r ∧ turn.Suits roles r ∧ (r = .walker → m.Reaches turn)
  running : ∀ {u}, m.state? u = some .running → u = t

theorem role_append_iff (hm : Role.walker ∉ more) :
    (roles ++ more)[t]? = some .walker ↔ roles[t]? = some .walker := by
  refine ⟨fun h => ?_, getElem?_of_append⟩
  rw [List.getElem?_append] at h
  split at h
  · exact h
  · exact absurd (List.mem_of_getElem? h) hm

/-- What a step keeps of the invariant, apart from where the walker stands. -/
theorem Sane.step (h : Sane roles log m) {r : Role} {x : StepResult}
    (hp : Proceeds roles more r t m x)
    (hpark : ∀ {t s p}, m.main = some t → x.1.state? t = some s → x.1.pending? t = some p →
      s.Parked x.1 p) (hun : m.main = none → IsUnbegun x.1) : Sane (roles ++ more) log x.1 where
  fitting := hp.fitting
  main {u} := by
    rw [role_append_iff hp.others, hp.main]
    exact h.main
  watchers t ht := (hp.watchers t ht).elim (fun ht => getElem?_of_append (h.watchers t ht))
    getElem?_of_append
  tickets := by
    obtain ⟨d, hd, -, hu, -⟩ := hp.advance.story
    exact h.tickets.tends hp.tends hp.ticket ⟨d, hd, hu⟩
  parked hm := hpark (hp.main ▸ hm)
  unstarted hm := hun (hp.main ▸ hm)
  history := by
    obtain ⟨d, hd, hpass, -⟩ := hp.advance.story
    rw [hd, List.append_assoc]
    exact h.history.append hpass
  results hc hf := by
    obtain ⟨d, -, hpass, -⟩ := hp.advance.story
    obtain ⟨he, ho⟩ | ⟨-, hn⟩ := hp.advance.results
    · rw [he, ho]
      refine h.results (fun hs => hc ?_) fun hs => hf ?_
      · rw [hs] at hpass
        exact hpass.eq_of_terminal rfl
      · rw [hs] at hpass
        exact hpass.eq_of_terminal rfl
    · exact absurd hn (not_or.mpr ⟨hc, hf⟩)

/-- Nobody waits for the end of a pause while the walker is in the middle of its steps. -/
theorem Sound.paused_eq_nil {s : Strand} (h : Sound roles log (some s) m) (hm : m.main = some s.task) :
    m.paused = [] := by
  refine List.eq_nil_iff_forall_not_mem.mpr fun u hu => ?_
  obtain ⟨hu, k, hk⟩ := h.paused u hu
  rw [hm] at hu
  cases hu
  rw [(h.strand rfl).1] at hk
  cases hk

/-- The walker takes a step. -/
theorem Sound.stepWalker {s : Strand} (h : Sound roles log (some s) m) (w : World) (now : Moment)
    (hr : roles[s.task]? = some .walker) :
    let x := m.step (w.surroundings now) s.task s.control s.pending
    ∃ more, InTurn (roles ++ more) log s.task x.2 x.1 := by
  intro x
  obtain ⟨hrun, r, hr', hc, hstands⟩ := h.strand rfl
  rw [hr] at hr'
  cases hr'
  obtain ⟨⟨more, hp⟩, hreach⟩ := (hstands rfl).steps s.task h.fitting w now hc
  have hmain := h.main.mp hr
  have hself : x.1.state? s.task = some .running := hp.tends.running_iff.mpr hrun
  have hnone := h.paused_eq_nil hmain
  exact ⟨more, {
    toSane := h.toSane.step hp (fun hm hs _ => by
      rw [hmain] at hm
      cases hm
      rw [hself] at hs
      cases hs
      trivial) fun hm => by
        rw [hmain] at hm
        cases hm
    paused := fun u hu => by
      rcases hp.paused u hu with hu | hu
      · rw [hnone] at hu
        cases hu
      · exact ⟨by rw [hp.main, hmain, hu.1], .inr hu⟩
    self := hself
    role := ⟨.walker, getElem?_of_append hr, hp.suits, fun _ => hreach⟩
    running := fun hu => by
      obtain ⟨s', hs', ht⟩ := h.running (hp.tends.running_iff.mp hu)
      cases hs'
      exact ht.symm }⟩

/-- A task that does not walk takes a step. -/
theorem Sound.stepErrand {s : Strand} (h : Sound roles log (some s) m) (w : World) (now : Moment)
    {r : Role} (hr : roles[s.task]? = some r) (hne : r ≠ .walker) :
    let x := m.step (w.surroundings now) s.task s.control s.pending
    ∃ more, InTurn (roles ++ more) log s.task x.2 x.1 := by
  intro x
  obtain ⟨hrun, r', hr', hc, -⟩ := h.strand rfl
  rw [hr] at hr'
  cases hr'
  obtain ⟨more, ha, hsuits⟩ := step_aside h.fitting w now hr hne hc
  have hp : Proceeds roles more r s.task m x := .of_aside ha hsuits
  have hrunsame : x.1.run = m.run := ha.silent.mute.run
  have hpaused : x.1.paused = m.paused := ha.silent.mute.paused
  have htoken : x.1.token = m.token := ha.silent.mute.token
  exact ⟨more, {
    toSane := h.toSane.step hp (fun {t s' q} hm hs hq => by
      rw [ha.walker (h.main.mpr hm)] at hs
      rw [ha.tends.pending (lt_of_state? hs)] at hq
      exact parked_congr (congrArg Run.status hrunsame) (congrArg Run.stack hrunsame) htoken hpaused
        (h.parked hm hs hq)) fun hm =>
        (h.unstarted hm).congr (congrArg Run.status hrunsame) (congrArg Run.stack hrunsame)
    paused := fun u hu => by
      rw [hpaused] at hu
      obtain ⟨hm, k, hk⟩ := h.paused u hu
      refine ⟨by rw [hp.main]; exact hm, .inl ⟨k, ?_⟩⟩
      rw [ha.walker (h.main.mpr hm)]
      exact hk
    self := hp.tends.running_iff.mpr hrun
    role := ⟨r, getElem?_of_append hr, hp.suits, fun hw => absurd hw hne⟩
    running := fun hu => by
      obtain ⟨s', hs', ht⟩ := h.running (hp.tends.running_iff.mp hu)
      cases hs'
      exact ht.symm }⟩

section pending

variable (m t) (p)

/-- The machine with other work in a task. -/
def putPending : Machine :=
  m.modifyTask t ({ · with pending := p })

@[simp] theorem state?_putPending : (m.putPending t p).state? u = m.state? u := by
  simp only [state?, putPending, tasks_modifyTask, Array.getElem?_modify]
  split <;> simp [Function.comp_def]

@[simp] theorem observers?_putPending : (m.putPending t p).observers? u = m.observers? u := by
  simp only [observers?, putPending, tasks_modifyTask, Array.getElem?_modify]
  split <;> simp [Function.comp_def]

theorem pending?_putPending : (m.putPending t p).pending? u =
    if t = u then (m.pending? u).map fun _ => p else m.pending? u := by
  simp only [pending?, putPending, tasks_modifyTask, Array.getElem?_modify]
  split <;> simp [Function.comp_def]

end pending

/-- The work of a task that runs may be replaced. -/
theorem InTurn.putPending {x : Turn} (h : InTurn roles log t x m) (p : List Pending) :
    InTurn roles log t x (m.putPending t p) where
  fitting := h.fitting.modifyTask t _ fun r k hr hk => by
    have hs : m.state? t = some k.state := by
      have hk : m.tasks[t]? = some k := hk
      simp [state?, hk]
    rw [h.self] at hs
    rw [← Option.some.inj hs]
    trivial
  main := h.main
  watchers := h.watchers
  tickets := h.tickets.congr (fun _ => state?_putPending m t p) (fun _ => observers?_putPending m t p)
    rfl rfl
  parked {u s q} hu hs hq := by
    rw [state?_putPending] at hs
    rw [pending?_putPending] at hq
    split at hq
    · rename_i htu
      rw [← htu, h.self] at hs
      cases hs
      trivial
    · exact parked_congr (m := m) (n := m.putPending t p) rfl rfl rfl rfl (h.parked hu hs hq)
  unstarted := h.unstarted
  history := h.history
  results := h.results
  paused u hu := by
    obtain ⟨hm, hk⟩ := h.paused u hu
    refine ⟨hm, hk.imp_left (Exists.imp fun k hk => ?_)⟩
    rw [state?_putPending]
    exact hk
  self := by rw [state?_putPending]; exact h.self
  role := by
    obtain ⟨r, hr, hs, hw⟩ := h.role
    refine ⟨r, hr, hs, fun hwalk => ?_⟩
    have := hw hwalk
    cases x with
    | go c q => exact Stands.congr (m := m) (n := m.putPending t p) rfl rfl rfl this
    | wait v on limit q => exact Waits.congr (m := m) (n := m.putPending t p) rfl rfl rfl rfl this
    | pass q => exact Stands.congr (m := m) (n := m.putPending t p) rfl rfl rfl this
    | stop a => exact this
  running hu := by
    rw [state?_putPending] at hu
    exact h.running hu

/-- A task ends with its step. -/
theorem InTurn.stop {a : Answer} (h : InTurn roles log t (.stop a) m) :
    Sound roles log none (m.finish t a) := by
  obtain ⟨r, hr, hs, hw⟩ := h.role
  have hm := Mute.finish m t a
  have other {u : TaskId} (hu : t ≠ u) : (m.finish t a).state? u = m.state? u := by
    rw [state?_finish, if_neg hu]
  exact {
    toSane := h.toSane.finish (fun hh => by
      rw [hr] at hh
      exact hs (Option.some.inj hh)) fun hmain => by
        have := h.main.mpr hmain
        rw [hr] at this
        exact hw (Option.some.inj this)
    paused := fun u hu => by
      rw [hm.paused] at hu
      obtain ⟨hmain, ⟨k, hk⟩ | ⟨-, q, hq⟩⟩ := h.paused u hu
      · refine ⟨by rw [hm.main]; exact hmain, k, ?_⟩
        rw [other, hk]
        rintro rfl
        rw [h.self] at hk
        cases hk
      · cases hq
    strand := fun hs => by cases hs
    running := fun {u} hu => by
      rw [state?_finish] at hu
      split at hu
      · obtain ⟨_, -, hu⟩ := Option.map_eq_some_iff.mp hu
        cases hu
      · rename_i htu
        exact absurd (h.running hu).symm htu }

theorem own_pending? (h : m.state? t = some .running) : (m.putPending t p).pending? t = some p := by
  rw [pending?_putPending, if_pos rfl]
  obtain ⟨q, hq⟩ := exists_pending? h
  rw [hq]
  rfl

/-- The tasks that a wait is told of exist. -/
theorem lt_of_awaited (h : m.Fitting roles) {r : Role} {w : Wait} (hw : w.Suits roles r p) :
    ∀ o ∈ w.awaited, o < m.tasks.size := by
  have lt {o : TaskId} {r : Role} (ho : roles[o]? = some r) : o < m.tasks.size := by
    obtain ⟨hlt, -⟩ := List.getElem?_eq_some_iff.mp ho
    rw [h.size] at hlt
    exact hlt
  intro o ho
  cases w with
  | start a b =>
    have hr : r = .walker := by cases r <;> first | rfl | exact absurd hw id
    subst hr
    rcases List.mem_cons.mp ho with rfl | ho
    · exact lt hw.1
    · rw [List.mem_singleton.mp ho]
      exact lt hw.2
  | settlement a b c =>
    have hr : r = .walker := by cases r <;> first | rfl | exact absurd hw id
    subst hr
    rcases List.mem_cons.mp ho with rfl | ho
    · exact lt hw.1
    · rw [List.mem_singleton.mp ho]
      exact lt hw.2
  | grace a =>
    rw [List.mem_singleton.mp ho]
    cases r <;> first | exact lt hw | exact absurd hw id
  | removal a b c =>
    rw [List.mem_singleton.mp ho]
    cases r <;> first | exact lt hw.1 | exact absurd hw id
  | nap a =>
    rw [List.mem_singleton.mp ho]
    cases r <;> first | exact lt hw | exact lt hw.1 | exact absurd hw id
  | rousing a b =>
    rw [List.mem_singleton.mp ho]
    cases r <;> first | exact lt hw.1 | exact absurd hw id
  | grant => cases ho
  | cancellation => cases ho
  | resumption => cases ho
  | sleep => cases ho

/-- A task waits after its step. -/
theorem InTurn.wait {w : Wait} {on : List TaskId} {limit : Option Seconds}
    (h : InTurn roles log t (.wait w on limit p) m) (hp : m.pending? t = some p) :
    Sound roles log none (m.lull t w on limit) := by
  obtain ⟨r, hr, ⟨hw, rfl, hl⟩, hreach⟩ := h.role
  have hmute := Mute.lull m t w w.awaited limit
  have hrun := hmute.run
  have hstatus : (m.lull t w w.awaited limit).run.status = m.run.status := congrArg Run.status hrun
  have hstack : (m.lull t w w.awaited limit).run.stack = m.run.stack := congrArg Run.stack hrun
  have self : (m.lull t w w.awaited limit).state? t = some (.waiting w m.nextTicket) := by
    rw [state?_lull, if_pos rfl, h.self]
    rfl
  have other {u : TaskId} (hu : t ≠ u) : (m.lull t w w.awaited limit).state? u = m.state? u := by
    rw [state?_lull, if_neg hu]
  exact {
    fitting := by
      refine Fitting.of_tasks (h.fitting.suspend (t := t) (w := w) (fun r' q hr' hq => ?_) w.awaited)
        (tasks_lull w w.awaited limit)
      rw [hr] at hr'
      rw [hp] at hq
      cases hr'
      cases hq
      exact hw
    main := by rw [hmute.main]; exact h.main
    watchers := by rw [hmute.watchers]; exact h.watchers
    tickets := h.tickets.lull h.self (lt_of_awaited h.fitting hw) hl
    parked := fun {u s q} hu hs hq => by
      rw [hmute.main] at hu
      rw [pending?_lull] at hq
      refine parked_congr hstatus hstack hmute.token hmute.paused ?_
      by_cases htu : t = u
      · subst htu
        rw [self] at hs
        rw [hp] at hq
        cases hs
        cases hq
        rw [h.main.mpr hu] at hr
        cases hr
        exact hreach rfl
      · rw [other htu] at hs
        exact h.parked hu hs hq
    unstarted := fun hu => by
      rw [hmute.main] at hu
      exact (h.unstarted hu).congr hstatus hstack
    history := history_of_mute (m := m) h.history hmute.adds hstatus
    results := by rw [hrun]; exact h.results
    paused := fun u hu => by
      rw [hmute.paused] at hu
      obtain ⟨hm, ⟨k, hk⟩ | ⟨rfl, q, hq⟩⟩ := h.paused u hu
      · refine ⟨by rw [hmute.main]; exact hm, k, ?_⟩
        rw [other, hk]
        rintro rfl
        rw [h.self] at hk
        cases hk
      · cases hq
        exact ⟨by rw [hmute.main]; exact hm, _, self⟩
    strand := fun hs => by cases hs
    running := fun {u} hu => by
      by_cases htu : t = u
      · subst htu
        rw [self] at hu
        cases hu
      · rw [other htu] at hu
        exact absurd (h.running hu).symm htu }

/-- A task lets others go first after its step. -/
theorem InTurn.pass (h : InTurn roles log t (.pass p) m) (hp : m.pending? t = some p) :
    Sound roles log none ((m.setState t (.woken .sleep true false)).effect (.ready t)) := by
  obtain ⟨r, hr, rfl, hreach⟩ := h.role
  let n := (m.setState t (.woken .sleep true false)).effect (.ready t)
  have self : n.state? t = some (.woken .sleep true false) := by
    rw [state?_effect, state?_setState, if_pos rfl, h.self]
    rfl
  have other {u : TaskId} (hu : t ≠ u) : n.state? u = m.state? u := by
    rw [state?_effect, state?_setState, if_neg hu]
  have hs : Silent m n := .woken m t _
  have hmoved : (m.setState t (.woken .sleep true false)).Fitting roles :=
    h.fitting.modifyTask t _ fun r k hr' _ => by
      rw [hr] at hr'
      cases hr'
      exact ⟨trivial, fun _ => rfl⟩
  have htickets : (m.setState t (.woken .sleep true false)).Ticketed log :=
    h.tickets.setState (fun a ha => by rw [h.self] at ha; cases ha) (by simp) (by simp)
  exact {
    fitting := hmoved.of_tasks rfl
    main := h.main
    watchers := h.watchers
    tickets := htickets.tends (.effect _ _) rfl (.effect _ fun _ _ => rfl)
    parked := fun {u s q} hu hs hq => by
      refine parked_congr (m := m) (n := n) rfl rfl rfl rfl ?_
      have hq : m.pending? u = some q := by simpa [n] using hq
      by_cases htu : t = u
      · subst htu
        rw [self] at hs
        rw [hp] at hq
        cases hs
        cases hq
        exact hreach rfl
      · rw [other htu] at hs
        exact h.parked hu hs hq
    unstarted := h.unstarted
    history := history_of_mute h.history hs.mute.adds rfl
    results := h.results
    paused := fun u hu => by
      obtain ⟨hm, ⟨k, hk⟩ | ⟨-, q, hq⟩⟩ := h.paused u hu
      · refine ⟨hm, k, ?_⟩
        rw [other, hk]
        rintro rfl
        rw [h.self] at hk
        cases hk
      · cases hq
    strand := fun hs => by cases hs
    running := fun {u} hu => by
      by_cases htu : t = u
      · subst htu
        rw [self] at hu
        cases hu
      · rw [other htu] at hu
        exact absurd (h.running hu).symm htu }

theorem modifyTask_eq (m : Machine) (t : TaskId) (p : List Pending) (s : TaskState) :
    m.modifyTask t (fun k => { k with pending := p, state := s }) = (m.putPending t p).setState t s := by
  have h : m.tasks.modify t (fun k => { k with pending := p, state := s }) =
      (m.tasks.modify t ({ · with pending := p })).modify t ({ · with state := s }) := by
    apply Array.ext_getElem?
    intro i
    simp only [Array.getElem?_modify]
    split <;> simp [Function.comp_def]
  exact congrArg (fun tasks => { m with tasks }) h

/-- A task goes on as its step said. -/
theorem InTurn.turn {x : Turn} (h : InTurn roles log t x m) :
    Sound roles log ((m.turn t x).2.map fun (c, p) => ⟨t, c, p⟩) (m.turn t x).1 := by
  cases x with
  | go c p =>
    obtain ⟨r, hr, hs, hw⟩ := h.role
    exact {
      toSane := h.toSane
      paused := fun u hu => by
        obtain ⟨hm, hk | ⟨-, q, hq⟩⟩ := h.paused u hu
        · exact ⟨hm, hk⟩
        · cases hq
      strand := fun hs' => by
        cases hs'
        exact ⟨h.self, r, hr, hs, hw⟩
      running := fun hu => ⟨_, rfl, (h.running hu).symm⟩ }
  | wait w on limit p =>
    have ht : m.turn t (.wait w on limit p) = ((m.putPending t p).lull t w on limit, none) := by
      cases limit <;> rfl
    rw [ht]
    exact (h.putPending p).wait (own_pending? h.self)
  | pass p =>
    have ht : m.turn t (.pass p) =
        (((m.putPending t p).setState t (.woken .sleep true false)).effect (.ready t), none) :=
      congrArg (fun n : Machine => (n.effect (.ready t), none)) (modifyTask_eq m t p _)
    rw [ht]
    exact (h.putPending p).pass (own_pending? h.self)
  | stop a => exact h.stop

/-- A step of the task in the middle of its steps keeps the invariant. -/
theorem Sound.step {s : Strand} (h : Sound roles log (some s) m) (w : World) (now : Moment) :
    let x := m.step (w.surroundings now) s.task s.control s.pending
    let y := x.1.turn s.task x.2
    ∃ more, Sound (roles ++ more) log (y.2.map fun (c, p) => ⟨s.task, c, p⟩) y.1 := by
  obtain ⟨-, r, hr, -⟩ := h.strand rfl
  by_cases hw : r = .walker
  · obtain ⟨more, ht⟩ := h.stepWalker w now (hw ▸ hr)
    exact ⟨more, ht.turn⟩
  · obtain ⟨more, ht⟩ := h.stepErrand w now hr hw
    exact ⟨more, ht.turn⟩

end Machine

end Workflow
