import Workflow.Proofs.Run.Charge
import Workflow.Proofs.Run.Undisturbed
/-!
The steps of a run that nothing cuts short. The task that takes a step cancels only its own watcher and
what was carried out for it, and all others keep what they wait with: their watchers stay on the watch,
watchers that were told to end do so, and handlers stay headed for their answers.
-/

namespace Workflow

/-- What a task does next fits its part. -/
theorem Machine.post_suits {roles : List Role} {m : Machine} {t : TaskId} {c : Control}
    {p : List Pending} (h : m.Fitting roles) (hp : m.post t = some (.doing c p)) :
    p = (m.pending? t).getD [] ∧ ∃ q, roles[t]? = some q ∧ c.Suits roles q p := by
  cases hs : m.state? t with
  | none =>
    rw [post, hs] at hp
    cases hp
  | some s =>
    obtain ⟨q, hq⟩ := exists_role h hs
    obtain ⟨k, hk⟩ := exists_pending? hs
    have hfit := h.state hq hs hk
    rw [post_of_state? hs, hk, Option.getD_some] at hp
    rw [hk, Option.getD_some]
    cases s with
    | fresh d i =>
      cases i with
      | false => cases hp; exact ⟨rfl, q, hq, hfit.1⟩
      | true => cases hp
    | waiting v j => cases hp; exact ⟨rfl, q, hq, hfit, fun _ => rfl⟩
    | woken v a i => cases hp; exact ⟨rfl, q, hq, hfit⟩
    | running => cases hp
    | ended a => cases hp

/-- A watcher that was told to end may be told so again. -/
theorem TaskState.isDismissed_interrupted {s : TaskState} {p : List Pending} {a : Post}
    (h : s.post p = some a) (ha : a.IsDismissed) :
    ∃ b, s.interrupted.post p = some b ∧ b.IsDismissed := by
  cases s with
  | fresh c i => exact ⟨_, rfl, .leaving⟩
  | waiting v k => cases h; cases ha
  | woken v b i =>
    cases h
    cases ha
    exact ⟨_, rfl, .woken b⟩
  | running => cases h
  | ended b => exact ⟨a, h, ha⟩

/-- A handler begins. -/
theorem Machine.handle_heads {m : Machine} (hl : m.token.cancelled = false) (env : Surroundings)
    (hb : env.registry.IsBuiltin) (c : Call) :
    (m.handle env c []).2.post.Heads env.registry (env.registry.reply c) := by
  unfold handle Registry.reply
  cases hreg : Entries.find? c.node.kind env.registry with
  | none => exact .answer _
  | some reg =>
    obtain ⟨b, hb⟩ := hb.handler hreg
    dsimp only
    rw [hb]
    dsimp only
    cases b.act c.config c.vars with
    | error f => exact .answer _
    | ok act =>
      cases act with
      | reply a _ => exact .answer _
      | rest ms =>
        dsimp only
        unfold rest
        split
        · rw [hl]
          exact .rested false
        · exact .nap _ false

/-- A task that goes on with a wait does so after its step. -/
theorem Turn.wait_of_post {x : Turn} {v : Wait} {s i : Bool} {p : List Pending}
    (h : x.post = .doing (.wake v s i) p) (hgo : ∀ d q, x = .go d q → d.wait? = none)
    (hv : v.guard? ≠ none ∨ v.IsSequel) : ∃ on limit, x = .wait v on limit p := by
  cases x with
  | go d q =>
    cases h
    cases hgo _ _ rfl
  | wait w on limit q =>
    cases h
    exact ⟨on, limit, rfl⟩
  | pass q =>
    cases h
    exact (hv.elim (fun h => h rfl) id).elim
  | stop a => cases h

namespace Execution

variable {x : Execution} {w : World} {t u : TaskId} {v : Wait} {r : Registry} {roles : List Role}
  {s : Strand}

theorem Bides.suits (h : x.machine.Sound roles x.log x.active) (hb : x.Bides t v) :
    ∃ q p, roles[t]? = some q ∧ v.Suits roles q p := by
  obtain ⟨a, i, p, hp⟩ := hb
  by_cases ht : ∃ s, x.active = some s ∧ s.task = t
  · obtain ⟨s, hs, rfl⟩ := ht
    rw [post_self hs] at hp
    obtain ⟨-, q, hq, hsuits, -⟩ := h.strand hs
    rw [(Post.doing.inj (Option.some.inj hp)).1] at hsuits
    exact ⟨q, _, hq, hsuits.1⟩
  · rw [post_other fun s hs hst => ht ⟨s, hs, hst⟩] at hp
    obtain ⟨-, q, hq, hsuits⟩ := Machine.post_suits h.fitting hp
    exact ⟨q, p, hq, hsuits.1⟩

section step

variable (hs : x.active = some s) (hr : x.machine.Sound roles x.log (some s)) (now : Moment)

include hs

theorem post_of_strand (hne : s.task ≠ t) : x.post t = x.machine.post t :=
  post_other fun a ha hat => hne (by rw [hs] at ha; cases ha; exact hat)

theorem state?_step_other (hne : s.task ≠ t) : (x.step w now).machine.state? t =
    (x.machine.step (w.surroundings now) s.task s.control s.pending).1.state? t := by
  rw [step_eq hs]
  exact Machine.state?_turn_other _ hne

include hr

/-- Another task than the one that takes a step has been waiting before, if it waits with a watcher or
for the end of one. -/
theorem Bides.of_step (hne : s.task ≠ t) (hb : (x.step w now).Bides t v)
    (hv : v.guard? ≠ none ∨ v.IsSequel) : x.Bides t v := by
  obtain ⟨a, i, p, hp⟩ := hb
  rw [post_step_other hs now hne] at hp
  have hm := hr.step_minds w now
  obtain ⟨_, more, hproc⟩ := hr.proceeds w now
  generalize x.machine.step (w.surroundings now) s.task s.control s.pending = z at hp hm hproc
  cases hst : x.machine.state? t with
  | some st =>
    have hpd := hproc.tends.pending (Machine.lt_of_state? hst)
    obtain ⟨a, i, p, hp⟩ : ∃ a i p,
        st.post ((x.machine.pending? t).getD []) = some (.doing (.wake v a i) p) := by
      rcases hm.old t st hst with hz | ⟨-, hz⟩
      · rw [Machine.post_of_state? hz, hpd] at hp
        exact ⟨a, i, p, hp⟩
      · rw [Machine.post_of_state? hz, hpd] at hp
        obtain ⟨_, a, i, hq, hc, -⟩ := TaskState.post_interrupted hp
        cases hc
        exact ⟨a, i, _, hq⟩
    exact ⟨a, i, p, (post_of_strand hs hne).trans ((Machine.post_of_state? hst).trans hp)⟩
  | none =>
    -- The task is new, and new tasks begin with something else.
    have hsize := Machine.state?_eq_none.mp hst
    obtain ⟨hpd, q, hq, hsuits, -⟩ := Machine.post_suits hproc.fitting hp
    rw [(hproc.tends.blank hsize).1] at hpd
    subst hpd
    have hw : q ≠ .walker := by
      rintro rfl
      rw [List.getElem?_append_right (by rw [hr.fitting.size]; exact hsize)] at hq
      exact hproc.others (List.mem_of_getElem? hq)
    exfalso
    cases q with
    | walker => exact hw rfl
    | taker => cases v <;> first | exact hsuits | exact hv.elim (fun h => h rfl) id
    | watcher => cases v <;> first | exact hsuits | exact hv.elim (fun h => h rfl) id
    | handler => cases v <;> first | exact hsuits | cases hsuits.2

/-- A task that another one is not about to cancel keeps its post. -/
theorem post_of_spared {a : Post} (ha : x.post u = some a) (hne : s.task ≠ u)
    (hnot : ∀ v, s.control.wait? = some v → ¬ v.Charges u) : (x.step w now).post u = some a := by
  obtain ⟨_, more, hproc⟩ := hr.proceeds w now
  rw [post_of_strand hs hne] at ha
  cases hst : x.machine.state? u with
  | none =>
    rw [Machine.post, hst] at ha
    cases ha
  | some st =>
    have kept : (x.machine.step (w.surroundings now) s.task s.control s.pending).1.state? u =
        some st :=
      ((hr.step_minds w now).old u st hst).elim id fun h =>
        h.1.elim fun v hv => absurd hv.2 (hnot v hv.1)
    rw [post_step_other hs now hne, Machine.post_of_state? kept,
      hproc.tends.pending (Machine.lt_of_state? hst), ← Machine.post_of_state? hst, ha]

theorem Vigilant.of_spared (hv : x.Vigilant u) (hne : s.task ≠ u)
    (hnot : ∀ v, s.control.wait? = some v → ¬ v.Charges u) : (x.step w now).Vigilant u := by
  rcases hv with hv | ⟨k, hk⟩
  · exact .inl (post_of_spared hs hr now hv hne hnot)
  · refine .inr ⟨k, (state?_step_other hs now hne).trans ?_⟩
    exact ((hr.step_minds w now).old u _ hk).elim id fun h =>
      h.1.elim fun v hv => absurd hv.2 (hnot v hv.1)

/-- A watcher begins to wait. -/
theorem Vigilant.of_self (hv : x.Vigilant s.task) (hl : x.machine.token.cancelled = false) :
    (x.step w now).Vigilant s.task := by
  have hrun := (hr.strand rfl).1
  rcases hv with hv | ⟨k, hk⟩
  · rw [post_self hs] at hv
    obtain ⟨hc, hp⟩ := Post.doing.inj (Option.some.inj hv)
    refine .inr ⟨x.machine.nextTicket, ?_⟩
    have hwatch : x.machine.watch s.task [] = ({ x.machine with
        watchers := x.machine.watchers ++ [s.task] }, .wait .cancellation [] none []) := by
      unfold Machine.watch
      rw [hl]
      rfl
    rw [step_eq hs, hc, hp]
    show ((x.machine.watch s.task []).1.turn s.task (x.machine.watch s.task []).2).1.state? _ = _
    rw [hwatch]
    exact Machine.state?_turn_wait (by exact hrun) _ _ _ _
  · rw [hrun] at hk
    cases hk

/-- Where the task that takes a step stands after it. -/
theorem post_of_self : (x.step w now).post s.task =
    some (x.machine.step (w.surroundings now) s.task s.control s.pending).2.post :=
  post_step hs now ((hr.step_tends w now).running_iff.mpr (hr.strand rfl).1)

theorem Dismissed.step (hd : x.Dismissed u) : (x.step w now).Dismissed u := by
  obtain ⟨a, ha, hd⟩ := hd
  by_cases hne : s.task = u
  · subst hne
    rw [post_self hs] at ha
    rw [Dismissed, post_of_self hs hr now]
    cases hd with
    | leaving => cases ha
    | woken b =>
      obtain ⟨hc, hp⟩ := Post.doing.inj (Option.some.inj ha)
      rw [hc, hp]
      exact ⟨_, rfl, .answer⟩
    | answer =>
      obtain ⟨hc, hp⟩ := Post.doing.inj (Option.some.inj ha)
      rw [hc, hp]
      exact ⟨_, rfl, .ended⟩
    | ended => cases ha
  · rw [post_of_strand hs hne] at ha
    obtain ⟨_, more, hproc⟩ := hr.proceeds w now
    cases hst : x.machine.state? u with
    | none =>
      rw [Machine.post, hst] at ha
      cases ha
    | some st =>
      rw [Machine.post_of_state? hst] at ha
      rw [Dismissed, post_step_other hs now hne]
      rcases (hr.step_minds w now).old u st hst with hz | ⟨-, hz⟩
      · rw [Machine.post_of_state? hz, hproc.tends.pending (Machine.lt_of_state? hst)]
        exact ⟨a, ha, hd⟩
      · rw [Machine.post_of_state? hz, hproc.tends.pending (Machine.lt_of_state? hst)]
        exact TaskState.isDismissed_interrupted ha hd

end step

/-- How a task has ended says where it stands. -/
theorem post_of_ending? (h : x.machine.Sound roles x.log x.active) {a : Answer}
    (ha : x.machine.ending? u = some a) : x.post u = some (.ended a) := by
  have hst : x.machine.state? u = some (.ended a) := by
    unfold Machine.ending? at ha
    split at ha
    · cases ha
      assumption
    · cases ha
  rw [post_other, Machine.post_of_state? hst]
  · rfl
  · rintro s hs rfl
    rw [(h.strand hs).1] at hst
    cases hst

theorem Vigilant.ending? (h : x.machine.Sound roles x.log x.active) (hv : x.Vigilant u) :
    x.machine.ending? u = none := by
  cases ha : x.machine.ending? u with
  | none => rfl
  | some a =>
    have hp := post_of_ending? h ha
    rcases hv with hv | ⟨k, hk⟩
    · rw [hp] at hv
      cases hv
    · rw [Machine.ending?, hk] at ha
      cases ha

theorem Dismissed.ending? (h : x.machine.Sound roles x.log x.active) (hd : x.Dismissed u)
    {a : Answer} (ha : x.machine.ending? u = some a) : a = .interrupted := by
  obtain ⟨b, hb, hd⟩ := hd
  rw [post_of_ending? h ha] at hb
  cases hb
  cases hd
  rfl

/-- A handler's step keeps it headed for its answer. -/
theorem Undisturbed.heads (hx : x.Undisturbed r) (hs : x.active = some s)
    (hr : x.machine.Sound roles x.log (some s)) {now : Moment} (hn : now.registry = r) {e : Answer}
    (hh : x.Heads r s.task e) : (x.step w now).Heads r s.task e := by
  obtain ⟨a, ha, hh⟩ := hh
  have hr' : x.machine.Sound roles x.log x.active := by rw [hs]; exact hr
  have hb {v : Wait} {b i : Bool} {p : List Pending}
      (hp : x.post s.task = some (.doing (.wake v b i) p)) : x.Bides s.task v := ⟨b, i, p, hp⟩
  rw [Heads, post_of_self hs hr now]
  refine ⟨_, rfl, ?_⟩
  cases hh with
  | handle c =>
    rw [post_self hs] at ha
    obtain ⟨hc, hp⟩ := Post.doing.inj (Option.some.inj ha)
    rw [hc, hp, ← hn]
    exact Machine.handle_heads hx.live (w.surroundings now) now.builtin c
  | nap u b =>
    have hend : x.machine.hasEnded u = false := by
      rw [Machine.hasEnded, (hx.guarded (hb ha) rfl).ending? hr']
      rfl
    rw [post_self hs] at ha
    obtain ⟨hc, hp⟩ := Post.doing.inj (Option.some.inj ha)
    rw [hc, hp]
    show Post.Heads r (x.machine.wake _ _ _ _ _ _).2.post _
    unfold Machine.wake
    dsimp only
    rw [if_neg (by rw [show (x.machine.dropTimer s.task).hasEnded u = false from hend]; decide)]
    exact .rousing u false
  | rousing u b =>
    have hd := hx.dismissed (hb ha)
    rw [post_self hs] at ha
    obtain ⟨hc, hp⟩ := Post.doing.inj (Option.some.inj ha)
    rw [hc, hp]
    show Post.Heads r (x.machine.wake _ _ _ _ _ _).2.post _
    unfold Machine.wake
    dsimp only
    rw [if_neg (by decide)]
    split
    · rename_i he
      cases hd.ending? hr' he
    · exact .rested false
  | rested b =>
    rw [post_self hs] at ha
    obtain ⟨hc, hp⟩ := Post.doing.inj (Option.some.inj ha)
    rw [hc, hp]
    exact .answer _
  | answer =>
    rw [post_self hs] at ha
    obtain ⟨hc, hp⟩ := Post.doing.inj (Option.some.inj ha)
    rw [hc, hp]
    exact .ended _
  | ended =>
    rw [post_self hs] at ha
    cases ha

section undisturbed

variable (hs : x.active = some s) (hr : x.machine.Sound roles x.log (some s)) {now : Moment}

include hs

theorem bides_of_strand (hc : s.control.wait? = some v) : x.Bides s.task v := by
  obtain ⟨a, i, hc⟩ : ∃ a i, s.control = .wake v a i := by
    cases h : s.control with
    | wake w a i =>
      rw [h] at hc
      cases hc
      exact ⟨a, i, rfl⟩
    | _ =>
      rw [h] at hc
      cases hc
  exact ⟨a, i, s.pending, by rw [post_self hs, hc]⟩

include hr

/-- The task that takes a step comes to wait for what its step says. -/
theorem Bides.of_self (hb : (x.step w now).Bides s.task v) (hv : v.guard? ≠ none ∨ v.IsSequel) :
    ∃ on limit p, (x.machine.step (w.surroundings now) s.task s.control s.pending).2 =
      .wait v on limit p := by
  obtain ⟨a, i, p, hp⟩ := hb
  rw [post_of_self hs hr now] at hp
  obtain ⟨on, limit, hz⟩ := Turn.wait_of_post (Option.some.inj hp)
    (fun _ _ => (hr.step_minds w now).go) hv
  exact ⟨on, limit, p, hz⟩

/-- The watchers and the handlers of others are not cancelled. -/
theorem Undisturbed.not_charges (hx : x.Undisturbed r) (hne : s.task ≠ t) (hb : x.Bides t v)
    (hu : v.guard? = some u) {v' : Wait} (hc : s.control.wait? = some v') : ¬ v'.Charges u := by
  have hr' : x.machine.Sound roles x.log x.active := by rw [hs]; exact hr
  have hself := bides_of_strand hs hc
  obtain ⟨_, _, -, hsuits⟩ := hb.suits hr'
  obtain ⟨_, _, -, hsuits'⟩ := hself.suits hr'
  have hwatcher := Machine.guard_suits hsuits hu
  rintro (hg | hw)
  · exact hne (hx.guardian hb hu hself hg)
  · rcases (Machine.ward_suits hsuits' hw).2 with h | h <;> rw [hwatcher] at h <;> cases h

theorem Undisturbed.guarded_step (hx : x.Undisturbed r) (hb : (x.step w now).Bides t v)
    (hu : v.guard? = some u) : (x.step w now).Vigilant u := by
  have hv : v.guard? ≠ none := by rw [hu]; simp
  obtain ⟨_, more, hproc⟩ := hr.proceeds w now
  by_cases hne : s.task = t
  · subst hne
    obtain ⟨on, limit, p, hz⟩ := hb.of_self hs hr (.inl hv)
    obtain ⟨hsize, hst⟩ := (hr.step_minds w now).guard hz hu
    have hne : s.task ≠ u := by
      rintro rfl
      exact absurd (Machine.lt_of_state? (hr.strand rfl).1) (Nat.not_lt.mpr hsize)
    refine .inl ?_
    rw [post_step_other hs now hne, Machine.post_of_state? hst, (hproc.tends.blank hsize).1]
    rfl
  · have hb := hb.of_step hs hr now hne (.inl hv)
    by_cases hself : s.task = u
    · subst hself
      exact (hx.guarded hb hu).of_self hs hr now hx.live
    · exact (hx.guarded hb hu).of_spared hs hr now hself fun _ => hx.not_charges hs hr hne hb hu

theorem Undisturbed.guardian_step (hx : x.Undisturbed r) {t' : TaskId} {v' : Wait}
    (hb : (x.step w now).Bides t v) (hu : v.guard? = some u) (hb' : (x.step w now).Bides t' v')
    (hu' : v'.guard? = some u) : t' = t := by
  have hr' : x.machine.Sound roles x.log x.active := by rw [hs]; exact hr
  have hv : v.guard? ≠ none := by rw [hu]; simp
  have hv' : v'.guard? ≠ none := by rw [hu']; simp
  -- The watcher of the task that takes the step is new, those of others are old.
  have new {v : Wait} (hb : (x.step w now).Bides s.task v) (hu : v.guard? = some u) :
      x.machine.tasks.size ≤ u := by
    obtain ⟨on, limit, p, hz⟩ := hb.of_self hs hr (.inl (by rw [hu]; simp))
    exact ((hr.step_minds w now).guard hz hu).1
  have old {t : TaskId} {v : Wait} (hb : x.Bides t v) (hu : v.guard? = some u) :
      u < x.machine.tasks.size := by
    obtain ⟨_, _, -, hsuits⟩ := hb.suits hr'
    exact hr.fitting.lt (Machine.guard_suits hsuits hu)
  by_cases hne : s.task = t
  · by_cases hne' : s.task = t'
    · exact hne'.symm.trans hne
    · subst hne
      exact absurd (old (hb'.of_step hs hr now hne' (.inl hv')) hu') (Nat.not_lt.mpr (new hb hu))
  · by_cases hne' : s.task = t'
    · subst hne'
      exact absurd (old (hb.of_step hs hr now hne (.inl hv)) hu) (Nat.not_lt.mpr (new hb' hu'))
    · exact hx.guardian (hb.of_step hs hr now hne (.inl hv)) hu
        (hb'.of_step hs hr now hne' (.inl hv')) hu'

theorem Undisturbed.dismissed_step (hx : x.Undisturbed r) {i : Bool}
    (hb : (x.step w now).Bides t (.rousing u i)) : (x.step w now).Dismissed u := by
  have hr' : x.machine.Sound roles x.log x.active := by rw [hs]; exact hr
  by_cases hne : s.task = t
  · subst hne
    obtain ⟨on, limit, p, hz⟩ := hb.of_self hs hr (.inr trivial)
    obtain ⟨hc, hcut⟩ := (hr.step_minds w now).rousing hz
    obtain ⟨_, more, hproc⟩ := hr.proceeds w now
    have hself := bides_of_strand hs hc
    obtain ⟨_, _, -, hsuits⟩ := hself.suits hr'
    have hrole := Machine.guard_suits hsuits (u := u) rfl
    have hrun := (hr.strand rfl).1
    have hne : s.task ≠ u := by
      rintro rfl
      rcases hx.guarded hself rfl with hv | ⟨k, hk⟩
      · obtain ⟨a, j, q, hq⟩ := hself
        rw [hq] at hv
        cases hv
      · rw [hrun] at hk
        cases hk
    have dismissed {st : TaskState} (hst : x.machine.state? u = some st)
        (hp : ∀ q, x.machine.pending? u = some q → ∃ a, st.interrupted.post q = some a ∧ a.IsDismissed) :
        (x.step w now).Dismissed u := by
      obtain ⟨q, hq⟩ := Machine.exists_pending? hst
      rw [Dismissed, post_step_other hs now hne, Machine.post_of_state? (hcut st hst),
        hproc.tends.pending (Machine.lt_of_state? hst), hq]
      exact hp q hq
    rcases hx.guarded hself rfl with hv | ⟨k, hk⟩
    · rw [post_of_strand hs hne] at hv
      cases hst : x.machine.state? u with
      | none =>
        rw [Machine.post, hst] at hv
        cases hv
      | some st =>
        refine dismissed hst fun q hq => ?_
        rw [Machine.post_of_state? hst] at hv
        cases st with
        | fresh d j => exact ⟨_, rfl, .leaving⟩
        | ended a => cases hv
        | _ => cases hv
    · refine dismissed hk fun q hq => ?_
      have hq : q = [] := hr.fitting.state hrole hk hq
      subst hq
      exact ⟨_, rfl, .woken false⟩
  · exact (hx.dismissed (hb.of_step hs hr now hne (.inr trivial))).step hs hr now

theorem Undisturbed.handler_step (hx : x.Undisturbed r) (h : x.IsSound) (hn : now.registry = r)
    {a : Attempt} {k : TaskId} (hb : (x.step w now).Bides t (.settlement a k u)) :
    ∃ call, (x.step w now).machine.call? a = some call ∧ (x.step w now).Heads r k (r.reply call) := by
  have hr' : x.machine.Sound roles x.log x.active := by rw [hs]; exact hr
  by_cases hne : s.task = t
  · subst hne
    obtain ⟨on, limit, p, hz⟩ := hb.of_self hs hr (.inl (by simp [Wait.guard?]))
    obtain ⟨call, hcall, hlayers, hst⟩ := (hr.step_minds w now).handler hz
    obtain ⟨q, more, hproc⟩ := hr.proceeds w now
    have hne : s.task ≠ k := by
      rintro rfl
      rw [(hr.step_tends w now).running_iff.mpr (hr.strand rfl).1] at hst
      cases hst
    refine ⟨call, ?_, _, ?_, .handle call⟩
    · rw [← hcall]
      refine Machine.call?_congr ?_ a
      rw [step_eq hs]
      exact (Machine.turn_layers _ _ _).trans hlayers
    · have hsuits := hproc.suits
      rw [hz] at hsuits
      have hw : (Wait.settlement a k u).Suits (roles ++ more) q p := hsuits.1
      obtain ⟨-, hrole⟩ := Machine.settlement_suits hw
      obtain ⟨p, hp⟩ := Machine.exists_pending? hst
      have hp' : p = [] := (hproc.fitting.state hrole hst hp).1
      rw [post_step_other hs now hne, Machine.post_of_state? hst, hp, hp']
      rfl
  · have hb := hb.of_step hs hr now hne (.inl (by simp [Wait.guard?]))
    obtain ⟨call, hcall, hheads⟩ := hx.handler hb
    obtain ⟨q, p, hq, hsuits⟩ := hb.suits hr'
    obtain ⟨rfl, hrole⟩ := Machine.settlement_suits hsuits
    have hmain := hr.main.mp hq
    have hother : x.machine.main ≠ some s.task := by
      rw [hmain]
      exact fun he => hne (Option.some.inj he).symm
    have hlayers := (step_attends (w := w) h hs hother now).layers
    refine ⟨call, (Machine.call?_congr hlayers a).trans hcall, ?_⟩
    by_cases hself : s.task = k
    · subst hself
      exact hx.heads hs hr hn hheads
    · obtain ⟨b, hb', hh⟩ := hheads
      refine ⟨b, post_of_spared hs hr now hb' hself fun v' hc => ?_, hh⟩
      obtain ⟨_, _, hq', hsuits'⟩ := (bides_of_strand hs hc).suits hr'
      rintro (hg | hw)
      · rw [Machine.guard_suits hsuits' hg] at hrole
        cases hrole
      · obtain ⟨rfl, -⟩ := Machine.ward_suits hsuits' hw
        exact hother (hr.main.mp hq')

end undisturbed

/-- A step of a run that nothing cuts short. -/
theorem Undisturbed.step (h : x.IsSound) (hx : x.Undisturbed r) {now : Moment}
    (hn : now.registry = r) : (x.step w now).Undisturbed r := by
  cases hs : x.active with
  | none =>
    rw [Execution.step, hs]
    exact hx
  | some s =>
    obtain ⟨he, roles, hr'⟩ := h
    have hr := hr'
    rw [hs] at hr
    exact {
      live := by
        obtain ⟨_, more, hproc⟩ := hr.proceeds w now
        rw [step_eq hs, ← hx.live, ← hproc.advance.token]
        exact (congrArg (·.token.cancelled) (Machine.turn_core _ s.task _) :)
      guarded := hx.guarded_step hs hr
      guardian := hx.guardian_step hs hr
      dismissed := hx.dismissed_step hs hr
      handler := hx.handler_step hs hr ⟨he, roles, hr'⟩ hn
      graceless := fun {t k} hb => by
        by_cases hne : s.task = t
        · subst hne
          obtain ⟨on, limit, p, hz⟩ := hb.of_self hs hr (.inr trivial)
          obtain ⟨v, u, hc, hu, hend⟩ := (hr.step_minds w now).grace hz
          have hv := (hx.guarded (bides_of_strand hs hc) hu).ending? hr'
          rw [Machine.hasEnded, hv] at hend
          cases hend
        · exact hx.graceless (hb.of_step hs hr now hne (.inr trivial)) }

end Execution

end Workflow
