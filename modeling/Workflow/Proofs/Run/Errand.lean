import Workflow.Proofs.Run.Walk
/-!
Steps that only concern the tasks of a run: those of takers, watchers and handlers, and those of the
walker after a wait. They leave the record of the run and its variables alone.
-/

namespace Workflow

theorem Registry.IsBuiltin.handler {r : Registry} (h : r.IsBuiltin) {kind : String}
    {reg : Registration} (hk : Entries.find? kind r = some reg) : ∃ b, reg.handler = .builtin b := by
  induction r with
  | nil => cases hk
  | cons e rest ih =>
    obtain ⟨k, a⟩ := e
    rw [Entries.find?] at hk
    split at hk
    · cases hk
      exact h _ List.mem_cons_self
    · exact ih (fun e he => h e (List.mem_cons_of_mem _ he)) hk

namespace Turn

/-- Whether a task goes on in a way that suits its part. -/
def Suits (roles : List Role) (r : Role) : Turn → Prop
  | .go c p => c.Suits roles r p
  | .wait w on limit p => w.Suits roles r p ∧ w.awaited = on ∧ limit.isSome = w.isTimed
  | .pass _ => r = .walker
  | .stop a => r = .handler → a.Concludes []

/-- Whether a task goes on after a wait: with an answer to the same work, or waiting again. -/
inductive Resumes (cancelled : Bool) (roles : List Role) (r : Role) (p : List Pending) : Turn → Prop
  | answer (a : Answer) (hs : (Control.answer a).Suits roles r p) (ha : r = .walker → a.Meets p)
      (hl : (Control.answer a).IsLive → cancelled = false) :
      Resumes cancelled roles r p (.answer a p)
  | wait (w : Wait) (on : List TaskId) (limit : Option Seconds) (hw : w.IsWalk)
      (hs : w.Suits roles r p) (hm : r = .walker → w.Meets p) (ho : w.awaited = on)
      (hl : limit.isSome = w.isTimed) : Resumes cancelled roles r p (.wait w on limit p)

theorem Resumes.suits {cancelled : Bool} {roles : List Role} {r : Role} {p : List Pending} {t : Turn}
    (h : t.Resumes cancelled roles r p) : t.Suits roles r := by
  cases h with
  | answer a hs => exact hs
  | wait w on limit _ hs _ ho hl => exact ⟨hs, ho, hl⟩

/-- An answer at the end of a rest. -/
theorem Resumes.rested {cancelled : Bool} {roles : List Role} {r : Role} {p : List Pending}
    (cutShort : Bool)
    (hp : r = .walker ∨ r = .handler ∧ p = [.rest])
    (hm : r = .walker → (Answer.rested false).Meets p) :
    Resumes cancelled roles r p (.answer (.rested cutShort) p) := by
  refine .answer _ ?_ (fun hw => ?_) False.elim
  · rcases hp with rfl | ⟨rfl, rfl⟩ <;> trivial
  · cases p with
    | nil => exact absurd (hm hw) id
    | cons k p =>
      cases k <;> trivial

end Turn

/-- Walkers and handlers rest. -/
theorem Wait.Suits.rests {roles : List Role} {r : Role} {p : List Pending} {w : Wait}
    (h : w.Suits roles r p) (hw : (∃ u, w = .nap u) ∨ ∃ u i, w = .rousing u i) :
    r = .walker ∨ r = .handler ∧ p = [.rest] := by
  rcases hw with ⟨u, rfl⟩ | ⟨u, i, rfl⟩ <;> cases r <;>
    first | exact .inl rfl | exact .inr ⟨rfl, h.2⟩ | exact absurd h id

namespace Machine

variable {roles more : List Role} {r : Role} {m n o : Machine} {self t : TaskId} {p : List Pending}

/-- The machines differ only in their tasks, of which some may be new watchers, and in those who
watch for the cancellation. -/
structure Aside (roles more : List Role) (m n : Machine) : Prop where
  silent : Silent { m with watchers := n.watchers } n
  watchers : ∀ t ∈ n.watchers, t ∈ m.watchers ∨ roles[t]? = some .watcher
  tends : Tends m n
  walker : ∀ {t}, roles[t]? = some .walker → n.state? t = m.state? t
  fitting : n.Fitting (roles ++ more)
  more : ∀ x ∈ more, x = .watcher

namespace Aside

theorem of_silent (h : Silent m n) (ht : Tends m n)
    (hw : ∀ {t}, roles[t]? = some .walker → n.state? t = m.state? t) (hf : n.Fitting roles) :
    Aside roles [] m n where
  silent := ⟨h.bare.trans (congrArg (fun ws => { m.bare with watchers := ws }) h.mute.watchers.symm),
    h.adds⟩
  watchers t ht := .inl (h.mute.watchers ▸ ht)
  tends := ht
  walker := hw
  fitting := by rw [List.append_nil]; exact hf
  more := by simp

theorem refl (h : m.Fitting roles) : Aside roles [] m m :=
  of_silent (.refl m) (.refl m) (fun _ => rfl) h

theorem effect (h : m.Fitting roles) {e : Effect} (he : e.IsPlain) :
    Aside roles [] m (m.effect e) :=
  of_silent (.effect m he) (.effect m e) (fun _ => rfl) (h.of_tasks rfl)

theorem interruptTask (h : m.Fitting roles) (ht : roles[t]? = some r) (hr : r ≠ .walker) :
    Aside roles [] m (m.interruptTask t) := by
  have hn := h.not_handsOn ht hr
  refine of_silent (.interruptTask m t) (.interruptTask hn) (fun {u} hu => ?_)
    (h.interruptTask ht hr)
  rw [state?_interruptTask hn, if_neg]
  rintro rfl
  rw [ht] at hu
  exact hr (Option.some.inj hu)

theorem spawn (h : m.Fitting roles) : Aside roles [.watcher] m (m.spawn .watch []).1 where
  silent := .spawn m .watch []
  watchers _ ht := .inl ht
  tends := .spawn m .watch
  walker ht := by
    rw [state?_spawn, if_neg]
    rintro rfl
    rw [← h.size, List.getElem?_eq_none (Nat.le_refl _)] at ht
    cases ht
  fitting := h.spawn rfl
  more := by simp

theorem trans (k : Aside roles [] m n) (h : Aside roles more n o) : Aside roles more m o where
  silent := by
    have hk : Silent { m with watchers := o.watchers } { n with watchers := o.watchers } :=
      ⟨congrArg (fun b : Machine => { b with watchers := o.watchers }) k.silent.bare, k.silent.adds⟩
    exact hk.trans h.silent
  watchers t ht := (h.watchers t ht).elim (k.watchers t) .inr
  tends := k.tends.trans h.tends
  walker ht := (h.walker ht).trans (k.walker ht)
  fitting := h.fitting
  more := h.more

theorem fits (h : Aside roles [] m n) : n.Fitting roles := by
  simpa using h.fitting

end Aside

theorem dropTimer_aside (h : m.Fitting roles) (self : TaskId) :
    Aside roles [] m (m.dropTimer self) :=
  .effect h ⟨rfl, fun _ _ => rfl⟩

theorem removeHandler_aside (h : m.Fitting roles) {handler : TaskId} (o : Outcome)
    (hh : roles[handler]? = some .handler) :
    Aside roles [] m (m.removeHandler handler o p).1 ∧
      (m.removeHandler handler o p).2.Resumes m.token.cancelled roles .walker p :=
  ⟨.interruptTask h hh (by decide), .wait _ _ _ trivial ⟨hh, rfl⟩ (fun _ => trivial) rfl rfl⟩

/-- What a handler's end means for the attempt is what the attempt waits for. -/
theorem settled_meets {a : Answer} (ha : a.Concludes []) {b : Attempt} {q : List Pending} :
    (m.settled a).Meets (.primitive b :: q) ∧
      ((Control.answer (m.settled a)).IsLive → m.token.cancelled = false) := by
  unfold settled
  split
  · split <;> exact ⟨trivial, False.elim⟩
  · exact ⟨trivial, False.elim⟩
  · split
    · exact ⟨trivial, False.elim⟩
    · rename_i hn
      refine ⟨?_, fun _ => Bool.eq_false_iff.mpr hn⟩
      cases a <;> trivial

theorem concludes_of_ending? (h : m.Fitting roles) {handler : TaskId} {a : Answer}
    (hh : roles[handler]? = some .handler) (ha : m.ending? handler = some a) : a.Concludes [] := by
  obtain ⟨s, hs⟩ : ∃ s, m.state? handler = some s := by
    unfold ending? at ha
    split at ha
    · exact ⟨_, ‹_›⟩
    · cases ha
  obtain ⟨q, hq⟩ := exists_pending? hs
  simp only [ending?, hs] at ha
  cases s with
  | ended b =>
    cases ha
    exact h.state hh hs hq rfl
  | _ => cases ha

theorem wakeFromSettlement_aside (h : m.Fitting roles) (env : Surroundings) (a b : Attempt)
    {handler watcher : TaskId} (hh : roles[handler]? = some .handler)
    (hw : roles[watcher]? = some .watcher) :
    Aside roles [] m (m.wakeFromSettlement env a handler watcher false (.primitive b :: p)).1 ∧
      (m.wakeFromSettlement env a handler watcher false (.primitive b :: p)).2.Resumes m.token.cancelled roles .walker
        (.primitive b :: p) := by
  have hk : Aside roles [] m (if m.hasEnded watcher then m else m.interruptTask watcher) := by
    split
    · exact .refl h
    · exact .interruptTask h hw (by decide)
  have ht : (if m.hasEnded watcher then m else m.interruptTask watcher).token = m.token := by
    split
    · rfl
    · exact (Silent.interruptTask m watcher).mute.token
  unfold wakeFromSettlement
  dsimp only
  generalize (if m.hasEnded watcher then m else m.interruptTask watcher) = n at hk ht ⊢
  rw [if_neg (by simp)]
  split
  · rename_i end_ he
    obtain ⟨hm, hl⟩ := settled_meets (m := n) (concludes_of_ending? hk.fits hh he) (b := b) (q := p)
    exact ⟨hk, .answer _ trivial (fun _ => hm) (ht ▸ hl)⟩
  · split
    · exact ⟨hk, .wait _ _ _ trivial hh (fun _ => trivial) rfl rfl⟩
    · obtain ⟨ha, -⟩ := removeHandler_aside (p := .primitive b :: p) hk.fits
        (.failed (.timeout a.node.id a.policy.timeoutMs) none) hh
      exact ⟨hk.trans ha, .wait _ _ _ trivial ⟨hh, rfl⟩ (fun _ => trivial) rfl rfl⟩

/-- What a walker or a handler does after a rest. -/
theorem wakeFromNap_aside (h : m.Fitting roles) (env : Surroundings) {watcher : TaskId}
    (signalled : Bool) {interrupted : Bool} (hw : (Wait.nap watcher).Suits roles r p)
    (hi : r = .walker → interrupted = false) (hm : r = .walker → (Wait.nap watcher).Meets p) :
    Aside roles [] m (m.wake env self (.nap watcher) signalled interrupted p).1 ∧
      (m.wake env self (.nap watcher) signalled interrupted p).2.Resumes m.token.cancelled roles r p := by
  have hd := dropTimer_aside h self
  have hr : roles[watcher]? = some .watcher := by
    cases r with
    | walker => exact hw
    | handler => exact hw.1
    | taker => exact absurd hw id
    | watcher => exact absurd hw id
  unfold wake
  dsimp only
  split
  · exact ⟨hd, .rested true (hw.rests (.inl ⟨watcher, rfl⟩)) hm⟩
  · refine ⟨hd.trans (.interruptTask hd.fits hr (by decide)), .wait _ _ _ trivial ?_ hm rfl rfl⟩
    cases r with
    | walker => exact ⟨hw, hi rfl⟩
    | handler => exact hw
    | taker => exact absurd hw id
    | watcher => exact absurd hw id

theorem wakeFromRousing_aside (h : m.Fitting roles) (env : Surroundings) {watcher : TaskId}
    (signalled : Bool) {interrupted before : Bool} (hw : (Wait.rousing watcher before).Suits roles r p)
    (hi : r = .walker → interrupted = false)
    (hm : r = .walker → (Wait.rousing watcher before).Meets p) :
    Aside roles [] m (m.wake env self (.rousing watcher before) signalled interrupted p).1 ∧
      (m.wake env self (.rousing watcher before) signalled interrupted p).2.Resumes m.token.cancelled roles r p := by
  have hr := hw.rests (.inr ⟨watcher, before, rfl⟩)
  unfold wake
  dsimp only
  split
  · rename_i hb
    refine ⟨.refl h, ?_⟩
    rcases hr with rfl | ⟨rfl, rfl⟩
    · obtain ⟨-, rfl⟩ := (show roles[watcher]? = some .watcher ∧ before = false from hw)
      simp [hi rfl] at hb
    · exact .answer _ trivial (fun hh => by cases hh) False.elim
  · split
    · exact ⟨.refl h, .rested true hr hm⟩
    · exact ⟨.refl h, .rested false hr hm⟩

theorem leaveSlotQueue_aside (h : m.Fitting roles) (self : TaskId) :
    Aside roles [] m (m.effect (.leaveSlotQueue self)) :=
  .effect h ⟨rfl, fun _ _ => rfl⟩

/-- A task that watches no longer. -/
theorem unwatch_aside (h : m.Fitting roles) (self : TaskId) :
    Aside roles [] m { m with watchers := m.watchers.filter (· != self) } where
  silent := .refl _
  watchers _ ht := .inl (List.mem_filter.mp ht).1
  tends := .of_tasks rfl
  walker _ := rfl
  fitting := by rw [List.append_nil]; exact h.of_tasks rfl
  more := by simp

/-- What a task does after a wait, the wait for a slot apart. -/
theorem wake_aside (self : TaskId) (h : m.Fitting roles) (env : Surroundings) {w : Wait} (signalled : Bool)
    {interrupted : Bool} (hw : w.Suits roles r p) (hi : r = .walker → interrupted = false)
    (hm : r = .walker → w.Meets p) (hstart : ∀ t u, w ≠ .start t u) :
    Aside roles [] m (m.wake env self w signalled interrupted p).1 ∧
      (m.wake env self w signalled interrupted p).2.Resumes m.token.cancelled roles r p := by
  have hd := dropTimer_aside h self
  cases w with
  | start t u => exact absurd rfl (hstart t u)
  | nap watcher => exact wakeFromNap_aside h env signalled hw hi hm
  | rousing watcher before => exact wakeFromRousing_aside h env signalled hw hi hm
  | grant =>
    have hr : r = .taker := by cases r <;> first | rfl | exact absurd hw id
    subst hr
    have hl := leaveSlotQueue_aside h self
    unfold wake
    dsimp only
    split
    · refine ⟨?_, .answer _ hw (fun hr => by cases hr) False.elim⟩
      split
      · exact hl.trans (.effect hl.fits ⟨rfl, fun _ _ => rfl⟩)
      · exact hl
    · exact ⟨hl.trans (.effect hl.fits ⟨rfl, fun _ _ => rfl⟩),
        .answer _ hw (fun hr => by cases hr) False.elim⟩
  | cancellation =>
    have hr : r = .watcher := by cases r <;> first | rfl | exact absurd hw id
    subst hr
    refine ⟨unwatch_aside h self, .answer _ hw (fun hr => by cases hr) ?_⟩
    split <;> exact False.elim
  | resumption =>
    have hr : r = .walker := by cases r <;> first | rfl | exact absurd hw id
    subst hr
    rw [hi rfl]
    exact ⟨.refl h, .answer _ trivial hm False.elim⟩
  | settlement a handler watcher =>
    have hr : r = .walker := by cases r <;> first | rfl | exact absurd hw id
    subst hr
    rw [hi rfl]
    obtain ⟨b, q, rfl⟩ : ∃ b q, p = .primitive b :: q := by
      have := hm rfl
      rcases p with _ | ⟨k, q⟩
      · exact absurd this id
      · cases k <;> first | exact ⟨_, _, rfl⟩ | exact absurd this id
    obtain ⟨ha, ht⟩ := wakeFromSettlement_aside (p := q) hd.fits env a b hw.1 hw.2
    exact ⟨hd.trans ha, ht⟩
  | grace handler =>
    have hr : r = .walker := by cases r <;> first | rfl | exact absurd hw id
    subst hr
    rw [hi rfl]
    unfold wake
    dsimp only
    rw [if_neg (by simp)]
    split
    · exact ⟨hd, .answer _ trivial (fun _ => trivial) False.elim⟩
    · obtain ⟨ha, ht⟩ := removeHandler_aside (p := p) hd.fits .cancelled hw
      exact ⟨hd.trans ha, .wait _ _ _ trivial ⟨hw, rfl⟩ (fun _ => trivial) rfl rfl⟩
  | removal handler o passedOn =>
    have hr : r = .walker := by cases r <;> first | rfl | exact absurd hw id
    subst hr
    obtain ⟨-, rfl⟩ := (show roles[handler]? = some .handler ∧ passedOn = false from hw)
    rw [hi rfl]
    exact ⟨.refl h, .answer _ trivial (fun _ => trivial) False.elim⟩
  | sleep =>
    have hr : r = .walker := by cases r <;> first | rfl | exact absurd hw id
    subst hr
    rw [hi rfl]
    exact ⟨hd, .rested false (.inl rfl) hm⟩

/-- What the walker does once it has a slot, or goes without one. -/
theorem wakeFromStart_aside (self : TaskId) (h : m.Fitting roles) (env : Surroundings) {taker watcher : TaskId}
    (signalled : Bool) (ht : roles[taker]? = some .taker) (hw : roles[watcher]? = some .watcher) :
    ∃ n held, m.wake env self (.start taker watcher) signalled false p =
      (n, .go .execute (.slot held :: p)) ∧ Aside roles [] m n := by
  have hk : Aside roles [] m (m.interruptTask watcher) := .interruptTask h hw (by decide)
  unfold wake
  dsimp only
  rw [if_neg (by simp)]
  split
  · exact ⟨_, _, rfl, hk⟩
  · exact ⟨_, _, rfl, hk.trans (.interruptTask hk.fits ht (by decide))⟩

/-- The end of a wait of the walker leaves the run as it is. -/
theorem walkerWake_aside (self : TaskId) (h : m.Fitting roles) (env : Surroundings) {w : Wait}
    {s i : Bool} (hc : Control.Suits roles .walker (.wake w s i) p) (hm : w.Meets p) :
    Aside roles [] m (m.wake env self w s i p).1 := by
  by_cases hs : ∃ t u, w = .start t u
  · obtain ⟨t, u, rfl⟩ := hs
    cases hc.2 rfl
    obtain ⟨n, held, he, ha⟩ := wakeFromStart_aside (p := p) self h env s hc.1.1 hc.1.2
    rw [he]
    exact ha
  · exact (wake_aside self h env s hc.1 hc.2 (fun _ => hm) fun t u hw => hs ⟨t, u, hw⟩).1

theorem takeSlot_aside (h : m.Fitting roles) (env : Surroundings) :
    Aside roles [] m (m.takeSlot env self []).1 ∧ (m.takeSlot env self []).2.Suits roles .taker := by
  unfold takeSlot
  split
  · exact ⟨.effect h ⟨rfl, fun _ _ => rfl⟩, rfl, rfl, rfl⟩
  · exact ⟨.effect h ⟨rfl, fun _ _ => rfl⟩, rfl⟩

theorem watch_aside (h : m.Fitting roles) (hs : roles[self]? = some .watcher) :
    Aside roles [] m (m.watch self []).1 ∧ (m.watch self []).2.Suits roles .watcher := by
  unfold watch
  split
  · exact ⟨.refl h, rfl⟩
  · refine ⟨⟨.refl _, fun t ht => ?_, .of_tasks rfl, fun _ => rfl, ?_, by simp⟩, rfl, rfl, rfl⟩
    · rcases List.mem_append.mp ht with ht | ht
      · exact .inl ht
      · rw [List.mem_singleton.mp ht]
        exact .inr hs
    · rw [List.append_nil]
      exact h.of_tasks rfl

theorem handle_aside (h : m.Fitting roles) (w : World) (now : Moment) (c : Call) :
    ∃ more, Aside roles more m (m.handle (w.surroundings now) c []).1 ∧
      (m.handle (w.surroundings now) c []).2.Suits (roles ++ more) .handler := by
  unfold handle
  split
  · exact ⟨[], .refl h, trivial⟩
  · rename_i reg hreg
    obtain ⟨b, hb⟩ := now.builtin.handler hreg
    rw [hb]
    dsimp only
    split
    · exact ⟨[], .refl h, trivial⟩
    · exact ⟨[], .refl h, trivial⟩
    · unfold rest
      split
      · exact ⟨[], .refl h, trivial⟩
      · refine ⟨[.watcher], .spawn h, ⟨?_, rfl⟩, rfl, rfl⟩
        simp [Machine.spawn, ← h.size]

/-- What a task that does not walk makes of an answer. -/
theorem answer_aside (h : m.Fitting roles) (env : Surroundings) {a : Answer} (hr : r ≠ .walker)
    (ha : (Control.answer a).Suits roles r p) :
    Aside roles [] m (m.step env self (.answer a) p).1 ∧
      (m.step env self (.answer a) p).2.Suits roles r := by
  cases r with
  | walker => exact absurd rfl hr
  | taker =>
    have hp : p = [] := ha
    subst hp
    exact ⟨.refl h, fun hr => by cases hr⟩
  | watcher =>
    have hp : p = [] := ha
    subst hp
    exact ⟨.refl h, fun hr => by cases hr⟩
  | handler =>
    rcases p with _ | ⟨k, _ | ⟨l, q⟩⟩
    · exact ⟨.refl h, fun _ => ha⟩
    · cases k <;> cases a <;> first | exact absurd ha id | exact ⟨.refl h, trivial⟩
    · cases k <;> cases a <;> exact absurd ha id

/-- A step of a task that does not walk. -/
theorem step_aside (h : m.Fitting roles) (w : World) (now : Moment) {c : Control}
    (hs : roles[self]? = some r) (hr : r ≠ .walker) (hc : c.Suits roles r p) :
    ∃ more, Aside roles more m (m.step (w.surroundings now) self c p).1 ∧
      (m.step (w.surroundings now) self c p).2.Suits (roles ++ more) r := by
  cases c with
  | takeSlot =>
    have : r = .taker := by cases r <;> first | rfl | exact absurd rfl hr | exact absurd hc id
    subst this
    have hp : p = [] := hc
    subst hp
    obtain ⟨ha, ht⟩ := takeSlot_aside h (w.surroundings now)
    exact ⟨[], ha, by rw [List.append_nil]; exact ht⟩
  | watch =>
    have : r = .watcher := by cases r <;> first | rfl | exact absurd rfl hr | exact absurd hc id
    subst this
    have hp : p = [] := hc
    subst hp
    obtain ⟨ha, ht⟩ := watch_aside h hs
    exact ⟨[], ha, by rw [List.append_nil]; exact ht⟩
  | handle call =>
    have : r = .handler := by cases r <;> first | rfl | exact absurd rfl hr | exact absurd hc id
    subst this
    have hp : p = [] := hc
    subst hp
    exact handle_aside h w now call
  | wake v signalled interrupted =>
    have hstart : ∀ t u, v ≠ .start t u := by
      rintro t u rfl
      cases r <;> first | exact hr rfl | exact hc.1
    obtain ⟨ha, ht⟩ := wake_aside (p := p) self h (w.surroundings now) signalled hc.1
      (fun hw => absurd hw hr) (fun hw => absurd hw hr) hstart
    exact ⟨[], ha, by rw [List.append_nil]; exact ht.suits⟩
  | answer a =>
    obtain ⟨ha, ht⟩ := answer_aside h (w.surroundings now) hr hc
    exact ⟨[], ha, by rw [List.append_nil]; exact ht⟩
  | _ => cases r <;> first | exact absurd rfl hr | exact absurd hc id

end Machine

end Workflow
