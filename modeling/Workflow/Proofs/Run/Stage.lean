import Workflow.Proofs.Run.Errand
import Workflow.Proofs.Run.History
/-!
The stages that the walker goes through: before the walk, in its midst, in the pauses of it, on the
way out of a walk that was cancelled during a pause, and after it. A step leads from one stage to one
that may follow, with events that the status of the run allows.
-/

namespace Workflow

/-- The types of events that a run does not have once it is cancelled. -/
def barredTypes : List String :=
  ["run.started", "run.paused", "run.completed", "run.failed", "node.started", "node.skipped"]

/-- An event that a cancelled run does not have. -/
def Effect.IsBarred (e : Effect) : Prop :=
  ∃ x, e.event? = some x ∧ x.1 ∈ barredTypes

/-- An effect that tells no task. -/
def Effect.IsUntold (e : Effect) : Prop :=
  ∀ t ticket, e.tells t ticket = false

theorem Effect.Among.not_isBarred {e : Effect} (h : e.Among lateTypes) : ¬ e.IsBarred := by
  have apart : ∀ t ∈ lateTypes, t ∉ barredTypes := by decide
  rintro ⟨x, hx, ht⟩
  exact apart _ (h.1 x hx) ht

theorem Effect.IsMute.not_isBarred {e : Effect} (h : e.IsMute) : ¬ e.IsBarred := by
  rintro ⟨x, hx, -⟩
  rw [h] at hx
  cases hx

namespace Machine

variable {roles more : List Role} {m n o : Machine} {self : TaskId} {c : Control} {p : List Pending}

/-- The record of a run has changed with events that its status allows. -/
structure Advance (m n : Machine) : Prop where
  story : ∃ d, n.effects = d ++ m.effects ∧ Status.Passes m.run.status d n.run.status ∧
    (∀ e ∈ d, e.IsUntold) ∧ (m.token.cancelled = true → ∀ e ∈ d, ¬ e.IsBarred)
  token : n.token = m.token
  results : n.run.error = m.run.error ∧ n.run.outputs = m.run.outputs ∨
    m.token.cancelled = false ∧ (n.run.status = .completed ∨ n.run.status = .failed)

theorem spawnAll_silent (m : Machine) (cs : List Control) : Silent m (m.spawnAll cs) :=
  .foldl (fun m c => .spawn m c []) cs m

theorem spawnAll_tends (m : Machine) (cs : List Control) : Tends m (m.spawnAll cs) := by
  induction cs generalizing m with
  | nil => exact .refl m
  | cons c cs ih => exact (Tends.spawn m c).trans (ih _)

theorem spawnAll_fitting (h : m.Fitting roles) {cs : List Control} (hc : ∀ c ∈ cs, c.IsErrand) :
    (m.spawnAll cs).Fitting (roles ++ cs.map Control.role) := by
  induction cs generalizing m roles with
  | nil =>
    rw [List.map_nil, List.append_nil]
    exact h
  | cons c cs ih =>
    have hs : c.Suits roles c.role [] := by
      have := hc c List.mem_cons_self
      cases c <;> first | rfl | exact absurd rfl this
    have := ih (h.spawn hs) fun c hm => hc c (List.mem_cons_of_mem _ hm)
    rw [List.append_assoc] at this
    exact this

namespace Advance

theorem of_silent (h : Silent m n) : Advance m n where
  story := by
    obtain ⟨d, hd, hp⟩ := h.adds
    refine ⟨d, hd, ?_, fun e he => (hp e he).2, fun _ e he => (hp e he).1.not_isBarred⟩
    rw [h.mute.run]
    exact .mute _ fun e he => (hp e he).1
  token := h.mute.token
  results := .inl (by rw [h.mute.run]; exact ⟨rfl, rfl⟩)

theorem of_aside (h : Aside roles more m n) : Advance m n := by
  obtain ⟨story, token, results⟩ := of_silent h.silent
  exact ⟨story, token, results⟩

theorem trans_silent (h : Advance m n) (k : Silent n o) : Advance m o where
  story := by
    obtain ⟨d, hd, hp, hu, hl⟩ := h.story
    obtain ⟨f, hf, hq⟩ := k.adds
    refine ⟨f ++ d, by rw [hf, hd, List.append_assoc], ?_, fun e he => ?_, fun hc e he => ?_⟩
    · rw [k.mute.run]
      exact hp.append (.mute _ fun e he => (hq e he).1)
    · exact (List.mem_append.mp he).elim (fun he => (hq e he).2) (hu e)
    · exact (List.mem_append.mp he).elim (fun he => (hq e he).1.not_isBarred) (hl hc e)
  token := k.mute.token.trans h.token
  results := by rw [k.mute.run]; exact h.results

/-- A walk goes on. -/
theorem of_walks {types : List String} {cs : List Control} {r : StepResult}
    (h : Walks types roles cs m p r) (hs : m.run.status = .running)
    (ht : types = lateTypes ∨ types = walkTypes ∧ m.token.cancelled = false) : Advance m r.1 := by
  have hm := (spawnAll_silent m cs).mute
  have hstatus : r.1.run.status = m.run.status := by
    have := congrArg (·.run.status) h.standing
    exact this.trans (congrArg (·.status) hm.run)
  refine ⟨?_, ?_, .inl ⟨?_, ?_⟩⟩
  · obtain ⟨d, hd, hp⟩ := h.adds
    refine ⟨d, hd, ?_, fun e he => (hp e he).2, fun hc e he => ?_⟩
    · rw [hstatus, hs]
      refine .walk fun e he => ?_
      rcases ht with rfl | ⟨rfl, -⟩
      · exact ⟨fun x hx => List.mem_cons_of_mem _ (List.mem_cons_of_mem _ ((hp e he).1 x hx)),
          (hp e he).2⟩
      · exact hp e he
    · rcases ht with rfl | ⟨-, hl⟩
      · exact (hp e he).not_isBarred
      · rw [hc] at hl
        cases hl
  · have := congrArg (·.token) h.standing
    exact this.trans hm.token
  · have := congrArg (·.run.error) h.standing
    exact this.trans (congrArg (·.error) hm.run)
  · have := congrArg (·.run.outputs) h.standing
    exact this.trans (congrArg (·.outputs) hm.run)

end Advance

/-! Stages. -/

/-- The work below a walk: a slot that is held, if there is one. -/
def IsBottom : List Pending → Prop
  | [] | [.slot _] => True
  | _ => False

theorem frameKeys_bottom (hp : IsBottom p) : frameKeys p = [] := by
  rcases p with _ | ⟨k, _ | ⟨l, p⟩⟩
  · rfl
  · cases k <;> first | rfl | exact absurd hp id
  · cases k <;> exact absurd hp id

/-- The run is in the midst of its walk. -/
structure Underway (m : Machine) (p : List Pending) : Prop where
  work : ∃ q b, p = q ++ .execution :: b ∧ (∀ k ∈ q, k.IsWalk) ∧ IsBottom b
  keys : ∃ root, m.stackKeys = frameKeys p ++ [root]

/-- The run has not begun, or it ended without having begun. -/
def IsUnbegun (m : Machine) : Prop :=
  m.run.status = .pending ∧ m.run.stack = [] ∨ m.run.status.isTerminal = true

/-- The run was cancelled during a pause and has not yet said so. -/
def IsHalted (m : Machine) : Prop :=
  m.run.status = .paused ∧ m.token.cancelled = true

/-- What the walker does next, by the stage of the run. -/
inductive Stands (m : Machine) : Control → List Pending → Prop
  | enqueue (h : IsUnbegun m) : Stands m .enqueue []
  | start (h : IsUnbegun m) (t u : TaskId) (s i : Bool) : Stands m (.wake (.start t u) s i) []
  | execute {p : List Pending} (h : IsUnbegun m) (hp : IsBottom p) : Stands m .execute p
  | walk {c : Control} {p : List Pending} (h : m.run.status = .running) (hu : Underway m p)
      (hc : c.IsWalk) (hm : c.Meets p) (hl : c.IsLive → m.token.cancelled = false) : Stands m c p
  | wake {w : Wait} {p : List Pending} (h : m.run.status = .running) (hu : Underway m p)
      (hw : w.IsWalk) (hm : w.Meets p) (s i : Bool) : Stands m (.wake w s i) p
  | resume {p : List Pending} (h : m.run.status = .running ∨ IsHalted m) (hu : Underway m p)
      (hm : Answer.done.Meets p) (s i : Bool) : Stands m (.wake .resumption s i) p
  | back {p : List Pending} (h : IsHalted m) (hu : Underway m p) (hm : Answer.done.Meets p) :
      Stands m (.answer .done) p
  | refuse {p : List Pending} (h : IsHalted m) (hu : Underway m p) (walk : Walk) (node : Node) :
      Stands m (.dispatch walk node) p
  | unwind {p : List Pending} (h : IsHalted m) (hu : Underway m p) :
      Stands m (.answer (.outcome .cancelled)) p
  | ended {p : List Pending} (h : m.run.status.isTerminal = true) (hp : IsBottom p) (a : Answer) :
      Stands m (.answer a) p

/-- What the walker waits for, by the stage of the run. -/
inductive Waits (m : Machine) : Wait → List Pending → Prop
  | start (h : IsUnbegun m) (t u : TaskId) : Waits m (.start t u) []
  | walk {w : Wait} {p : List Pending} (h : m.run.status = .running) (hu : Underway m p)
      (hw : w.IsWalk) (hm : w.Meets p) : Waits m w p
  | pause {p : List Pending} (h : m.run.status = .paused) (hl : m.token.cancelled = false)
      (hu : Underway m p) (hm : Answer.done.Meets p) (hq : m.paused ≠ []) : Waits m .resumption p

/-- How the walker goes on, by the stage of the run. -/
def Reaches (m : Machine) : Turn → Prop
  | .go c p => Stands m c p
  | .wait w _ _ p => Waits m w p
  | .pass p => Stands m (.wake .sleep true false) p
  | .stop _ => m.run.status.isTerminal = true

section congr

variable (hs : n.run.status = m.run.status) (hk : n.run.stack = m.run.stack)
  (ht : n.token = m.token)

include hk in
theorem Underway.congr (h : Underway m p) : Underway n p where
  work := h.work
  keys := by
    obtain ⟨root, hr⟩ := h.keys
    exact ⟨root, by rw [← hr, stackKeys, stackKeys, hk]⟩

include hs hk in
theorem IsUnbegun.congr (h : IsUnbegun m) : IsUnbegun n := by
  unfold IsUnbegun at *
  rw [hs, hk]
  exact h

include hs ht in
theorem IsHalted.congr (h : IsHalted m) : IsHalted n := by
  unfold IsHalted at *
  rw [hs, ht]
  exact h

include hs hk ht

theorem Stands.congr (h : Stands m c p) : Stands n c p := by
  cases h with
  | enqueue h => exact .enqueue (h.congr hs hk)
  | start h t u s i => exact .start (h.congr hs hk) t u s i
  | execute h hp => exact .execute (h.congr hs hk) hp
  | walk h hu hc hm hl => exact .walk (hs.trans h) (hu.congr hk) hc hm (ht ▸ hl)
  | wake h hu hw hm s i => exact .wake (hs.trans h) (hu.congr hk) hw hm s i
  | resume h hu hm s i => exact .resume (h.imp hs.trans (·.congr hs ht)) (hu.congr hk) hm s i
  | back h hu hm => exact .back (h.congr hs ht) (hu.congr hk) hm
  | refuse h hu walk node => exact .refuse (h.congr hs ht) (hu.congr hk) walk node
  | unwind h hu => exact .unwind (h.congr hs ht) (hu.congr hk)
  | ended h hp a => exact .ended (by rw [hs]; exact h) hp a

theorem Waits.congr (hq : n.paused = m.paused) {w : Wait} (h : Waits m w p) : Waits n w p := by
  cases h with
  | start h t u => exact .start (h.congr hs hk) t u
  | walk h hu hw hm => exact .walk (hs.trans h) (hu.congr hk) hw hm
  | pause h hl hu hm hne =>
    exact .pause (hs.trans h) (by rw [ht]; exact hl) (hu.congr hk) hm (by rw [hq]; exact hne)

end congr

/-- What a step of a task does to the run. -/
structure Proceeds (roles more : List Role) (r : Role) (t : TaskId) (m : Machine)
    (x : StepResult) : Prop where
  fitting : x.1.Fitting (roles ++ more)
  others : .walker ∉ more
  tends : Tends m x.1
  watchers : ∀ t ∈ x.1.watchers, t ∈ m.watchers ∨ roles[t]? = some .watcher
  main : x.1.main = m.main
  ticket : x.1.nextTicket = m.nextTicket
  paused : ∀ u ∈ x.1.paused, u ∈ m.paused ∨ u = t ∧ ∃ q, x.2 = .wait .resumption [] none q
  advance : Advance m x.1
  suits : x.2.Suits (roles ++ more) r

namespace Proceeds

theorem of_aside {r : Role} {x : StepResult} (h : Aside roles more m x.1)
    (ht : x.2.Suits (roles ++ more) r) : Proceeds roles more r self m x where
  fitting := h.fitting
  others hm := by cases h.more _ hm
  tends := h.tends
  watchers := h.watchers
  main := h.silent.mute.main
  ticket := h.silent.mute.nextTicket
  paused t ht := .inl (h.silent.mute.paused ▸ ht)
  advance := .of_aside h
  suits := ht

theorem of_walks (hf : m.Fitting roles) {types : List String} {cs : List Control} {x : StepResult}
    (h : Walks types roles cs m p x) (hs : m.run.status = .running)
    (ht : types = lateTypes ∨ types = walkTypes ∧ m.token.cancelled = false) :
    Proceeds roles (cs.map Control.role) .walker self m x where
  fitting := (spawnAll_fitting hf h.errands).of_tasks (congrArg (·.tasks) h.standing :)
  others hm := by
    obtain ⟨c, hc, hw⟩ := List.mem_map.mp hm
    exact h.errands c hc hw
  tends := (spawnAll_tends m cs).trans (.of_tasks (congrArg (·.tasks) h.standing :))
  watchers t ht := by
    have hw : x.1.watchers = (m.spawnAll cs).watchers := congrArg (·.watchers) h.standing
    rw [hw, (spawnAll_silent m cs).mute.watchers] at ht
    exact .inl ht
  main := (congrArg (·.main) h.standing :).trans (spawnAll_silent m cs).mute.main
  ticket := (congrArg (·.nextTicket) h.standing :).trans (spawnAll_silent m cs).mute.nextTicket
  paused t ht := by
    have hp : x.1.paused = (m.spawnAll cs).paused := congrArg (·.paused) h.standing
    rw [hp, (spawnAll_silent m cs).mute.paused] at ht
    exact .inl ht
  advance := .of_walks h hs ht
  suits := by
    have hw := h.turn
    cases hx : x.2 with
    | go c q =>
      rw [hx] at hw
      have hc := hw.1.1
      cases c <;> trivial
    | wait w on limit q =>
      rw [hx] at hw
      exact hw.1.2.2
    | pass q => rfl
    | stop a =>
      rw [hx] at hw
      exact absurd hw id

end Proceeds

/-- Work within a walk upon work that is underway. -/
theorem Underway.append (ks : List Pending) (h : Underway m p) (hk : ∀ k ∈ ks, k.IsWalk)
    (hkeys : ∀ tail, m.stackKeys = frameKeys p ++ tail → n.stackKeys = frameKeys (ks ++ p) ++ tail) :
    Underway n (ks ++ p) where
  work := by
    obtain ⟨q, b, rfl, hq, hb⟩ := h.work
    exact ⟨ks ++ q, b, by simp, fun k hm => (List.mem_append.mp hm).elim (hk k) (hq k), hb⟩
  keys := by
    obtain ⟨root, hr⟩ := h.keys
    exact ⟨root, hkeys _ hr⟩

theorem Walks.reaches {types : List String} {cs : List Control} {x : StepResult}
    (h : Walks types roles cs m p x) (hs : m.run.status = .running) (hu : Underway m p) :
    Reaches x.1 x.2 := by
  have hstatus : x.1.run.status = .running := by
    have := congrArg (·.run.status) h.standing
    exact this.trans ((congrArg (·.status) (spawnAll_silent m cs).mute.run).trans hs)
  have hw := h.turn
  have hk := h.keys
  have hl := h.live
  cases hx : x.2 with
  | go c q =>
    rw [hx] at hw hk hl
    obtain ⟨hc, ks, rfl, hks⟩ := hw
    exact .walk hstatus (hu.append ks hks hk) hc.1 hc.2 hl
  | wait w on limit q =>
    rw [hx] at hw hk
    obtain ⟨hc, ks, rfl, hks⟩ := hw
    exact .walk hstatus (hu.append ks hks hk) hc.1 hc.2.1
  | pass q =>
    rw [hx] at hw hk
    obtain ⟨hm, ks, rfl, hks⟩ := hw
    exact .wake (w := .sleep) hstatus (hu.append ks hks hk) trivial hm true false
  | stop a =>
    rw [hx] at hw
    exact absurd hw id

/-! Pauses. -/

theorem kernelType?_emit {type : String} (h : type ≠ "vars.patch") (payload : Entries Value)
    (view : RunView) : (Effect.emit type payload view).kernelType? = some type := by
  simp [Effect.kernelType?, isDebuggerPatch, h]

theorem not_isBarred_emit {type : String} (h : type ∉ barredTypes) (payload : Entries Value)
    (view : RunView) : ¬ (Effect.emit type payload view).IsBarred := by
  rintro ⟨x, hx, ht⟩
  cases hx
  exact h ht

/-- One event leads from a status to another. -/
theorem Advance.of_emit {run : Run} {type : String} {payload : Entries Value} {view : RunView}
    (hr : n.run = run) (he : n.effects = .emit type payload view :: m.effects)
    (hm : (m.run.status, type, run.status) ∈ Status.moves) (hv : type ≠ "vars.patch")
    (hb : m.token.cancelled = true → type ∉ barredTypes) (ht : n.token = m.token)
    (hres : run.error = m.run.error ∧ run.outputs = m.run.outputs ∨
      m.token.cancelled = false ∧ (run.status = .completed ∨ run.status = .failed)) :
    Advance m n where
  story := by
    refine ⟨[.emit type payload view], he, ?_, ?_, fun hc => ?_⟩
    · rw [hr]
      exact .move (kernelType?_emit hv payload view) hm (.nil _)
    · intro e hm
      rw [List.mem_singleton.mp hm]
      exact fun _ _ => rfl
    · intro e hm
      rw [List.mem_singleton.mp hm]
      exact not_isBarred_emit (hb hc) payload view
  token := ht
  results := by rw [hr]; exact hres

namespace Pauses

variable {x : StepResult}

theorem proceeds (hf : m.Fitting roles) (h : Pauses self m p x) (hs : m.run.status = .running) :
    Proceeds roles [] .walker self m x where
  fitting := by
    rw [List.append_nil]
    exact hf.of_tasks (congrArg (·.tasks) h.unpaused :)
  others := by simp
  tends := .of_tasks (congrArg (·.tasks) h.unpaused :)
  watchers t ht := by
    have hw : x.1.watchers = m.watchers := congrArg (·.watchers) h.unpaused
    exact .inl (hw ▸ ht)
  main := (congrArg (·.main) h.unpaused :)
  ticket := (congrArg (·.nextTicket) h.unpaused :)
  paused t ht := by
    rw [h.paused] at ht
    obtain ⟨walk, node, hx⟩ := h.turn
    rcases List.mem_append.mp ht with ht | ht
    · exact .inl ht
    · exact .inr ⟨List.mem_singleton.mp ht, _, hx⟩
  advance := by
    obtain ⟨payload, view, he⟩ := h.effects
    refine .of_emit rfl he ?_ (by decide) (fun hc => ?_) (congrArg (·.token) h.unpaused :)
      (.inl ⟨(congrArg (·.run.error) h.unpaused :), (congrArg (·.run.outputs) h.unpaused :)⟩)
    · rw [hs, h.status]
      decide
    · rw [h.live] at hc
      cases hc
  suits := by
    obtain ⟨walk, node, hx⟩ := h.turn
    rw [hx]
    exact ⟨trivial, rfl, rfl⟩

theorem reaches (h : Pauses self m p x) (hu : Underway m p) : Reaches x.1 x.2 := by
  obtain ⟨walk, node, hx⟩ := h.turn
  have ht : x.1.token = m.token := congrArg (·.token) h.unpaused
  rw [hx]
  refine .pause h.status (by rw [ht]; exact h.live) ?_ trivial (by rw [h.paused]; simp)
  refine hu.append [.checkpoint walk node] ?_ fun tail hk => ?_
  · intro k hk
    rw [List.mem_singleton.mp hk]
    trivial
  · rw [h.keys, hk]
    rfl

end Pauses

/-! The end of a run. -/

/-- The end of a run that has not ended yet: one event, and the end of any pause. -/
theorem finalize_eq (m : Machine) (stamp : Instant) (o : Outcome)
    (h : m.run.status = .running ∨
      m.run.status.isTerminal = false ∧ m.token.cancelled = true) :
    ∃ run type payload, m.finalize stamp o = (({ m with run } : Machine).emit type payload).endPause ∧
      (m.run.status, type, run.status) ∈ Status.moves ∧ type ∈ terminalTypes ∧
      run.status.isTerminal = true ∧ (m.token.cancelled = true → type ∉ barredTypes) ∧
      (run.error = m.run.error ∧ run.outputs = m.run.outputs ∨
        m.token.cancelled = false ∧ (run.status = .completed ∨ run.status = .failed)) := by
  have hn : m.run.status.isTerminal = false := by
    rcases h with h | h
    · rw [h]
      rfl
    · exact h.1
  have hc : (m.run.status, "run.cancelled", Status.cancelled) ∈ Status.moves := by
    cases hs : m.run.status <;> rw [hs] at hn <;> first | decide | cases hn
  unfold finalize
  rw [hn, if_neg (by simp)]
  dsimp only
  split
  · exact ⟨_, _, _, rfl, hc, by decide, rfl, fun _ => by decide, .inl ⟨rfl, rfl⟩⟩
  · rename_i hl
    have hr : m.run.status = .running := h.resolve_right fun h => hl h.2
    have hfailed : (Status.running, "run.failed", Status.failed) ∈ Status.moves := by decide
    have hdone : (Status.running, "run.completed", Status.completed) ∈ Status.moves := by decide
    rw [hr] at hc ⊢
    split
    · exact ⟨_, _, _, rfl, hc, by decide, rfl, fun _ => by decide, .inl ⟨rfl, rfl⟩⟩
    · exact ⟨_, _, _, rfl, hfailed, by decide, rfl, fun h => absurd h hl,
        .inr ⟨Bool.eq_false_iff.mpr hl, .inr rfl⟩⟩
    · exact ⟨_, _, _, rfl, hdone, by decide, rfl, fun h => absurd h hl,
        .inr ⟨Bool.eq_false_iff.mpr hl, .inl rfl⟩⟩

section finalize

variable (stamp : Instant) (o : Outcome)
  (h : m.run.status = .running ∨ m.run.status.isTerminal = false ∧ m.token.cancelled = true)

include h

theorem finalize_advance : Advance m (m.finalize stamp o) := by
  obtain ⟨run, type, payload, he, hm, ht, -, hb, hres⟩ := finalize_eq m stamp o h
  have unpatched : ∀ t ∈ terminalTypes, t ≠ "vars.patch" := by decide
  have hn : Advance m (({ m with run } : Machine).emit type payload) :=
    .of_emit rfl rfl hm (unpatched _ ht) hb rfl hres
  have hp : Advance m { ({ m with run } : Machine).emit type payload with paused := [] } :=
    ⟨hn.story, hn.token, hn.results⟩
  rw [he]
  exact hp.trans_silent (.endPause _)

theorem finalize_terminal : (m.finalize stamp o).run.status.isTerminal = true := by
  obtain ⟨run, type, payload, he, -, -, ht, -⟩ := finalize_eq m stamp o h
  rw [he, (Silent.endPause _).mute.run]
  exact ht

theorem finalize_proceeds (hf : m.Fitting roles) {x : Turn} (hx : x.Suits roles .walker) :
    Proceeds roles [] .walker self m (m.finalize stamp o, x) := by
  obtain ⟨run, type, payload, he, -⟩ := finalize_eq m stamp o h
  have hs := Silent.endPause (({ m with run } : Machine).emit type payload)
  exact {
    fitting := by
      rw [List.append_nil, he]
      exact Fitting.endPause (hf.of_tasks rfl)
    others := by simp
    tends := by
      rw [he]
      exact Tends.trans (n := ({ m with run } : Machine).emit type payload) (.of_tasks rfl) (.endPause _)
    watchers := fun t ht => .inl (by rw [he, hs.mute.watchers] at ht; exact ht)
    main := by rw [he]; exact hs.mute.main
    ticket := by rw [he]; exact hs.mute.nextTicket
    paused := fun t ht => by
      rw [he, hs.mute.paused] at ht
      cases ht
    advance := finalize_advance stamp o h
    suits := by rw [List.append_nil]; exact hx }

end finalize

/-! Steps of the walker. -/

/-- A step of the walker leads to a stage that may follow. -/
structure Steps (roles : List Role) (t : TaskId) (m : Machine) (x : StepResult) : Prop where
  proceeds : ∃ more, Proceeds roles more .walker t m x
  reaches : Reaches x.1 x.2

theorem Walks.steps (hf : m.Fitting roles) {types : List String} {cs : List Control} {x : StepResult}
    (h : Walks types roles cs m p x) (hs : m.run.status = .running) (hu : Underway m p)
    (ht : types = lateTypes ∨ types = walkTypes ∧ m.token.cancelled = false) :
    Steps roles self m x :=
  ⟨⟨_, .of_walks hf h hs ht⟩, h.reaches hs hu⟩

theorem enqueue_steps (hf : m.Fitting roles) (h : IsUnbegun m) :
    Steps roles self m (m.enqueue []) := by
  unfold enqueue
  split
  · exact ⟨⟨[], .of_aside (.refl hf) trivial⟩, .execute h trivial⟩
  · refine ⟨⟨[.taker, .watcher], ?_⟩,
      Waits.start (m := ((m.spawn .takeSlot []).1.spawn .watch []).1) h _ _⟩
    have ht := hf.spawn (c := .takeSlot) (r := .taker) rfl
    have hw := ht.spawn (c := .watch) (r := .watcher) rfl
    rw [List.append_assoc] at hw
    exact {
      fitting := hw
      others := by simp
      tends := (Tends.spawn m _).trans (.spawn _ _)
      watchers := fun t ht => .inl ht
      main := rfl
      ticket := rfl
      paused := fun t ht => .inl ht
      advance := .of_silent ((Silent.spawn m _ _).trans (.spawn _ _ _))
      suits := by
        refine ⟨?_, rfl, rfl⟩
        simp [Wait.Suits, Machine.spawn, effect, ← hf.size] }

theorem execute_steps (hf : m.Fitting roles) (env : Surroundings) (h : IsUnbegun m)
    (hp : IsBottom p) : Steps roles self m (m.execute env p) := by
  unfold execute
  split
  · rename_i hn
    have ht : m.run.status.isTerminal = true := by
      rcases h with ⟨h, -⟩ | h
      · simp [h] at hn
      · exact h
    exact ⟨⟨[], .of_aside (.refl hf) trivial⟩, .ended ht hp _⟩
  · rename_i hn
    have hs : m.run.status = .pending := by simpa using hn
    have hk : m.run.stack = [] := by
      rcases h with ⟨-, h⟩ | h
      · exact h
      · rw [hs] at h
        cases h
    split
    · rename_i hc
      have ht : m.run.status = .running ∨ m.run.status.isTerminal = false ∧ m.token.cancelled = true :=
        .inr ⟨by rw [hs]; rfl, hc⟩
      exact ⟨⟨[], finalize_proceeds _ _ ht hf trivial⟩,
        Stands.ended (finalize_terminal env.stamp .cancelled ht) hp .done⟩
    · rename_i hl
      have hstart : (m.run.status, "run.started", Status.running) ∈ Status.moves := by
        rw [hs]
        decide
      dsimp only
      refine ⟨⟨[], ?_⟩, .walk rfl ⟨⟨[], p, rfl, by simp, hp⟩, m.nextFrame, ?_⟩ trivial trivial
        False.elim⟩
      · exact {
          fitting := by rw [List.append_nil]; exact hf.of_tasks rfl
          others := by simp
          tends := .of_tasks rfl
          watchers := fun t ht => .inl ht
          main := rfl
          ticket := rfl
          paused := fun t ht => .inl ht
          advance := .of_emit rfl rfl hstart (by decide) (fun hc => absurd hc hl) rfl (.inl ⟨rfl, rfl⟩)
          suits := trivial }
      · have hb := frameKeys_bottom hp
        simp only [frameKeys] at hb
        simp [stackKeys, emit, effect, hk, frameKeys, hb]

/-- What work that makes no frame is upon. -/
theorem Underway.tail {k : Pending} (hu : Underway m (k :: p)) (hk : k.IsWalk)
    (hf : frameKeys [k] = []) : Underway m p where
  work := by
    obtain ⟨q, b, hq, hw, hb⟩ := hu.work
    rcases q with _ | ⟨l, q⟩
    · cases hq
      exact absurd hk id
    · cases hq
      exact ⟨q, b, rfl, fun k hm => hw k (List.mem_cons_of_mem _ hm), hb⟩
  keys := by
    obtain ⟨root, hr⟩ := hu.keys
    refine ⟨root, ?_⟩
    rw [hr, ← List.singleton_append, frameKeys, List.filterMap_append]
    simp only [frameKeys] at hf
    rw [hf, List.nil_append]
    rfl

/-- Leaving a frame leads to the walk that the frame was upon. -/
theorem leaveFrame_underway {key : Nat} {flow node : String} (hu : Underway m (.frame key flow node :: p)) :
    Underway (m.leaveFrame key node) p where
  work := by
    obtain ⟨q, b, hq, hw, hb⟩ := hu.work
    rcases q with _ | ⟨k, q⟩
    · cases hq
    · cases hq
      exact ⟨q, b, rfl, fun k hk => hw k (List.mem_cons_of_mem _ hk), hb⟩
  keys := by
    obtain ⟨root, hr⟩ := hu.keys
    exact ⟨root, leaveFrame_keys m node hr⟩

/-- Changes of the stack and the trace alone. -/
theorem Proceeds.of_standing (hf : m.Fitting roles) (h : n.standing = m.standing)
    (he : n.effects = m.effects) {x : Turn} (hx : x.Suits roles .walker) :
    Proceeds roles [] .walker self m (n, x) where
  fitting := by rw [List.append_nil]; exact hf.of_tasks (congrArg (·.tasks) h :)
  others := by simp
  tends := .of_tasks (congrArg (·.tasks) h :)
  watchers t ht := .inl ((congrArg (·.watchers) h : n.watchers = m.watchers) ▸ ht)
  main := (congrArg (·.main) h :)
  ticket := (congrArg (·.nextTicket) h :)
  paused t ht := .inl ((congrArg (·.paused) h : n.paused = m.paused) ▸ ht)
  advance := by
    have hs : n.run.status = m.run.status := (congrArg (·.run.status) h :)
    exact ⟨⟨[], he, hs ▸ .nil _, by simp, by simp⟩, (congrArg (·.token) h :),
      .inl ⟨(congrArg (·.run.error) h :), (congrArg (·.run.outputs) h :)⟩⟩
  suits := by rw [List.append_nil]; exact hx

/-- The walker hands an answer to the work that waits for it. -/
theorem answer_steps (hf : m.Fitting roles) (env : Surroundings) {a : Answer}
    (hs : m.run.status = .running) (hu : Underway m p) (ha : a.Meets p) :
    Steps roles self m (m.step env self (.answer a) p) := by
  obtain ⟨q, b, rfl, hq, hb⟩ := hu.work
  rcases q with _ | ⟨k, q⟩
  · have ht : m.run.status = .running ∨ m.run.status.isTerminal = false ∧ m.token.cancelled = true :=
      .inl hs
    cases a with
    | outcome o =>
      exact ⟨⟨[], finalize_proceeds env.stamp o ht hf trivial⟩,
        Stands.ended (finalize_terminal env.stamp o ht) hb .done⟩
    | thrown f =>
      exact ⟨⟨[], finalize_proceeds env.stamp (.failed (.internal f) none) ht hf trivial⟩,
        Stands.ended (finalize_terminal env.stamp (.failed (.internal f) none) ht) hb .done⟩
    | _ => exact absurd ha id
  · have hw := hq k List.mem_cons_self
    by_cases hk : frameKeys [k] = []
    · obtain ⟨cs, h⟩ := resume_walks roles m env (q ++ .execution :: b) hf.size hw hk ha
      exact h.steps hf hs (hu.tail hw hk) (.inl rfl)
    · obtain ⟨key, flow, node, rfl⟩ : ∃ key flow node, k = .frame key flow node := by
        cases k <;> first | exact ⟨_, _, _, rfl⟩ | exact absurd rfl hk
      obtain ⟨a', hr, hm, hl⟩ := resume_frame m env (p := q ++ .execution :: b) ha
      show Steps roles self m (m.resume env (.frame key flow node) a (q ++ .execution :: b))
      rw [hr]
      exact ⟨⟨[], .of_standing hf (leaveFrame_standing m key node) rfl trivial⟩,
        Stands.walk hs (leaveFrame_underway hu) trivial hm fun h => absurd h hl⟩

/-- A step within a walk. -/
theorem walk_steps (hf : m.Fitting roles) (w : World) (now : Moment) (hs : m.run.status = .running)
    (hu : Underway m p) (hc : c.IsWalk) (hm : c.Meets p) (hl : c.IsLive → m.token.cancelled = false) :
    Steps roles self m (m.step (w.surroundings now) self c p) := by
  cases c with
  | enter place frame => exact (enter_walks _ _ _ _ _).steps hf hs hu (.inl rfl)
  | next walk node =>
    rcases next_cases roles m (w.surroundings now) self walk node p with h | h
    · exact h.steps hf hs hu (.inl rfl)
    · exact ⟨⟨[], h.proceeds hf hs⟩, h.reaches hu⟩
  | dispatch walk node =>
    by_cases hn : m.token.cancelled = true
    · have hd : m.dispatch (w.surroundings now) walk node p = (m, .outcome .cancelled p) := by
        unfold dispatch
        rw [if_pos hn]
      show Steps roles self m (m.dispatch (w.surroundings now) walk node p)
      rw [hd]
      have h : Walks lateTypes roles [] m p (m, .outcome .cancelled p) := .outcome (.refl m) .cancelled
      exact h.steps hf hs hu (.inl rfl)
    · exact (dispatch_walks _ _ _ _ _ _).steps hf hs hu (.inr ⟨rfl, Bool.eq_false_iff.mpr hn⟩)
  | «try» a =>
    obtain ⟨cs, h⟩ := attempt_walks roles m p hf.size w now a
    exact h.steps hf hs hu (.inr ⟨rfl, hl trivial⟩)
  | iterate loop bound iterations => exact (iterate_walks _ _ _ _ _ _ _).steps hf hs hu (.inl rfl)
  | supply c => exact (supply_walks _ _ _ hc).steps hf hs hu (.inl rfl)
  | element c acts item =>
    exact (element_walks _ _ _ _ self hc.1 hc.2 item).steps hf hs hu (.inl rfl)
  | answer a => exact answer_steps hf _ hs hu hm
  | _ => exact absurd hc id

/-- A wait within a walk is over. -/
theorem wake_steps (hf : m.Fitting roles) (env : Surroundings) {v : Wait} {s i : Bool}
    (hs : m.run.status = .running) (hu : Underway m p) (hw : v.IsWalk) (hm : v.Meets p)
    (hc : (Control.wake v s i).Suits roles .walker p) :
    Steps roles self m (m.step env self (.wake v s i) p) := by
  have hstart : ∀ t u, v ≠ .start t u := by
    rintro t u rfl
    exact hw
  obtain ⟨ha, ht⟩ := wake_aside self hf env s hc.1 hc.2 (fun _ => hm) hstart
  have hr : (m.wake env self v s i p).1.run = m.run := ha.silent.mute.run
  have hl : (m.wake env self v s i p).1.token = m.token := ha.silent.mute.token
  have hu' := hu.congr (congrArg Run.stack hr)
  refine ⟨⟨[], .of_aside ha (by rw [List.append_nil]; exact ht.suits)⟩, ?_⟩
  show Reaches (m.wake env self v s i p).1 (m.wake env self v s i p).2
  rw [← hr] at hs
  rw [← hl] at ht
  generalize m.wake env self v s i p = x at hs hu' ht
  obtain ⟨n, turn⟩ := x
  cases ht with
  | answer a _ ha hl => exact Stands.walk hs hu' trivial (ha rfl) hl
  | wait v on limit hw _ hm _ _ => exact Waits.walk hs hu' hw (hm rfl)

/-- A cancellation goes through all work of a walk. -/
theorem resume_cancelled (m : Machine) (env : Surroundings) {k : Pending} (hk : k.IsWalk)
    (hf : frameKeys [k] = []) (p : List Pending) :
    ∃ n, m.resume env k (.outcome .cancelled) p = (n, .outcome .cancelled p) ∧
      (n = m ∨ ∃ e, n = m.trace env e) := by
  cases k with
  | attempt a since => exact ⟨_, rfl, .inr ⟨_, rfl⟩⟩
  | frame key flow node => simp [frameKeys] at hf
  | slot held => exact absurd hk id
  | execution => exact absurd hk id
  | subexecution child => exact absurd hk id
  | invocation place node child returns => cases returns <;> exact ⟨_, rfl, .inl rfl⟩
  | _ => exact ⟨_, rfl, .inl rfl⟩

/-- A step on the way out of a walk that was cancelled during a pause. -/
theorem unwind_steps (hf : m.Fitting roles) (env : Surroundings) (h : IsHalted m)
    (hu : Underway m p) : Steps roles self m (m.step env self (.answer (.outcome .cancelled)) p) := by
  obtain ⟨q, b, rfl, hq, hb⟩ := hu.work
  rcases q with _ | ⟨k, q⟩
  · have ht : m.run.status = .running ∨ m.run.status.isTerminal = false ∧ m.token.cancelled = true :=
      .inr ⟨by rw [h.1]; rfl, h.2⟩
    exact ⟨⟨[], finalize_proceeds env.stamp .cancelled ht hf trivial⟩,
      Stands.ended (finalize_terminal env.stamp .cancelled ht) hb .done⟩
  · have hw := hq k List.mem_cons_self
    by_cases hk : frameKeys [k] = []
    · obtain ⟨n, hr, hn⟩ := resume_cancelled m env hw hk (q ++ .execution :: b)
      show Steps roles self m (m.resume env k (.outcome .cancelled) (q ++ .execution :: b))
      rw [hr]
      rcases hn with rfl | ⟨e, rfl⟩
      · exact ⟨⟨[], .of_standing hf rfl rfl trivial⟩, Stands.unwind h (hu.tail hw hk)⟩
      · have ht := hu.tail hw hk
        exact ⟨⟨[], .of_standing (n := m.trace env e) (x := .outcome .cancelled _) hf rfl rfl
          trivial⟩,
          Stands.unwind (m := m.trace env e) h ⟨ht.work, ht.keys⟩⟩
    · obtain ⟨key, flow, node, rfl⟩ : ∃ key flow node, k = .frame key flow node := by
        cases k <;> first | exact ⟨_, _, _, rfl⟩ | exact absurd rfl hk
      exact ⟨⟨[], .of_standing hf (leaveFrame_standing m key node) rfl trivial⟩,
        Stands.unwind (m := m.leaveFrame key node) h (leaveFrame_underway hu)⟩

/-- A step of a walker whose run is over: it gives its slot back and ends. -/
theorem over_steps (hf : m.Fitting roles) (env : Surroundings) (h : m.run.status.isTerminal = true)
    (hp : IsBottom p) (a : Answer) : Steps roles self m (m.step env self (.answer a) p) := by
  rcases p with _ | ⟨k, _ | ⟨l, q⟩⟩
  · exact ⟨⟨[], .of_aside (.refl hf) fun hr => by cases hr⟩, h⟩
  · obtain ⟨held, rfl⟩ : ∃ held, k = .slot held := by
      cases k <;> first | exact ⟨_, rfl⟩ | exact absurd hp id
    have hb : Aside roles [] m (if held then m.effect .giveSlotBack else m) := by
      split
      · exact .effect hf ⟨rfl, fun _ _ => rfl⟩
      · exact .refl hf
    have ended {n : Machine} (ha : Aside roles [] m n) : Steps roles self m (n, .answer a []) := by
      have hr : n.run = m.run := ha.silent.mute.run
      exact ⟨⟨[], .of_aside ha trivial⟩, Stands.ended (p := []) (by rw [hr]; exact h) trivial a⟩
    have pruned := hb.trans (.effect hb.fits (e := .prune) ⟨rfl, fun _ _ => rfl⟩)
    cases a <;> first | exact ended pruned | exact ended hb
  · cases k <;> exact absurd hp id

/-- A step of the walker, whatever stage it is in. -/
theorem Stands.steps (self : TaskId) (hf : m.Fitting roles) (w : World) (now : Moment) (h : Stands m c p)
    (hc : c.Suits roles .walker p) :
    Steps roles self m (m.step (w.surroundings now) self c p) := by
  cases h with
  | enqueue h => exact enqueue_steps hf h
  | start h t u s i =>
    cases hc.2 rfl
    obtain ⟨n, held, he, ha⟩ := wakeFromStart_aside (p := []) self hf (w.surroundings now) s
      hc.1.1 hc.1.2
    show Steps roles self m (m.wake (w.surroundings now) self (.start t u) s false [])
    rw [he]
    have hr : n.run = m.run := ha.silent.mute.run
    exact ⟨⟨[], .of_aside ha trivial⟩,
      Stands.execute (h.congr (congrArg Run.status hr) (congrArg Run.stack hr)) trivial⟩
  | execute h hp => exact execute_steps hf _ h hp
  | walk h hu hc hm hl => exact walk_steps hf w now h hu hc hm hl
  | wake h hu hw hm s i => exact wake_steps hf _ h hu hw hm hc
  | resume h hu hm s i =>
    cases hc.2 rfl
    refine ⟨⟨[], .of_standing hf rfl rfl trivial⟩, ?_⟩
    rcases h with h | h
    · exact Stands.walk h hu trivial hm False.elim
    · exact Stands.back h hu hm
  | back h hu hm =>
    obtain ⟨walk, node, q, rfl⟩ : ∃ walk node q, p = .checkpoint walk node :: q := by
      rcases p with _ | ⟨k, q⟩
      · exact absurd hm id
      · cases k <;> first | exact ⟨_, _, _, rfl⟩ | exact absurd hm id
    exact ⟨⟨[], .of_standing (x := .go (.dispatch walk node) q) hf rfl rfl trivial⟩,
      Stands.refuse h (hu.tail trivial rfl) walk node⟩
  | refuse h hu walk node =>
    have hd : m.dispatch (w.surroundings now) walk node p = (m, .outcome .cancelled p) := by
      unfold dispatch
      rw [if_pos h.2]
    show Steps roles self m (m.dispatch (w.surroundings now) walk node p)
    rw [hd]
    exact ⟨⟨[], .of_standing hf rfl rfl trivial⟩, Stands.unwind h hu⟩
  | unwind h hu => exact unwind_steps hf _ h hu
  | ended h hp a => exact over_steps hf _ h hp a

end Machine

end Workflow
