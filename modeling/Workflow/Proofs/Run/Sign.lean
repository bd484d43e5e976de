import Workflow.Proofs.Run.Happening
import Workflow.Proofs.Run.Retry
import Workflow.Proofs.Run.Steady
/-!
The signs that the pauses of a run are decided by: that a pause is asked for or ended, and that a task comes to
a node or goes on to it. What decides about pauses changes with the signs and not otherwise, whatever the
surroundings are.
-/

namespace Workflow

/-- What happens in a run that has to do with its pauses. -/
inductive Sign where
  /-- A pause is asked for, and this is accepted. -/
  | asked
  /-- A pause is ended, until the next node or for good. -/
  | released (step : Bool)
  /-- A task comes to a node, and pauses before it for a reason or does not. -/
  | came (task : TaskId) (walk : Walk) (node : Node) (reason : Option String)
  /-- A task goes on to a node. -/
  | went (task : TaskId) (walk : Walk) (node : Node)
  | ended

namespace Gauge

/-- Why the run pauses before a node, if it does. -/
def reason? (g : Gauge) (node : Node) : Option String :=
  if g.pauseOnStart then some "start"
  else if g.stepArmed then some "step"
  else if g.pauseRequested then some "command"
  else if g.breakpoints.contains node.id then some "breakpoint"
  else none

/-- What is left of it when a task has come to a node. -/
def pass (g : Gauge) (node : Node) : Gauge where
  status := if (g.reason? node).isSome then .paused else g.status
  breakpoints := g.breakpoints
  pauseOnStart := false
  pauseRequested := g.pauseRequested && (g.pauseOnStart || g.stepArmed)
  stepArmed := g.stepArmed && g.pauseOnStart

/-- Nothing is asked for, nothing is used up, and no pause begins. -/
structure Keeps (g h : Gauge) : Prop where
  pauseOnStart : h.pauseOnStart = g.pauseOnStart
  pauseRequested : h.pauseRequested = g.pauseRequested
  stepArmed : h.stepArmed = g.stepArmed
  unpaused : h.status = .paused → g.status = .paused

theorem Keeps.of_eq {g h : Gauge} (e : h = g) : g.Keeps h := by
  subst e
  exact ⟨rfl, rfl, rfl, id⟩

/-- What a sign means to what decides about pauses. -/
inductive Heeds : Gauge → Option Sign → Gauge → Prop
  | nothing {g h : Gauge} (hk : g.Keeps h) : Heeds g none h
  | asked {g : Gauge} (hs : g.status ≠ .paused) : Heeds g (some .asked) { g with pauseRequested := true }
  | released {g : Gauge} (hs : g.status = .paused) (step : Bool) : Heeds g (some (.released step))
      { g with status := .running, pauseRequested := false, stepArmed := step }
  | came (g : Gauge) (t : TaskId) (walk : Walk) (node : Node) :
      Heeds g (some (.came t walk node (g.reason? node))) (g.pass node)
  | went (g : Gauge) (t : TaskId) (walk : Walk) (node : Node) : Heeds g (some (.went t walk node)) g
  | ended {g h : Gauge} (hk : g.Keeps h) : Heeds g (some .ended) h

theorem Heeds.of_released {g h : Gauge} {b : Bool} (k : g.Heeds (some (.released b)) h) : g.status = .paused := by
  cases k with
  | released hs => exact hs

/-- No sign but that a task comes to a node and pauses there makes the run paused. -/
theorem Heeds.unpaused {g h : Gauge} {s : Option Sign} (k : g.Heeds s h) (hp : h.status = .paused)
    (hs : ∀ t walk node r, s ≠ some (.came t walk node (some r))) : g.status = .paused := by
  cases k with
  | nothing hk | ended hk => exact hk.unpaused hp
  | asked | went => exact hp
  | released => cases hp
  | came t walk node =>
    cases hr : g.reason? node with
    | some r => exact absurd (by rw [hr]) (hs t walk node r)
    | none => simpa [pass, hr] using hp

end Gauge

/-- Work other than a pause. Attempts are numbered from one on. -/
def Pending.IsAside : Pending → Prop
  | .checkpoint _ _ => False
  | .attempt a _ | .backoff a => 1 ≤ a.number
  | _ => True

/-- What a task does next that is neither in a pause nor going on to a node, nor the first attempt at it. -/
def Control.IsAside : Control → Prop
  | .dispatch _ _ | .wake .resumption _ _ => False
  | .try a => 2 ≤ a.number
  | _ => True

/-- Work of a task that does not execute the run. -/
def Pending.IsInner : Pending → Prop
  | .execution => False
  | _ => True

/-- What a task does next that does not execute the run. -/
def Control.IsInner : Control → Prop
  | .enqueue | .execute | .wake (.start _ _) _ _ => False
  | _ => True

/-- Some kinds of what is done next and of work, among which all is that is plain. -/
structure TakesPlain (P : Control → Prop) (Q : Pending → Prop) : Prop where
  control : ∀ c : Control, c.IsPlain → P c
  wait : ∀ w : Wait, w.IsPlain → P (.wake w false false)
  sleep : P (.wake .sleep true false)
  pending : ∀ k : Pending, k.IsPlain → Q k

theorem aside_takesPlain : TakesPlain Control.IsAside Pending.IsAside where
  control c h := by cases c <;> trivial
  wait w h := by cases w <;> trivial
  sleep := trivial
  pending k h := by cases k <;> trivial

theorem inner_takesPlain : TakesPlain Control.IsInner Pending.IsInner where
  control c h := by cases c <;> trivial
  wait w h := by cases w <;> trivial
  sleep := trivial
  pending k h := by cases k <;> trivial

/-- A task goes on with what is of some kinds. -/
def Turn.All (P : Control → Prop) (Q : Pending → Prop) (x : Turn) : Prop :=
  ∀ d q, x.post = .doing d q → P d ∧ ∀ k ∈ q, Q k

section kinds

variable {P : Control → Prop} {Q : Pending → Prop} {p : List Pending}

theorem Turn.All.go {c : Control} (hc : P c) (hp : ∀ k ∈ p, Q k) : (Turn.go c p).All P Q := by
  rintro _ _ ⟨⟩
  exact ⟨hc, hp⟩

theorem Turn.All.wait {w : Wait} (hw : P (.wake w false false)) (hp : ∀ k ∈ p, Q k) (on : List TaskId)
    (limit : Option Seconds) : (Turn.wait w on limit p).All P Q := by
  rintro _ _ ⟨⟩
  exact ⟨hw, hp⟩

theorem Turn.All.stop (a : Answer) : (Turn.stop a).All P Q := by
  rintro _ _ ⟨⟩

theorem Turn.IsPlainOn.all (h : TakesPlain P Q) {x : Turn} (hx : x.IsPlainOn p) (hp : ∀ k ∈ p, Q k) :
    x.All P Q := by
  have rise {q : List Pending} (hq : ∃ ks, q = ks ++ p ∧ ∀ k ∈ ks, k.IsPlain) : ∀ k ∈ q, Q k := by
    obtain ⟨ks, rfl, hk⟩ := hq
    exact fun k hm => (List.mem_append.mp hm).elim (fun hm => h.pending k (hk k hm)) (hp k)
  cases x with
  | go c q => exact .go (h.control c hx.1) (rise hx.2)
  | wait w on limit q => exact .wait (h.wait w hx.1) (rise hx.2) on limit
  | pass q =>
    rintro _ _ ⟨⟩
    exact ⟨h.sleep, rise hx⟩
  | stop a => exact .stop a

end kinds

/-- What a task does that neither comes to a node, nor goes on to one, nor is in a pause, nor is an attempt. -/
def Control.IsApart : Control → List Pending → Prop
  | .next _ (some _), _ | .dispatch _ _, _ | .try _, _ => False
  | .wake .resumption _ _, _ | .answer _, .checkpoint _ _ :: _ => False
  | _, _ => True

/-- The types of events other than that a pause begins, a node is skipped or an attempt at one begins. -/
def quietTypes : List String :=
  "run.started" :: "run.resumed" :: "run.completed" :: "run.failed" :: "run.cancelled" :: lateTypes

namespace Machine

variable {m n : Machine} {env : Surroundings} {self : TaskId} {p : List Pending} {walk : Walk} {node : Node}

theorem takePause_eq (m : Machine) (node : Node) : m.takePause node =
    ({ m with
        pauseOnStart := false
        pauseRequested := m.pauseRequested && (m.pauseOnStart || m.stepArmed)
        stepArmed := m.stepArmed && m.pauseOnStart }, m.gauge.reason? node) := by
  obtain ⟨run, layers, token, standalone, first, requested, armed⟩ := m
  cases first <;> cases armed <;> cases requested <;> simp [takePause, Gauge.reason?, gauge]
  split <;> simp [*]

/-- What asked for a pause has been used up, and nothing else has changed. -/
structure Takes (m : Machine) (node : Node) (n : Machine) : Prop where
  gauge : n.gauge = { m.gauge.pass node with status := m.gauge.status }
  upholds : Upholds m n
  tasks : n.tasks = m.tasks
  nextTicket : n.nextTicket = m.nextTicket
  token : n.token = m.token
  effects : n.effects = m.effects

theorem takePause_takes (m : Machine) (node : Node) :
    ∃ n, m.takePause node = (n, m.gauge.reason? node) ∧ Takes m node n :=
  ⟨_, takePause_eq m node, rfl, .same rfl rfl rfl, rfl, rfl, rfl, rfl⟩

/-- A task comes to a node: it pauses for the reason there is, or it is going to go on to the node. -/
structure Comes (m : Machine) (walk : Walk) (node : Node) (p : List Pending) (x : StepResult) : Prop where
  discreet : Discreet m x.1
  held : Holds m x.1
  token : x.1.token = m.token
  gauge : x.1.gauge = m.gauge.pass node
  turn : x.2 = match m.gauge.reason? node with
    | some _ => .wait .resumption [] none (.checkpoint walk node :: p)
    | none => .go (.dispatch walk node) p
  reason : ∀ r, m.gauge.reason? node = some r → x.1.run.pauseReason = some r
  events : x.1.effects.filterMap Effect.event? = (m.gauge.reason? node).toList.map (fun r => ("run.paused",
    [("reason", .str r), ("nodeId", .str node.id), ("depth", .nat walk.place.depth)])) ++
      m.effects.filterMap Effect.event?

theorem next_comes (hc : m.token.cancelled = false) (hs : walk.steps + 1 ≤ env.settings.maxStepsPerFrame) :
    Comes m { walk with steps := walk.steps + 1 } node p (m.next env self walk (some node) p) := by
  have arrived : Upholds m (m.arrive walk.frame node.id) := .same rfl rfl rfl
  obtain ⟨n, hn, hk⟩ := takePause_takes (m.arrive walk.frame node.id) node
  have hg : (m.arrive walk.frame node.id).gauge = m.gauge := rfl
  unfold next
  dsimp only
  rw [if_neg (by simp [hc]), if_neg (Nat.not_lt.mpr hs), hn, hg]
  have untouched : Discreet m n :=
    .same (arrived.trans hk.upholds) hk.tasks hk.nextTicket hk.token (.of_eq hk.effects)
  have events : n.effects.filterMap Effect.event? = m.effects.filterMap Effect.event? := by
    rw [hk.effects]
    rfl
  have held {t k} (ht : m.state? t = some (.waiting .resumption k)) :
      n.state? t = some (.waiting .resumption k) := by
    rw [state?, hk.tasks]
    exact ht
  have hgauge : n.gauge = { m.gauge.pass node with status := m.gauge.status } := hk.gauge
  have htoken : n.token = m.token := hk.token
  cases hr : m.gauge.reason? node with
  | none =>
    refine ⟨untouched, fun ht _ => .inl (held ht), htoken, ?_, by rw [hr], by simp [hr], by simpa [hr] using events⟩
    rw [hgauge]
    simp [Gauge.pass, hr]
  | some r =>
    refine ⟨untouched.trans ?_, fun ht _ => .inl (held ht), htoken, ?_, by rw [hr], ?_, ?_⟩
    · exact .same (.same rfl rfl rfl) rfl rfl rfl (.effect _ fun _ _ => rfl)
    · show { n.gauge with status := .paused } = m.gauge.pass node
      rw [hgauge]
      simp [Gauge.pass, hr]
    · exact fun _ he => hr.symm.trans he
    · rw [hr]
      exact congrArg (_ :: ·) events

/-- What is told of a node that is skipped. -/
def skippedPayload (node : Node) (depth : Nat) : Entries Value :=
  [("nodeId", .str node.id), ("kind", .str node.kind), ("depth", .nat depth), ("reason", .str "disabled")]

/-- A task goes on to a node: it is skipped, or the first attempt at it is next, or its policy makes no sense. -/
inductive Goes (m : Machine) (env : Surroundings) (walk : Walk) (node : Node) (p : List Pending) :
    StepResult → Prop
  | cancelled (hc : m.token.cancelled = true) : Goes m env walk node p (m, .outcome .cancelled p)
  | skips {n : Machine} (hc : m.token.cancelled = false)
      (h : Steady lateTypes (m.emit "node.skipped" (skippedPayload node walk.place.depth)) n) (a : Answer) :
      Goes m env walk node p (n, .answer a (.visit walk node :: p))
  | tries (hc : m.token.cancelled = false) (q : Policy) :
      Goes m env walk node p (m, .go (.try ⟨walk.place, node, q, 1⟩) (.visit walk node :: p))
  | refuses {n : Machine} (hc : m.token.cancelled = false)
      (h : Steady lateTypes (m.emit "node.started" (startedPayload node 1 walk.place.depth)) n) (a : Answer) :
      Goes m env walk node p (n, .answer a (.visit walk node :: p))
  | breaks (hc : m.token.cancelled = false) (hd : node.disabled = false) {fault : PolicyFault}
      (hf : walk.policy env.settings node = .error fault) (ht : fault.kind ≠ .type) (hv : fault.kind ≠ .value)
      (a : Answer) :
      Goes m env walk node p (m, .answer a (.visit walk node :: p))

theorem Goes.steady {x : StepResult} (h : Goes m env walk node p x) : Steady walkTypes m x.1 := by
  cases h with
  | skips _ h | refuses _ h => exact .trans (.quiet (.emit m _ (by decide))) (h.mono (by decide))
  | _ => exact .refl m

/-- What it goes on with, but for the first attempt at the node. -/
theorem Goes.all {x : StepResult} (h : Goes m env walk node p x) {P : Control → Prop} {Q : Pending → Prop}
    (ht : TakesPlain P Q) (hp : ∀ k ∈ p, Q k) :
    x.2.All P Q ∨ ∃ q, m.token.cancelled = false ∧
      x = (m, .go (.try ⟨walk.place, node, q, 1⟩) (.visit walk node :: p)) := by
  have visit : ∀ k ∈ Pending.visit walk node :: p, Q k := List.forall_mem_cons.mpr ⟨ht.pending _ trivial, hp⟩
  cases h with
  | cancelled => exact .inl (.go (ht.control _ trivial) hp)
  | skips | refuses | breaks => exact .inl (.go (ht.control _ trivial) visit)
  | tries hc q => exact .inr ⟨q, hc, rfl⟩

/-- All that a step can be to pauses. -/
inductive Strides (m : Machine) (env : Surroundings) : Control → List Pending → StepResult → Prop
  | goesOn {c : Control} {p : List Pending} {x : StepResult} (hc : c.IsApart p) (h : Steady lateTypes m x.1)
      (ha : c.IsAside → (∀ k ∈ p, k.IsAside) → x.2.All Control.IsAside Pending.IsAside)
      (hi : c.IsInner → (∀ k ∈ p, k.IsInner) → x.2.All Control.IsInner Pending.IsInner) : Strides m env c p x
  | turnsBack {walk : Walk} {node : Node} (p : List Pending) (a : Answer)
      (hn : m.token.cancelled = true ∨ env.settings.maxStepsPerFrame < walk.steps + 1) :
      Strides m env (.next walk (some node)) p (m, .answer a p)
  | comes {walk : Walk} {node : Node} {p : List Pending} {x : StepResult}
      (hc : m.token.cancelled = false) (hs : walk.steps + 1 ≤ env.settings.maxStepsPerFrame)
      (h : Comes m { walk with steps := walk.steps + 1 } node p x) : Strides m env (.next walk (some node)) p x
  | goes {walk : Walk} {node : Node} {p : List Pending} {x : StepResult} (h : Goes m env walk node p x) :
      Strides m env (.dispatch walk node) p x
  | tries {a : Attempt} {p : List Pending} {x : StepResult}
      (h : Steady lateTypes (m.emit "node.started" (startedPayload a.node a.number a.place.depth)) x.1)
      (ha : 1 ≤ a.number → (∀ k ∈ p, k.IsAside) → x.2.All Control.IsAside Pending.IsAside)
      (hi : (∀ k ∈ p, k.IsInner) → x.2.All Control.IsInner Pending.IsInner) : Strides m env (.try a) p x
  | wakes (s i : Bool) (p : List Pending) :
      Strides m env (.wake .resumption s i) p (m, .answer (if i then .interrupted else .done) p)
  | resumes (walk : Walk) (node : Node) (p : List Pending) :
      Strides m env (.answer .done) (.checkpoint walk node :: p) (m, .go (.dispatch walk node) p)
  | passes {a : Answer} (ha : a ≠ .done) (walk : Walk) (node : Node) (p : List Pending) :
      Strides m env (.answer a) (.checkpoint walk node :: p) (m, .answer a p)
  | begins {p : List Pending} {x : StepResult} (h : Discreet m x.1) (hh : Holds m x.1)
      (hg : m.gauge.Keeps x.1.gauge) (he : Adds (Effect.Among quietTypes) m x.1)
      (ha : (∀ k ∈ p, k.IsAside) → x.2.All Control.IsAside Pending.IsAside) : Strides m env .execute p x
  | ends {a b : Answer} {p : List Pending} {n : Machine} (h : Discreet m n)
      (hh : Holds m n ∨ m.run.status.isTerminal = false ∧ n.run.status.isTerminal = true)
      (hg : m.gauge.Keeps n.gauge) (he : Adds (Effect.Among quietTypes) m n) :
      Strides m env (.answer a) (.execution :: p) (n, .answer b p)

/-- An attempt is told of as it begins. -/
theorem Steady.after_started {n : Machine} {payload : Entries Value}
    (h : Steady lateTypes (m.emit "node.started" payload) n) : Steady walkTypes m n :=
  .trans (.quiet (.emit m _ (by decide))) (h.mono (by decide))

section functions

variable (m : Machine) (env : Surroundings) (self : TaskId) (p : List Pending)

theorem endPause_gauge : m.endPause.gauge = m.gauge :=
  (Silent.endPause m).mute.gauge

/-- The run ends with an event that tells of it, or it has ended before. -/
theorem finalize_cases (stamp : Instant) (o : Outcome) : m.finalize stamp o = m ∧ m.run.status.isTerminal = true ∨
    ∃ (n : Machine) (type : String) (payload : Entries Value),
      m.finalize stamp o = (n.emit type payload).endPause ∧ m.run.status.isTerminal = false ∧
      n.run.status.isTerminal = true ∧ m.gauge.Keeps n.gauge ∧ n.effects = m.effects ∧ type ∈ terminalTypes := by
  have final {s : Status} (h : s.isTerminal = true) : s = .paused → m.gauge.status = .paused := by
    rintro rfl
    cases h
  unfold finalize
  dsimp only
  split
  · exact .inl ⟨rfl, by assumption⟩
  · rename_i hn
    have hn : m.run.status.isTerminal = false := Bool.eq_false_iff.mpr hn
    refine .inr ?_
    split
    · exact ⟨_, _, _, rfl, hn, rfl, ⟨rfl, rfl, rfl, final rfl⟩, rfl, by decide⟩
    · cases o <;> exact ⟨_, _, _, rfl, hn, rfl, ⟨rfl, rfl, rfl, final rfl⟩, rfl, by decide⟩

theorem finalize_keeps (stamp : Instant) (o : Outcome) : m.gauge.Keeps (m.finalize stamp o).gauge := by
  obtain ⟨he, -⟩ | ⟨n, type, payload, he, -, -, hg, -⟩ := finalize_cases m stamp o
  · exact .of_eq (congrArg gauge he)
  · rw [he, endPause_gauge]
    exact hg

theorem finalize_among (stamp : Instant) (o : Outcome) :
    Adds (Effect.Among quietTypes) m (m.finalize stamp o) := by
  obtain ⟨he, -⟩ | ⟨n, type, payload, he, -, -, -, hf, ht⟩ := finalize_cases m stamp o
  · exact .of_eq (congrArg effects he)
  · have hmem : ∀ t ∈ terminalTypes, t ∈ quietTypes := by decide
    have emitted : Adds (Effect.Among quietTypes) m (n.emit type payload) :=
      Adds.trans (.of_eq hf) (.effect n ⟨fun x hx => by cases hx; exact hmem type ht, fun _ _ => rfl⟩)
    rw [he]
    exact emitted.trans ((Silent.endPause _).adds.mono fun _ h => h.among _)

theorem finalize_isTerminal (stamp : Instant) (o : Outcome) : (m.finalize stamp o).run.status.isTerminal = true := by
  obtain ⟨he, ht⟩ | ⟨n, type, payload, he, -, ht, -⟩ := finalize_cases m stamp o
  · rw [he]
    exact ht
  · rw [he, (Silent.endPause _).mute.run]
    exact ht

/-- Whoever waits for the end of a pause is woken by the end of the run, unless the run had ended before. -/
theorem finalize_holds (stamp : Instant) (o : Outcome) : Holds m (m.finalize stamp o) ∨
    m.run.status.isTerminal = false ∧ (m.finalize stamp o).run.status.isTerminal = true := by
  obtain ⟨he, -⟩ | ⟨n, type, payload, he, hs, -⟩ := finalize_cases m stamp o
  · refine .inl ?_
    rw [he]
    exact fun ht _ => .inl ht
  · exact .inr ⟨hs, finalize_isTerminal m stamp o⟩

theorem enqueue_steady {types : List String} : Steady types m (m.enqueue p).1 := by
  unfold enqueue
  dsimp only
  split
  · exact .refl m
  · exact .trans (.spawn m (c := .takeSlot) nofun) (.spawn _ (c := .watch) nofun)

theorem enqueue_strides : Strides m env .enqueue p (m.enqueue p) := by
  refine .goesOn trivial (enqueue_steady m p) (fun _ hp => ?_) (fun hc => absurd hc id)
  unfold enqueue
  dsimp only
  split
  · exact .go trivial (by simpa [Pending.IsAside] using hp)
  · exact .wait trivial hp _ _

theorem wakeFromStart_steady (taker watcher : TaskId) (signalled interrupted : Bool) {types : List String} :
    Steady types m (m.wake env self (.start taker watcher) signalled interrupted p).1 := by
  unfold wake
  dsimp only
  split
  · refine .trans ?_ (.interruptTask _ _)
    split
    · exact .effect m ⟨rfl, fun _ _ => rfl⟩
    · exact .interruptTask m taker
  · split
    · exact .interruptTask m watcher
    · exact .trans (.interruptTask m watcher) (.interruptTask _ taker)

theorem wakeFromStart_strides (taker watcher : TaskId) (signalled interrupted : Bool) :
    Strides m env (.wake (.start taker watcher) signalled interrupted) p
      (m.wake env self (.start taker watcher) signalled interrupted p) := by
  refine .goesOn trivial (wakeFromStart_steady m env self p _ _ _ _) (fun _ hp => ?_) (fun hc => absurd hc id)
  have slot (held : Bool) : ∀ k ∈ Pending.slot held :: p, k.IsAside := by simpa [Pending.IsAside] using hp
  unfold wake
  dsimp only
  split
  · exact .go trivial hp
  · split
    · exact .go trivial (slot true)
    · exact .go trivial (slot false)

theorem execute_strides : Strides m env .execute p (m.execute env p) := by
  unfold execute
  dsimp only
  split
  · exact .goesOn trivial (.refl m) (fun _ hp => .go trivial hp) (fun hc => absurd hc id)
  · split
    · rename_i hc
      have hd := Discreet.finalize m env.stamp .cancelled
      have hcancelled := hd.token hc
      refine .begins hd (fun _ hl => ?_) (finalize_keeps m _ _) (finalize_among m _ _) fun hp => .go trivial hp
      rw [hcancelled] at hl
      cases hl
    · rename_i hs _
      have hs : m.run.status ≠ .paused := fun h => by simp [h] at hs
      refine .begins (.same (.same rfl rfl rfl) rfl rfl rfl (.effect _ fun _ _ => rfl)) (fun ht _ => .inl ht)
        ⟨rfl, rfl, rfl, fun h => by cases h⟩ (.effect _ ⟨fun x hx => ?_, fun _ _ => rfl⟩) fun hp => .go trivial ?_
      · cases hx
        exact List.mem_cons_self
      · simpa [Pending.IsAside] using hp

theorem next_strides (walk : Walk) (node : Option Node) :
    Strides m env (.next walk node) p (m.next env self walk node p) := by
  cases node with
  | none => exact .goesOn trivial (.refl m) (fun _ hp => .go trivial hp) fun _ hp => .go trivial hp
  | some node =>
    by_cases hc : m.token.cancelled = true
    · unfold next
      dsimp only
      rw [if_pos hc]
      exact .turnsBack p _ (.inl hc)
    · by_cases hs : walk.steps + 1 > env.settings.maxStepsPerFrame
      · unfold next
        dsimp only
        rw [if_neg hc, if_pos hs]
        exact .turnsBack p _ (.inr hs)
      · have hl := Bool.eq_false_iff.mpr hc
        have hle := Nat.le_of_not_lt hs
        exact .comes hl hle (next_comes hl hle)

theorem dispatch_strides (walk : Walk) (node : Node) :
    Strides m env (.dispatch walk node) p (m.dispatch env walk node p) := by
  refine .goes ?_
  unfold dispatch
  dsimp only
  split
  · exact .cancelled (by assumption)
  · rename_i hc
    have hc : m.token.cancelled = false := Bool.eq_false_iff.mpr hc
    split
    · exact .skips hc (.quiet (.trace _ env _)) _
    · rename_i hd
      split
      · exact .tries hc _
      · rename_i fault hf
        have refused : Steady lateTypes (m.emit "node.started" (startedPayload node 1 walk.place.depth))
            (m.refusePolicy env walk node fault).1 :=
          .quiet ((Quiet.trace _ env _).trans (.emit _ _ (by decide)))
        split
        · exact .refuses hc refused _
        · exact .refuses hc refused _
        · exact .breaks hc (Bool.eq_false_iff.mpr hd) hf (by assumption) (by assumption) _

theorem try_strides (a : Attempt) : Strides m env (.try a) p (m.attempt env a p) := by
  have h := attempt_plods m env p a
  refine .tries h.steady (fun ha hp => ?_) (fun hp => ?_)
  · exact h.turn.all aside_takesPlain (List.forall_mem_cons.mpr ⟨ha, hp⟩)
  · exact h.turn.all inner_takesPlain (List.forall_mem_cons.mpr ⟨trivial, hp⟩)

/-- After a failed attempt a task rests before the next one, or it is done with the node. -/
theorem afterFailure_steady (a : Attempt) (since : Seconds) (e : ErrorInfo) :
    Steady lateTypes m (m.afterFailure env a since e p).1 ∧
      ((m.afterFailure env a since e p).2.IsPlainOn (.backoff a :: p) ∨
        (m.afterFailure env a since e p).2.IsPlainOn p) := by
  have failed (entry : TraceEntry) (payload : Entries Value) :
      Steady lateTypes m ((m.trace env entry).emit "node.failed" payload) :=
    .quiet ((Quiet.trace m env entry).trans (.emit _ _ (by decide)))
  have left (b : Answer) : (Turn.answer b p).IsPlainOn p := ⟨trivial, [], rfl, by simp⟩
  have rested {n : Machine} (hn : Steady lateTypes m n) (s : Seconds) :
      Steady lateTypes m (n.rest s (.backoff a :: p)).1 ∧
        ((n.rest s (.backoff a :: p)).2.IsPlainOn (.backoff a :: p) ∨
          (n.rest s (.backoff a :: p)).2.IsPlainOn p) :=
    have h := rest_plods n (.backoff a :: p) s
    ⟨hn.trans h.steady, .inl h.turn⟩
  unfold afterFailure
  dsimp only
  split
  · split
    · exact rested (failed _ _) _
    · exact ⟨failed _ _, .inr (left _)⟩
  · exact ⟨failed _ _, .inr (left _)⟩
  · exact ⟨failed _ _, .inr (left _)⟩
  · exact ⟨failed _ _, .inr (left _)⟩

theorem afterAttempt_steady (a : Attempt) (since : Seconds) (o : Outcome) :
    Steady lateTypes m (m.afterAttempt env a since o p).1 ∧
      ((m.afterAttempt env a since o p).2.IsPlainOn (.backoff a :: p) ∨
        (m.afterAttempt env a since o p).2.IsPlainOn p) := by
  have left (b : Answer) : (Turn.answer b p).IsPlainOn p := ⟨trivial, [], rfl, by simp⟩
  cases o with
  | cancelled => exact ⟨.quiet (.trace m env _), .inr (left _)⟩
  | completed label => exact ⟨.quiet ((Quiet.trace m env _).trans (.emit _ _ (by decide))), .inr (left _)⟩
  | failed e node => exact afterFailure_steady m env p a since e

/-- An answer that comes to an attempt. -/
theorem attempted_strides (a : Attempt) (since : Seconds) (b : Answer) :
    Strides m env (.answer b) (.attempt a since :: p) (m.resume env (.attempt a since) b p) := by
  have passed : Strides m env (.answer b) (.attempt a since :: p) (m, .answer b p) :=
    .goesOn trivial (.refl m) (fun _ hp => .go trivial (List.forall_mem_cons.mp hp).2)
      fun _ hp => .go trivial (List.forall_mem_cons.mp hp).2
  cases b with
  | outcome o =>
    obtain ⟨hs, ht⟩ := afterAttempt_steady m env p a since o
    refine .goesOn trivial hs (fun _ hp => ?_) fun _ hp => ?_
    · obtain ⟨ha, hp⟩ := List.forall_mem_cons.mp hp
      obtain ht | ht := ht
      · exact ht.all aside_takesPlain (List.forall_mem_cons.mpr ⟨ha, hp⟩)
      · exact ht.all aside_takesPlain hp
    · obtain ⟨-, hp⟩ := List.forall_mem_cons.mp hp
      obtain ht | ht := ht
      · exact ht.all inner_takesPlain (List.forall_mem_cons.mpr ⟨trivial, hp⟩)
      · exact ht.all inner_takesPlain hp
  | _ => exact passed

theorem rested_strides (a : Attempt) (b : Answer) :
    Strides m env (.answer b) (.backoff a :: p) (m.resume env (.backoff a) b p) := by
  have left (d : Answer) : Strides m env (.answer b) (.backoff a :: p) (m, .answer d p) :=
    .goesOn trivial (.refl m) (fun _ hp => .go trivial (List.forall_mem_cons.mp hp).2)
      fun _ hp => .go trivial (List.forall_mem_cons.mp hp).2
  cases b with
  | rested cutShort =>
    unfold resume
    dsimp only
    split
    · exact left _
    · exact .goesOn trivial (.refl m) (fun _ hp => .go (Nat.succ_le_succ (List.forall_mem_cons.mp hp).1)
        (List.forall_mem_cons.mp hp).2) fun _ hp => .go trivial (List.forall_mem_cons.mp hp).2
  | _ => exact left _

/-- An answer that comes to the execution of the run. -/
theorem executed_strides (a : Answer) :
    Strides m env (.answer a) (.execution :: p) (m.resume env .execution a p) := by
  have finished (o : Outcome) (b : Answer) :
      Strides m env (.answer a) (.execution :: p) (m.finalize env.stamp o, .answer b p) :=
    .ends (.finalize m _ _) (finalize_holds m _ _) (finalize_keeps m _ _) (finalize_among m _ _)
  have passed : Strides m env (.answer a) (.execution :: p) (m, .answer a p) :=
    .goesOn trivial (.refl m) (fun _ hp => .go trivial (List.forall_mem_cons.mp hp).2)
      fun _ hp => .go trivial (List.forall_mem_cons.mp hp).2
  cases a with
  | outcome o => exact finished o _
  | thrown f => exact finished _ _
  | interrupted =>
    have hc : Steady quietTypes m (m.cancelToken (some "task_cancelled")) := .cancelToken m _
    have hd := Discreet.finalize (m.cancelToken (some "task_cancelled")) env.stamp .cancelled
    have hcancelled := hd.token (cancelToken_cancelled m _)
    refine .ends (hc.toDiscreet.trans hd) (.inl fun _ hl => ?_) ?_ (hc.adds.trans (finalize_among _ _ _))
    · rw [hcancelled] at hl
      cases hl
    · exact hc.gauge ▸ finalize_keeps _ _ _
  | _ => exact passed

theorem checked_strides (walk : Walk) (node : Node) (a : Answer) :
    Strides m env (.answer a) (.checkpoint walk node :: p) (m.resume env (.checkpoint walk node) a p) := by
  cases a with
  | done => exact .resumes walk node p
  | _ => exact .passes (by simp) walk node p

theorem common_strides {c : Control} (hc : c.IsCommon p) (ha : c.IsApart p) :
    Strides m env c p (m.step env self c p) := by
  have h := step_plods m env self p hc
  have rest {Q : Pending → Prop} (hp : ∀ k ∈ p, Q k) : ∀ k ∈ c.rest p, Q k := by
    cases c with
    | answer a => exact fun k hk => hp k (List.mem_of_mem_tail hk)
    | _ => exact hp
  exact .goesOn ha h.steady (fun _ hp => h.turn.all aside_takesPlain (rest hp))
    fun _ hp => h.turn.all inner_takesPlain (rest hp)

theorem step_strides (c : Control) : Strides m env c p (m.step env self c p) := by
  cases c with
  | enqueue => exact enqueue_strides m env p
  | execute => exact execute_strides m env p
  | next walk node => exact next_strides m env self p walk node
  | dispatch walk node => exact dispatch_strides m env p walk node
  | «try» a => exact try_strides m env p a
  | wake w s i =>
    cases w with
    | start taker watcher => exact wakeFromStart_strides m env self p taker watcher s i
    | resumption => exact .wakes s i p
    | _ => exact common_strides m env self p trivial trivial
  | answer a =>
    cases p with
    | nil => exact common_strides m env self [] trivial trivial
    | cons k p =>
      cases k with
      | execution => exact executed_strides m env p a
      | checkpoint walk node => exact checked_strides m env p walk node a
      | attempt b since => exact attempted_strides m env p b since a
      | backoff b => exact rested_strides m env p b a
      | slot held => exact common_strides m env self _ (.inr ⟨held, rfl⟩) trivial
      | _ => exact common_strides m env self _ (.inl trivial) trivial
  | _ => exact common_strides m env self p trivial trivial

end functions

end Machine

end Workflow
