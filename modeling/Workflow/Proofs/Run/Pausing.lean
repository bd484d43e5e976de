import Workflow.Proofs.Run.Heeding
import Workflow.Proofs.Run.Ledger
/-!
The discipline of pauses. At each node that a task comes to, the run pauses exactly if the signs there have been
and its breakpoints say so. A node is gone on to only by a task that has come to it, and if it paused there, only
after the pause has been ended.
-/

namespace Workflow

/-- The causes that a run has to pause before a node, by the signs there have been and its breakpoints. -/
inductive IsDue (first : Bool) (past : List Sign) (marks : Breakpoints) (node : Node) : String → Prop
  | start (hf : first = true) (h : IsFirst past) : IsDue first past marks node "start"
  | step (h : IsArmed past) : IsDue first past marks node "step"
  | command (h : IsRequested past) : IsDue first past marks node "command"
  | breakpoint (h : marks.contains node.id = true) : IsDue first past marks node "breakpoint"

namespace Gauge

variable {first : Bool} {past : List Sign} {g : Gauge} {node : Node}

theorem Recalls.isDue (h : g.Recalls first past) {r : String} (hr : g.reason? node = some r) :
    IsDue first past g.breakpoints node r := by
  unfold reason? at hr
  split at hr
  · cases hr
    obtain ⟨hf, hp⟩ := h.pauseOnStart.mp ‹_›
    exact .start hf hp
  · split at hr
    · cases hr
      exact .step (h.stepArmed.mp ‹_›)
    · split at hr
      · cases hr
        exact .command (h.pauseRequested.mp ‹_›)
      · split at hr
        · cases hr
          exact .breakpoint ‹_›
        · cases hr

theorem Recalls.not_isDue (h : g.Recalls first past) (hr : g.reason? node = none) (r : String) :
    ¬ IsDue first past g.breakpoints node r := by
  unfold reason? at hr
  split at hr <;> try cases hr
  split at hr <;> try cases hr
  split at hr <;> try cases hr
  split at hr <;> try cases hr
  rintro (⟨hf, hp⟩ | hp | hp | hp)
  · exact absurd (h.pauseOnStart.mpr ⟨hf, hp⟩) ‹_›
  · exact absurd (h.stepArmed.mpr hp) ‹_›
  · exact absurd (h.pauseRequested.mpr hp) ‹_›
  · exact absurd hp ‹_›

/-- A pause that has been asked for stays so until a task comes to a node. -/
theorem Heeds.requested {h : Gauge} {s : Option Sign} (k : g.Heeds s h) (hs : ∀ a ∈ s, ¬ a.IsComing)
    (hr : g.pauseRequested = true) (hp : g.status ≠ .paused) : h.pauseRequested = true ∧ h.status ≠ .paused := by
  cases k with
  | nothing hk | ended hk => exact ⟨hk.pauseRequested.trans hr, mt hk.unpaused hp⟩
  | asked => exact ⟨rfl, hp⟩
  | released hpaused => exact absurd hpaused hp
  | came => exact absurd trivial (hs _ rfl)
  | went => exact ⟨hr, hp⟩

end Gauge

/-- An event tells that a node is skipped, or that the first attempt at one begins. -/
def IsStart (v : String × Entries Value) : Prop :=
  v.1 = "node.skipped" ∨ v.1 = "node.started" ∧ ("attempt", .nat 1) ∈ v.2

/-- An event tells of a node that a task goes on to. -/
inductive Starts (walk : Walk) (node : Node) : String × Entries Value → Prop
  | skipped : Starts walk node ("node.skipped", Machine.skippedPayload node walk.place.depth)
  | started : Starts walk node ("node.started", Machine.startedPayload node 1 walk.place.depth)

/-- An event tells of a pause only before a node that a task has just come to, and of a node that is gone on to only
if a task could go on to it. -/
structure IsFounded (first : Bool) (past : List Sign) (m : Machine) (s : Option Sign) (v : String × Entries Value) :
    Prop where
  paused : v.1 = "run.paused" → ∃ t walk node r, s = some (.came t walk node (some r)) ∧
    IsDue first past m.run.breakpoints node r ∧
    v.2 = [("reason", .str r), ("nodeId", .str node.id), ("depth", .nat walk.place.depth)]
  started : IsStart v → ∃ t walk node, Starts walk node v ∧ IsEntered (s.toList ++ past) m.main t walk node

theorem not_isStart_of_mem {v : String × Entries Value} (h : v.1 ∈ quietTypes) : ¬ IsStart v := by
  have hs : "node.skipped" ∉ quietTypes := by decide
  have ht : "node.started" ∉ quietTypes := by decide
  rintro (he | ⟨he, -⟩)
  · exact hs (he ▸ h)
  · exact ht (he ▸ h)

theorem isFounded_of_mem {first : Bool} {past : List Sign} {m : Machine} {s : Option Sign}
    {v : String × Entries Value} (h : v.1 ∈ quietTypes) : IsFounded first past m s v := by
  have hp : "run.paused" ∉ quietTypes := by decide
  exact ⟨fun he => absurd (he ▸ h) hp, fun hv => absurd hv (not_isStart_of_mem h)⟩

namespace Machine

variable {first : Bool} {past : List Sign} {m n o : Machine} {env : Surroundings} {t : TaskId} {c : Control}
  {p : List Pending} {x : StepResult} {P Q : String × Entries Value → Prop}

/-- The events that were added are of some kind, the latest first. -/
def Voices (P : String × Entries Value → Prop) (m n : Machine) : Prop :=
  ∃ late, n.effects.filterMap Effect.event? = late ++ m.effects.filterMap Effect.event? ∧ ∀ v ∈ late, P v

theorem Voices.trans (h : Voices P m n) (k : Voices P n o) : Voices P m o := by
  obtain ⟨late, hl, hP⟩ := h
  obtain ⟨later, hr, hQ⟩ := k
  refine ⟨later ++ late, by rw [hr, hl, List.append_assoc], fun v hv => ?_⟩
  exact (List.mem_append.mp hv).elim (hQ v) (hP v)

theorem Voices.of_adds (h : Adds (fun e => ∀ v, e.event? = some v → P v) m n) : Voices P m n := by
  obtain ⟨late, hl, hP⟩ := h
  refine ⟨late.filterMap Effect.event?, by rw [hl, List.filterMap_append], fun v hv => ?_⟩
  obtain ⟨e, hm, he⟩ := List.mem_filterMap.mp hv
  exact hP e hm v he

theorem Voices.of_mute (h : Adds Effect.IsMute m n) : Voices P m n :=
  .of_adds (h.mono fun _ he v hv => by cases he.symm.trans hv)

theorem told_of_mute (h : Adds Effect.IsMute m n) :
    n.effects.filterMap Effect.event? = m.effects.filterMap Effect.event? := by
  obtain ⟨late, hl, hmute⟩ := h
  rw [hl, List.filterMap_append, List.filterMap_eq_nil_iff.mpr hmute, List.nil_append]

/-- The end of a pause is told. -/
theorem release_told (m : Machine) (mode : String) : (m.release mode).effects.filterMap Effect.event? =
    ("run.resumed", [("nodeId", .ofText? m.run.current), ("mode", .str mode)]) ::
      m.effects.filterMap Effect.event? :=
  told_of_mute ((Silent.endPause _).adds.mono fun _ h => h.1)

theorem Voices.of_among {types : List String} (h : Adds (Effect.Among types) m n) (ht : ∀ v, v.1 ∈ types → P v) :
    Voices P m n :=
  .of_adds (h.mono fun _ he v hv => ht v (he.1 v hv))

theorem late_quiet {v : String × Entries Value} (h : v.1 ∈ lateTypes) : v.1 ∈ quietTypes := by
  have hmem : ∀ t ∈ lateTypes, t ∈ quietTypes := by decide
  exact hmem _ h

/-- Something is told before events of late types. -/
theorem Voices.after {type : String} {payload : Entries Value} {s : Option Sign}
    (h : Steady lateTypes (m.emit type payload) n) (hv : IsFounded first past o s (type, payload)) :
    Voices (IsFounded first past o s) m n :=
  .trans (n := m.emit type payload) ⟨[(type, payload)], rfl, by simpa using hv⟩
    (.of_among h.adds fun _ hv => isFounded_of_mem (late_quiet hv))

theorem mem_startedPayload {node : Node} {number depth : Nat}
    (h : ("attempt", Value.nat 1) ∈ startedPayload node number depth) : number = 1 := by
  simpa [startedPayload, eq_comm] using h

/-- What a step tells is founded on the signs. -/
theorem Strides.founded (h : Strides m env c p x) (hg : m.gauge.Recalls first past) (hp : Poised past m t c p)
    {reason : Option String} (hr : ∀ {walk node}, Comes m walk node p x → reason = m.gauge.reason? node) (b : Bool) :
    Voices (IsFounded first past m (c.sign? m env t reason b)) m x.1 := by
  cases h with
  | goesOn _ h => exact .of_among h.adds fun _ hv => isFounded_of_mem (late_quiet hv)
  | begins _ _ _ he | ends _ _ _ he => exact .of_among he fun _ => isFounded_of_mem
  | comes hc hs h =>
    rw [Control.sign?_comes hc hs, hr h]
    refine ⟨_, h.events, fun v hv => ?_⟩
    obtain ⟨r, hreason, rfl⟩ := List.mem_map.mp hv
    have hreason := Option.mem_toList.mp hreason
    rw [hreason]
    exact ⟨fun _ => ⟨_, _, _, r, rfl, hg.isDue hreason, rfl⟩, fun hv => by simp [IsStart] at hv⟩
  | @goes walk node _ _ h =>
    cases hp.poises with
    | aside hc => exact absurd hc id
    | going _ hf =>
      have entered (hc : m.token.cancelled = false) {v : String × Entries Value} (hv : Starts walk node v)
          (hn : v.1 ≠ "run.paused") :
          IsFounded first past m ((Control.dispatch walk node).sign? m env t reason b) v := by
        rw [Control.sign?_goes hc]
        exact ⟨fun he => absurd he hn, fun _ => ⟨t, walk, node, hv, (hf hc).enters⟩⟩
      cases h with
      | skips hc h => exact .after h (entered hc .skipped (by simp))
      | refuses hc h => exact .after h (entered hc .started (by simp))
      | _ => exact .of_adds (.refl m)
  | @tries a _ _ h =>
    refine .after h ⟨fun he => by simp at he, fun hv => ?_⟩
    have hnumber : a.number = 1 := hv.elim (by simp) fun hv => mem_startedPayload hv.2
    cases hp.poises with
    | aside hc =>
      have hc : 2 ≤ a.number := hc
      omega
    | @starting walk _ _ _ hw _ he =>
      refine ⟨t, walk, a.node, ?_, he.append fun d hd => Control.task?_other (by simp) (by simp) d hd t⟩
      rw [hnumber, hw]
      exact .started
  | _ => exact .of_adds (.refl m)

end Machine

namespace Execution

variable {first : Bool} {past : List Sign} {x y : Execution} {env : Surroundings} {s : Strand} {t : TaskId}
  {p : List Pending} {walk : Walk} {node : Node}

/-- All that is said anew is of some kind. -/
def Says (P : String × Entries Value → Prop) (x y : Execution) : Prop :=
  ∃ late, y.events = x.events ++ late ∧ ∀ e ∈ late, P e

theorem put_says {P : String × Entries Value → Prop} (he : x.machine.effects = []) {n : Machine}
    (hn : Machine.Voices P x.machine n) (s : Option Strand) : x.Says P (x.put n s) := by
  obtain ⟨late, hl, hP⟩ := hn
  rw [he, List.filterMap_nil, List.append_nil] at hl
  refine ⟨late.reverse, ?_, fun v hv => hP v (List.mem_reverse.mp hv)⟩
  have hlog : (x.put n s).log = n.effects ++ x.log := rfl
  rw [events_append hlog, List.filterMap_reverse, hl]

theorem says_nothing {P : String × Entries Value → Prop} (h : y.log = x.log) : x.Says P y :=
  ⟨[], by rw [List.append_nil, events, events, h], by simp⟩

/-- The run pauses before a node, to which a task has come, and says so. -/
structure PausesAt (x : Execution) (env : Surroundings) (t : TaskId) (walk : Walk) (node : Node)
    (p : List Pending) (cause : String) : Prop where
  sign : x.sign? (.step env) = some (.came t walk node (some cause))
  waits : ∃ k, (x.stepIn env).machine.state? t = some (.waiting .resumption k)
  work : (x.stepIn env).machine.pending? t = some (.checkpoint walk node :: p)
  status : (x.stepIn env).machine.run.status = .paused
  reason : (x.stepIn env).machine.run.pauseReason = some cause
  told : (x.stepIn env).events = x.events ++ [("run.paused",
    [("reason", .str cause), ("nodeId", .str node.id), ("depth", .nat walk.place.depth)])]

/-- A task comes to a node and goes on to it at once, and nothing is told of this. -/
structure Passes (x : Execution) (env : Surroundings) (t : TaskId) (walk : Walk) (node : Node)
    (p : List Pending) : Prop where
  sign : x.sign? (.step env) = some (.came t walk node none)
  active : (x.stepIn env).active = some ⟨t, .dispatch walk node, p⟩
  status : (x.stepIn env).machine.run.status = x.machine.run.status
  told : (x.stepIn env).events = x.events

theorem put_events (x : Execution) (n : Machine) (s : Option Strand) :
    (x.put n s).events = x.events ++ (n.effects.filterMap Effect.event?).reverse := by
  have hlog : (x.put n s).log = n.effects ++ x.log := rfl
  rw [events_append hlog, List.filterMap_reverse]

/-- What is said by the task that takes a step. -/
theorem stepIn_events (hs : x.active = some s) {n : Machine} {turn : Turn}
    (hn : x.machine.step env s.task s.control s.pending = (n, turn)) :
    (x.stepIn env).events = x.events ++ (n.effects.filterMap Effect.event?).reverse := by
  rw [stepIn_eq hs, hn, put_events, Machine.told_of_mute (Machine.turn_adds n s.task turn)]

/-- What becomes of a task that comes to a node. -/
theorem Recalls.arrives (h : x.Recalls first past)
    (hx : x.active = some ⟨t, .next walk (some node), p⟩) (hc : x.machine.token.cancelled = false)
    (hs : walk.steps + 1 ≤ env.settings.maxStepsPerFrame) :
    let walk := { walk with steps := walk.steps + 1 }
    (∀ r, x.machine.gauge.reason? node = some r → x.PausesAt env t walk node p r) ∧
      (x.machine.gauge.reason? node = none → x.Passes env t walk node p) := by
  intro walk'
  have hn : Machine.Comes x.machine walk' node p (x.machine.step env t (.next walk (some node)) p) :=
    Machine.next_comes hc hs
  have hr := Machine.step_running x.machine env t p (h.manned _ hx) (.next walk (some node))
  have hsign : x.sign? (.step env) = some (.came t walk' node (x.machine.gauge.reason? node)) := by
    unfold sign?
    rw [hx, ← stopped?_of_comes hx hn]
    exact Control.sign?_comes hc hs
  have heq := stepIn_eq hx env
  have hevents {n turn} (hn : x.machine.step env t (.next walk (some node)) p = (n, turn)) := stepIn_events hx hn
  dsimp only at heq hevents
  generalize x.machine.step env t (.next walk (some node)) p = r at hn hr heq hevents
  obtain ⟨n, turn⟩ := r
  have hturn := hn.turn
  have hsaid := hn.events
  have hcore := Machine.turn_core n t turn
  have hrun : (x.stepIn env).machine.run = n.run := by
    rw [heq]
    exact (congrArg Machine.run hcore :)
  have hstatus : n.run.status = (x.machine.gauge.pass node).status := congrArg Gauge.status hn.gauge
  refine ⟨fun reason hreason => ?_, fun hreason => ?_⟩ <;> rw [hreason] at hturn hsaid hsign <;> cases hturn
  · have hwait : (n.turn t (.wait .resumption [] none (.checkpoint walk' node :: p))).1 =
        (n.putPending t (.checkpoint walk' node :: p)).lull t .resumption [] none := rfl
    exact {
      sign := hsign
      waits := by
        rw [heq]
        exact ⟨_, Machine.state?_turn_wait hr _ _ _ _⟩
      work := by
        rw [heq]
        show (n.turn t _).1.pending? t = _
        rw [hwait, Machine.pending?_lull, Machine.own_pending? hr]
      status := by simp [hrun, hstatus, Gauge.pass, hreason]
      reason := by rw [hrun, hn.reason reason hreason]
      told := by simp [hevents rfl, hsaid, h.spent] }
  · exact {
      sign := hsign
      active := by rw [heq]; rfl
      status := by
        rw [hrun, hstatus, Gauge.pass, hreason]
        rfl
      told := by simp [hevents rfl, hsaid, h.spent] }

/-- Whatever is told is founded on the signs. -/
theorem Recalls.founded (h : x.Recalls first past) (a : Happening) :
    x.Says (IsFounded first past x.machine (x.sign? a)) (x.meet a) := by
  have quiet {m n : Machine} (h : Machine.Adds (Effect.Among quietTypes) m n) :
      Machine.Voices (IsFounded first past x.machine (x.sign? a)) m n := .of_among h fun _ => isFounded_of_mem
  have hu := x.undergoes a
  generalize hy : x.meet a = y at hu ⊢
  cases hu with
  | refused => exact says_nothing rfl
  | command hi => exact put_says h.spent (quiet (Machine.obey_adds _ _)) _
  | interrupt hi => exact put_says h.spent (quiet (Machine.interruptMain_steady _).adds) _
  | tell hi => exact put_says h.spent (.of_mute (Machine.Silent.tell _ _ _).mute.adds) _
  | grant => exact says_nothing rfl
  | @begin t =>
    have hb := x.begins t
    generalize x.begin t = z at hb ⊢
    cases hb with
    | dismissed => exact put_says h.spent (.of_mute (Machine.Mute.finish _ _ _).adds) _
    | _ => exact says_nothing rfl
  | step env =>
    cases hs : x.active with
    | none =>
      rw [stepIn_idle hs]
      exact says_nothing rfl
    | some s =>
      have hfounded := (x.machine.step_strides env s.task s.pending s.control).founded h.gauge (h.poised (post_self hs))
        (stopped?_of_comes hs) (x.endsBy (.step env))
      have hsign : x.sign? (.step env) =
          s.control.sign? x.machine env s.task (x.stepIn env).stopped? (x.endsBy (.step env)) := by
        unfold sign?
        rw [hs]
      rw [stepIn_eq hs, hsign]
      exact put_says h.spent (hfounded.trans (.of_mute (Machine.turn_adds _ _ _))) _

theorem pause_accepted_iff {m : Machine} :
    (m.obey .pause).2 = true ↔ m.run.status = .pending ∨ m.run.status = .running := by
  show m.pause.2 = true ↔ _
  unfold Machine.pause
  split <;> simp_all

theorem pause_requests {m : Machine} (h : (m.obey .pause).2 = true) :
    m.pause.1.pauseRequested = true ∧ m.pause.1.run = m.run := by
  have h : m.pause.2 = true := h
  unfold Machine.pause at h ⊢
  split <;> simp_all

theorem requested_following (hs : List Happening) (hr : x.machine.pauseRequested = true)
    (hp : x.machine.run.status ≠ .paused) (hc : ∀ s ∈ signs hs x, ¬ s.IsComing) :
    (following hs x).machine.pauseRequested = true := by
  induction hs generalizing x with
  | nil => exact hr
  | cons a hs ih =>
    have hlater := fun s hm => hc s (List.mem_append_left _ hm)
    have hnow : ∀ s ∈ x.sign? a, ¬ s.IsComing := fun s hm => hc s (List.mem_append_right _ (Option.mem_toList.mpr hm))
    obtain ⟨hr', hp'⟩ := (x.meet_heeds a).requested hnow hr hp
    exact ih hr' hp' hlater

/-- A task that comes to a node pauses exactly if it has to. -/
theorem Recalls.decided (h : x.Recalls first past)
    (hx : x.active = some ⟨t, .next walk (some node), p⟩) (hc : x.machine.token.cancelled = false)
    (hs : walk.steps + 1 ≤ env.settings.maxStepsPerFrame) :
    let walk := { walk with steps := walk.steps + 1 }
    ((∃ r, IsDue first past x.machine.run.breakpoints node r) →
      ∃ r, IsDue first past x.machine.run.breakpoints node r ∧ x.PausesAt env t walk node p r) ∧
    ((∀ r, ¬ IsDue first past x.machine.run.breakpoints node r) → x.Passes env t walk node p) := by
  intro walk'
  obtain ⟨hpause, hpass⟩ := h.arrives hx hc hs
  cases hr : x.machine.gauge.reason? node with
  | some r => exact ⟨fun _ => ⟨r, h.gauge.isDue hr, hpause r hr⟩, fun hn => absurd (h.gauge.isDue hr) (hn r)⟩
  | none => exact ⟨fun ⟨r, hd⟩ => absurd hd (h.gauge.not_isDue hr r), fun _ => hpass hr⟩

/-- A pause that is ended has lasted until then, and its end is told. -/
theorem Recalls.released (h : x.Recalls first past) {a : Happening} {b : Bool} (hs : x.sign? a = some (.released b)) :
    x.machine.run.status = .paused ∧ (x.meet a).events = x.events ++ [("run.resumed",
      [("nodeId", .ofText? x.machine.run.current), ("mode", .str (if b then "step" else "resume"))])] := by
  have hheeds := x.meet_heeds a
  rw [hs] at hheeds
  refine ⟨hheeds.of_released, ?_⟩
  have ended {b' : Bool} (h : (if b' then some Sign.ended else none) = some (.released b)) : False := by
    cases b' <;> cases h
  cases a with
  | step env =>
    unfold sign? at hs
    dsimp only at hs
    split at hs
    · exact absurd hs Control.sign?_ne_released
    · cases hs
  | command c =>
    have hs : (if x.isIdle then c.sign? x.machine (x.endsBy (.command c)) else none) = some (.released b) := hs
    split at hs
    · rename_i hi
      have hput : x.meet (.command c) = x.put (x.machine.obey c).1 none := if_pos hi
      have released {n : Machine} (hn : n.run = x.machine.run) (he : n.effects = x.machine.effects) (mode : String) :
          (x.put (n.release mode) none).events = x.events ++ [("run.resumed",
            [("nodeId", .ofText? x.machine.run.current), ("mode", .str mode)])] := by
        rw [put_events, Machine.release_told, hn, he, h.spent]
        rfl
      rw [hput]
      cases c with
      | resume =>
        have hs : (if x.machine.resumeRun.2 then some (Sign.released false) else none) = some (.released b) := hs
        show (x.put x.machine.resumeRun.1 none).events = _
        unfold Machine.resumeRun at hs ⊢
        split at hs <;> cases hs
        rw [if_pos ‹_›]
        exact released (n := { x.machine with stepArmed := false }) rfl rfl _
      | stepOver =>
        have hs : (if x.machine.stepOver.2 then some (Sign.released true) else none) = some (.released b) := hs
        show (x.put x.machine.stepOver.1 none).events = _
        unfold Machine.stepOver at hs ⊢
        split at hs <;> cases hs
        rw [if_pos ‹_›]
        exact released (n := { x.machine with stepArmed := true }) rfl rfl _
      | pause =>
        have hs : (if x.machine.pause.2 then some Sign.asked else none) = some (.released b) := hs
        split at hs <;> cases hs
      | _ => exact (ended hs).elim
    · cases hs
  | _ => exact (ended hs).elim

/-- The discipline of pauses, for every run in any surroundings and under any commands. At each node that a task
comes to, the run pauses if the signs there have been or its breakpoints say so, and otherwise the task goes on at
once. No other pause is told of, and none begins otherwise. A node is skipped or a first attempt at it begins only
if a task has come to it and then gone on to it, and if it paused there, only after the pause was ended by a command,
which is told, or, if the task does not execute the run, by the end of the run. A pause that is asked for while the
run is pending or running comes about at the next node, if there is one. -/
theorem pause_discipline (id : String) (flow : Flow) (bindings : Entries Value) (breakpoints : Breakpoints)
    (pauseOnStart : Bool) (stamp : Instant) (hs : List Happening) :
    let o := ofMachine (.create id flow bindings breakpoints pauseOnStart stamp)
    let x := following hs o
    let past := signs hs o
    (∀ env t walk node p, x.active = some ⟨t, .next walk (some node), p⟩ → x.machine.token.cancelled = false →
      walk.steps + 1 ≤ env.settings.maxStepsPerFrame →
      let walk := { walk with steps := walk.steps + 1 }
      ((∃ r, IsDue pauseOnStart past x.machine.run.breakpoints node r) →
        ∃ r, IsDue pauseOnStart past x.machine.run.breakpoints node r ∧ x.PausesAt env t walk node p r) ∧
      ((∀ r, ¬ IsDue pauseOnStart past x.machine.run.breakpoints node r) → x.Passes env t walk node p)) ∧
    (∀ a, x.Says (IsFounded pauseOnStart past x.machine (x.sign? a)) (x.meet a) ∧
      ((x.meet a).machine.run.status = .paused → x.machine.run.status ≠ .paused →
        ∃ t walk node r, x.sign? a = some (.came t walk node (some r))) ∧
      ∀ b, x.sign? a = some (.released b) → x.machine.run.status = .paused ∧
        (x.meet a).events = x.events ++ [("run.resumed",
          [("nodeId", .ofText? x.machine.run.current), ("mode", .str (if b then "step" else "resume"))])]) ∧
    (x.isIdle = true → ((x.machine.obey .pause).2 = true ↔
        x.machine.run.status = .pending ∨ x.machine.run.status = .running) ∧
      ((x.machine.obey .pause).2 = true → ∀ js,
        let y := following js (x.obey .pause)
        (∀ s ∈ signs js (x.obey .pause), ¬ s.IsComing) →
        ∀ env t walk node p, y.active = some ⟨t, .next walk (some node), p⟩ → y.machine.token.cancelled = false →
          walk.steps + 1 ≤ env.settings.maxStepsPerFrame →
          ∃ r, y.PausesAt env t { walk with steps := walk.steps + 1 } node p r)) := by
  intro o x past
  have hx : x.Recalls pauseOnStart past := by
    have := (create_recalls id flow bindings breakpoints pauseOnStart stamp).following hs
    rwa [List.append_nil] at this
  refine ⟨fun env t walk node p => hx.decided, fun a => ⟨hx.founded a, fun hp hn => ?_, fun b => hx.released⟩,
    fun hi => ⟨pause_accepted_iff, ?_⟩⟩
  · by_contra hcame
    exact hn ((x.meet_heeds a).unpaused hp fun t walk node r hs => hcame ⟨t, walk, node, r, hs⟩)
  · intro haccepted js y hcoming env t walk node p hactive hc hle
    have hobey : x.obey .pause = x.put x.machine.pause.1 none := if_pos hi
    obtain ⟨hrequested, hrun⟩ := pause_requests haccepted
    have hy : y.machine.pauseRequested = true := by
      refine requested_following js ?_ ?_ hcoming
      · rw [hobey]
        exact hrequested
      · rw [hobey]
        show x.machine.pause.1.run.status ≠ .paused
        rw [hrun]
        obtain hs | hs := pause_accepted_iff.mp haccepted <;> rw [hs] <;> decide
    have hrecalls := (hx.meet (.command .pause)).following js
    obtain ⟨r, -, hr⟩ := (hrecalls.decided hactive hc hle).1 ⟨_, .command (hrecalls.gauge.pauseRequested.mp hy)⟩
    exact ⟨r, hr⟩

/-- Handlers that carry out flows. -/
def nested : Registry :=
  [("outer", { handler := .planned [⟨[], .subflow (.str "mid") [] true none⟩] }),
    ("inner", { handler := .planned [⟨[], .subflow (.str "leaf") [] true none⟩] })]

/-- A flow whose node may not take long and is passed over if it fails. -/
def hasty : Flow where
  id := "main"
  nodes := [{
    id := "a", kind := "outer", policy := some [("timeoutMs", .int 50), ("onError", .str "continue")] }]
  subflows := [("mid", { id := "mid", nodes := [{ id := "m", kind := "inner" }] }),
    ("leaf", { id := "leaf", nodes := [{ id := "b", kind := "log" }] })]

/-- The handler of the run's node calls a flow, and the handler of a node of this another one. -/
def descending : List Happening :=
  let steps (n : Nat) : List Happening := List.replicate n (.step (forlorn nested))
  .command (.start false) :: .begin 0 :: steps 5 ++ .begin 1 :: steps 6 ++ .begin 3 :: steps 3

/-- The inner flow pauses, the node of the run takes too long, and the run ends without the inner flow. -/
def forsaking : List Happening :=
  let steps (n : Nat) : List Happening := List.replicate n (.step (forlorn nested))
  descending ++ steps 1 ++ .tell 0 0 :: .begin 0 :: steps 1 ++ .begin 1 :: steps 9 ++ .tell 0 3 :: .begin 0 :: steps 7

/-- The inner flow comes to a node with a breakpoint, and the run pauses. -/
theorem pause_discipline_descending :
    let x := following descending (ofMachine (.create "" hasty [] ["b"] false 0))
    ∃ walk node p, x.active = some ⟨3, .next walk (some node), p⟩ ∧ x.machine.token.cancelled = false ∧
      walk.steps + 1 ≤ (forlorn nested).settings.maxStepsPerFrame ∧ node.id = "b" ∧
      ∃ r, x.PausesAt (forlorn nested) 3 { walk with steps := walk.steps + 1 } node p r := by
  intro x
  obtain ⟨walk, node, p, hx, hc, hs, hid, hb⟩ : ∃ walk node p, x.active = some ⟨3, .next walk (some node), p⟩ ∧
      x.machine.token.cancelled = false ∧ walk.steps + 1 ≤ (forlorn nested).settings.maxStepsPerFrame ∧
      node.id = "b" ∧ x.machine.run.breakpoints.contains node.id = true :=
    ⟨_, _, _, rfl, rfl, by decide, rfl, rfl⟩
  obtain ⟨hpause, -⟩ :=
    (pause_discipline "" hasty [] ["b"] false 0 descending).1 (forlorn nested) 3 walk node p hx hc hs
  obtain ⟨r, -, hr⟩ := hpause ⟨_, .breakpoint hb⟩
  exact ⟨walk, node, p, hx, hc, hs, hid, r, hr⟩

set_option maxRecDepth 2000 in
/-- The end of the run ends the pause of the inner flow, which then goes on to the node with the breakpoint. -/
theorem unresumed_start :
    let x := following (forsaking ++ .begin 3 :: List.replicate 4 (.step (forlorn nested)))
      (ofMachine (.create "" hasty [] ["b"] false 0))
    x.machine.run.breakpoints.contains "b" = true ∧
    x.events.map (·.1) = ["run.started", "node.started", "node.started", "run.paused", "node.failed",
      "run.completed", "node.started"] ∧
    x.events[3]? = some ("run.paused", [("reason", .str "breakpoint"), ("nodeId", .str "b"), ("depth", .nat 2)]) ∧
    x.events[6]? = some ("node.started", [("nodeId", .str "b"), ("kind", .str "log"), ("attempt", .nat 1),
      ("depth", .nat 2)]) :=
  ⟨by decide +kernel, by decide +kernel, rfl, rfl⟩

end Execution

end Workflow
