import Workflow.Proofs.Run.CallStack
import Workflow.Proofs.Run.Pausing
import Workflow.Proofs.Run.Strain
import Workflow.Proofs.Run.Wakeup
/-!
A single step. A run that is paused before a node and is commanded to step goes on to this node, and to no other
one before it pauses again or ends, whatever else it is commanded in the meantime short of a cancellation.
-/

namespace Workflow

/-- An event tells that a run pauses or ends. -/
def IsHalt (v : String × Entries Value) : Prop :=
  v.1 = "run.paused" ∨ v.1 ∈ terminalTypes

/-- An event tells neither of a node that is gone on to nor of a halt. -/
def IsPassing (v : String × Entries Value) : Prop :=
  ¬ IsStart v ∧ ¬ IsHalt v

/-- How far a run has come that is commanded to step. -/
inductive Phase where
  /-- It has not gone on to the node yet. -/
  | before
  | within
  /-- It has paused again or ended. -/
  | halted

/-- What is told of a step: the node is gone on to, and no other one until the run pauses or ends. -/
inductive TellsStep (walk : Walk) (node : Node) : Phase → List (String × Entries Value) → Prop
  | before {early : List (String × Entries Value)} (he : ∀ v ∈ early, IsPassing v) :
      TellsStep walk node .before early
  | within {early late : List (String × Entries Value)} {v : String × Entries Value}
      (he : ∀ v ∈ early, IsPassing v) (hv : Starts walk node v) (hl : ∀ v ∈ late, IsPassing v) :
      TellsStep walk node .within (early ++ v :: late)
  | halted {early : List (String × Entries Value)} {v : String × Entries Value}
      (he : TellsStep walk node .within early) (hv : IsHalt v) (late : List (String × Entries Value)) :
      TellsStep walk node .halted (early ++ v :: late)

namespace TellsStep

variable {walk : Walk} {node : Node} {vs late : List (String × Entries Value)} {v : String × Entries Value}

theorem wait (h : TellsStep walk node .before vs) (hl : ∀ v ∈ late, IsPassing v) :
    TellsStep walk node .before (vs ++ late) := by
  cases h with
  | before he => exact .before fun v hv => (List.mem_append.mp hv).elim (he v) (hl v)

theorem begin (h : TellsStep walk node .before vs) (hv : Starts walk node v) (hl : ∀ v ∈ late, IsPassing v) :
    TellsStep walk node .within (vs ++ v :: late) := by
  cases h with
  | before he => exact .within he hv hl

theorem idle (h : TellsStep walk node .within vs) (hl : ∀ v ∈ late, IsPassing v) :
    TellsStep walk node .within (vs ++ late) := by
  cases h with
  | within he hv hp =>
    rw [List.append_assoc, List.cons_append]
    exact .within he hv fun v hv => (List.mem_append.mp hv).elim (hp v) (hl v)

/-- If no other node is gone on to, the step lasts until the run pauses or ends. -/
theorem goesOn (h : TellsStep walk node .within vs) (hs : ∀ v ∈ late, ¬ IsStart v) :
    TellsStep walk node .halted (vs ++ late) ∨
      (∀ v ∈ late, ¬ IsHalt v) ∧ TellsStep walk node .within (vs ++ late) := by
  classical
  cases hf : late.find? fun v => decide (IsHalt v) with
  | none =>
    have hn : ∀ v ∈ late, ¬ IsHalt v := fun v hv => by simpa using List.find?_eq_none.mp hf v hv
    exact .inr ⟨hn, h.idle fun v hv => ⟨hs v hv, hn v hv⟩⟩
  | some v =>
    obtain ⟨hv, early, rest, rfl, he⟩ := List.find?_eq_some_iff_append.mp hf
    have hpassed : ∀ a ∈ early, IsPassing a := fun a ha =>
      ⟨hs a (List.mem_append_left _ ha), by simpa using he a ha⟩
    have := TellsStep.halted (h.idle hpassed) (of_decide_eq_true hv) rest
    rw [List.append_assoc] at this
    exact .inl this

theorem more (h : TellsStep walk node .halted vs) (late : List (String × Entries Value)) :
    TellsStep walk node .halted (vs ++ late) := by
  cases h with
  | halted he hv rest =>
    rw [List.append_assoc, List.cons_append]
    exact .halted he hv _

end TellsStep

/-- Whether the policy of a node that is not skipped holds an infinite number, with which it can be neither attempted
nor refused. -/
def Walk.overflows (walk : Walk) (node : Node) : Bool :=
  !node.disabled && Policy.overflows ([walk.place.flow.policy, node.policy].map fun p => (p.map Value.obj).getD .null)

namespace Stance

/-- The walker is about to go on to a node. -/
inductive Nears (walk : Walk) (node : Node) : Stance → Prop
  | paused {p : List Pending} (hp : ∀ k ∈ p, k.IsAside) (s i : Bool) :
      Nears walk node (some (.wake .resumption s i, .checkpoint walk node :: p))
  | resumed {p : List Pending} (hp : ∀ k ∈ p, k.IsAside) :
      Nears walk node (some (.answer .done, .checkpoint walk node :: p))
  | going {p : List Pending} (hp : ∀ k ∈ p, k.IsAside) : Nears walk node (some (.dispatch walk node, p))
  | trying {p : List Pending} (hp : ∀ k ∈ p, k.IsAside) (q : Policy) :
      Nears walk node (some (.try ⟨walk.place, node, q, 1⟩, p))

/-- The walker is about to go on to no node. -/
def IsAside (a : Stance) : Prop :=
  ∀ c p, a = some (c, p) → c.IsAside ∧ ∀ k ∈ p, k.IsAside

variable {a b : Stance} {walk : Walk} {node : Node}

theorem Stirs.nears (h : Stirs a b) (ha : a.Nears walk node) : b.Nears walk node := by
  cases h with
  | refl => exact ha
  | wake =>
    cases ha with
    | paused hp => exact .paused hp _ _

theorem Stirs.isAside (h : Stirs a b) (ha : a.IsAside) : b.IsAside := by
  cases h with
  | refl => exact ha
  | wake w s i s' i' p =>
    rintro _ _ ⟨⟩
    obtain ⟨hc, hp⟩ := ha _ _ rfl
    exact ⟨hc.aim (by cases w <;> rfl), hp⟩

end Stance

theorem Turn.All.stance {x : Turn} (h : x.All Control.IsAside Pending.IsAside) : x.stance.IsAside := by
  intro c p hx
  refine h c p ?_
  cases x <;> cases hx <;> rfl

theorem Gauge.reason?_of_armed {g : Gauge} (h : g.stepArmed = true) (node : Node) : ∃ r, g.reason? node = some r := by
  unfold reason?
  rw [h]
  split <;> exact ⟨_, rfl⟩

theorem isPassing_of_mem {v : String × Entries Value} (h : v.1 ∈ lateTypes) : IsPassing v := by
  have hp : "run.paused" ∉ lateTypes := by decide
  have ht : ∀ t ∈ lateTypes, t ∉ terminalTypes := by decide
  refine ⟨not_isStart_of_mem (Machine.late_quiet h), ?_⟩
  rintro (he | he)
  · exact hp (he ▸ h)
  · exact ht _ h he

namespace Machine

variable {m n : Machine} {env : Surroundings} {c : Control} {p : List Pending} {x : StepResult} {walk : Walk}
  {node : Node}

/-- A run does what it was commanded to do by a step. -/
structure IsStepping (m : Machine) : Prop where
  armed : m.stepArmed = true
  status : m.run.status ≠ .paused
  begun : m.main ≠ none

theorem IsStepping.keeps (h : m.IsStepping) (hm : n.main = m.main) (hg : m.gauge.Keeps n.gauge) : n.IsStepping where
  armed := hg.stepArmed.trans h.armed
  status hp := h.status (hg.unpaused hp)
  begun := by rw [hm]; exact h.begun

/-- Something is told, and then what is told in the midst of a walk. -/
theorem told_after {type : String} {payload : Entries Value} (h : Steady lateTypes (m.emit type payload) n) :
    ∃ late, n.effects.filterMap Effect.event? = late ++ (type, payload) :: m.effects.filterMap Effect.event? ∧
      ∀ v ∈ late, v.1 ∈ lateTypes :=
  Voices.of_among (m := m.emit type payload) h.adds fun _ hv => hv

/-- A step of a walker that is about to go on to a node leaves it so, with nothing done or told, or goes on to it. -/
theorem Strides.nears (h : Strides m env c p x) (hn : Stance.Nears walk node (some (c, p)))
    (hi : ∀ s i, c = .wake .resumption s i → i = false) (hl : m.token.cancelled = false)
    (ho : walk.overflows node = false) :
    x.1 = m ∧ x.2.stance.Nears walk node ∨
      (Discreet m x.1 ∧ x.1.gauge = m.gauge) ∧ x.2.stance.IsAside ∧ ∃ v late, Starts walk node v ∧
        x.1.effects.filterMap Effect.event? = late ++ v :: m.effects.filterMap Effect.event? ∧
        ∀ v ∈ late, v.1 ∈ lateTypes := by
  have visit {p : List Pending} (hp : ∀ k ∈ p, k.IsAside) : ∀ k ∈ Pending.visit walk node :: p, k.IsAside :=
    List.forall_mem_cons.mpr ⟨trivial, hp⟩
  cases hn with
  | paused hp s i =>
    cases h with
    | goesOn hc => exact absurd hc id
    | wakes =>
      cases hi _ _ rfl
      exact .inl ⟨rfl, .resumed hp⟩
  | resumed hp =>
    cases h with
    | goesOn hc => exact absurd hc id
    | resumes => exact .inl ⟨rfl, .going hp⟩
    | passes ha => exact absurd rfl ha
  | going hp =>
    cases h with
    | goesOn hc => exact absurd hc id
    | goes h =>
      have hs := h.steady
      cases h with
      | cancelled hc =>
        rw [hl] at hc
        cases hc
      | skips _ h a =>
        obtain ⟨late, ht, hlate⟩ := told_after h
        exact .inr ⟨⟨hs.toDiscreet, hs.gauge⟩, (Turn.All.go trivial (visit hp)).stance, _, late, .skipped, ht, hlate⟩
      | tries _ q => exact .inl ⟨rfl, .trying (visit hp) q⟩
      | refuses _ h a =>
        obtain ⟨late, ht, hlate⟩ := told_after h
        exact .inr ⟨⟨hs.toDiscreet, hs.gauge⟩, (Turn.All.go trivial (visit hp)).stance, _, late, .started, ht, hlate⟩
      | breaks _ hd hf ht hv =>
        obtain (hform | hform) | ⟨-, hinf⟩ := Policy.resolve_error hf
        · exact absurd hform ht
        · exact absurd hform hv
        · rw [Walk.overflows, hd, hinf] at ho
          cases ho
  | trying hp q =>
    cases h with
    | goesOn hc => exact absurd hc id
    | tries h ha =>
      obtain ⟨late, ht, hlate⟩ := told_after h
      have hs := h.after_started
      exact .inr ⟨⟨hs.toDiscreet, hs.gauge⟩, (ha (Nat.le_refl 1) hp).stance, _, late, .started, ht, hlate⟩

/-- A step of a walker that is not about to go on to a node goes on to none, and it is not about to then, unless the
run pauses. -/
theorem Strides.isAside (h : Strides m env c p x) (hs : m.IsStepping) (hc : c.IsAside) (hp : ∀ k ∈ p, k.IsAside) :
    ∃ late, x.1.effects.filterMap Effect.event? = late ++ m.effects.filterMap Effect.event? ∧
      (∀ v ∈ late, ¬ IsStart v) ∧ ((∃ v ∈ late, IsHalt v) ∨ x.1.IsStepping ∧ x.2.stance.IsAside) := by
  have stepping {n : Machine} (hd : Discreet m n) (hg : n.gauge = m.gauge) : n.IsStepping :=
    hs.keeps hd.main (.of_eq hg)
  have hmain := h.discreet.main
  cases h with
  | goesOn _ h ha =>
    obtain ⟨late, ht, hlate⟩ := Voices.of_among h.adds fun _ => not_isStart_of_mem ∘ late_quiet
    exact ⟨late, ht, hlate, .inr ⟨stepping h.toDiscreet h.gauge, (ha hc hp).stance⟩⟩
  | turnsBack p a => exact ⟨[], rfl, by simp, .inr ⟨hs, (Turn.All.go trivial hp).stance⟩⟩
  | comes _ _ h =>
    obtain ⟨r, hr⟩ := Gauge.reason?_of_armed (g := m.gauge) hs.armed _
    refine ⟨_, h.events, fun v hv => ?_, .inl ?_⟩
    · obtain ⟨r, -, rfl⟩ := List.mem_map.mp hv
      simp [IsStart]
    · rw [hr]
      exact ⟨_, List.mem_singleton.mpr rfl, .inl rfl⟩
  | goes | wakes => exact absurd hc id
  | resumes | passes => exact absurd (hp _ List.mem_cons_self) id
  | @tries a _ _ h ha =>
    have hc : 2 ≤ a.number := hc
    obtain ⟨late, ht, hlate⟩ := told_after h
    refine ⟨late ++ [_], by rw [ht, List.append_assoc]; rfl, fun v hv => ?_,
      .inr ⟨stepping h.after_started.toDiscreet h.after_started.gauge, (ha (by omega) hp).stance⟩⟩
    obtain hv | hv := List.mem_append.mp hv
    · exact not_isStart_of_mem (late_quiet (hlate v hv))
    · rw [List.mem_singleton.mp hv]
      rintro (he | ⟨-, he⟩)
      · simp at he
      · have := mem_startedPayload he
        omega
  | begins h _ hg he ha =>
    obtain ⟨late, ht, hlate⟩ := Voices.of_among he fun _ => not_isStart_of_mem
    exact ⟨late, ht, hlate, .inr ⟨hs.keeps hmain hg, (ha hp).stance⟩⟩
  | ends h _ hg he =>
    obtain ⟨late, ht, hlate⟩ := Voices.of_among he fun _ => not_isStart_of_mem
    exact ⟨late, ht, hlate, .inr ⟨hs.keeps hmain hg, (Turn.All.go trivial (List.forall_mem_cons.mp hp).2).stance⟩⟩

/-- Short of a cancellation, a command leaves alone what a step is decided by, and tells at most of a variable. -/
theorem obey_isStepping (h : m.IsStepping) {c : Command} (hc : ∀ reason stamp, c ≠ .cancel reason stamp) :
    (m.obey c).1.IsStepping ∧ (m.obey c).1.token = m.token ∧ Adds (Effect.Among lateTypes) m (m.obey c).1 := by
  have unpaused : ¬ (m.run.status == .paused) = true := by simp [h.status]
  cases c with
  | start slotted =>
    obtain ⟨t, ht⟩ := Option.ne_none_iff_exists'.mp h.begun
    have hm : (m.obey (.start slotted)).1 = m := by
      show m.start slotted = m
      unfold start
      rw [ht]
    rw [hm]
    exact ⟨h, rfl, .refl m⟩
  | pause =>
    show m.pause.1.IsStepping ∧ m.pause.1.token = _ ∧ Adds _ m m.pause.1
    unfold pause
    split <;> exact ⟨⟨h.armed, h.status, h.begun⟩, rfl, .of_eq rfl⟩
  | resume =>
    show m.resumeRun.1.IsStepping ∧ m.resumeRun.1.token = _ ∧ Adds _ m m.resumeRun.1
    unfold resumeRun
    rw [if_neg unpaused]
    exact ⟨h, rfl, .refl m⟩
  | stepOver =>
    show m.stepOver.1.IsStepping ∧ m.stepOver.1.token = _ ∧ Adds _ m m.stepOver.1
    unfold stepOver
    rw [if_neg unpaused]
    exact ⟨h, rfl, .refl m⟩
  | cancel reason stamp => exact absurd rfl (hc reason stamp)
  | setVar name v frame =>
    obtain he | ⟨layers, s, depth, he⟩ := m.obey_setVar name v frame <;> rw [he]
    · exact ⟨h, rfl, .refl m⟩
    · exact ⟨⟨h.armed, h.status, h.begun⟩, rfl, .effect _ ⟨fun x hx => by cases hx; simp [lateTypes], fun _ _ => rfl⟩⟩
  | edit f => exact ⟨⟨h.armed, h.status, h.begun⟩, rfl, .of_eq rfl⟩

/-- The command to step ends a pause and asks for the next one. -/
theorem stepOver_isStepping (hs : m.run.status = .paused) (hm : m.main ≠ none) :
    (m.obey .stepOver).1.IsStepping ∧ (m.obey .stepOver).1.token = m.token ∧
      (m.obey .stepOver).1.effects.filterMap Effect.event? =
        ("run.resumed", [("nodeId", .ofText? m.run.current), ("mode", .str "step")]) ::
          m.effects.filterMap Effect.event? := by
  have released (m : Machine) : (m.release "step").token = m.token ∧ (m.release "step").main = m.main :=
    ⟨(Silent.endPause _).mute.token, (Silent.endPause _).mute.main⟩
  have hobey : (m.obey .stepOver).1 = { m with stepArmed := true }.release "step" := by
    show m.stepOver.1 = _
    unfold stepOver
    rw [if_pos (beq_iff_eq.mpr hs)]
  have hg := release_gauge { m with stepArmed := true } "step"
  obtain ⟨htoken, hmain⟩ := released { m with stepArmed := true }
  rw [hobey]
  refine ⟨⟨congrArg Gauge.stepArmed hg, fun hp => ?_, ?_⟩, htoken, release_told _ _⟩
  · cases hp.symm.trans (congrArg Gauge.status hg)
  · rw [hmain]
    exact hm

/-- The walker of a run that is paused and not cancelled waits for the end of the pause. -/
theorem Sound.waits_of_paused {roles : List Role} {log : List Effect} (h : Sound roles log none m)
    (hs : m.run.status = .paused) (hl : m.token.cancelled = false) :
    ∃ t k, m.main = some t ∧ m.state? t = some (.waiting .resumption k) := by
  have unbegun : ¬ IsUnbegun m := by
    rintro (⟨h, -⟩ | h) <;> rw [hs] at h <;> cases h
  obtain ⟨t, hm⟩ := Option.ne_none_iff_exists'.mp fun hm => unbegun (h.unstarted hm)
  obtain ⟨s, ht⟩ := exists_state? (h.fitting.lt (h.main.mpr hm))
  obtain ⟨p, hp⟩ := exists_pending? ht
  have hpark := h.parked hm ht hp
  cases s with
  | fresh c i => exact absurd hpark.2.2 unbegun
  | waiting w k =>
    obtain ⟨rfl, -⟩ := Waits.paused h hm hpark hs
    exact ⟨t, k, hm, ht⟩
  | woken w s i =>
    have hpark : Stands m (.wake w s i) p := hpark
    cases hpark with
    | start h => exact absurd h unbegun
    | walk h => rw [hs] at h; cases h
    | wake h => rw [hs] at h; cases h
    | resume h =>
      obtain h | ⟨-, hc⟩ := h
      · rw [hs] at h
        cases h
      · rw [hl] at hc
        cases hc
  | running =>
    obtain ⟨s, hs, -⟩ := h.running ht
    cases hs
  | ended a =>
    have hpark : m.run.status.isTerminal = true := hpark
    rw [hs] at hpark
    cases hpark

end Machine

namespace Execution

variable {x y : Execution} {w : World} {walk : Walk} {node : Node} {phase : Phase}
  {vs : List (String × Entries Value)}

/-- A run takes a step that it was commanded to take, with what it has told since then. -/
inductive TakesStep (walk : Walk) (node : Node) (x : Execution) : Phase → List (String × Entries Value) → Prop
  | before {vs : List (String × Entries Value)} (ht : TellsStep walk node .before vs) (hs : x.machine.IsStepping)
      (hl : x.machine.token.cancelled = false) (hn : x.stance.Nears walk node) : TakesStep walk node x .before vs
  | within {vs : List (String × Entries Value)} (ht : TellsStep walk node .within vs) (hs : x.machine.IsStepping)
      (ha : x.stance.IsAside) : TakesStep walk node x .within vs
  | halted {vs : List (String × Entries Value)} (ht : TellsStep walk node .halted vs) :
      TakesStep walk node x .halted vs

namespace TakesStep

theorem tells (h : x.TakesStep walk node phase vs) : TellsStep walk node phase vs := by
  cases h <;> assumption

/-- What others do changes nothing about a step. -/
theorem attends (h : x.TakesStep walk node phase vs) (ha : x.Attends y) : y.TakesStep walk node phase vs := by
  have stepping (hs : x.machine.IsStepping) : y.machine.IsStepping :=
    hs.keeps (congrArg Machine.main ha.watchers :) (.of_eq (congrArg Machine.gauge ha.watchers :))
  cases h with
  | before ht hs hl hn =>
    have hlive : y.machine.token = x.machine.token := (congrArg Machine.token ha.watchers :)
    exact .before ht (stepping hs) (hlive ▸ hl) (ha.stance.nears hn)
  | within ht hs hn => exact .within ht (stepping hs) (ha.stance.isAside hn)
  | halted ht => exact .halted ht

/-- A command that is not a cancellation changes nothing about a step. -/
theorem obey (h : x.TakesStep walk node phase vs) (hx : x.IsSound) {c : Command}
    (hc : ∀ reason stamp, c ≠ .cancel reason stamp) :
    ∃ late, (x.obey c).events = x.events ++ late ∧ (x.obey c).TakesStep walk node phase (vs ++ late) := by
  have stirs (hm : x.machine.main ≠ none) : x.stance.Stirs (x.obey c).stance :=
    (obey_cases hx c).resolve_right fun h => hm h.1
  by_cases hi : x.isIdle = true
  · have he : x.obey c = x.put (x.machine.obey c).1 none := if_pos hi
    have told (hs : x.machine.IsStepping) :
        ∃ late, (x.obey c).events = x.events ++ late ∧ ∀ v ∈ late, IsPassing v := by
      rw [he]
      exact put_says hx.1 (.of_among (Machine.obey_isStepping hs hc).2.2 fun _ => isPassing_of_mem) _
    have kept (hs : x.machine.IsStepping) : (x.obey c).machine.IsStepping ∧
        (x.obey c).machine.token = x.machine.token := by
      obtain ⟨hn, ht, -⟩ := Machine.obey_isStepping hs hc
      rw [he]
      exact ⟨⟨hn.armed, hn.status, hn.begun⟩, ht⟩
    cases h with
    | before ht hs hl hn =>
      obtain ⟨late, hlate, hv⟩ := told hs
      obtain ⟨hs', hl'⟩ := kept hs
      exact ⟨late, hlate, .before (ht.wait hv) hs' (hl' ▸ hl) ((stirs hs.begun).nears hn)⟩
    | within ht hs ha =>
      obtain ⟨late, hlate, hv⟩ := told hs
      exact ⟨late, hlate, .within (ht.idle hv) (kept hs).1 ((stirs hs.begun).isAside ha)⟩
    | halted ht =>
      rw [he]
      exact ⟨_, put_events .., .halted (ht.more _)⟩
  · have he : x.obey c = x := if_neg hi
    rw [he]
    exact ⟨[], by simp, by rw [List.append_nil]; exact h⟩

/-- A step of the walker. -/
theorem treads (h : x.TakesStep walk node phase vs) (hx : x.IsSound) (ho : walk.overflows node = false) {now : Moment}
    {s : Strand} (ht : Treads w now s x (x.step w now)) :
    ∃ phase late, (x.step w now).events = x.events ++ late ∧
      (x.step w now).TakesStep walk node phase (vs ++ late) := by
  have hstance := stance_of_walker ht.active ht.main
  have hstrides := x.machine.step_strides (w.surroundings now) s.task s.pending s.control
  have hevents : (x.step w now).events = x.events ++
      ((x.machine.step (w.surroundings now) s.task s.control s.pending).1.effects.filterMap Effect.event?).reverse :=
    stepIn_events ht.active rfl
  have hi : ∀ a i, s.control = .wake .resumption a i → i = false := by
    intro a i hc
    obtain ⟨-, roles, hr⟩ := hx
    obtain ⟨-, r, hrole, hsuits, -⟩ := hr.strand ht.active
    rw [hr.main.mpr ht.main] at hrole
    cases hrole
    rw [hc] at hsuits
    exact hsuits.2 rfl
  obtain ⟨-, -, hturn, hcore⟩ := ht
  have hquiet : x.machine.effects = [] := hx.1
  generalize x.machine.step (w.surroundings now) s.task s.control s.pending = r at hstrides hevents hturn hcore
  generalize x.step w now = y at hevents hturn hcore ⊢
  have stepping (hs : r.1.IsStepping) : y.machine.IsStepping :=
    hs.keeps (congrArg Machine.main hcore :) (.of_eq (congrArg Machine.gauge hcore :))
  have htoken : y.machine.token = r.1.token := (congrArg Machine.token hcore :)
  cases h with
  | before hv hs hl hn =>
    rw [hstance] at hn
    obtain ⟨he, hn⟩ | ⟨⟨hd, hg⟩, ha, v, late, hstart, htold, hlate⟩ := hstrides.nears hn hi hl ho
    · refine ⟨.before, [], ?_, ?_⟩
      · rw [hevents, he, hquiet]
        rfl
      · rw [List.append_nil]
        exact .before hv (stepping (he ▸ hs)) (by rw [htoken, he]; exact hl) (hturn ▸ hn)
    · refine ⟨.within, v :: late.reverse, ?_, .within (hv.begin hstart fun v hm => ?_) ?_ (hturn ▸ ha)⟩
      · rw [hevents, htold, hquiet]
        simp
      · exact isPassing_of_mem (hlate v (List.mem_reverse.mp hm))
      · exact stepping (hs.keeps hd.main (.of_eq hg))
  | within hv hs ha =>
    obtain ⟨hc, hp⟩ := ha _ _ hstance
    obtain ⟨late, htold, hlate, hend⟩ := hstrides.isAside hs hc hp
    have hevents : y.events = x.events ++ late.reverse := by
      rw [hevents, htold, hquiet]
      simp
    have hstarts : ∀ v ∈ late.reverse, ¬ IsStart v := fun v hm => hlate v (List.mem_reverse.mp hm)
    obtain hhalted | ⟨hnone, hwithin⟩ := hv.goesOn hstarts
    · exact ⟨.halted, _, hevents, .halted hhalted⟩
    · obtain ⟨v, hm, hhalt⟩ | ⟨hs', ha'⟩ := hend
      · exact absurd hhalt (hnone v (List.mem_reverse.mpr hm))
      · exact ⟨.within, _, hevents, .within hwithin (stepping hs') (hturn ▸ ha')⟩
  | halted hv => exact ⟨.halted, _, hevents, .halted (hv.more _)⟩

theorem take (h : x.TakesStep walk node phase vs) (hx : x.IsSound) (ho : walk.overflows node = false) {i : Input}
    (hi : ∀ reason stamp, i ≠ .command (.cancel reason stamp)) :
    ∃ phase late, (x.take w i).events = x.events ++ late ∧ (x.take w i).TakesStep walk node phase (vs ++ late) := by
  cases i with
  | move a =>
    show ∃ phase late, (x.move w a).events = _ ∧ (x.move w a).TakesStep walk node phase _
    obtain ⟨ha, late, hl, hmute⟩ | ⟨now, s, ht, he⟩ := move_sorts (w := w) hx a
    · refine ⟨phase, [], ?_, by rw [List.append_nil]; exact h.attends ha⟩
      rw [events_append hl, List.filterMap_eq_nil_iff.mpr fun e hm => hmute e (List.mem_reverse.mp hm)]
    · rw [he] at ht ⊢
      exact h.treads hx ho ht
  | command c =>
    obtain ⟨late, hl, hs⟩ := h.obey hx (c := c) fun reason stamp hc => hi reason stamp (congrArg _ hc)
    exact ⟨phase, late, hl, hs⟩

theorem after (h : x.TakesStep walk node phase vs) (hx : x.IsSound) (ho : walk.overflows node = false)
    {is : List Input} (hi : ∀ reason stamp, .command (.cancel reason stamp) ∉ is) :
    ∃ phase late, (after w is x).events = x.events ++ late ∧
      (after w is x).TakesStep walk node phase (vs ++ late) := by
  induction is generalizing x phase vs with
  | nil => exact ⟨phase, [], by simp [Execution.after], by rw [List.append_nil]; exact h⟩
  | cons i is ih =>
    obtain ⟨phase', late, hl, hs⟩ := h.take (w := w) hx ho (i := i) fun reason stamp he =>
      hi reason stamp (List.mem_cons.mpr (.inl he.symm))
    obtain ⟨phase'', late', hl', hs'⟩ := ih hs (take_isSound hx i) fun reason stamp hm =>
      hi reason stamp (List.mem_cons_of_mem _ hm)
    refine ⟨phase'', late ++ late', ?_, ?_⟩
    · show (Execution.after w is (x.take w i)).events = _
      rw [hl', hl, List.append_assoc]
    · rw [← List.append_assoc]
      exact hs'

/-- A walker that has not gone on to the node yet can go on. -/
theorem ready (h : x.TakesStep walk node .before vs) (hx : x.IsSound) (hi : x.isIdle = true) :
    ∃ t, x.machine.main = some t ∧ x.allows (.begin t) = true := by
  cases h with
  | before _ hs _ hn =>
    obtain ⟨t, hm⟩ := Option.ne_none_iff_exists'.mp hs.begun
    refine ⟨t, hm, ?_⟩
    rw [stance_of_idle hm (by simpa [isIdle] using hi), Machine.stance] at hn
    unfold allows
    dsimp only
    rw [hi, Bool.true_and]
    cases ht : x.machine.state? t with
    | none =>
      rw [ht] at hn
      cases hn
    | some s =>
      rw [ht] at hn
      cases s with
      | fresh | woken => rfl
      | waiting v k =>
        obtain ⟨-, roles, hr⟩ := hx
        cases v <;> try cases hn
        exact absurd (hr.isHeldUp ht).status hs.status
      | running | ended => cases hn

/-- A step is begun by the command that it is asked for with. -/
theorem of_stepOver {first : Bool} {past : List Sign} (hr : x.Recalls first past) (hx : x.IsSound)
    (hi : x.isIdle = true) {t : TaskId} {k : Nat} (hs : x.machine.state? t = some (.waiting .resumption k))
    {p : List Pending} (hp : x.machine.pending? t = some (.checkpoint walk node :: p)) :
    ∃ vs, (x.obey .stepOver).events = x.events ++ vs ∧ (x.obey .stepOver).TakesStep walk node .before vs := by
  obtain ⟨-, roles, hsound⟩ := hx
  have hm := hsound.isHeldUp hs
  have hidle : x.active = none := by simpa [isIdle] using hi
  obtain ⟨hstep, htoken, htold⟩ := Machine.stepOver_isStepping hm.status (by rw [hm.main]; simp)
  have hput : x.obey .stepOver = x.put (x.machine.obey .stepOver).1 none := if_pos hi
  have haside : ∀ k ∈ p, k.IsAside := by
    have hpost : x.post t = some (.doing (.wake .resumption false false) (.checkpoint walk node :: p)) := by
      rw [post_idle hidle, Machine.post_of_state? hs, hp]
      rfl
    cases (hr.poised hpost).poises with
    | aside hc => exact absurd hc id
    | held _ _ hp => exact hp
  have hstance : x.stance = some (.wake .resumption false false, .checkpoint walk node :: p) := by
    rw [stance_of_idle hm.main hidle, Machine.stance, hs, hp]
    rfl
  have hstirs : x.stance.Stirs (x.obey .stepOver).stance :=
    (obey_cases ⟨hr.spent, roles, hsound⟩ _).resolve_right fun h => by
      rw [hm.main] at h
      cases h.1
  refine ⟨[("run.resumed", [("nodeId", .ofText? x.machine.run.current), ("mode", .str "step")])], ?_, ?_⟩
  · rw [hput, put_events, htold, hr.spent]
    rfl
  · refine .before (.before ?_) ?_ ?_ (hstirs.nears (hstance ▸ .paused haside _ _))
    · simp [IsPassing, IsStart, IsHalt, terminalTypes]
    · rw [hput]
      exact ⟨hstep.armed, hstep.status, hstep.begun⟩
    · rw [hput]
      exact htoken ▸ hm.live

end TakesStep

/-- A step is a single one, for every run in a world, whatever it was commanded before. If it is paused and not
cancelled, and is commanded to step, then it was paused before a node, and unless the policy of the node holds an
infinite number, it goes on to this node and to no other one until it pauses again or ends, however it is carried
out and whatever it is commanded then, short of a cancellation. Until it has gone on to the node, it can go on. -/
theorem step_goes_to_one_node (w : World) (id : String) (flow : Flow) (bindings : Entries Value)
    (breakpoints : Breakpoints) (pauseOnStart : Bool) (stamp : Instant) (is : List Input) :
    let x := after w is (ofMachine (.create id flow bindings breakpoints pauseOnStart stamp))
    x.isIdle = true → (x.machine.obey .stepOver).2 = true → x.machine.token.cancelled = false →
    ∃ t walk node p, x.machine.main = some t ∧ (∃ k, x.machine.state? t = some (.waiting .resumption k)) ∧
      x.machine.pending? t = some (.checkpoint walk node :: p) ∧
      (walk.overflows node = false → ∀ js, (∀ reason stamp, .command (.cancel reason stamp) ∉ js) →
        let y := after w js (x.obey .stepOver)
        ∃ phase vs, y.events = x.events ++ vs ∧ TellsStep walk node phase vs ∧
          (phase = .before → y.isIdle = true → ∃ t, y.machine.main = some t ∧ y.allows (.begin t) = true)) := by
  intro x hi haccepted hl
  have hx : x.IsSound := after_isSound (create_isSound id flow bindings breakpoints pauseOnStart stamp) is
  obtain ⟨past, hr⟩ : ∃ past, x.Recalls pauseOnStart past := by
    have := (create_recalls id flow bindings breakpoints pauseOnStart stamp).following (is.map (Input.happening w))
    rw [following_happening] at this
    exact ⟨_, this⟩
  have hstatus : x.machine.run.status = .paused := by
    have haccepted : x.machine.stepOver.2 = true := haccepted
    unfold Machine.stepOver at haccepted
    split at haccepted
    · exact beq_iff_eq.mp ‹_›
    · cases haccepted
  obtain ⟨-, roles, hsound⟩ := hx
  have hidle : x.active = none := by simpa [isIdle] using hi
  rw [hidle] at hsound
  obtain ⟨t, k, hm, hs⟩ := hsound.waits_of_paused hstatus hl
  obtain ⟨walk, node, p, hp⟩ := (hsound.isHeldUp hs).work
  refine ⟨t, walk, node, p, hm, ⟨k, hs⟩, hp, fun ho js hjs => ?_⟩
  have hx : x.IsSound := ⟨hr.spent, roles, hidle ▸ hsound⟩
  obtain ⟨vs, hv, hstep⟩ := TakesStep.of_stepOver hr hx hi hs hp
  obtain ⟨phase, late, hlate, hstep⟩ := hstep.after (w := w) (obey_isSound hx _) ho hjs
  refine ⟨phase, vs ++ late, ?_, hstep.tells, ?_⟩
  · rw [hlate, hv, List.append_assoc]
  · rintro rfl hidle
    exact hstep.ready (after_isSound (obey_isSound hx _) js) hidle

/-- What the walker does from its being woken on. -/
def onward (steps : Nat) : List Input :=
  .move (.begin 0) :: List.replicate steps (.move (.step { registry := [], builtin := Registry.isBuiltin_nil }))

/-- A run that is held up before its only node goes on to it and ends, though a pause is asked for in the meantime. -/
theorem step_goes_to_one_node_holding :
    let y := after { settings := {} } (.command .pause :: onward 7) (holding.obey .stepOver)
    holding.isIdle = true ∧ (holding.machine.obey .stepOver).2 = true ∧ holding.machine.token.cancelled = false ∧
      y.events.map (·.1) = ["run.started", "run.paused", "run.resumed", "node.started", "node.failed", "run.failed"] ∧
      ∃ walk node phase vs, walk.overflows node = false ∧ y.events = holding.events ++ vs ∧
        TellsStep walk node phase vs := by
  intro y
  have hi : holding.isIdle = true := rfl
  have ha : (holding.machine.obey .stepOver).2 = true := rfl
  have hl : holding.machine.token.cancelled = false := rfl
  obtain ⟨t, walk, node, p, hm, -, hp, hstep⟩ := step_goes_to_one_node _ _ _ _ _ _ _ _ hi ha hl
  have ht : t = 0 := (Option.some.inj (show some 0 = some t from hm)).symm
  obtain ⟨_, _, _, hp', ho⟩ : ∃ walk node p, holding.machine.pending? 0 = some (.checkpoint walk node :: p) ∧
      walk.overflows node = false := ⟨_, _, _, rfl, by decide +kernel⟩
  rw [ht] at hp
  cases hp.symm.trans hp'
  obtain ⟨phase, vs, hvs, htells, -⟩ := hstep ho (.command .pause :: onward 7) (by simp [onward])
  exact ⟨hi, ha, hl, by decide +kernel, walk, node, phase, vs, ho, hvs, htells⟩

/-- A flow whose node may be attempted without end. -/
def endless : Flow where
  id := "main"
  nodes := [{ id := "a", kind := "log", policy := some [("retries", .num (.float Double.positiveInfinity))] }]

/-- The run fails at the node that it was to step to, before it has gone on to it. -/
theorem unstarted_step :
    let x := after { settings := {} } (.command (.start false) :: onward 3)
      (ofMachine (.create "" endless [] ["a"] false 0))
    let y := after { settings := {} } (onward 8) (x.obey .stepOver)
    x.isIdle = true ∧ (x.machine.obey .stepOver).2 = true ∧ x.machine.token.cancelled = false ∧
      y.events.map (·.1) = ["run.started", "run.paused", "run.resumed", "run.failed"] := by
  decide +kernel

end Execution

end Workflow
