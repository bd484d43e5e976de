import Workflow.Proofs.Run.Sign
/-!
What is recalled of the signs there have been. Whether a run pauses at a node is decided by them, in any
surroundings and under any commands. The latest signs come first here.
-/

namespace Workflow

namespace Sign

/-- The task that comes to a node or goes on to one. -/
def task? : Sign → Option TaskId
  | came t _ _ _ | went t _ _ => some t
  | _ => none

/-- A task comes to a node. -/
def IsComing : Sign → Prop
  | came _ _ _ _ => True
  | _ => False

/-- After this it no longer matters that a step was asked for. -/
def EndsStep : Sign → Prop
  | released _ | came _ _ _ _ => True
  | _ => False

/-- After this it no longer matters that a pause was asked for. -/
def EndsRequest : Sign → Prop
  | released _ => True
  | came _ _ _ reason => reason = some "command"
  | _ => False

end Sign

/-- There has been a sign, and none of some kind after it. -/
def Since (ends : Sign → Prop) (s : Sign) (past : List Sign) : Prop :=
  ∃ later earlier, past = later ++ s :: earlier ∧ ∀ l ∈ later, ¬ ends l

theorem since_cons {ends : Sign → Prop} {s a : Sign} {past : List Sign} :
    Since ends s (a :: past) ↔ a = s ∨ ¬ ends a ∧ Since ends s past := by
  constructor
  · rintro ⟨later, earlier, he, hl⟩
    cases later with
    | nil => exact .inl (List.cons.inj he).1
    | cons b later =>
      simp only [List.cons_append, List.cons.injEq] at he
      obtain ⟨rfl, rfl⟩ := he
      obtain ⟨ha, hl⟩ := List.forall_mem_cons.mp hl
      exact .inr ⟨ha, later, earlier, rfl, hl⟩
  · rintro (rfl | ⟨ha, later, earlier, rfl, hl⟩)
    · exact ⟨[], past, rfl, by simp⟩
    · exact ⟨a :: later, earlier, rfl, List.forall_mem_cons.mpr ⟨ha, hl⟩⟩

/-- No task has come to a node yet. -/
def IsFirst (past : List Sign) : Prop :=
  ∀ s ∈ past, ¬ s.IsComing

/-- The last pause was ended until the next node, and no task has come to one since. -/
def IsArmed (past : List Sign) : Prop :=
  Since Sign.EndsStep (.released true) past

/-- A pause has been asked for, and the run has neither paused for this nor has a pause been ended since. -/
def IsRequested (past : List Sign) : Prop :=
  Since Sign.EndsRequest .asked past

namespace Gauge

/-- What decides about pauses is as the signs say. -/
structure Recalls (first : Bool) (past : List Sign) (g : Gauge) : Prop where
  pauseOnStart : g.pauseOnStart = true ↔ first = true ∧ IsFirst past
  stepArmed : g.stepArmed = true ↔ IsArmed past
  pauseRequested : g.pauseRequested = true ↔ IsRequested past
  fresh : g.pauseOnStart = true → g.status ≠ .paused ∧ g.stepArmed = false

variable {first : Bool} {past : List Sign} {g h : Gauge}

theorem Recalls.keeps (r : g.Recalls first past) (hk : g.Keeps h) : h.Recalls first past where
  pauseOnStart := hk.pauseOnStart ▸ r.pauseOnStart
  stepArmed := hk.stepArmed ▸ r.stepArmed
  pauseRequested := hk.pauseRequested ▸ r.pauseRequested
  fresh hp := by
    obtain ⟨hs, ha⟩ := r.fresh (hk.pauseOnStart ▸ hp)
    exact ⟨fun h => hs (hk.unpaused h), hk.stepArmed ▸ ha⟩

/-- Signs that end nothing. -/
theorem Recalls.cons (r : g.Recalls first past) {s : Sign} (hc : ¬ s.IsComing) (hs : ¬ s.EndsStep)
    (hr : ¬ s.EndsRequest) (ha : s ≠ .asked) (hb : s ≠ .released true) : g.Recalls first (s :: past) where
  pauseOnStart := r.pauseOnStart.trans (and_congr_right' (by simp [IsFirst, hc]))
  stepArmed := r.stepArmed.trans (by simp [IsArmed, since_cons, hs, hb])
  pauseRequested := r.pauseRequested.trans (by simp [IsRequested, since_cons, hr, ha])
  fresh := r.fresh

/-- With each sign it stays as the signs say. -/
theorem Recalls.heeds (r : g.Recalls first past) {s : Option Sign} (hh : g.Heeds s h) :
    h.Recalls first (s.toList ++ past) := by
  cases hh with
  | nothing hk => exact r.keeps hk
  | ended hk => exact (r.keeps hk).cons id id id (by simp) (by simp)
  | went => exact r.cons id id id (by simp) (by simp)
  | asked hs =>
    exact {
      pauseOnStart := r.pauseOnStart.trans (and_congr_right' (by simp [IsFirst, Sign.IsComing]))
      stepArmed := r.stepArmed.trans (by simp [IsArmed, since_cons, Sign.EndsStep])
      pauseRequested := by simp [IsRequested, since_cons]
      fresh := r.fresh }
  | released hs step =>
    have hp : g.pauseOnStart = false := by
      cases hp : g.pauseOnStart with
      | false => rfl
      | true => exact absurd hs (r.fresh hp).1
    exact {
      pauseOnStart := r.pauseOnStart.trans (and_congr_right' (by simp [IsFirst, Sign.IsComing]))
      stepArmed := by simp [IsArmed, since_cons, Sign.EndsStep]
      pauseRequested := by simp [IsRequested, since_cons, Sign.EndsRequest]
      fresh := fun hp' => by rw [hp] at hp'; cases hp' }
  | came t walk node =>
    exact {
      pauseOnStart := by simp [pass, IsFirst, Sign.IsComing]
      stepArmed := by
        have : (g.stepArmed && g.pauseOnStart) = false := by
          cases hp : g.pauseOnStart with
          | false => simp
          | true => simp [(r.fresh hp).2]
        simp [pass, this, IsArmed, since_cons, Sign.EndsStep]
      pauseRequested := by
        have : Sign.EndsRequest (.came t walk node (g.reason? node)) ↔
            g.pauseOnStart = false ∧ g.stepArmed = false ∧ g.pauseRequested = true := by
          unfold Sign.EndsRequest reason?
          cases g.pauseOnStart <;> cases g.stepArmed <;> cases g.pauseRequested <;> simp
        have later : IsRequested (.came t walk node (g.reason? node) :: past) ↔
            ¬ Sign.EndsRequest (.came t walk node (g.reason? node)) ∧ IsRequested past := by
          simp [IsRequested, since_cons]
        refine Iff.trans ?_ later.symm
        rw [this, ← r.pauseRequested]
        show (g.pauseRequested && (g.pauseOnStart || g.stepArmed)) = true ↔ _
        cases g.pauseOnStart <;> cases g.stepArmed <;> cases g.pauseRequested <;> decide
      fresh := by simp [pass] }

end Gauge

/-! Signs of a run. -/

/-- The sign that a task gives by what it does next, before the step it takes: for what reason it pauses is seen
after the step, as is whether the run has ended. -/
def Control.sign? (c : Control) (m : Machine) (env : Surroundings) (t : TaskId) (reason : Option String)
    (ends : Bool) : Option Sign :=
  match c with
  | .next walk (some node) =>
    if m.token.cancelled || decide (env.settings.maxStepsPerFrame < walk.steps + 1) then none
    else some (.came t { walk with steps := walk.steps + 1 } node reason)
  | .dispatch walk node => if m.token.cancelled then none else some (.went t walk node)
  | _ => if ends then some .ended else none

/-- The sign that a command is. -/
def Command.sign? (c : Command) (m : Machine) (ends : Bool) : Option Sign :=
  match c with
  | .pause => if m.pause.2 then some .asked else none
  | .resume => if m.resumeRun.2 then some (.released false) else none
  | .stepOver => if m.stepOver.2 then some (.released true) else none
  | _ => if ends then some .ended else none

namespace Control

variable {m : Machine} {env : Surroundings} {t : TaskId} {reason : Option String} {ends : Bool} {walk : Walk}
  {node : Node}

theorem sign?_turnsBack (h : m.token.cancelled = true ∨ env.settings.maxStepsPerFrame < walk.steps + 1) :
    (next walk (some node)).sign? m env t reason ends = none :=
  if_pos (by simpa using h)

theorem sign?_comes (hc : m.token.cancelled = false) (hs : walk.steps + 1 ≤ env.settings.maxStepsPerFrame) :
    (next walk (some node)).sign? m env t reason ends =
      some (.came t { walk with steps := walk.steps + 1 } node reason) :=
  if_neg (by simpa [hc] using hs)

theorem sign?_goes (hc : m.token.cancelled = false) :
    (dispatch walk node).sign? m env t reason ends = some (.went t walk node) :=
  if_neg (by simp [hc])

/-- Other steps give a sign only if the run ends with them. -/
theorem sign?_other {c : Control} (hn : ∀ walk node, c ≠ next walk (some node))
    (hd : ∀ walk node, c ≠ dispatch walk node) :
    c.sign? m env t reason ends = if ends then some .ended else none := by
  cases c with
  | next walk node =>
    cases node with
    | none => rfl
    | some node => exact absurd rfl (hn walk node)
  | dispatch walk node => exact absurd rfl (hd walk node)
  | _ => rfl

/-- A step other than those that come to a node or go on to one is no sign of a task. -/
theorem task?_other {c : Control} (hn : ∀ walk node, c ≠ next walk (some node))
    (hd : ∀ walk node, c ≠ dispatch walk node) : ∀ a ∈ c.sign? m env t reason ends, ∀ u, a.task? ≠ some u := by
  rw [sign?_other hn hd]
  cases ends <;> simp [Sign.task?]

/-- A step is a sign of no other task. -/
theorem task?_sign {c : Control} : ∀ a ∈ c.sign? m env t reason ends, ∀ u, t ≠ u → a.task? ≠ some u := by
  intro a ha u hne
  have htu : (some t : Option TaskId) ≠ some u := fun h => hne (Option.some.inj h)
  cases c with
  | next walk node =>
    cases node with
    | none => exact task?_other (by simp) (by simp) a ha u
    | some node =>
      unfold sign? at ha
      dsimp only at ha
      split at ha <;> cases ha
      exact htu
  | dispatch walk node =>
    unfold sign? at ha
    dsimp only at ha
    split at ha <;> cases ha
    exact htu
  | _ => exact task?_other (by simp) (by simp) a ha u

/-- No step ends a pause. -/
theorem sign?_ne_released {c : Control} {b : Bool} : c.sign? m env t reason ends ≠ some (.released b) := by
  cases c with
  | next walk node =>
    cases node with
    | none => cases ends <;> simp [sign?]
    | some node => simp only [sign?]; split <;> simp
  | dispatch walk node => simp only [sign?]; split <;> simp
  | _ => cases ends <;> simp [sign?]

end Control

/-- A command is a sign of no task. -/
theorem Command.task?_sign {c : Command} {m : Machine} {ends : Bool} : ∀ a ∈ c.sign? m ends, a.task? = none := by
  have either {b : Bool} {s : Sign} (hs : s.task? = none) : ∀ a ∈ if b then some s else none, a.task? = none := by
    cases b <;> simp [hs]
  cases c <;> exact either rfl

namespace Execution

variable {x : Execution} {a : Happening}

/-- Whether a run ends with something that happens. -/
def endsBy (x : Execution) (a : Happening) : Bool :=
  !x.machine.run.status.isTerminal && (x.meet a).machine.run.status.isTerminal

/-- Why the run pauses whose task has just taken a step, if the task does not go on. -/
def stopped? (x : Execution) : Option String :=
  if x.isIdle then x.machine.run.pauseReason else none

/-- The sign that something is that happens. -/
def sign? (x : Execution) (a : Happening) : Option Sign :=
  match a with
  | .command c => if x.isIdle then c.sign? x.machine (x.endsBy a) else none
  | .step env =>
    match x.active with
    | some s => s.control.sign? x.machine env s.task (x.stepIn env).stopped? (x.endsBy a)
    | none => none
  | a => if x.endsBy a then some .ended else none

/-- The signs of what happens to a run, the latest first. -/
def signs : List Happening → Execution → List Sign
  | [], _ => []
  | a :: hs, x => signs hs (x.meet a) ++ (x.sign? a).toList

end Execution

namespace Machine

variable {m n : Machine}

theorem turn_gauge (m : Machine) (t : TaskId) (x : Turn) : (m.turn t x).1.gauge = m.gauge :=
  (congrArg gauge (turn_core m t x) :)

end Machine

namespace Gauge

variable {g h : Gauge}

/-- Whether the run has ended or not. -/
theorem Keeps.heeds (hk : g.Keeps h) (b : Bool) : g.Heeds (if b then some .ended else none) h := by
  cases b
  · exact .nothing hk
  · exact .ended hk

end Gauge

namespace Machine

variable {m : Machine} {env : Surroundings} {t : TaskId} {c : Control} {p : List Pending} {x : StepResult}

/-- A step changes what decides about pauses as its sign says. -/
theorem Strides.heeds (h : Strides m env c p x) {reason : Option String}
    (hr : ∀ {walk node}, Comes m walk node p x → reason = m.gauge.reason? node) (b : Bool) :
    m.gauge.Heeds (c.sign? m env t reason b) x.1.gauge := by
  have other {n : Machine} (hk : m.gauge.Keeps n.gauge) (hn : ∀ walk node, c ≠ .next walk (some node))
      (hd : ∀ walk node, c ≠ .dispatch walk node) : m.gauge.Heeds (c.sign? m env t reason b) n.gauge := by
    rw [Control.sign?_other hn hd]
    exact hk.heeds b
  have going {walk : Walk} {node : Node} {n : Machine} (hg : n.gauge = m.gauge) :
      m.gauge.Heeds ((Control.dispatch walk node).sign? m env t reason b) n.gauge := by
    unfold Control.sign?
    rw [hg]
    dsimp only
    split
    · exact .nothing (.of_eq rfl)
    · exact .went _ _ _ _
  cases h with
  | goesOn hn h =>
    refine other (.of_eq h.gauge) ?_ ?_
    · rintro walk node rfl
      exact hn
    · rintro walk node rfl
      exact hn
  | goes h => exact going h.steady.gauge
  | tries h => exact other (.of_eq h.after_started.gauge) nofun nofun
  | turnsBack p a hn =>
    rw [Control.sign?_turnsBack hn]
    exact .nothing (.of_eq rfl)
  | comes hc hs h =>
    rw [Control.sign?_comes hc hs, hr h, h.gauge]
    exact .came _ _ _ _
  | wakes => exact other (.of_eq rfl) nofun nofun
  | resumes => exact other (.of_eq rfl) nofun nofun
  | passes => exact other (.of_eq rfl) nofun nofun
  | begins _ _ hg => exact other hg nofun nofun
  | ends _ _ hg => exact other hg nofun nofun

/-! Commands. -/

theorem release_gauge (m : Machine) (mode : String) :
    (m.release mode).gauge = { m.gauge with status := .running, pauseRequested := false } :=
  endPause_gauge _

theorem release_adds (m : Machine) (mode : String) : Adds (Effect.Among quietTypes) m (m.release mode) := by
  have resumed : Adds (Effect.Among quietTypes) m (Machine.emit { m with
      pauseRequested := false, run := { m.run with status := .running, pauseReason := none } } "run.resumed"
      [("nodeId", .ofText? m.run.current), ("mode", .str mode)]) :=
    .effect _ ⟨fun x hx => by cases hx; simp [quietTypes], fun _ _ => rfl⟩
  exact resumed.trans ((Silent.endPause _).adds.mono fun _ h => h.among _)

theorem start_gauge (m : Machine) (slotted : Bool) : (m.start slotted).gauge = m.gauge := by
  unfold start
  split <;> rfl

theorem start_adds (m : Machine) (slotted : Bool) : Adds (Effect.Among quietTypes) m (m.start slotted) := by
  unfold start
  split
  · exact .refl m
  · exact .effect _ ((Effect.ready_plain _).among _)

theorem halt_discreet (m : Machine) (text : String) : Discreet m (m.halt text) :=
  (Steady.cancelToken m _ : Steady [] m _).toDiscreet.trans (.endPause _)

theorem halt_gauge (m : Machine) (text : String) : (m.halt text).gauge = m.gauge :=
  (endPause_gauge _).trans (Steady.cancelToken m _ : Steady [] m _).gauge

theorem halt_adds (m : Machine) (text : String) : Adds (Effect.Among quietTypes) m (m.halt text) :=
  (Steady.cancelToken m _).adds.trans
    (Adds.mono (show Adds Effect.IsPlain { m.cancelToken (some text) with paused := [] } _ from
      (Silent.endPause _).adds) fun _ h => h.among _)

theorem armed_discreet (m : Machine) (b : Bool) (mode : String) :
    Discreet m (release { m with stepArmed := b } mode) :=
  Discreet.trans (n := { m with stepArmed := b }) (.same (.same rfl rfl rfl) rfl rfl rfl (.of_eq rfl)) (.release _ _)

theorem obey_discreet (m : Machine) {c : Command} (hc : ∀ s, c ≠ .start s) : Discreet m (m.obey c).1 := by
  cases c with
  | start s => exact absurd rfl (hc s)
  | pause =>
    show Discreet m m.pause.1
    unfold pause
    split <;> exact .same (.same rfl rfl rfl) rfl rfl rfl (.of_eq rfl)
  | resume =>
    show Discreet m m.resumeRun.1
    unfold resumeRun
    split
    · exact armed_discreet m _ _
    · exact .refl m
  | stepOver =>
    show Discreet m m.stepOver.1
    unfold stepOver
    split
    · exact armed_discreet m _ _
    · exact .refl m
  | cancel reason stamp =>
    show Discreet m (m.cancel reason stamp).1
    obtain ⟨-, he⟩ | ⟨-, text, ⟨-, he⟩ | ⟨-, -, he⟩⟩ := cancel_cases m reason stamp <;> rw [he]
    · exact .refl m
    · exact halt_discreet m text
    · exact (halt_discreet m text).trans (Discreet.finalize _ stamp .cancelled)
  | setVar name v frame =>
    obtain he | ⟨layers, s, depth, he⟩ := m.obey_setVar name v frame
    · rw [he]
      exact .refl m
    · rw [he]
      exact .same (.same rfl rfl rfl) rfl rfl rfl (.effect _ fun _ _ => rfl)
  | edit f => exact .same (.same rfl rfl rfl) rfl rfl rfl (.of_eq rfl)

/-- No command has an event that tells of a pause. -/
theorem obey_adds (m : Machine) (c : Command) : Adds (Effect.Among quietTypes) m (m.obey c).1 := by
  cases c with
  | start s => exact start_adds m s
  | pause =>
    show Adds _ m m.pause.1
    unfold pause
    split <;> exact .of_eq rfl
  | resume =>
    show Adds _ m m.resumeRun.1
    unfold resumeRun
    split
    · exact release_adds { m with stepArmed := false } _
    · exact .refl m
  | stepOver =>
    show Adds _ m m.stepOver.1
    unfold stepOver
    split
    · exact release_adds { m with stepArmed := true } _
    · exact .refl m
  | cancel reason stamp =>
    show Adds _ m (m.cancel reason stamp).1
    obtain ⟨-, he⟩ | ⟨-, text, ⟨-, he⟩ | ⟨-, -, he⟩⟩ := cancel_cases m reason stamp <;> rw [he]
    · exact .refl m
    · exact halt_adds m text
    · exact (halt_adds m text).trans (finalize_among _ _ _)
  | setVar name v frame =>
    obtain he | ⟨layers, s, depth, he⟩ := m.obey_setVar name v frame
    · rw [he]
      exact .refl m
    · rw [he]
      exact .effect _ ⟨fun x hx => by cases hx; simp [quietTypes, lateTypes], fun _ _ => rfl⟩
  | edit f => exact .of_eq rfl

/-- A command changes what decides about pauses as its sign says. -/
theorem obey_signs (m : Machine) (c : Command) (ends : Bool) :
    m.gauge.Heeds (c.sign? m ends) (m.obey c).1.gauge := by
  have kept {c : Command} (hs : c.sign? m ends = if ends then some .ended else none)
      (hk : m.gauge.Keeps (m.obey c).1.gauge) : m.gauge.Heeds (c.sign? m ends) (m.obey c).1.gauge := by
    rw [hs]
    exact hk.heeds ends
  cases c with
  | start s => exact kept rfl (.of_eq (start_gauge m s))
  | pause =>
    show m.gauge.Heeds (if m.pause.2 then _ else _) m.pause.1.gauge
    unfold pause
    split
    · exact .asked (fun h => by simp_all [gauge])
    · exact .asked (fun h => by simp_all [gauge])
    · exact .nothing (.of_eq rfl)
  | resume =>
    show m.gauge.Heeds (if m.resumeRun.2 then _ else _) m.resumeRun.1.gauge
    unfold resumeRun
    split
    · rename_i hs
      rw [if_pos rfl, show (release { m with stepArmed := false } "resume").gauge = _ from release_gauge _ _]
      exact .released (g := m.gauge) (beq_iff_eq.mp hs) false
    · exact .nothing (.of_eq rfl)
  | stepOver =>
    show m.gauge.Heeds (if m.stepOver.2 then _ else _) m.stepOver.1.gauge
    unfold stepOver
    split
    · rename_i hs
      rw [if_pos rfl, show (release { m with stepArmed := true } "step").gauge = _ from release_gauge _ _]
      exact .released (g := m.gauge) (beq_iff_eq.mp hs) true
    · exact .nothing (.of_eq rfl)
  | cancel reason stamp =>
    refine kept rfl ?_
    show m.gauge.Keeps (m.cancel reason stamp).1.gauge
    obtain ⟨-, he⟩ | ⟨-, text, ⟨-, he⟩ | ⟨-, -, he⟩⟩ := cancel_cases m reason stamp <;> rw [he]
    · exact .of_eq rfl
    · exact .of_eq (halt_gauge m text)
    · exact halt_gauge m text ▸ finalize_keeps (m.halt text) stamp .cancelled
  | setVar name v frame =>
    refine kept rfl ?_
    obtain he | ⟨layers, s, depth, he⟩ := m.obey_setVar name v frame <;> rw [he] <;> exact .of_eq rfl
  | edit f => exact kept rfl ⟨rfl, rfl, rfl, id⟩

/-- Unless a command ends a pause, whoever waits for this goes on waiting. -/
theorem obey_holds (m : Machine) {c : Command} (hc : ∀ s, c ≠ .start s) (ends : Bool) :
    Holds m (m.obey c).1 ∨ ∃ b, c.sign? m ends = some (.released b) := by
  have stopped {n : Machine} (h : n.token.cancelled = true) : Holds m n := fun _ hl => by rw [h] at hl; cases hl
  cases c with
  | start s => exact absurd rfl (hc s)
  | pause =>
    refine .inl ?_
    show Holds m m.pause.1
    unfold pause
    split <;> exact fun ht _ => .inl ht
  | resume =>
    show Holds m m.resumeRun.1 ∨ ∃ b, (if m.resumeRun.2 then _ else _) = _
    unfold resumeRun
    split
    · exact .inr ⟨false, rfl⟩
    · exact .inl fun ht _ => .inl ht
  | stepOver =>
    show Holds m m.stepOver.1 ∨ ∃ b, (if m.stepOver.2 then _ else _) = _
    unfold stepOver
    split
    · exact .inr ⟨true, rfl⟩
    · exact .inl fun ht _ => .inl ht
  | cancel reason stamp =>
    refine .inl ?_
    show Holds m (m.cancel reason stamp).1
    obtain ⟨-, he⟩ | ⟨-, text, ⟨-, he⟩ | ⟨-, -, he⟩⟩ := cancel_cases m reason stamp <;> rw [he]
    · exact fun ht _ => .inl ht
    · exact stopped (halt_cancelled m text)
    · exact stopped ((Discreet.finalize _ stamp .cancelled).token (halt_cancelled m text))
  | setVar name v frame =>
    obtain he | ⟨layers, s, depth, he⟩ := m.obey_setVar name v frame <;>
      exact .inl fun ht _ => .inl (by rw [he]; exact ht)
  | edit f => exact .inl fun ht _ => .inl ht

end Machine

end Workflow
