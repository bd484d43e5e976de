import Workflow.Proofs.Run.Lifecycle
/-!
What a cancellation puts an end to. A run whose token is cancelled begins no node, takes over no
values of a handler and can only end as cancelled.
-/

namespace Workflow

namespace Strand

/-- An attempt at a node is about to begin. -/
def IsAttempt (s : Strand) : Prop :=
  ∃ a, s.control = .try a

/-- The values of a handler are about to be written. -/
def IsDelivery (s : Strand) : Prop :=
  ∃ values a p, s.control = .answer (.handled (.success values)) ∧ s.pending = .primitive a :: p

/-- What a completed call returns, or what came of a live collection, is about to be written. -/
def IsReturn (s : Strand) : Prop :=
  (∃ l place node child returns p, s.control = .answer (.outcome (.completed l)) ∧
    s.pending = .invocation place node child (some returns) :: p) ∨
  ∃ c, s.control = .supply c

end Strand

theorem Effect.kernelType?_not_barred {e : Effect} {t : String} (h : ¬ e.IsBarred)
    (ht : e.kernelType? = some t) : t ∉ barredTypes := by
  intro hb
  cases e with
  | emit type payload view =>
    simp only [Effect.kernelType?, Option.ite_none_left_eq_some, Option.some.injEq] at ht
    exact h ⟨_, rfl, by rw [ht.2]; exact hb⟩
  | _ => cases ht

/-- A run that has neither completed nor failed does not do so without an event that says it. -/
theorem IsLifecycle.undecided {es late : List String} {s s' : Status} (h : IsLifecycle es s)
    (k : IsLifecycle (es ++ late) s') (hl : ∀ t ∈ late, t ∉ barredTypes)
    (hs : s ≠ .completed ∧ s ≠ .failed) : s' ≠ .completed ∧ s' ≠ .failed := by
  have named {t : String} (hb : t ∉ barredTypes) {s : Status} (hn : Status.named? t = some s) :
      s ≠ .completed ∧ s ≠ .failed := by
    unfold Status.named? at hn
    split at hn <;> cases hn <;> first | decide | exact absurd (by decide) hb
  rw [k.status, List.reverse_append, List.findSome?_append]
  cases hf : late.reverse.findSome? Status.named? with
  | none =>
    rw [Option.none_or, ← h.status]
    exact hs
  | some r =>
    obtain ⟨t, ht, hn⟩ := List.exists_of_findSome?_eq_some hf
    exact named (hl t (List.mem_reverse.mp ht)) hn

namespace Machine

variable {roles : List Role} {log : List Effect} {m n o : Machine} {t : TaskId} {c : Control}
  {p : List Pending}

/-- A cancelled run stays cancelled and has no event that it must not have. -/
def Heeds (m n : Machine) : Prop :=
  m.token.cancelled = true → n.token.cancelled = true ∧ Adds (fun e => ¬ e.IsBarred) m n

namespace Heeds

theorem refl (m : Machine) : Heeds m m :=
  fun hc => ⟨hc, .refl m⟩

theorem trans (h : Heeds m n) (k : Heeds n o) : Heeds m o := by
  intro hc
  obtain ⟨hn, ha⟩ := h hc
  obtain ⟨ho, hb⟩ := k hn
  exact ⟨ho, ha.trans hb⟩

/-- Changes of tasks, and of what is neither the token nor an effect. -/
theorem of_mute (h : Mute n o) (ht : n.token = m.token) (he : n.effects = m.effects) : Heeds m o := by
  intro hc
  obtain ⟨d, hd, hp⟩ := h.adds
  refine ⟨by rw [h.token, ht]; exact hc, d, by rw [hd, he], fun e hm => (hp e hm).not_isBarred⟩

theorem emit {type : String} {payload : Entries Value} {view : RunView}
    (he : n.effects = .emit type payload view :: m.effects) (ht : n.token = m.token)
    (hb : type ∉ barredTypes) : Heeds m n := by
  refine fun hc => ⟨by rw [ht]; exact hc, [.emit type payload view], he, fun e hm => ?_⟩
  rw [List.mem_singleton.mp hm]
  exact not_isBarred_emit hb _ _

theorem of_advance (h : Advance m n) : Heeds m n := by
  intro hc
  obtain ⟨d, hd, -, -, hl⟩ := h.story
  exact ⟨by rw [h.token]; exact hc, d, hd, hl hc⟩

theorem of_changes (h : Changes m n) (ht : n.token.cancelled = true) : Heeds m n := by
  intro _
  obtain ⟨d, hd, -, hl⟩ := h.story
  exact ⟨ht, d, hd, fun e he => (hl e he).2⟩

end Heeds

theorem turn_heeds (m : Machine) (t : TaskId) (x : Turn) : Heeds m (m.turn t x).1 := by
  cases x with
  | go c p => exact .refl m
  | wait w on limit p =>
    have hm := Mute.lull (m.putPending t p) t w on limit
    have ht : (m.turn t (.wait w on limit p)).1 = (m.putPending t p).lull t w on limit := by
      cases limit <;> rfl
    rw [ht]
    exact .of_mute hm rfl rfl
  | pass p => exact .of_mute ((Silent.modifyTask m t _).trans (.ready _ t)).mute rfl rfl
  | stop a => exact .of_mute (.finish m t a) rfl rfl

theorem turn_layers (m : Machine) (t : TaskId) (x : Turn) : (m.turn t x).1.layers = m.layers := by
  cases x with
  | go c p => rfl
  | wait w on limit p =>
    have ht : (m.turn t (.wait w on limit p)).1 = (m.putPending t p).lull t w on limit := by
      cases limit <;> rfl
    rw [ht, (Mute.lull (m.putPending t p) t w on limit).layers]
    rfl
  | pass p => rfl
  | stop a => exact (Mute.finish m t a).layers

/-- What a step of the task in the middle of its steps does to the run. -/
theorem Sound.proceeds {s : Strand} (h : Sound roles log (some s) m) (w : World) (now : Moment) :
    ∃ r more, Proceeds roles more r s.task m (m.step (w.surroundings now) s.task s.control s.pending) := by
  obtain ⟨-, r, hr, hc, hstands⟩ := h.strand rfl
  by_cases hw : r = .walker
  · subst hw
    obtain ⟨⟨more, hp⟩, -⟩ := (hstands rfl).steps s.task h.fitting w now hc
    exact ⟨_, more, hp⟩
  · obtain ⟨more, ha, ht⟩ := step_aside h.fitting w now hr hw hc
    exact ⟨_, more, .of_aside ha ht⟩

/-! Layers. -/

theorem finalize_layers (m : Machine) (stamp : Instant) (o : Outcome) :
    (m.finalize stamp o).layers = m.layers := by
  unfold finalize
  split
  · rfl
  · dsimp only
    refine (Silent.endPause _).mute.layers.trans ?_
    split
    · rfl
    · split <;> rfl

theorem rest_layers (m : Machine) (seconds : Seconds) (p : List Pending) :
    (m.rest seconds p).1.layers = m.layers := by
  unfold rest
  split <;> rfl

theorem afterFailure_layers (m : Machine) (env : Surroundings) (a : Attempt) (since : Seconds)
    (e : ErrorInfo) (p : List Pending) : (m.afterFailure env a since e p).1.layers = m.layers := by
  unfold afterFailure
  dsimp only
  split
  · split
    · exact rest_layers _ _ _
    · rfl
  · rfl
  · rfl
  · rfl

section cancelled

variable (env : Surroundings) (hc : m.token.cancelled = true)

include hc

theorem nextItem_layers (loop : Loop) (itemName : String) (indexName : Option String) (index : Nat)
    (items : List Value) :
    (m.nextItem env loop itemName indexName index items p).1.layers = m.layers := by
  unfold nextItem
  split
  · rfl
  · rw [if_pos hc]

theorem iterate_layers (loop : Loop) (bound iterations : Nat) :
    (m.iterate env loop bound iterations p).1.layers = m.layers := by
  unfold iterate
  dsimp only
  rw [if_pos hc]
  split
  · rfl
  · split <;> rfl

theorem element_layers {d : Collection} {acts : List Act} (ha : ∀ a ∈ acts, a.IsRest)
    (item : Except HandlerFault Value) :
    (m.element env t d acts item p).1.layers = m.layers := by
  unfold element
  split
  · unfold sleep
    split <;> rfl
  · exact absurd (ha _ List.mem_cons_self) id
  · exact absurd (ha _ List.mem_cons_self) id
  · split
    · rfl
    · rw [if_pos hc]

/-- Work that waits in a cancelled run for something else than a handler writes nothing, unless it
returns from a call. -/
theorem resume_layers {k : Pending} (hk : k.IsWalk) {a : Answer} (ha : a.Meets (k :: p))
    (hl : ∀ r, a ≠ .handled r) (hr : ¬ Strand.IsReturn ⟨t, .answer a, k :: p⟩) :
    (m.resume env k a p).1.layers = m.layers := by
  cases k with
  | slot held => exact absurd hk id
  | execution => exact absurd hk id
  | subexecution child => exact absurd hk id
  | attempt b since =>
    cases a with
    | outcome o =>
      cases o with
      | failed e node => exact afterFailure_layers _ _ _ _ _ _
      | _ => rfl
    | _ => rfl
  | backoff b =>
    cases a with
    | rested cutShort =>
      unfold resume
      dsimp only
      rw [hc, Bool.or_true, if_pos rfl]
    | _ => rfl
  | primitive b =>
    cases a with
    | handled r => exact absurd rfl (hl r)
    | _ => rfl
  | foreach loop itemName indexName index rest =>
    cases a with
    | outcome o =>
      cases o with
      | completed l => exact nextItem_layers env hc _ _ _ _ _
      | _ => rfl
    | _ => rfl
  | «while» loop bound iterations =>
    cases a with
    | outcome o => cases o <;> rfl
    | _ => rfl
  | elements d =>
    cases a with
    | outcome o => cases o <;> rfl
    | _ => rfl
  | invocation place node child returns =>
    cases a with
    | outcome o =>
      cases o with
      | completed l =>
        cases returns with
        | some v => exact absurd (.inl ⟨l, place, node, child, v, p, rfl, rfl⟩) hr
        | none => rfl
      | _ => cases returns <;> rfl
    | _ => cases returns <;> rfl
  | _ => cases a <;> rfl

/-- A step within the walk of a cancelled run. -/
theorem walk_layers (w : World) (now : Moment) (hu : Underway m p) (hw : c.IsWalk) (hm : c.Meets p)
    (hl : c.IsLive → m.token.cancelled = false) (hr : ¬ Strand.IsReturn ⟨t, c, p⟩) :
    (m.step (w.surroundings now) t c p).1.layers = m.layers := by
  have dead : ¬ c.IsLive := by
    intro h
    rw [hl h] at hc
    cases hc
  cases c with
  | enter place frame =>
    show (m.enter place frame p).1.layers = _
    unfold enter
    dsimp only
    split
    · rfl
    · split <;> rfl
  | next walk node =>
    show (m.next (w.surroundings now) t walk node p).1.layers = _
    unfold next
    split
    · rfl
    · rw [if_pos hc]
  | dispatch walk node =>
    show (m.dispatch (w.surroundings now) walk node p).1.layers = _
    unfold dispatch
    rw [if_pos hc]
  | «try» a => exact absurd trivial dead
  | iterate loop bound iterations => exact iterate_layers _ hc _ _ _
  | supply d => exact absurd (.inr ⟨d, rfl⟩) hr
  | element d acts item => exact element_layers _ hc hw.2 item
  | answer a =>
    obtain ⟨q, b, rfl, hq, -⟩ := hu.work
    cases q with
    | nil =>
      cases a with
      | outcome o => exact finalize_layers _ _ _
      | thrown f => exact finalize_layers _ _ _
      | _ => exact absurd hm id
    | cons k q =>
      refine resume_layers (t := t) _ hc (hq k List.mem_cons_self) hm ?_ hr
      rintro r rfl
      exact dead trivial
  | _ => exact absurd hw id

/-- A step of the walker of a cancelled run. -/
theorem Stands.layers (h : Stands m c p) (hf : m.Fitting roles) (w : World) (now : Moment)
    (hs : c.Suits roles .walker p) (hr : ¬ Strand.IsReturn ⟨t, c, p⟩) :
    (m.step (w.surroundings now) t c p).1.layers = m.layers := by
  cases h with
  | enqueue h =>
    show (m.enqueue []).1.layers = _
    unfold Machine.enqueue
    rw [if_pos hc]
  | start h u v s i =>
    cases hs.2 rfl
    obtain ⟨n, held, he, ha⟩ := wakeFromStart_aside (p := []) t hf (w.surroundings now) s
      hs.1.1 hs.1.2
    show (m.wake (w.surroundings now) t (.start u v) s false []).1.layers = _
    rw [he]
    exact ha.silent.mute.layers
  | execute h hp =>
    show (m.execute (w.surroundings now) p).1.layers = _
    unfold Machine.execute
    rw [if_pos hc]
    split
    · rfl
    · exact finalize_layers _ _ _
  | walk h hu hw hm hl => exact walk_layers hc w now hu hw hm hl hr
  | wake h hu hw hm s i =>
    have hstart : ∀ u v, ‹Wait› ≠ .start u v := by
      rintro u v rfl
      exact hw
    obtain ⟨ha, -⟩ := wake_aside t hf (w.surroundings now) s hs.1 hs.2 (fun _ => hm) hstart
    exact ha.silent.mute.layers
  | resume h hu hm s i => rfl
  | back h hu hm =>
    cases p with
    | nil => exact absurd hm id
    | cons k p => cases k <;> first | rfl | exact absurd hm id
  | refuse h hu walk node =>
    show (m.dispatch (w.surroundings now) walk node p).1.layers = _
    unfold dispatch
    rw [if_pos hc]
  | unwind h hu =>
    obtain ⟨q, b, rfl, hq, -⟩ := hu.work
    cases q with
    | nil => exact finalize_layers _ _ _
    | cons k q => exact resume_layers (t := t) _ hc (hq k List.mem_cons_self) trivial (by simp) hr
  | ended h hp a =>
    cases p with
    | nil => rfl
    | cons k p =>
      cases k with
      | slot held => cases held <;> cases a <;> rfl
      | _ => cases p <;> exact absurd hp id

/-- A step of a cancelled run writes no variables, unless it returns from a call. -/
theorem Sound.step_layers {s : Strand} (h : Sound roles log (some s) m) (w : World) (now : Moment)
    (hr : ¬ s.IsReturn) :
    (m.step (w.surroundings now) s.task s.control s.pending).1.layers = m.layers := by
  obtain ⟨-, r, hrole, hs, hstands⟩ := h.strand rfl
  by_cases hw : r = .walker
  · subst hw
    exact (hstands rfl).layers hc h.fitting w now hs hr
  · obtain ⟨more, ha, -⟩ := step_aside h.fitting w now hrole hw hs
    exact ha.silent.mute.layers

end cancelled

/-! Commands. -/

theorem release_heeds (m : Machine) (mode : String) : Heeds m (m.release mode) := by
  refine .trans (n := { ({ m with
    pauseRequested := false
    run := { m.run with status := .running, pauseReason := none } } : Machine).emit "run.resumed" [
      ("nodeId", .ofText? m.run.current), ("mode", .str mode)] with paused := [] }) ?_
    (.of_mute (Silent.endPause _).mute rfl rfl)
  exact .emit rfl rfl (by decide)

/-- A command keeps a cancelled run cancelled. -/
theorem obey_heeds (m : Machine) (c : Command) : Heeds m (m.obey c).1 := by
  cases c with
  | start slotted =>
    show Heeds m (m.start slotted)
    unfold start
    split
    · exact .refl m
    · exact .trans (.of_mute (Silent.spawn m _ []).mute rfl rfl) fun hc => ⟨hc, .refl _⟩
  | pause =>
    show Heeds m m.pause.1
    unfold pause
    split <;> exact fun hc => ⟨hc, .refl _⟩
  | resume =>
    show Heeds m m.resumeRun.1
    unfold resumeRun
    split
    · exact .trans (fun hc => ⟨hc, .refl _⟩) (release_heeds { m with stepArmed := false } _)
    · exact .refl m
  | stepOver =>
    show Heeds m m.stepOver.1
    unfold stepOver
    split
    · exact .trans (fun hc => ⟨hc, .refl _⟩) (release_heeds { m with stepArmed := true } _)
    · exact .refl m
  | cancel reason stamp =>
    show Heeds m (m.cancel reason stamp).1
    obtain ⟨-, he⟩ | ⟨hs, text, ⟨hn, he⟩ | ⟨hp, hm, he⟩⟩ := cancel_cases m reason stamp
    · rw [he]
      exact .refl m
    · rw [he]
      exact .of_changes (halt_changes m text) (halt_cancelled m text)
    · rw [he]
      have ht : (m.halt text).run.status.isTerminal = false := by rw [halt_run, hs]
      exact .trans (.of_changes (halt_changes m text) (halt_cancelled m text))
        (.of_advance (finalize_advance stamp .cancelled (.inr ⟨ht, halt_cancelled m text⟩)))
  | setVar name v frame =>
    obtain he | ⟨layers, s, depth, he⟩ := m.obey_setVar name v frame
    · rw [he]
      exact .refl m
    · rw [he]
      exact .emit rfl rfl (by decide)
  | edit f => exact fun hc => ⟨hc, .refl _⟩

/-- Of the commands only one writes variables. -/
theorem obey_layers (m : Machine) {c : Command} (h : ∀ name v frame, c ≠ .setVar name v frame) :
    (m.obey c).1.layers = m.layers := by
  have released (m : Machine) (mode : String) : (m.release mode).layers = m.layers :=
    (Silent.endPause _).mute.layers
  have halted (m : Machine) (text : String) : (m.halt text).layers = m.layers :=
    (show _ = (m.cancelToken (some text)).layers from (Silent.endPause _).mute.layers).trans
      (cancelToken_silent m _).mute.layers
  cases c with
  | start slotted =>
    show (m.start slotted).layers = _
    unfold start
    split <;> rfl
  | pause =>
    show m.pause.1.layers = _
    unfold pause
    split <;> rfl
  | resume =>
    show m.resumeRun.1.layers = _
    unfold resumeRun
    split
    · exact released _ _
    · rfl
  | stepOver =>
    show m.stepOver.1.layers = _
    unfold stepOver
    split
    · exact released _ _
    · rfl
  | cancel reason stamp =>
    show (m.cancel reason stamp).1.layers = _
    obtain ⟨-, he⟩ | ⟨-, text, ⟨-, he⟩ | ⟨-, -, he⟩⟩ := cancel_cases m reason stamp
    · rw [he]
    · rw [he]
      exact halted m text
    · rw [he]
      exact (finalize_layers _ _ _).trans (halted m text)
  | setVar name v frame => exact absurd rfl (h name v frame)
  | edit f => rfl

end Machine

namespace Execution

variable {x y z : Execution} {w : World}

/-- A cancelled run stays cancelled, and whatever it still logs are no events that it must not
have. -/
def Heeds (x y : Execution) : Prop :=
  x.machine.token.cancelled = true → y.machine.token.cancelled = true ∧
    ∃ late, y.log = late ++ x.log ∧ ∀ e ∈ late, ¬ e.IsBarred

theorem Heeds.refl (x : Execution) : x.Heeds x :=
  fun hc => ⟨hc, [], rfl, by simp⟩

theorem Heeds.trans (h : x.Heeds y) (k : y.Heeds z) : x.Heeds z := by
  intro hc
  obtain ⟨hy, d, hd, hp⟩ := h hc
  obtain ⟨hz, f, hf, hq⟩ := k hy
  refine ⟨hz, f ++ d, by rw [hf, hd, List.append_assoc], fun e he => ?_⟩
  exact (List.mem_append.mp he).elim (hq e) (hp e)

theorem put_heeds (he : x.machine.effects = []) {m : Machine} (h : x.machine.Heeds m)
    (active : Option Strand) : x.Heeds (x.put m active) := by
  intro hc
  obtain ⟨hm, d, hd, hp⟩ := h hc
  refine ⟨hm, d, ?_, hp⟩
  rw [he, List.append_nil] at hd
  rw [put, hd]

/-- Whatever happens to a cancelled run, it stays cancelled. -/
theorem take_heeds (h : x.IsSound) (i : Input) : x.Heeds (x.take w i) := by
  obtain ⟨he, roles, hs⟩ := h
  cases i with
  | command c =>
    show x.Heeds (x.obey c)
    unfold obey
    split
    · exact put_heeds he (Machine.obey_heeds _ c) none
    · exact .refl x
  | move a =>
    show x.Heeds (x.move w a)
    unfold move
    split
    · cases a with
      | begin t =>
        show x.Heeds (x.begin t)
        have hb := x.begins t
        generalize x.begin t = y at hb ⊢
        cases hb with
        | unready => exact .refl x
        | dismissed => exact put_heeds he (.of_mute (.finish _ t _) rfl rfl) none
        | fresh | woken => exact fun hc => ⟨hc, [], rfl, by simp⟩
      | step now =>
        show x.Heeds (x.step w now)
        unfold step
        split
        · exact .refl x
        · rename_i s hx
          rw [hx] at hs
          obtain ⟨r, more, hp⟩ := hs.proceeds w now
          exact put_heeds he (.trans (.of_advance hp.advance) (Machine.turn_heeds _ _ _)) _
      | tell t ticket => exact put_heeds he (.of_mute (Machine.Silent.tell _ t ticket).mute rfl rfl) none
      | grant t => exact fun hc => ⟨hc, [], rfl, by simp⟩
    · exact .refl x

/-- What is still written to the variables of a cancelled run comes from a debugger or from a call
that has completed. -/
theorem take_layers (h : x.IsSound) (hc : x.machine.token.cancelled = true) {i : Input}
    (hi : ∀ name v frame, i ≠ .command (.setVar name v frame))
    (hr : ∀ s, x.active = some s → ¬ s.IsReturn) :
    (x.take w i).machine.layers = x.machine.layers := by
  obtain ⟨he, roles, hs⟩ := h
  cases i with
  | command c =>
    show (x.obey c).machine.layers = _
    unfold obey
    split
    · refine Machine.obey_layers x.machine fun name v frame hv => ?_
      exact hi name v frame (by rw [hv])
    · rfl
  | move a =>
    show (x.move w a).machine.layers = _
    unfold move
    split
    · cases a with
      | begin t =>
        show (x.begin t).machine.layers = _
        have hb := x.begins t
        generalize x.begin t = y at hb ⊢
        cases hb with
        | dismissed => exact (Machine.Mute.finish _ t _).layers
        | _ => rfl
      | step now =>
        show (x.step w now).machine.layers = _
        unfold step
        split
        · rfl
        · rename_i s hx
          rw [hx] at hs
          exact (Machine.turn_layers _ _ _).trans (hs.step_layers hc w now (hr s hx))
      | tell t ticket => exact (Machine.Silent.tell _ t ticket).mute.layers
      | grant t => rfl
    · rfl

/-- No attempt begins in a cancelled run, and no values of a handler are written. -/
theorem not_live (h : x.IsSound) (hc : x.machine.token.cancelled = true) {s : Strand}
    (hs : x.active = some s) : ¬ s.IsAttempt ∧ ¬ s.IsDelivery := by
  obtain ⟨-, roles, hx⟩ := h
  obtain ⟨-, r, hr, hsuits, hstands⟩ := hx.strand hs
  obtain ⟨t, c, p⟩ := s
  constructor
  · rintro ⟨a, rfl : c = _⟩
    cases r with
    | walker =>
      cases hstands rfl with
      | walk _ _ _ _ hl =>
        rw [hl trivial] at hc
        cases hc
    | _ => exact hsuits
  · rintro ⟨values, a, p, rfl : c = _, rfl⟩
    cases r with
    | walker =>
      cases hstands rfl with
      | walk _ _ _ _ hl =>
        rw [hl trivial] at hc
        cases hc
      | ended _ hp => cases p <;> exact hp
    | handler => exact hsuits
    | taker => cases (show Pending.primitive a :: p = [] from hsuits)
    | watcher => cases (show Pending.primitive a :: p = [] from hsuits)

/-- What holds of a run from its cancellation on. -/
structure Ceases (w : World) (x y : Execution) : Prop where
  /-- No node starts, none is skipped. -/
  events : ∃ late, y.events = x.events ++ late ∧
    ∀ e ∈ late, e.1 ≠ "node.started" ∧ e.1 ≠ "node.skipped"
  strand : ∀ s, y.active = some s → ¬ s.IsAttempt ∧ ¬ s.IsDelivery
  layers : ∀ i, (∀ name v frame, i ≠ .command (.setVar name v frame)) →
    (∀ s, y.active = some s → ¬ s.IsReturn) → (y.take w i).machine.layers = y.machine.layers
  status : y.machine.run.status.isTerminal = true → y.machine.run.status = .cancelled
  results : y.machine.run.error = none ∧ y.machine.run.outputs = none

theorem after_heeds (h : x.IsSound) (is : List Input) : x.Heeds (after w is x) := by
  induction is generalizing x with
  | nil => exact .refl x
  | cons i is ih => exact (take_heeds h i).trans (ih (take_isSound h i))

theorem events_append {late : List Effect} (h : y.log = late ++ x.log) :
    y.events = x.events ++ late.reverse.filterMap Effect.event? := by
  rw [events, events, h, List.reverse_append, List.filterMap_append]

/-- A run that is neither completed nor failed has no results. -/
theorem IsSound.results (h : x.IsSound)
    (hs : x.machine.run.status ≠ .completed ∧ x.machine.run.status ≠ .failed) :
    x.machine.run.error = none ∧ x.machine.run.outputs = none := by
  obtain ⟨-, roles, hx⟩ := h
  exact hx.results hs.1 hs.2

theorem undecided_of_late (hx : x.IsSound) (hy : y.IsSound) {late : List Effect}
    (hl : y.log = late ++ x.log) (hb : ∀ e ∈ late, ¬ e.IsBarred)
    (hs : x.machine.run.status ≠ .completed ∧ x.machine.run.status ≠ .failed) :
    y.machine.run.status ≠ .completed ∧ y.machine.run.status ≠ .failed := by
  have hy := hy.lifecycle
  rw [hl, kernelTypes_append] at hy
  refine hx.lifecycle.undecided hy (fun t hm => ?_) hs
  obtain ⟨e, he, hk⟩ := List.mem_filterMap.mp hm
  exact Effect.kernelType?_not_barred (hb e (List.mem_reverse.mp he)) hk

/-- A cancellation that is accepted finds a run that has not ended. -/
theorem cancel_accepted {m : Machine} {reason : Option String} {stamp : Instant}
    (h : (m.cancel reason stamp).2 = true) : m.run.status.isTerminal = false ∧
      (m.cancel reason stamp).1.token.cancelled = true ∧ m.Changes (m.cancel reason stamp).1 := by
  obtain ⟨-, he⟩ | ⟨hs, text, ⟨-, he⟩ | ⟨-, -, he⟩⟩ := m.cancel_cases reason stamp
  · rw [he] at h
    cases h
  · rw [he]
    exact ⟨hs, m.halt_cancelled text, m.halt_changes text⟩
  · rw [he]
    have ht : (m.halt text).run.status.isTerminal = false := by rw [Machine.halt_run, hs]
    have hc := m.halt_cancelled text
    refine ⟨hs, ?_, (m.halt_changes text).trans (Machine.finalize_changes ht hc stamp .cancelled)⟩
    rw [(Machine.finalize_advance stamp .cancelled (.inr ⟨ht, hc⟩)).token]
    exact hc

/-- A run that goes on after its cancellation ceases. -/
theorem Ceases.of_cancel (hx : x.IsSound) (hi : x.active = none) {reason : Option String}
    {stamp : Instant} (hc : (x.machine.cancel reason stamp).2 = true) (is : List Input) :
    Ceases w x (after w is (x.obey (.cancel reason stamp))) := by
  obtain ⟨hn, ht, hk⟩ := cancel_accepted hc
  let z := x.obey (.cancel reason stamp)
  have hz : z.IsSound := obey_isSound hx _
  have hput : z = x.put (x.machine.cancel reason stamp).1 none := by
    have : x.isIdle = true := by rw [isIdle, hi]; rfl
    show x.obey _ = _
    rw [obey, if_pos this]
    rfl
  have hcancelled : z.machine.token.cancelled = true := by
    rw [hput]
    exact ht
  have hlog : ∃ late, z.log = late ++ x.log ∧ ∀ e ∈ late, ¬ e.IsBarred := by
    obtain ⟨d, hd, -, hb⟩ := hk.story
    rw [hx.1, List.append_nil] at hd
    exact ⟨d, by rw [hput, put, hd], fun e he => (hb e he).2⟩
  obtain ⟨hy, d, hd, hp⟩ := after_heeds (w := w) hz is hcancelled
  obtain ⟨f, hf, hq⟩ := hlog
  have hsound : (after w is z).IsSound := after_isSound hz is
  have hlate : (after w is z).log = (d ++ f) ++ x.log := by rw [hd, hf, List.append_assoc]
  have hbarred : ∀ e ∈ d ++ f, ¬ e.IsBarred :=
    fun e he => (List.mem_append.mp he).elim (hp e) (hq e)
  have hundecided : x.machine.run.status ≠ .completed ∧ x.machine.run.status ≠ .failed := by
    constructor <;>
    · intro hs
      rw [hs] at hn
      cases hn
  have hs := undecided_of_late hx hsound hlate hbarred hundecided
  exact {
    events := by
      refine ⟨_, events_append hlate, fun e he => ?_⟩
      obtain ⟨e', he', hev⟩ := List.mem_filterMap.mp he
      have hnot : e.1 ∉ barredTypes :=
        fun hb => hbarred e' (List.mem_reverse.mp he') ⟨e, hev, hb⟩
      constructor <;>
      · intro ht
        rw [ht] at hnot
        exact hnot (by decide)
    strand := fun s => not_live hsound hy
    layers := fun i => take_layers hsound hy
    status := fun h => by
      cases hst : (after w is z).machine.run.status with
      | cancelled => rfl
      | completed => exact absurd hst hs.1
      | failed => exact absurd hst hs.2
      | _ =>
        rw [hst] at h
        cases h
    results := hsound.results hs }

/-- Once a cancellation is accepted, at whatever moment of whatever run, it is final: no node starts
or is skipped from then on, no attempt begins and no handler's values are written, and if the run
ends it ends as cancelled, with neither an error nor outputs. -/
theorem cancel_final (w : World) (id : String) (flow : Flow) (bindings : Entries Value)
    (breakpoints : Breakpoints) (pauseOnStart : Bool) (created stamp : Instant)
    (reason : Option String) (is js : List Input) :
    let x := after w is (ofMachine (.create id flow bindings breakpoints pauseOnStart created))
    x.active = none → (x.machine.cancel reason stamp).2 = true →
      Ceases w x (after w js (x.obey (.cancel reason stamp))) := by
  intro x hidle haccepted
  exact .of_cancel (after_isSound (create_isSound ..) is) hidle haccepted js

/-- A run of one node that waits, up to the call of its handler. -/
def waiting : Execution :=
  let now : Moment := {
    registry := [("wait", { handler := .builtin .wait })], builtin := by simp [Registry.IsBuiltin] }
  let flow : Flow := { id := "", nodes := [{ id := "", kind := "wait", config := [("ms", .int 1)] }] }
  after { settings := {} }
    (.command (.start false) :: .move (.begin 0) :: List.replicate 5 (.move (.step now)))
    (ofMachine (.create "" flow [] [] false 0))

/-- A cancellation during the call of a handler. -/
theorem cancel_final_waiting : waiting.active = none ∧ (waiting.machine.cancel none 0).2 = true ∧
    Ceases { settings := {} } waiting
      (after { settings := {} } [.move (.begin 1)] (waiting.obey (.cancel none 0))) := by
  have hidle : waiting.active = none := Option.isNone_iff_eq_none.mp (by decide +kernel)
  have haccepted : (waiting.machine.cancel none 0).2 = true := by decide +kernel
  exact ⟨hidle, haccepted, cancel_final _ _ _ _ _ _ _ _ _ _ _ hidle haccepted⟩

end Execution

end Workflow
