import Workflow.Proofs.Run.Obey
import Workflow.Proofs.Run.Site
import Workflow.Proofs.Run.Walk
/-!
What decides about pauses, and the steps that leave all of it alone, whatever the surroundings are. These are
all steps but those at which a task comes to a node, is allowed to go on to it, begins an attempt at it or ends
the run. Such a step lets no task go on that waits for the end of a pause.
-/

namespace Workflow

/-- Work that no pause, no attempt at a node and no end of the run has a share in. -/
def Pending.IsPlain : Pending → Prop
  | .slot _ | .execution | .checkpoint _ _ | .attempt _ _ | .backoff _ => False
  | _ => True

/-- What a task does in the midst of an attempt at a node, or between two nodes. -/
def Control.IsPlain : Control → Prop
  | .enqueue | .takeSlot | .watch | .execute | .dispatch _ _ | .try _ | .handle _ | .wake _ _ _ => False
  | _ => True

/-- A wait that is no pause, and not for the start of the run. -/
def Wait.IsPlain : Wait → Prop
  | .start _ _ | .resumption => False
  | _ => True

/-- A step that comes to no node, goes on to none, begins no attempt and ends nothing but what it is. -/
def Control.IsCommon : Control → List Pending → Prop
  | .enqueue, _ | .execute, _ | .next _ (some _), _ | .dispatch _ _, _ | .try _, _ => False
  | .wake (.start _ _) _ _, _ => False
  | .answer _, k :: _ => k.IsPlain ∨ ∃ held, k = .slot held
  | _, _ => True

/-- Whether a task goes on on top of some work in the midst of an attempt or between two nodes. -/
def Turn.IsPlainOn (base : List Pending) : Turn → Prop
  | .go c p => c.IsPlain ∧ ∃ ks, p = ks ++ base ∧ ∀ k ∈ ks, k.IsPlain
  | .wait w _ _ p => w.IsPlain ∧ ∃ ks, p = ks ++ base ∧ ∀ k ∈ ks, k.IsPlain
  | .pass p => ∃ ks, p = ks ++ base ∧ ∀ k ∈ ks, k.IsPlain
  | .stop _ => base = []

namespace TaskState.Shifts

variable {s s' : TaskState}

theorem eq_of_resumption {k : Nat} (h : s.Shifts s') (hs : s' = .waiting .resumption k) :
    s = .waiting .resumption k := by
  induction h with
  | refl => exact hs
  | @signal s' _ ih =>
    refine ih ?_
    rcases s' with _ | _ | ⟨_ | _ | _ | _ | _ | _ | _ | _ | _ | _, _⟩ | _ | _ <;> cases hs
  | @interrupt s' _ ih =>
    refine ih ?_
    cases s' <;> cases hs
  | handOn => cases hs

/-- A task that has been woken stays so, at most it is cancelled as well. -/
theorem of_woken {w : Wait} {a i : Bool} (h : s.Shifts s') (hs : s = .woken w a i) :
    ∃ j, s' = .woken w a j ∧ (i = true → j = true) := by
  induction h with
  | refl => exact ⟨i, hs, id⟩
  | signal _ ih =>
    obtain ⟨j, rfl, hj⟩ := ih
    exact ⟨j, rfl, hj⟩
  | interrupt _ ih =>
    obtain ⟨j, rfl, -⟩ := ih
    exact ⟨true, rfl, fun _ => rfl⟩
  | handOn _ ih =>
    obtain ⟨j, hj, -⟩ := ih
    cases hj

end TaskState.Shifts

/-- All of a run that decides about pauses. -/
structure Gauge where
  status : Status
  breakpoints : Breakpoints
  pauseOnStart : Bool
  pauseRequested : Bool
  stepArmed : Bool

namespace Machine

variable {m n o : Machine} {base p q : List Pending}

def gauge (m : Machine) : Gauge :=
  ⟨m.run.status, m.run.breakpoints, m.pauseOnStart, m.pauseRequested, m.stepArmed⟩

theorem Mute.gauge (h : Mute m n) : n.gauge = m.gauge :=
  show n.bare.gauge = m.bare.gauge from congrArg Machine.gauge h.bare

/-- Nobody is told of anything, no ticket is taken, and what is made are errands. -/
structure Discreet (m n : Machine) : Prop extends Upholds m n where
  ticket : n.nextTicket = m.nextTicket
  token : m.token.cancelled = true → n.token.cancelled = true
  untold : Adds Effect.IsUntold m n
  observers : ∀ {t}, t < m.tasks.size → n.observers? t = m.observers? t
  made : ∀ {t c i}, m.tasks.size ≤ t → n.state? t = some (.fresh c i) → c.IsErrand
  blank : ∀ {t}, m.tasks.size ≤ t → (n.pending? t).getD [] = [] ∧ (n.observers? t).getD [] = []

namespace Discreet

theorem trans (h : Discreet m n) (k : Discreet n o) : Discreet m o where
  toUpholds := h.toUpholds.trans k.toUpholds
  ticket := k.ticket.trans h.ticket
  token ht := k.token (h.token ht)
  untold := h.untold.trans k.untold
  observers ht := (k.observers (Nat.lt_of_lt_of_le ht h.size)).trans (h.observers ht)
  made {t c i} ht hs := by
    by_cases hlt : t < n.tasks.size
    · obtain ⟨s, hn⟩ := exists_state? hlt
      obtain ⟨s', hs', hk⟩ := k.old hn
      rw [hs] at hs'
      cases hs'
      obtain ⟨j, rfl⟩ := hk.fresh
      exact h.made ht hn
    · exact k.made (Nat.le_of_not_lt hlt) hs
  blank {t} ht := by
    by_cases hlt : t < n.tasks.size
    · rw [k.pending hlt, k.observers hlt]
      exact h.blank ht
    · exact k.blank (Nat.le_of_not_lt hlt)

/-- No task is made. -/
theorem of_size (h : Upholds m n) (ht : n.nextTicket = m.nextTicket)
    (hc : m.token.cancelled = true → n.token.cancelled = true) (hu : Adds Effect.IsUntold m n)
    (hs : n.tasks.size = m.tasks.size) (ho : ∀ t, n.observers? t = m.observers? t) : Discreet m n where
  toUpholds := h
  ticket := ht
  token := hc
  untold := hu
  observers _ := ho _
  made hle hs' := absurd (lt_of_state? hs') (Nat.not_lt.mpr (hs ▸ hle))
  blank hle := by
    have hnone : m.tasks[_]? = none := Array.getElem?_eq_none hle
    have hnone' : n.tasks[_]? = none := Array.getElem?_eq_none (hs ▸ hle)
    rw [ho]
    simp [pending?, observers?, hnone, hnone']

/-- The tasks stay as they are. -/
theorem same (h : Upholds m n) (hr : n.tasks = m.tasks) (ht : n.nextTicket = m.nextTicket)
    (hc : n.token = m.token) (hu : Adds Effect.IsUntold m n) : Discreet m n :=
  of_size h ht (hc ▸ id) hu (congrArg Array.size hr) fun t => by rw [observers?, hr]; rfl

/-- Tasks are signalled at most. -/
theorem of_silent (h : Silent m n) (k : Tends m n) (hs : n.tasks.size = m.tasks.size) : Discreet m n where
  toUpholds := .of_tends h.mute.origin h.mute.main k
  ticket := h.mute.nextTicket
  token := h.mute.token ▸ id
  untold := h.adds.mono fun _ he => he.2
  observers := k.observers
  made hle hs' := absurd (lt_of_state? hs') (Nat.not_lt.mpr (hs ▸ hle))
  blank := k.blank

theorem refl (m : Machine) : Discreet m m :=
  same (.refl m) rfl rfl rfl (.refl m)

theorem tell (m : Machine) (t : TaskId) (ticket : Nat) : Discreet m (m.tell t ticket) := by
  refine of_silent (.tell m t ticket) (.tell m t ticket) ?_
  unfold Machine.tell
  split
  · split
    · exact size_signal
    · rfl
  · rfl

theorem endPause (m : Machine) : Discreet m m.endPause :=
  have dropped : Discreet m { m with paused := [] } := same (.same rfl rfl rfl) rfl rfl rfl (.of_eq rfl)
  dropped.trans (of_silent (.endPause m) (.signals _ _) (size_signals _ _))

theorem finalize (m : Machine) (stamp : Instant) (o : Outcome) : Discreet m (m.finalize stamp o) := by
  have ended (n : Machine) (ho : n.origin = m.origin) (hm : n.main = m.main) (hr : n.tasks = m.tasks)
      (ht : n.nextTicket = m.nextTicket) (hc : n.token = m.token) (hu : Adds Effect.IsUntold m n) :
      Discreet m n.endPause :=
    (same (.same ho hm hr) hr ht hc hu).trans (endPause n)
  unfold Machine.finalize
  dsimp only
  split
  · exact refl m
  · split
    · exact ended _ rfl rfl rfl rfl rfl (.effect _ fun _ _ => rfl)
    · cases o <;> exact ended _ rfl rfl rfl rfl rfl (.effect _ fun _ _ => rfl)

theorem release (m : Machine) (mode : String) : Discreet m (m.release mode) := by
  refine Discreet.trans ?_ (endPause _)
  exact same (.same rfl rfl rfl) rfl rfl rfl (.effect _ fun _ _ => rfl)

end Discreet

/-- Whoever waits for the end of a pause goes on waiting, or is cancelled. -/
def Holds (m n : Machine) : Prop :=
  ∀ {t k}, m.state? t = some (.waiting .resumption k) → n.token.cancelled = false →
    n.state? t = some (.waiting .resumption k) ∨ n.state? t = some (.woken .resumption false true)

/-- A step leaves alone what decides about pauses, and whoever waits for the end of one. -/
structure Steady (types : List String) (m n : Machine) : Prop extends Discreet m n where
  gauge : n.gauge = m.gauge
  adds : Adds (Effect.Among types) m n
  held : Holds m n

namespace Steady

variable {types : List String}

theorem trans (h : Steady types m n) (k : Steady types n o) : Steady types m o where
  toDiscreet := h.toDiscreet.trans k.toDiscreet
  gauge := k.gauge.trans h.gauge
  adds := h.adds.trans k.adds
  held {t j} ht hl := by
    have hn : n.token.cancelled = false := by
      cases hc : n.token.cancelled with
      | false => rfl
      | true => rw [k.token hc] at hl; cases hl
    obtain hs | hs := h.held ht hn
    · exact k.held hs hl
    · obtain ⟨s, hs', hk⟩ := k.old hs
      obtain ⟨i, rfl, hi⟩ := hk.of_woken rfl
      rw [hi rfl] at hs'
      exact .inr hs'

theorem mono {types' : List String} (h : Steady types m n) (ht : ∀ t ∈ types, t ∈ types') :
    Steady types' m n :=
  { h with adds := h.adds.mono fun _ he => ⟨fun x hx => ht _ (he.1 x hx), he.2⟩ }

/-- No task is made, and none is signalled. -/
theorem of_upholds (h : Upholds m n) (hg : n.gauge = m.gauge) (ht : n.nextTicket = m.nextTicket)
    (hc : n.token = m.token) (ha : Adds (Effect.Among types) m n) (hs : n.tasks.size = m.tasks.size)
    (ho : ∀ t, n.observers? t = m.observers? t)
    (hheld : ∀ {t k}, m.state? t = some (.waiting .resumption k) →
      n.state? t = some (.waiting .resumption k) ∨ n.state? t = some (.woken .resumption false true)) :
    Steady types m n where
  toDiscreet := .of_size h ht (hc ▸ id) (ha.mono fun _ he => he.2) hs ho
  gauge := hg
  adds := ha
  held ht _ := hheld ht

/-- Only what a walk changes has been changed. -/
theorem same (h : n.standing = m.standing) (ha : Adds (Effect.Among types) m n) : Steady types m n := by
  have hr : n.tasks = m.tasks := (congrArg (·.tasks) h :)
  have hupholds : Upholds m n := .same (congrArg Machine.origin h :) (congrArg (·.main) h :) hr
  exact of_upholds hupholds (congrArg Machine.gauge h :) (congrArg (·.nextTicket) h :)
    (congrArg (·.token) h :) ha (congrArg Array.size hr)
    (fun t => by rw [observers?, hr]; rfl) fun ht => .inl (by rw [state?, hr]; exact ht)

theorem refl (m : Machine) : Steady types m m :=
  same rfl (.refl m)

/-- What a walk does besides making tasks and frames. -/
theorem quiet (h : Quiet types m n) : Steady types m n :=
  same h.standing h.adds

theorem effect (m : Machine) {e : Effect} (he : e.IsPlain) : Steady types m (m.effect e) :=
  same rfl (.effect m (he.among _))

theorem spawn (m : Machine) {c : Control} (hc : c.IsErrand) : Steady types m (m.spawn c []).1 where
  toUpholds := .spawn m c
  gauge := rfl
  ticket := rfl
  token := id
  untold := .effect _ (Effect.ready_plain _).2
  adds := .effect _ ((Effect.ready_plain _).among _)
  observers := (Tends.spawn m c).observers
  made hle hs := by
    rw [state?_spawn] at hs
    split at hs
    · cases hs
      exact hc
    · exact absurd (lt_of_state? hs) (Nat.not_lt.mpr hle)
  blank := (Tends.spawn m c).blank
  held {t k} ht _ := by
    rw [state?_spawn, if_neg (Nat.ne_of_lt (lt_of_state? ht))]
    exact .inl ht

end Steady

theorem observers?_interrupt (fuel : Nat) (m : Machine) (t u : TaskId) :
    (m.interrupt fuel t).observers? u = m.observers? u := by
  induction fuel generalizing m t with
  | zero => rfl
  | succ fuel ih =>
    unfold Machine.interrupt
    split
    · exact observers?_setState _
    · exact (ih _ _).trans (observers?_setState _)
    · exact observers?_setState _
    · exact observers?_setState _
    · rfl

/-- What becomes of a pause when the state of a task is replaced that is in no pause. -/
theorem held_setState {t u : TaskId} {s s' : TaskState} {k : Nat} (hs : m.state? t = some s)
    (hne : s ≠ .waiting .resumption k) (hu : m.state? u = some (.waiting .resumption k)) :
    (m.setState t s').state? u = some (.waiting .resumption k) := by
  rw [state?_setState, if_neg, hu]
  rintro rfl
  rw [hu] at hs
  exact hne (Option.some.inj hs.symm)

/-- A cancellation finds a pause, or leaves it alone. -/
theorem held_interrupt (fuel : Nat) (m : Machine) (t : TaskId) {u : TaskId} {k : Nat}
    (hu : m.state? u = some (.waiting .resumption k)) :
    (m.interrupt fuel t).state? u = some (.waiting .resumption k) ∨
      (m.interrupt fuel t).state? u = some (.woken .resumption false true) := by
  induction fuel generalizing m t with
  | zero => exact .inl hu
  | succ fuel ih =>
    unfold Machine.interrupt
    split
    · exact .inl (held_setState ‹_› (by simp) hu)
    · exact ih _ _ (held_setState ‹_› (by simp) hu)
    · rename_i w j _ hs
      by_cases htu : t = u
      · subst htu
        rw [hu] at hs
        cases hs
        refine .inr ?_
        rw [state?_effect, state?_setState, if_pos rfl, hu]
        rfl
      · exact .inl (by rw [state?_effect, state?_setState, if_neg htu, hu])
    · exact .inl (held_setState ‹_› (by simp) hu)
    · exact .inl hu

namespace Steady

variable {types : List String}

theorem interruptTask (m : Machine) (t : TaskId) : Steady types m (m.interruptTask t) :=
  have hs := Silent.interruptTask m t
  of_upholds (.interruptTask m t) hs.mute.gauge hs.mute.nextTicket hs.mute.token
    (hs.adds.mono fun _ he => he.among _) (size_interrupt _ _ _) (observers?_interrupt _ _ _)
    (held_interrupt _ _ _)

/-- Once the run is cancelled, it does not matter who has been woken. -/
theorem cancelToken (m : Machine) (reason : Option String) : Steady types m (m.cancelToken reason) := by
  cases h : m.token.cancelled with
  | true => rw [Machine.cancelToken, if_pos h]; exact refl m
  | false =>
    have hs := Silent.cancelToken m reason h
    have hcancelled := cancelToken_cancelled m reason
    have hsize : (m.cancelToken reason).tasks.size = m.tasks.size := by
      rw [Machine.cancelToken, if_neg (by simp [h])]
      exact size_signals _ _
    have ht := Tends.cancelToken m reason
    exact {
      toUpholds := .cancelToken m reason
      gauge := hs.mute.gauge
      ticket := hs.mute.nextTicket
      token := fun _ => hcancelled
      untold := hs.adds.mono fun _ he => he.2
      adds := hs.adds.mono fun _ he => he.among _
      observers := ht.observers
      made := fun hle hs' => absurd (lt_of_state? hs') (Nat.not_lt.mpr (hsize ▸ hle))
      blank := ht.blank
      held := fun _ hl => by rw [hcancelled] at hl; cases hl }

end Steady

/-- A step on top of some work in the midst of an attempt or between two nodes. -/
structure Plods (m : Machine) (base : List Pending) (x : StepResult) : Prop where
  steady : Steady lateTypes m x.1
  turn : x.2.IsPlainOn base

namespace Plods

variable {x : StepResult}

theorem go (h : Steady lateTypes m n) {c : Control} (hc : c.IsPlain) : Plods m base (n, .go c base) :=
  ⟨h, hc, [], rfl, by simp⟩

theorem answer (h : Steady lateTypes m n) (a : Answer) : Plods m base (n, .answer a base) :=
  go h trivial

theorem wait (h : Steady lateTypes m n) {w : Wait} (on : List TaskId) (limit : Option Seconds)
    (hw : w.IsPlain) : Plods m base (n, .wait w on limit base) :=
  ⟨h, hw, [], rfl, by simp⟩

theorem after (h : Steady lateTypes m n) (k : Plods n base x) : Plods m base x :=
  ⟨h.trans k.steady, k.turn⟩

/-- A step on top of work that is itself on top of other work. -/
theorem above (ks : List Pending) (h : Plods m (ks ++ base) x) (hk : ∀ k ∈ ks, k.IsPlain) :
    Plods m base x := by
  have rise {q : List Pending} (hq : ∃ ls, q = ls ++ (ks ++ base) ∧ ∀ k ∈ ls, k.IsPlain) :
      ∃ ls, q = ls ++ base ∧ ∀ k ∈ ls, k.IsPlain := by
    obtain ⟨ls, rfl, hl⟩ := hq
    exact ⟨ls ++ ks, by simp, fun k hm => (List.mem_append.mp hm).elim (hl k) (hk k)⟩
  refine ⟨h.steady, ?_⟩
  have ht := h.turn
  cases hx : x.2 with
  | go c q => rw [hx] at ht; exact ⟨ht.1, rise ht.2⟩
  | wait w on limit q => rw [hx] at ht; exact ⟨ht.1, rise ht.2⟩
  | pass q => rw [hx] at ht; exact rise ht
  | stop a => rw [hx] at ht; exact (List.append_eq_nil_iff.mp ht).2

theorem under {k : Pending} (h : Plods m (k :: base) x) (hk : k.IsPlain) : Plods m base x :=
  h.above [k] (by simpa using hk)

end Plods

section functions

variable (m : Machine) (env : Surroundings) (self : TaskId) (p : List Pending)

theorem call_plods (flow : Flow) (layers : List Nat) (node : Node) (shared : Bool) :
    Plods m p (m.call env flow layers node shared p) := by
  unfold call
  dsimp only
  split
  · exact .answer (.refl m) _
  · have h : Steady lateTypes m { m with
        nextFrame := m.nextFrame + 1
        run := { m.run with stack := m.run.stack ++
          [{ key := m.nextFrame, flow := flow.id, invokedBy := some node.id, layers, shared }] } } :=
      .same rfl (.of_eq rfl)
    exact .under (k := .frame m.nextFrame flow.id node.id)
      (.go h (c := .enter ⟨flow, layers, 0⟩ m.nextFrame) trivial) trivial

theorem rest_plods (seconds : Seconds) : Plods m p (m.rest seconds p) := by
  unfold rest
  dsimp only
  split
  · exact .answer (.refl m) _
  · exact .wait (.spawn m (c := .watch) nofun) _ _ trivial

theorem sleep_plods (seconds : Seconds) : Plods m p (m.sleep seconds p) := by
  unfold sleep
  split
  · exact .wait (.refl m) _ _ trivial
  · exact ⟨.refl m, [], rfl, by simp⟩

theorem watch_plods : Plods m p (m.watch self p) := by
  unfold watch
  split
  · exact .answer (.refl m) _
  · have h : Steady lateTypes m { m with watchers := m.watchers ++ [self] } :=
      .of_upholds (.same rfl rfl rfl) rfl rfl rfl (.of_eq rfl) rfl (fun _ => rfl) .inl
    exact .wait h _ _ trivial

theorem takeSlot_plods : Plods m p (m.takeSlot env self p) := by
  unfold takeSlot
  split
  · exact .wait (.effect m (e := .queueForSlot self) ⟨rfl, fun _ _ => rfl⟩) _ _ trivial
  · exact .answer (.effect m (e := .takeSlot) ⟨rfl, fun _ _ => rfl⟩) _

theorem enter_plods (place : Place) (frame : Nat) : Plods m p (m.enter place frame p) := by
  unfold enter
  dsimp only
  split
  · exact .answer (.refl m) _
  · split
    · exact .go (.refl m) trivial
    · exact .answer (.refl m) _

theorem merge_steady (layers : List Nat) (node : String) (values : Entries Value) :
    Steady lateTypes m (m.merge layers node values) :=
  .quiet (.merge m layers node values (by decide))

theorem iterate_plods (loop : Loop) (bound iterations : Nat) :
    Plods m p (m.iterate env loop bound iterations p) := by
  unfold iterate
  dsimp only
  split
  · exact .answer (.refl m) _
  · split
    · exact .answer (.refl m) _
    · split
      · exact .answer (.refl m) _
      · exact .after (.quiet (.addLayer m _ _)) (.under (call_plods _ _ _ _ _ _ _) trivial)

theorem startWhile_plods (place : Place) (node : Node) : Plods m p (m.startWhile env place node p) := by
  unfold startWhile
  dsimp only
  split
  · exact .answer (.refl m) _
  · split
    · exact .answer (.refl m) _
    · split
      · exact .answer (.refl m) _
      · exact .go (.refl m) trivial

theorem nextItem_plods (loop : Loop) (itemName : String) (indexName : Option String) (index : Nat)
    (items : List Value) : Plods m p (m.nextItem env loop itemName indexName index items p) := by
  unfold nextItem
  dsimp only
  split
  · exact .answer (.refl m) _
  · split
    · exact .answer (.refl m) _
    · exact .after (.quiet (.addLayer m _ _)) (.under (call_plods _ _ _ _ _ _ _) trivial)

theorem startForeach_plods (place : Place) (node : Node) : Plods m p (m.startForeach env place node p) := by
  unfold startForeach
  dsimp only
  split
  · exact .answer (.refl m) _
  · split
    · exact .answer (.refl m) _
    · exact nextItem_plods _ _ _ _ _ _ _ _

theorem supply_plods (c : Collection) : Plods m p (m.supply c p) := by
  unfold supply
  split
  · exact .go (.refl m) trivial
  · dsimp only
    split
    · exact .answer (.refl m) _
    · exact .answer (merge_steady m _ _ _) _

theorem element_plods (c : Collection) (acts : List Act) (item : Except HandlerFault Value) :
    Plods m p (m.element env self c acts item p) := by
  unfold element
  dsimp only
  split
  · exact .under (k := .element _ _ _) (sleep_plods m _ _) trivial
  · exact .go (.cancelToken m _) trivial
  · exact .under (k := .element _ _ _) (watch_plods m _ _) trivial
  · split
    · exact .answer (.refl m) _
    · split
      · exact .answer (.refl m) _
      · exact .after (.quiet (.addLayer m _ _)) (.under (call_plods _ _ _ _ _ _ _) trivial)

theorem startElements_plods (a : Attempt) : Plods m p (m.startElements env a p) := by
  have noted (c : CallNote) : Steady lateTypes m (m.effect (.note c)) := .effect m (Effect.note_plain c)
  unfold startElements
  split
  · exact .answer (.refl m) _
  · split
    · exact .answer (.refl m) _
    · dsimp only
      split
      · exact .answer (.refl m) _
      · split
        · exact .answer (.refl m) _
        · split
          · exact .answer (noted _) _
          · exact .go (noted _) trivial

theorem writeReturns_steady (place : Place) (node : Node) (child : List Nat) (returns : Value) :
    Steady lateTypes m (m.writeReturns place node child returns) :=
  .quiet (.writeReturns m place node child returns (by decide))

theorem invoke_plods (place : Place) (node : Node) (target : Flow) (args : Entries Value) (inline : Bool)
    (returns : Value) (ks : List Nat → List Pending) (hk : ∀ child, ∀ k ∈ ks child, k.IsPlain) :
    Plods m p (m.invoke env place node target args inline returns p fun child p => ks child ++ p) := by
  unfold invoke
  dsimp only
  split
  · refine .after (.trans (.quiet (.addLayer m _ _)) (.quiet (.putScope _ _ _)))
      (.above (ks _) (.under (call_plods _ _ _ _ _ _ _) trivial) (hk _))
  · exact .after (.quiet (.addLayer m _ _)) (.above (ks _) (.under (call_plods _ _ _ _ _ _ _) trivial) (hk _))

theorem startExecuteFlow_plods (place : Place) (node : Node) :
    Plods m p (m.startExecuteFlow env place node p) := by
  unfold startExecuteFlow
  dsimp only
  split
  · exact .answer (.refl m) _
  · split
    · exact .answer (.refl m) _
    · split
      · exact invoke_plods _ _ _ _ _ _ _ _ _ (fun _ => []) (by simp)
      · exact .answer (.refl m) _

theorem startPrimitive_plods (a : Attempt) : Plods m p (m.startPrimitive env a p) := by
  unfold startPrimitive
  dsimp only
  split
  · exact .answer (.refl m) _
  · split
    · exact .answer (.refl m) _
    · split
      · exact .answer (.refl m) _
      · exact .under (k := .primitive a)
          (.wait (.trans (.spawn m (c := .handle _) nofun) (.spawn _ (c := .watch) nofun)) _ _ trivial) trivial

theorem attempt_plods (a : Attempt) :
    Plods (m.emit "node.started" (startedPayload a.node a.number a.place.depth))
      (.attempt a env.now :: p) (m.attempt env a p) := by
  unfold attempt
  dsimp only
  split
  · exact .answer (.refl _) _
  · exact startForeach_plods _ _ _ _ _
  · exact startElements_plods _ _ _ _
  · exact startWhile_plods _ _ _ _ _
  · exact startExecuteFlow_plods _ _ _ _ _
  · exact startPrimitive_plods _ _ _ _

theorem handle_plods (c : Call) : Plods m p (m.handle env c p) := by
  unfold handle
  split
  · exact .answer (.refl m) _
  · split
    · split
      · exact .answer (.refl m) _
      · exact .answer (.refl m) _
      · exact .under (k := .rest) (rest_plods m _ _) trivial
    · exact .go (.effect m (Effect.note_plain _)) trivial

theorem act_plods (c : Call) (acts : List Act) (finish : Finish) : Plods m p (m.act env self c acts finish p) := by
  unfold act
  split
  · exact .under (k := .plan _ _ _) (sleep_plods m _ _) trivial
  · exact .under (k := .plan _ _ _) (watch_plods m _ _) trivial
  · exact .go (.cancelToken m _) trivial
  · split
    · exact .answer (.refl m) _
    · exact .answer (.refl m) _
    · exact .answer (.refl m) _
    · unfold subexecute
      split
      · exact .answer (.refl m) _
      · exact invoke_plods _ _ _ _ _ _ _ _ _ (fun child => [.subexecution child, .saving _])
          (by simp [Pending.IsPlain])

theorem afterVisit_plods (walk : Walk) (node : Node) (o : Outcome) :
    Plods m p (m, afterVisit walk node o p) := by
  unfold afterVisit
  split
  · exact .go (.refl m) trivial
  · exact .answer (.refl m) _
  · exact .answer (.refl m) _

theorem primitive_plods (a : Attempt) (r : HandlerResult) :
    Plods m p (m.resume env (.primitive a) (.handled r) p) := by
  cases r with
  | failure e => exact .answer (.refl m) _
  | success values =>
    refine .answer ?_ _
    split
    · exact .refl m
    · exact merge_steady m _ _ _

theorem slot_plods (held : Bool) (a : Answer) : Plods m p (m.resume env (.slot held) a p) := by
  have given : Steady lateTypes m (if held then m.effect .giveSlotBack else m) := by
    split
    · exact .effect m ⟨rfl, fun _ _ => rfl⟩
    · exact .refl m
  have pruned (n : Machine) : Steady lateTypes n (n.effect .prune) := .effect n ⟨rfl, fun _ _ => rfl⟩
  unfold resume
  dsimp only
  split
  · exact .answer given _
  · exact .answer given _
  · exact .answer (given.trans (pruned _)) _

theorem frame_steady (key : Nat) (node : String) : Steady lateTypes m (m.leaveFrame key node) :=
  .same rfl (.of_eq rfl)

/-- Work in the midst of an attempt or between two nodes is handed an answer. -/
theorem resume_plods {k : Pending} (hk : k.IsPlain) (a : Answer) : Plods m p (m.resume env k a p) := by
  have passed : Plods m p (m, .answer a p) := .answer (.refl m) a
  cases k with
  | slot held => exact absurd hk id
  | execution => exact absurd hk id
  | checkpoint walk node => exact absurd hk id
  | attempt b since => exact absurd hk id
  | backoff b => exact absurd hk id
  | visit walk node =>
    cases a with
    | outcome o => exact afterVisit_plods m p walk node o
    | _ => exact passed
  | primitive b =>
    cases a with
    | handled r => exact primitive_plods m env p b r
    | _ => exact passed
  | frame key flow node => cases a <;> exact .answer (frame_steady m key node) _
  | foreach loop itemName indexName index rest =>
    cases a with
    | outcome o =>
      cases o with
      | completed l => exact nextItem_plods m env p loop itemName indexName index rest
      | _ => exact passed
    | _ => exact passed
  | «while» loop bound iterations =>
    cases a with
    | outcome o =>
      cases o with
      | completed l => exact .go (.refl m) trivial
      | _ => exact passed
    | _ => exact passed
  | element c acts item =>
    cases a with
    | rested cutShort => exact .go (.refl m) trivial
    | _ => exact passed
  | elements c =>
    cases a with
    | outcome o =>
      cases o with
      | completed l => exact .go (.refl m) trivial
      | _ => exact passed
    | thrown f => exact .answer (.refl m) _
    | _ => exact passed
  | invocation place node child returns =>
    cases returns with
    | none => cases a <;> exact passed
    | some returns =>
      cases a with
      | outcome o =>
        cases o with
        | completed l => exact .answer (writeReturns_steady m place node child returns) _
        | _ => exact passed
      | _ => exact passed
  | subexecution child => cases a <;> exact .answer (.refl m) _
  | plan c acts finish =>
    cases a with
    | rested cutShort => exact .go (.refl m) trivial
    | _ => exact passed
  | saving saveAs => cases a <;> exact .answer (.refl m) _
  | rest => cases a <;> exact .answer (.refl m) _

theorem removeHandler_plods (handler : TaskId) (o : Outcome) : Plods m p (m.removeHandler handler o p) :=
  .wait (.interruptTask m handler) _ _ trivial

theorem wakeFromSettlement_plods (a : Attempt) (handler watcher : TaskId) (interrupted : Bool) :
    Plods m p (m.wakeFromSettlement env a handler watcher interrupted p) := by
  have h : Steady lateTypes m (if m.hasEnded watcher = true then m else m.interruptTask watcher) := by
    split
    · exact .refl m
    · exact .interruptTask m _
  unfold wakeFromSettlement
  dsimp only
  generalize (if m.hasEnded watcher = true then m else m.interruptTask watcher) = n at h ⊢
  split
  · exact .answer h _
  · split
    · exact .answer h _
    · split
      · exact .wait h _ _ trivial
      · exact .after h (removeHandler_plods _ _ _ _)

theorem dropTimer_steady : Steady lateTypes m (m.dropTimer self) :=
  .effect m (e := .stopTimer self) ⟨rfl, fun _ _ => rfl⟩

theorem wakeFromGrant_plods (signalled interrupted : Bool) :
    Plods m p (m.wake env self .grant signalled interrupted p) := by
  have left : Steady lateTypes m (m.effect (.leaveSlotQueue self)) := .effect m ⟨rfl, fun _ _ => rfl⟩
  unfold wake
  dsimp only
  cases interrupted with
  | true =>
    cases signalled with
    | true => exact .answer (left.trans (.effect _ (e := .giveSlotBack) ⟨rfl, fun _ _ => rfl⟩)) _
    | false => exact .answer left _
  | false => exact .answer (left.trans (.effect _ (e := .passSlotOn) ⟨rfl, fun _ _ => rfl⟩)) _

theorem wakeFromGrace_plods (handler : TaskId) (signalled interrupted : Bool) :
    Plods m p (m.wake env self (.grace handler) signalled interrupted p) := by
  have timed := dropTimer_steady m self
  unfold wake
  dsimp only
  split
  · exact .answer timed _
  · split
    · exact .answer timed _
    · exact .after timed (removeHandler_plods _ _ _ _)

theorem wakeFromNap_plods (watcher : TaskId) (signalled interrupted : Bool) :
    Plods m p (m.wake env self (.nap watcher) signalled interrupted p) := by
  have timed := dropTimer_steady m self
  unfold wake
  dsimp only
  split
  · exact .answer timed _
  · exact .wait (timed.trans (.interruptTask _ _)) _ _ trivial

/-- A task goes on after any wait, but for one for the start of the run. -/
theorem wake_plods {w : Wait} (hw : ∀ t u, w ≠ .start t u) (signalled interrupted : Bool) :
    Plods m p (m.wake env self w signalled interrupted p) := by
  cases w with
  | start t u => exact absurd rfl (hw t u)
  | grant => exact wakeFromGrant_plods m env self p signalled interrupted
  | cancellation =>
    have h : Steady lateTypes m { m with watchers := m.watchers.filter (· != self) } :=
      .of_upholds (.same rfl rfl rfl) rfl rfl rfl (.of_eq rfl) rfl (fun _ => rfl) .inl
    exact .answer h _
  | resumption => exact .answer (.refl m) _
  | settlement a handler watcher =>
    exact .after (dropTimer_steady m self) (wakeFromSettlement_plods _ env p a handler watcher interrupted)
  | grace handler => exact wakeFromGrace_plods m env self p handler signalled interrupted
  | removal handler o before => exact .answer (.refl m) _
  | nap watcher => exact wakeFromNap_plods m env self p watcher signalled interrupted
  | rousing watcher before =>
    unfold wake
    dsimp only
    split
    · exact .answer (.refl m) _
    · split <;> exact .answer (.refl m) _
  | sleep => exact .answer (dropTimer_steady m self) _

/-- A common step leaves alone what decides about pauses. -/
theorem step_plods {c : Control} (hc : c.IsCommon p) : Plods m (c.rest p) (m.step env self c p) := by
  cases c with
  | enqueue => exact absurd hc id
  | takeSlot => exact takeSlot_plods m env self p
  | watch => exact watch_plods m self p
  | execute => exact absurd hc id
  | enter place frame => exact enter_plods m p place frame
  | next walk node =>
    cases node with
    | none => exact .answer (.refl m) _
    | some node => exact absurd hc id
  | dispatch walk node => exact absurd hc id
  | «try» a => exact absurd hc id
  | iterate loop bound iterations => exact iterate_plods m env p loop bound iterations
  | supply d => exact supply_plods m p d
  | element d acts item => exact element_plods m env self p d acts item
  | handle d => exact handle_plods m env p d
  | act d acts finish => exact act_plods m env self p d acts finish
  | wake w s i =>
    refine wake_plods m env self p ?_ s i
    rintro t u rfl
    exact hc
  | answer a =>
    cases p with
    | nil => exact ⟨.refl m, rfl⟩
    | cons k p =>
      obtain hk | ⟨held, rfl⟩ := hc
      · exact resume_plods m env p hk a
      · exact slot_plods m env p held a

end functions

end Machine

end Workflow
