import Workflow.Proofs.Run.Execution
/-!
What the operations on the tasks of a run leave alone. They change no more than the tasks and the
effects, and of the effects none is an event. Only waiting for a task and ending one tells tasks.
-/

namespace Workflow

namespace Effect

/-- An effect that is no event. -/
def IsMute (e : Effect) : Prop :=
  e.event? = none

/-- An effect that is no event and that tells no task. -/
def IsPlain (e : Effect) : Prop :=
  e.IsMute ∧ ∀ t ticket, e.tells t ticket = false

end Effect

namespace Machine

variable {m n o : Machine} {P Q : Effect → Prop} {t u : TaskId}

/-- The machine without its tasks and its effects. -/
def bare (m : Machine) : Machine :=
  { m with tasks := #[], effects := [] }

/-- All effects that were added are of some kind. -/
def Adds (P : Effect → Prop) (m n : Machine) : Prop :=
  ∃ d, n.effects = d ++ m.effects ∧ ∀ e ∈ d, P e

theorem Adds.of_eq (h : n.effects = m.effects) : Adds P m n :=
  ⟨[], h, by simp⟩

theorem Adds.refl (m : Machine) : Adds P m m :=
  .of_eq rfl

theorem Adds.effect (m : Machine) {e : Effect} (h : P e) : Adds P m (m.effect e) :=
  ⟨[e], rfl, by simpa using h⟩

theorem Adds.trans (h : Adds P m n) (k : Adds P n o) : Adds P m o := by
  obtain ⟨d, hd, hP⟩ := h
  obtain ⟨f, hf, hQ⟩ := k
  refine ⟨f ++ d, by rw [hf, hd, List.append_assoc], fun e he => ?_⟩
  exact (List.mem_append.mp he).elim (hQ e) (hP e)

theorem Adds.mono (h : Adds P m n) (hPQ : ∀ e, P e → Q e) : Adds Q m n := by
  obtain ⟨d, hd, hP⟩ := h
  exact ⟨d, hd, fun e he => hPQ e (hP e he)⟩

/-- The machines differ at most in their tasks and in effects that are no events. -/
structure Mute (m n : Machine) : Prop where
  bare : n.bare = m.bare
  adds : Adds Effect.IsMute m n

/-- The machines differ at most in their tasks and in effects that are no events and tell nobody. -/
structure Silent (m n : Machine) : Prop where
  bare : n.bare = m.bare
  adds : Adds Effect.IsPlain m n

theorem Mute.trans (h : Mute m n) (k : Mute n o) : Mute m o :=
  ⟨k.bare.trans h.bare, h.adds.trans k.adds⟩

namespace Mute

theorem run (h : Mute m n) : n.run = m.run :=
  show n.bare.run = m.bare.run from congrArg Machine.run h.bare

theorem layers (h : Mute m n) : n.layers = m.layers :=
  show n.bare.layers = m.bare.layers from congrArg Machine.layers h.bare

theorem token (h : Mute m n) : n.token = m.token :=
  show n.bare.token = m.bare.token from congrArg Machine.token h.bare

theorem main (h : Mute m n) : n.main = m.main :=
  show n.bare.main = m.bare.main from congrArg Machine.main h.bare

theorem paused (h : Mute m n) : n.paused = m.paused :=
  show n.bare.paused = m.bare.paused from congrArg Machine.paused h.bare

theorem watchers (h : Mute m n) : n.watchers = m.watchers :=
  show n.bare.watchers = m.bare.watchers from congrArg Machine.watchers h.bare

theorem nextTicket (h : Mute m n) : n.nextTicket = m.nextTicket :=
  show n.bare.nextTicket = m.bare.nextTicket from congrArg Machine.nextTicket h.bare

end Mute

theorem Mute.foldl {α : Type} {f : Machine → α → Machine} (hf : ∀ m a, Mute m (f m a))
    (as : List α) (m : Machine) : Mute m (as.foldl f m) := by
  induction as generalizing m with
  | nil => exact ⟨rfl, .refl m⟩
  | cons a as ih => exact (hf m a).trans (ih (f m a))

namespace Silent

theorem refl (m : Machine) : Silent m m :=
  ⟨rfl, .refl m⟩

theorem trans (h : Silent m n) (k : Silent n o) : Silent m o :=
  ⟨k.bare.trans h.bare, h.adds.trans k.adds⟩

theorem mute (h : Silent m n) : Mute m n :=
  ⟨h.bare, h.adds.mono fun _ he => he.1⟩

theorem effect (m : Machine) {e : Effect} (h : e.IsPlain) : Silent m (m.effect e) :=
  ⟨rfl, .effect m h⟩

theorem ready (m : Machine) (t : TaskId) : Silent m (m.effect (.ready t)) :=
  effect m ⟨rfl, fun _ _ => rfl⟩

theorem modifyTask (m : Machine) (t : TaskId) (f : Task → Task) : Silent m (m.modifyTask t f) :=
  ⟨rfl, .of_eq rfl⟩

theorem setState (m : Machine) (t : TaskId) (s : TaskState) : Silent m (m.setState t s) :=
  modifyTask m t _

theorem spawn (m : Machine) (c : Control) (p : List Pending) : Silent m (m.spawn c p).1 :=
  ⟨rfl, .effect _ ⟨rfl, fun _ _ => rfl⟩⟩

theorem foldl {α : Type} {f : Machine → α → Machine} (hf : ∀ m a, Silent m (f m a)) (as : List α)
    (m : Machine) : Silent m (as.foldl f m) := by
  induction as generalizing m with
  | nil => exact refl m
  | cons a as ih => exact (hf m a).trans (ih (f m a))

theorem woken (m : Machine) (t : TaskId) (s : TaskState) :
    Silent m ((m.setState t s).effect (.ready t)) :=
  (setState m t s).trans (ready _ t)

theorem signal (m : Machine) (t : TaskId) : Silent m (m.signal t) := by
  unfold Machine.signal
  split
  · exact woken m t _
  · exact woken m t _
  · exact refl m

theorem tell (m : Machine) (t : TaskId) (ticket : Nat) : Silent m (m.tell t ticket) := by
  unfold Machine.tell
  split
  · split
    · exact signal m t
    · exact refl m
  · exact refl m

theorem interrupt (fuel : Nat) (m : Machine) (t : TaskId) : Silent m (m.interrupt fuel t) := by
  induction fuel generalizing m t with
  | zero => exact refl m
  | succ fuel ih =>
    unfold Machine.interrupt
    split
    · exact setState m t _
    · exact (setState m t _).trans (ih _ _)
    · exact woken m t _
    · exact setState m t _
    · exact refl m

theorem interruptTask (m : Machine) (t : TaskId) : Silent m (m.interruptTask t) :=
  interrupt _ m t

/-- The end of a pause wakes those who wait for it. -/
theorem endPause (m : Machine) : Silent { m with paused := [] } m.endPause :=
  foldl signal m.paused _

/-- A cancellation wakes those who wait for it. -/
theorem cancelToken (m : Machine) (reason : Option String) (h : m.token.cancelled = false) :
    Silent { m with token := m.token.cancel reason, watchers := [] } (m.cancelToken reason) := by
  unfold Machine.cancelToken
  rw [h]
  exact foldl signal m.watchers _

end Silent

/-- A wait takes a ticket. -/
theorem Mute.suspend (m : Machine) (t : TaskId) (w : Wait) (on : List TaskId) :
    Mute { m with nextTicket := m.nextTicket + 1 } (m.suspend t w on).1 := by
  refine (Silent.setState _ t (.waiting w m.nextTicket)).mute.trans (.foldl (fun m o => ?_) on _)
  split
  · exact ⟨rfl, .effect m rfl⟩
  · exact (Silent.modifyTask m o _).mute

theorem Mute.finish (m : Machine) (t : TaskId) (a : Answer) : Mute m (m.finish t a) := by
  have told (m : Machine) (o : TaskId × Nat) : Mute m (m.effect (.tell o.1 o.2)) :=
    ⟨rfl, .effect m rfl⟩
  have ended := (Silent.modifyTask m t fun _ => { state := .ended a }).mute
  refine (ended.trans (.foldl told (((m.task? t).map (·.observers)).getD []) _)).trans ?_
  exact ⟨rfl, .effect _ rfl⟩

end Machine

end Workflow
