import Workflow.Proofs.Run.Task
/-!
The parts that the tasks of a run play: one walks the flow, one takes a slot, handlers carry out
primitive nodes, and watchers wait for the cancellation. What a task does next, what it waits for and
the work that waits in it fit its part.
-/

namespace Workflow

inductive Role where
  | walker | taker | watcher | handler
  deriving DecidableEq

/-- The elements to come are only rested before. -/
def Collection.IsCalm (c : Collection) : Prop :=
  ∀ e ∈ c.rest, e.IsCalm

/-- How a handler's task ends, and what it passes on to its rest. -/
def Answer.Concludes : Answer → List Pending → Prop
  | .handled _, [] | .thrown _, [] | .interrupted, [] => True
  | .rested _, [.rest] | .interrupted, [.rest] => True
  | _, _ => False

def Wait.Suits (roles : List Role) : Role → Wait → List Pending → Prop
  | .taker, .grant, p => p = []
  | .watcher, .cancellation, p => p = []
  | .handler, .nap w, p | .handler, .rousing w _, p => roles[w]? = some .watcher ∧ p = [.rest]
  | .walker, .start t w, _ => roles[t]? = some .taker ∧ roles[w]? = some .watcher
  | .walker, .settlement _ h w, _ => roles[h]? = some .handler ∧ roles[w]? = some .watcher
  | .walker, .grace h, _ => roles[h]? = some .handler
  | .walker, .removal h _ i, _ => roles[h]? = some .handler ∧ i = false
  | .walker, .nap w, _ => roles[w]? = some .watcher
  | .walker, .rousing w i, _ => roles[w]? = some .watcher ∧ i = false
  | .walker, .resumption, _ | .walker, .sleep, _ => True
  | _, _, _ => False

/-- The walker is never cancelled. -/
def Control.Suits (roles : List Role) : Role → Control → List Pending → Prop
  | r, .wake w _ i, p => w.Suits roles r p ∧ (r = .walker → i = false)
  | .walker, _, _ => True
  | .taker, .takeSlot, p | .taker, .answer _, p => p = []
  | .watcher, .watch, p | .watcher, .answer _, p => p = []
  | .handler, .handle _, p => p = []
  | .handler, .answer a, p => a.Concludes p
  | _, _, _ => False

def TaskState.Fits (roles : List Role) (r : Role) (p : List Pending) : TaskState → Prop
  | .fresh c i => c.Suits roles r p ∧ (r = .walker → i = false)
  | .waiting w _ => w.Suits roles r p
  | .woken w _ i => w.Suits roles r p ∧ (r = .walker → i = false)
  | .running => True
  | .ended a => r = .handler → a.Concludes []

section roles

variable {roles more : List Role} {r : Role} {p : List Pending}

theorem getElem?_of_append {t : TaskId} (h : roles[t]? = some r) : (roles ++ more)[t]? = some r := by
  obtain ⟨ht, _⟩ := List.getElem?_eq_some_iff.mp h
  rw [List.getElem?_append_left ht, h]

theorem Wait.Suits.append {w : Wait} (h : w.Suits roles r p) : w.Suits (roles ++ more) r p := by
  cases r <;> cases w <;> first
    | exact h
    | exact getElem?_of_append h
    | exact ⟨getElem?_of_append h.1, getElem?_of_append h.2⟩
    | exact ⟨getElem?_of_append h.1, h.2⟩

theorem Control.Suits.append {c : Control} (h : c.Suits roles r p) :
    c.Suits (roles ++ more) r p := by
  cases c with
  | wake w s i => exact ⟨h.1.append, h.2⟩
  | _ => cases r <;> exact h

theorem TaskState.Fits.append {s : TaskState} (h : s.Fits roles r p) :
    s.Fits (roles ++ more) r p := by
  cases s with
  | fresh c i => exact ⟨h.1.append, h.2⟩
  | waiting w n => exact Wait.Suits.append h
  | woken w s i => exact ⟨h.1.append, h.2⟩
  | running => trivial
  | ended a => exact h

theorem TaskState.Fits.signalled {s : TaskState} (h : s.Fits roles r p) :
    s.signalled.Fits roles r p := by
  cases s with
  | waiting w n =>
    cases w with
    | removal t o i =>
      refine ⟨h, fun hr => ?_⟩
      subst hr
      exact (show _ ∧ i = false from h).2
    | _ => exact ⟨h, fun _ => rfl⟩
  | _ => exact h

theorem TaskState.Fits.interrupted {s : TaskState} (h : s.Fits roles r p) (hr : r ≠ .walker) :
    s.interrupted.Fits roles r p := by
  cases s with
  | fresh c i => exact ⟨h.1, fun hw => absurd hw hr⟩
  | waiting w n => exact ⟨h, fun hw => absurd hw hr⟩
  | woken w s i => exact ⟨h.1, fun hw => absurd hw hr⟩
  | running => trivial
  | ended a => exact h

/-- Only the walker waits for the removal of a handler. -/
theorem TaskState.Fits.not_handsOn {s : TaskState} (h : s.Fits roles r p) (hr : r ≠ .walker) :
    ¬ s.HandsOn := by
  rcases s with _ | _ | ⟨_ | _ | _ | _ | _ | _ | _ | _ | _ | _, _⟩ | _ | _ <;> intro hs <;>
    first | exact hs | (cases r <;> first | exact hr rfl | exact h)

end roles

/-- All tasks of a machine fit their parts. -/
structure Machine.Fitting (roles : List Role) (m : Machine) : Prop where
  size : roles.length = m.tasks.size
  state : ∀ {t r s p}, roles[t]? = some r → m.state? t = some s → m.pending? t = some p →
    s.Fits roles r p

namespace Machine

variable {roles : List Role} {r : Role} {m n : Machine} {t : TaskId}

theorem exists_pending? {s : TaskState} (h : m.state? t = some s) : ∃ p, m.pending? t = some p := by
  obtain ⟨k, hk, -⟩ := Option.map_eq_some_iff.mp h
  exact ⟨k.pending, by simp [pending?, hk]⟩

namespace Fitting

/-- Whoever has a part is a task. -/
theorem lt (h : Fitting roles m) (hr : roles[t]? = some r) : t < m.tasks.size := by
  obtain ⟨hlt, -⟩ := List.getElem?_eq_some_iff.mp hr
  rwa [h.size] at hlt

theorem not_handsOn (h : Fitting roles m) (ht : roles[t]? = some r) (hr : r ≠ .walker) :
    ∀ s, m.state? t = some s → ¬ s.HandsOn := by
  intro s hs
  obtain ⟨p, hp⟩ := exists_pending? hs
  exact (h.state ht hs hp).not_handsOn hr

/-- Tasks that fitted still do if the state of each has been kept or replaced by a fitting one. -/
theorem of_state (h : Fitting roles m) (hn : n.tasks.size = m.tasks.size)
    (hs : ∀ u r s p, roles[u]? = some r → n.state? u = some s → m.pending? u = some p →
      m.state? u = some s ∨ s.Fits roles r p)
    (hp : ∀ u, n.pending? u = m.pending? u) : Fitting roles n where
  size := h.size.trans hn.symm
  state ht hu hq := by
    rw [hp] at hq
    rcases hs _ _ _ _ ht hu hq with hm | hf
    · exact h.state ht hm hq
    · exact hf

theorem of_tasks (h : Fitting roles m) (hn : n.tasks = m.tasks) : Fitting roles n :=
  h.of_state (by rw [hn]) (fun u r s p _ hu _ => .inl (by simpa [state?, hn] using hu))
    (fun u => by simp [pending?, hn])

theorem signals (h : Fitting roles m) (ts : List TaskId) : Fitting roles (ts.foldl signal m) := by
  refine h.of_state (size_signals ts m) (fun u r s p hr hu hp => ?_)
    (fun _ => pending?_signals ts m)
  rw [state?_signals] at hu
  split at hu
  · obtain ⟨s', hs', rfl⟩ := Option.map_eq_some_iff.mp hu
    exact .inr (h.state hr hs' hp).signalled
  · exact .inl hu

theorem signal (h : Fitting roles m) (t : TaskId) : Fitting roles (m.signal t) :=
  h.signals [t]

theorem endPause (h : Fitting roles m) : Fitting roles m.endPause :=
  signals (m := { m with paused := [] }) (h.of_tasks rfl) m.paused

theorem cancelToken (h : Fitting roles m) (reason : Option String) :
    Fitting roles (m.cancelToken reason) := by
  unfold Machine.cancelToken
  split
  · exact h
  · exact signals (m := { m with token := m.token.cancel reason, watchers := [] }) (h.of_tasks rfl)
      m.watchers

theorem interruptTask (h : Fitting roles m) (ht : roles[t]? = some r) (hr : r ≠ .walker) :
    Fitting roles (m.interruptTask t) := by
  have hn := h.not_handsOn ht hr
  refine h.of_state (size_interruptTask hn) (fun u r' s p hr' hu hp => ?_)
    (fun u => pending?_interruptTask hn)
  rw [state?_interruptTask hn] at hu
  split at hu
  · rename_i htu
    subst htu
    obtain ⟨s', hs', rfl⟩ := Option.map_eq_some_iff.mp hu
    rw [ht] at hr'
    cases hr'
    exact .inr ((h.state ht hs' hp).interrupted hr)
  · exact .inl hu

/-- A task that is replaced by a fitting one. -/
theorem modifyTask (h : Fitting roles m) (t : TaskId) (f : Task → Task)
    (hf : ∀ r k, roles[t]? = some r → m.task? t = some k → (f k).state.Fits roles r (f k).pending) :
    Fitting roles (m.modifyTask t f) where
  size := by simp [h.size]
  state {u r s p} hr hs hp := by
    by_cases htu : t = u
    · subst htu
      obtain ⟨k, hk, rfl⟩ : ∃ k, m.tasks[t]? = some k ∧ (f k).state = s := by
        simpa [state?, Array.getElem?_modify] using hs
      have : (f k).pending = p := by
        simpa [pending?, Array.getElem?_modify, hk] using hp
      rw [← this]
      exact hf r k hr hk
    · refine h.state hr (s := s) (p := p) ?_ ?_
      · simpa [state?, Array.getElem?_modify, htu] using hs
      · simpa [pending?, Array.getElem?_modify, htu] using hp

theorem spawn (h : Fitting roles m) {c : Control} (hc : c.Suits roles r []) :
    Fitting (roles ++ [r]) (m.spawn c []).1 where
  size := by simp [Machine.spawn, h.size]
  state {u r' s p} hr hu hp := by
    rw [state?_spawn] at hu
    rw [pending?_spawn] at hp
    split at hu
    · rename_i hum
      rw [if_pos hum] at hp
      cases hu
      cases hp
      rw [hum, ← h.size, List.getElem?_append_right (Nat.le_refl _)] at hr
      cases (show some r = some r' by simpa using hr)
      exact ⟨hc.append, fun _ => rfl⟩
    · rename_i hum
      rw [if_neg hum] at hp
      have hlt := lt_of_state? hu
      rw [List.getElem?_append_left (h.size ▸ hlt)] at hr
      exact (h.state hr hu hp).append

theorem suspend (h : Fitting roles m) {w : Wait}
    (ht : ∀ r p, roles[t]? = some r → m.pending? t = some p → w.Suits roles r p)
    (on : List TaskId) : Fitting roles (m.suspend t w on).1 := by
  refine h.of_state (size_suspend w on) (fun u r s p hr hu hp => ?_)
    (fun _ => pending?_suspend w on)
  rw [state?_suspend] at hu
  split at hu
  · rename_i htu
    subst htu
    obtain ⟨_, -, rfl⟩ := Option.map_eq_some_iff.mp hu
    exact .inr (ht r p hr hp)
  · exact .inl hu

theorem finish (h : Fitting roles m) (t : TaskId) {a : Answer}
    (ha : roles[t]? = some .handler → a.Concludes []) : Fitting roles (m.finish t a) := by
  have hm : Fitting roles (m.modifyTask t fun _ => { state := .ended a }) :=
    h.modifyTask t _ fun r k hr _ hh => ha (hh ▸ hr)
  exact hm.of_tasks (tasks_finish a)

end Fitting

end Machine

end Workflow
