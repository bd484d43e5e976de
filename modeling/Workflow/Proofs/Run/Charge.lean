import Workflow.Proofs.Run.Onward
/-!
Which tasks a step cancels: those that its own task has waited for, be it a watcher or one that carried
something out for it, and no others.
-/

namespace Workflow

/-- The task that carries something out for one that waits. -/
def Wait.ward? : Wait → Option TaskId
  | .start u _ | .settlement _ u _ | .grace u => some u
  | _ => none

/-- The tasks that may be cancelled after a wait. -/
def Wait.Charges (v : Wait) (u : TaskId) : Prop :=
  v.guard? = some u ∨ v.ward? = some u

namespace Machine

variable {roles : List Role} {r : Role} {m n : Machine} {t u : TaskId} {c : Control} {v : Wait}
  {p : List Pending} {T : TaskId → Prop}

/-- The tasks are as they were, but that some of those in question have been cancelled. -/
def Spares (T : TaskId → Prop) (m n : Machine) : Prop :=
  ∀ u s, m.state? u = some s → n.state? u = some s ∨ T u ∧ n.state? u = some s.interrupted

namespace Spares

theorem of_tasks (h : n.tasks = m.tasks) : Spares T m n :=
  fun _ _ hs => .inl (by rw [state?, h]; exact hs)

theorem interruptTask (h : Spares T m n) (hf : n.Fitting roles) (hr : roles[t]? = some r)
    (hw : r ≠ .walker) (ht : T t) : Spares T m (n.interruptTask t) := by
  intro u s hs
  rw [state?_interruptTask (hf.not_handsOn hr hw)]
  split
  · rename_i htu
    subst htu
    rcases h t s hs with hu | ⟨-, hu⟩
    · exact .inr ⟨ht, by rw [hu]; rfl⟩
    · refine .inr ⟨ht, ?_⟩
      rw [hu]
      cases s <;> rfl
  · exact h u s hs

end Spares

/-- A step that cancels no tasks but those that it may, and what its task waits for afterwards. -/
structure Minds (m : Machine) (c : Control) (x : StepResult) : Prop where
  old : Spares (fun u => ∃ v, c.wait? = some v ∧ v.Charges u) m x.1
  go : ∀ {d q}, x.2 = .go d q → d.wait? = none
  guard : ∀ {v on limit q u}, x.2 = .wait v on limit q → v.guard? = some u →
    m.tasks.size ≤ u ∧ x.1.state? u = some (.fresh .watch false)
  handler : ∀ {a h u on limit q}, x.2 = .wait (.settlement a h u) on limit q →
    ∃ call, m.call? a = some call ∧ x.1.layers = m.layers ∧
      x.1.state? h = some (.fresh (.handle call) false)
  grace : ∀ {h on limit q}, x.2 = .wait (.grace h) on limit q →
    ∃ v u, c.wait? = some v ∧ v.guard? = some u ∧ m.hasEnded u = true
  rousing : ∀ {u i on limit q}, x.2 = .wait (.rousing u i) on limit q → c.wait? = some (.nap u) ∧
    ∀ s, m.state? u = some s → x.1.state? u = some s.interrupted

namespace Minds

theorem of_onward {x : StepResult} (h : Onward m x) : Minds m c x where
  old _ _ hs := .inl (h.old hs)
  go := h.go
  guard := h.guard
  handler := h.handler
  grace hx := absurd trivial (h.first hx)
  rousing hx := absurd trivial (h.first hx)

theorem of_go {d : Control} (h : Spares v.Charges m n) (hd : d.wait? = none) (s i : Bool) :
    Minds m (.wake v s i) (n, .go d p) where
  old u s hs := (h u s hs).imp_right fun ⟨hv, hu⟩ => ⟨⟨v, rfl, hv⟩, hu⟩
  go := by rintro _ _ ⟨⟩; exact hd
  guard := by rintro _ _ _ _ _ ⟨⟩
  handler := by rintro _ _ _ _ _ _ ⟨⟩
  grace := by rintro _ _ _ _ ⟨⟩
  rousing := by rintro _ _ _ _ _ ⟨⟩

/-- The end of a task that is being cancelled is waited for. -/
theorem of_removal (h : Spares v.Charges m n) (s i : Bool) {o : Outcome} {j : Bool} {on : List TaskId}
    {limit : Option Seconds} : Minds m (.wake v s i) (n, .wait (.removal t o j) on limit p) where
  old u s hs := (h u s hs).imp_right fun ⟨hv, hu⟩ => ⟨⟨v, rfl, hv⟩, hu⟩
  go := by rintro _ _ ⟨⟩
  guard := by rintro _ _ _ _ _ ⟨⟩ ⟨⟩
  handler := by rintro _ _ _ _ _ _ ⟨⟩
  grace := by rintro _ _ _ _ ⟨⟩
  rousing := by rintro _ _ _ _ _ ⟨⟩

end Minds

theorem guard_suits (h : v.Suits roles r p) (hu : v.guard? = some u) :
    roles[u]? = some .watcher := by
  cases v with
  | start a b => cases hu; cases r <;> first | exact h.2 | exact absurd h id
  | settlement a b c => cases hu; cases r <;> first | exact h.2 | exact absurd h id
  | nap a => cases hu; cases r <;> first | exact h | exact h.1 | exact absurd h id
  | _ => cases hu

/-- Only the walker lets others carry something out. -/
theorem ward_suits (h : v.Suits roles r p) (hu : v.ward? = some u) :
    r = .walker ∧ (roles[u]? = some .taker ∨ roles[u]? = some .handler) := by
  cases v with
  | start a b => cases hu; cases r <;> first | exact ⟨rfl, .inl h.1⟩ | exact absurd h id
  | settlement a b c => cases hu; cases r <;> first | exact ⟨rfl, .inr h.1⟩ | exact absurd h id
  | grace a => cases hu; cases r <;> first | exact ⟨rfl, .inr h⟩ | exact absurd h id
  | _ => cases hu

/-- Only the walker waits for a handler. -/
theorem settlement_suits {a : Attempt} (h : (Wait.settlement a t u).Suits roles r p) :
    r = .walker ∧ roles[t]? = some .handler := by
  cases r <;> first | exact ⟨rfl, h.1⟩ | exact absurd h id

/-- A task that goes on after a wait cancels none but those that it has waited for. -/
theorem wake_minds (h : m.Fitting roles) (hs : v.Suits roles r p) (env : Surroundings) (self : TaskId)
    (s i : Bool) : Minds m (.wake v s i) (m.wake env self v s i p) := by
  have same {n : Machine} (hn : n.tasks = m.tasks) (a : Answer) :
      Minds m (.wake v s i) (n, .answer a p) := .of_go (.of_tasks hn) rfl s i
  -- A task in question is cancelled, after others if any.
  have cancelled {n : Machine} {u : TaskId} (hn : n.Fitting roles) (hk : Spares v.Charges m n)
      (hu : v.Charges u) :
      (n.interruptTask u).Fitting roles ∧ Spares v.Charges m (n.interruptTask u) := by
    obtain ⟨q, hq, hw⟩ : ∃ q, roles[u]? = some q ∧ q ≠ .walker := by
      rcases hu with hu | hu
      · exact ⟨_, guard_suits hs hu, by decide⟩
      · exact (ward_suits hs hu).2.elim (⟨_, ·, by decide⟩) (⟨_, ·, by decide⟩)
    exact ⟨hn.interruptTask hq hw, hk.interruptTask hn hq hw hu⟩
  have plain (e : Effect) : (m.effect e).Fitting roles ∧ Spares v.Charges m (m.effect e) :=
    ⟨h.of_tasks rfl, .of_tasks rfl⟩
  unfold wake
  cases v with
  | start taker watcher =>
    dsimp only
    split
    · refine .of_go (cancelled ?_ ?_ (.inl rfl)).2 rfl _ _
      · split
        · exact (plain _).1
        · exact (cancelled h (.of_tasks rfl) (.inr rfl)).1
      · split
        · exact (plain _).2
        · exact (cancelled h (.of_tasks rfl) (.inr rfl)).2
    · obtain ⟨hf, hk⟩ := cancelled h (.of_tasks rfl) (.inl rfl)
      split
      · exact .of_go hk rfl _ _
      · exact .of_go (cancelled hf hk (.inr rfl)).2 rfl _ _
  | grant =>
    dsimp only
    split
    · exact same (by split <;> rfl) _
    · exact same (by rfl) _
  | settlement a handler watcher =>
    dsimp only
    obtain ⟨hf, hk⟩ := plain (.stopTimer self)
    have hw : Spares (Wait.settlement a handler watcher).Charges m
        (if (m.dropTimer self).hasEnded watcher then m.dropTimer self
          else (m.dropTimer self).interruptTask watcher) := by
      split
      · exact hk
      · exact (cancelled hf hk (.inl rfl)).2
    unfold wakeFromSettlement removeHandler
    dsimp only
    split
    · exact .of_go hw rfl _ _
    · split
      · exact .of_go hw rfl _ _
      · split
        · rename_i hend
          exact {
            old := fun u s hu => (hk u s hu).imp_right fun ⟨hv, hu⟩ => ⟨⟨_, rfl, hv⟩, hu⟩
            go := by rintro _ _ ⟨⟩
            guard := by rintro _ _ _ _ _ ⟨⟩ ⟨⟩
            handler := by rintro _ _ _ _ _ _ ⟨⟩
            grace := fun _ => ⟨_, watcher, rfl, rfl, hend⟩
            rousing := by rintro _ _ _ _ _ ⟨⟩ }
        · obtain ⟨hf, hk⟩ := cancelled hf hk (.inl rfl)
          exact .of_removal (cancelled hf hk (.inr rfl)).2 _ _
  | grace handler =>
    dsimp only
    obtain ⟨hf, hk⟩ := plain (.stopTimer self)
    split
    · exact .of_go hk rfl _ _
    · split
      · exact .of_go hk rfl _ _
      · exact .of_removal (cancelled hf hk (.inr rfl)).2 _ _
  | nap watcher =>
    dsimp only
    obtain ⟨hf, hk⟩ := plain (.stopTimer self)
    split
    · exact .of_go hk rfl _ _
    · have hn := hf.not_handsOn (guard_suits hs rfl) (by decide)
      have hcut := (cancelled hf hk (.inl rfl)).2
      exact {
        old := fun u s hu => (hcut u s hu).imp_right fun ⟨hv, hu⟩ => ⟨⟨_, rfl, hv⟩, hu⟩
        go := by rintro _ _ ⟨⟩
        guard := by rintro _ _ _ _ _ ⟨⟩ ⟨⟩
        handler := by rintro _ _ _ _ _ _ ⟨⟩
        grace := by rintro _ _ _ _ ⟨⟩
        rousing := by
          rintro _ _ _ _ _ ⟨⟩
          refine ⟨rfl, fun s hs => ?_⟩
          rw [dropTimer, state?_interruptTask hn, if_pos rfl, state?_effect, hs]
          rfl }
  | rousing watcher before =>
    dsimp only
    split
    · exact same (by rfl) _
    · split <;> exact same (by rfl) _
  | removal handler o j => exact same (by rfl) _
  | _ => exact same (by rfl) _

/-- So does the task in the middle of its steps, whatever it does next. -/
theorem Sound.step_minds {log : List Effect} {s : Strand} (h : Sound roles log (some s) m) (w : World)
    (now : Moment) :
    Minds m s.control (m.step (w.surroundings now) s.task s.control s.pending) := by
  obtain ⟨-, r, hr, hsuits, hstands⟩ := h.strand rfl
  by_cases hc : ∃ v a i, s.control = .wake v a i
  · obtain ⟨v, a, i, hc⟩ := hc
    rw [hc] at hsuits ⊢
    exact wake_minds h.fitting hsuits.1 _ _ _ _
  · have hc : s.control.wait? = none := by
      cases hs : s.control with
      | wake v a i => exact absurd ⟨v, a, i, hs⟩ hc
      | _ => rfl
    by_cases hw : r = .walker
    · subst hw
      exact .of_onward ((hstands rfl).onward (h.paused_eq_nil (h.main.mp hr)) hc _ _)
    · exact .of_onward (errand_onward hw hsuits hc w now)

end Machine

end Workflow
