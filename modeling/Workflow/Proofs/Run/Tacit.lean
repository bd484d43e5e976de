import Workflow.Proofs.Run.Steady
/-!
Nobody is told of anything who waits for the end of a pause, whatever the surroundings are.
-/

namespace Workflow.Machine

variable {log : List Effect} {m n : Machine} {t : TaskId}

/-- Only tickets that have been taken are told of, and none of a task that waits for the end of a pause. -/
structure Tacit (log : List Effect) (m : Machine) : Prop where
  told : ∀ {t k}, Tells log m t k → k < m.nextTicket
  listed : ∀ {o t k}, Lists m o t k → k < m.nextTicket
  held : ∀ {t k}, m.state? t = some (.waiting .resumption k) →
    k < m.nextTicket ∧ ¬ Tells log m t k ∧ ∀ o, ¬ Lists m o t k

namespace Tacit

/-- Nobody is told of more, and nobody begins to wait for the end of a pause. -/
theorem of_imp (h : Tacit log m) (hn : n.nextTicket = m.nextTicket)
    (ht : ∀ {u j}, Tells log n u j → Tells log m u j) (hl : ∀ {o u j}, Lists n o u j → Lists m o u j)
    (hs : ∀ {u j}, n.state? u = some (.waiting .resumption j) → m.state? u = some (.waiting .resumption j)) :
    Tacit log n where
  told hk := hn ▸ h.told (ht hk)
  listed hk := hn ▸ h.listed (hl hk)
  held hu := by
    obtain ⟨hk, htold, hlist⟩ := h.held (hs hu)
    exact ⟨hn ▸ hk, fun hk => htold (ht hk), fun o hk => hlist o (hl hk)⟩

theorem discreet (h : Tacit log m) (hd : Discreet m n) : Tacit log n := by
  refine h.of_imp hd.ticket (tells_iff_of_untold hd.untold).mp (fun {o u j} hk => ?_) fun {u j} hu => ?_
  · unfold Lists at hk ⊢
    by_cases ho : o < m.tasks.size
    · rwa [hd.observers ho] at hk
    · rw [(hd.blank (Nat.le_of_not_lt ho)).2] at hk
      cases hk
  · by_cases hlt : u < m.tasks.size
    · obtain ⟨s, hs⟩ := exists_state? hlt
      obtain ⟨s', hs', hk⟩ := hd.old hs
      rw [hu] at hs'
      cases hs'
      rw [hs, hk.eq_of_resumption rfl]
    · obtain ⟨c, hc⟩ := hd.new (Nat.le_of_not_lt hlt) hu
      cases hc.eq_of_resumption rfl

theorem congr (h : Tacit log m) (hn : n.nextTicket = m.nextTicket) (hr : n.tasks = m.tasks)
    (he : n.effects = m.effects) : Tacit log n := by
  refine h.of_imp hn (fun hk => ?_) (fun hk => ?_) fun hu => ?_
  · rwa [Tells, he] at hk
  · rwa [Lists, observers?, hr] at hk
  · rwa [state?, hr] at hu

/-- The effects there have been are put into the log. -/
theorem put (h : Tacit log m) : Tacit (m.effects ++ log) { m with effects := [] } :=
  ⟨h.told, h.listed, h.held⟩

/-- What a task does next is set anew. -/
theorem setState (h : Tacit log m) {s : TaskState} (hs : ∀ k, s ≠ .waiting .resumption k) :
    Tacit log (m.setState t s) := by
  refine h.of_imp rfl id (fun hk => ?_) fun {u j} hu => ?_
  · rwa [Lists, observers?_setState] at hk
  · rw [state?_setState] at hu
    split at hu
    · obtain ⟨-, -, hu⟩ := Option.map_eq_some_iff.mp hu
      exact absurd hu (hs j)
    · exact hu

theorem finish (h : Tacit log m) (a : Answer) : Tacit log (m.finish t a) := by
  have hn : (m.finish t a).nextTicket = m.nextTicket := (Mute.finish m t a).nextTicket
  have waiting {u k} (hu : (m.finish t a).state? u = some (.waiting .resumption k)) :
      m.state? u = some (.waiting .resumption k) := by
    rw [state?_finish] at hu
    split at hu
    · obtain ⟨_, -, hu⟩ := Option.map_eq_some_iff.mp hu
      cases hu
    · exact hu
  exact {
    told := fun hk => hn ▸ (tells_finish.mp hk).elim h.listed h.told
    listed := fun hk => hn ▸ h.listed (lists_finish.mp hk).2
    held := fun hu => by
      obtain ⟨hk, htold, hlist⟩ := h.held (waiting hu)
      exact ⟨hn ▸ hk, fun hk => (tells_finish.mp hk).elim (hlist t) htold,
        fun o hk => hlist o (lists_finish.mp hk).2⟩ }

theorem spawn (h : Tacit log m) (c : Control) : Tacit log (m.spawn c []).1 := by
  have ht := Tends.spawn m c
  refine h.of_imp rfl (fun hk => ?_) ht.lists_iff.mp ht.waiting
  exact (tells_effect.mp hk).resolve_left (by simp [Effect.tells])

end Tacit

theorem lists_enlists_imp {o u : TaskId} {k j : Nat} (on : List TaskId) (m : Machine)
    (h : Lists (on.foldl (enlist t k) m) o u j) : Lists m o u j ∨ on ≠ [] ∧ u = t ∧ j = k := by
  induction on generalizing m with
  | nil => exact .inl h
  | cons o' on ih =>
    obtain h | ⟨-, h⟩ := ih _ h
    · by_cases ho : o' < m.tasks.size
      · exact ((lists_enlist ho).mp h).imp_right fun h => ⟨by simp, h.2.2⟩
      · refine .inl ?_
        have hnone : m.tasks[o']? = none := Array.getElem?_eq_none (Nat.le_of_not_lt ho)
        unfold enlist at h
        split at h
        · exact h
        · unfold Lists at h ⊢
          simp only [observers?, tasks_modifyTask, Array.getElem?_modify] at h ⊢
          split at h
          · rename_i hoo
            subst hoo
            simp [hnone] at h
          · exact h
    · exact .inr ⟨by simp, h⟩

/-- What a task asks to be told of when it waits has a ticket of its own. -/
theorem Tacit.lull (h : Tacit log m) {w : Wait} {on : List TaskId} {limit : Option Seconds}
    (ht : m.state? t = some .running) (hw : w = .resumption → on = [] ∧ limit = none) :
    Tacit log (m.lull t w on limit) := by
  have hn : (m.lull t w on limit).nextTicket = m.nextTicket + 1 := (Mute.lull m t w on limit).nextTicket
  have enlisted {u j} (hk : Tells log (m.suspend t w on).1 u j) :
      Tells log m u j ∨ (on ≠ [] ∨ limit ≠ none) ∧ u = t ∧ j = m.nextTicket :=
    (tells_enlists on _ hk).imp_right fun hk => ⟨.inl hk.1, hk.2⟩
  have told {u j} (hk : Tells log (m.lull t w on limit) u j) :
      Tells log m u j ∨ (on ≠ [] ∨ limit ≠ none) ∧ u = t ∧ j = m.nextTicket := by
    cases limit with
    | none => exact enlisted hk
    | some after =>
      obtain hk | hk := tells_effect.mp hk
      · simp only [Effect.tells, Bool.and_eq_true, beq_iff_eq] at hk
        exact .inr ⟨.inr (by simp), hk.1.symm, hk.2.symm⟩
      · exact enlisted hk
  have listed {o u j} (hk : Lists (m.lull t w on limit) o u j) :
      Lists m o u j ∨ on ≠ [] ∧ u = t ∧ j = m.nextTicket := by
    unfold Lists at hk
    rw [observers?, tasks_lull] at hk
    refine (lists_enlists_imp on _ hk).imp_left fun hk => ?_
    rwa [Lists, observers?_setState] at hk
  refine ⟨fun hk => ?_, fun hk => ?_, fun {u j} hu => ?_⟩
  · rw [hn]
    obtain hk | ⟨-, -, rfl⟩ := told hk
    · exact Nat.lt_succ_of_lt (h.told hk)
    · exact Nat.lt_succ_self _
  · rw [hn]
    obtain hk | ⟨-, -, rfl⟩ := listed hk
    · exact Nat.lt_succ_of_lt (h.listed hk)
    · exact Nat.lt_succ_self _
  · rw [state?_lull] at hu
    split at hu
    · rename_i htu
      subst htu
      rw [ht] at hu
      cases hu
      obtain ⟨hon, hlimit⟩ := hw rfl
      refine ⟨hn ▸ Nat.lt_succ_self _, fun hk => ?_, fun o hk => ?_⟩
      · obtain hk | ⟨hk, -⟩ := told hk
        · exact Nat.lt_irrefl _ (h.told hk)
        · exact hk.elim (absurd hon) (absurd hlimit)
      · obtain hk | ⟨hk, -⟩ := listed hk
        · exact Nat.lt_irrefl _ (h.listed hk)
        · exact hk hon
    · obtain ⟨hj, htold, hlist⟩ := h.held hu
      refine ⟨hn ▸ Nat.lt_succ_of_lt hj, fun hk => ?_, fun o hk => ?_⟩
      · obtain hk | ⟨-, -, rfl⟩ := told hk
        · exact htold hk
        · exact Nat.lt_irrefl _ hj
      · obtain hk | ⟨-, -, rfl⟩ := listed hk
        · exact hlist o hk
        · exact Nat.lt_irrefl _ hj

theorem Tacit.turn (h : Tacit log m) {y : Turn} (ht : m.state? t = some .running)
    (hy : ∀ {on limit q}, y = .wait .resumption on limit q → on = [] ∧ limit = none) :
    Tacit log (m.turn t y).1 := by
  have put (q : List Pending) : Tacit log (m.putPending t q) := by
    refine h.of_imp rfl id (fun hk => ?_) fun hu => ?_
    · rwa [Lists, observers?_putPending] at hk
    · rwa [state?_putPending] at hu
  cases y with
  | go c q => exact h
  | wait w on limit q =>
    have he : (m.turn t (.wait w on limit q)).1 = (m.putPending t q).lull t w on limit := by
      cases limit <;> rfl
    rw [he]
    refine (put q).lull (by rw [state?_putPending]; exact ht) ?_
    rintro rfl
    exact hy rfl
  | pass q =>
    have he : (m.turn t (.pass q)).1 =
        ((m.putPending t q).setState t (.woken .sleep true false)).effect (.ready t) :=
      congrArg (·.effect (.ready t)) (modifyTask_eq m t q _)
    rw [he]
    refine ((put q).setState (by simp)).of_imp rfl (fun hk => ?_) id id
    exact (tells_effect.mp hk).resolve_left (by simp [Effect.tells])
  | stop a => exact h.finish a

end Workflow.Machine
