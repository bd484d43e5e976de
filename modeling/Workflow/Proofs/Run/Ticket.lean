import Workflow.Proofs.Run.Walk
/-!
Tickets: what a task waits for comes about under the ticket of its wait, once, and no other wait has
that ticket. A wait that nothing is told of, such as a pause, only ends when it is signalled.
-/

namespace Workflow.Machine

variable {log : List Effect} {m n : Machine} {t u o : TaskId} {ticket : Nat}

/-- A task has been told, or a timer is to tell it, under a ticket. -/
def Tells (log : List Effect) (m : Machine) (t : TaskId) (ticket : Nat) : Prop :=
  ∃ e ∈ m.effects ++ log, e.tells t ticket = true

/-- A task is to be told of the end of another one under a ticket. -/
def Lists (m : Machine) (o t : TaskId) (ticket : Nat) : Prop :=
  (t, ticket) ∈ (m.observers? o).getD []

/-- What a task waits for has come about, or the task is listed to be told of it. -/
def Awaits (log : List Effect) (m : Machine) (o t : TaskId) (ticket : Nat) : Prop :=
  Tells log m t ticket ∨ Lists m o t ticket ∧ m.hasEnded o = false

structure Ticketed (log : List Effect) (m : Machine) : Prop where
  told : ∀ {t k}, Tells log m t k → k < m.nextTicket
  listed : ∀ {o t k}, Lists m o t k → k < m.nextTicket
  waits : ∀ {t w k}, m.state? t = some (.waiting w k) → k < m.nextTicket
  silent : ∀ {t w k}, m.state? t = some (.waiting w k) → w.awaited = [] → w.isTimed = false →
    ¬ Tells log m t k ∧ ∀ o, ¬ Lists m o t k
  awaits : ∀ {t w k o}, m.state? t = some (.waiting w k) → o ∈ w.awaited → Awaits log m o t k
  timed : ∀ {t w k}, m.state? t = some (.waiting w k) → w.isTimed = true → Tells log m t k

theorem hasEnded_iff : m.hasEnded t = true ↔ ∃ a, m.state? t = some (.ended a) := by
  unfold hasEnded ending?
  cases hs : m.state? t with
  | none => simp
  | some s => cases s <;> simp

theorem hasEnded_congr (h : ∀ a, n.state? t = some (.ended a) ↔ m.state? t = some (.ended a)) :
    n.hasEnded t = m.hasEnded t := by
  rw [Bool.eq_iff_iff, hasEnded_iff, hasEnded_iff]
  exact exists_congr h

theorem Tends.lists_iff (h : Tends m n) : Lists n o t ticket ↔ Lists m o t ticket := by
  unfold Lists
  by_cases ho : o < m.tasks.size
  · rw [h.observers ho]
  · have hb := (h.blank (Nat.le_of_not_lt ho)).2
    have hm : m.tasks[o]? = none := Array.getElem?_eq_none (Nat.le_of_not_lt ho)
    rw [hb]
    simp [observers?, hm]

/-- The state of an old task before others signalled or cancelled it. -/
theorem Tends.old_of_lt (h : Tends m n) {s : TaskState} (ht : t < m.tasks.size)
    (hs : n.state? t = some s) : ∃ s', m.state? t = some s' ∧ s'.Nudges s := by
  obtain ⟨s', hs'⟩ := exists_state? ht
  obtain ⟨s'', hs'', hn⟩ := h.old hs'
  rw [hs] at hs''
  cases hs''
  exact ⟨s', hs', hn⟩

theorem Tends.waiting (h : Tends m n) {w : Wait} (hs : n.state? t = some (.waiting w ticket)) :
    m.state? t = some (.waiting w ticket) := by
  by_cases ht : t < m.tasks.size
  · obtain ⟨s', hs', hn⟩ := h.old_of_lt ht hs
    rw [hs', hn.eq_of_waiting rfl]
  · obtain ⟨c, hc⟩ := h.new (Nat.le_of_not_lt ht) hs
    cases hc.eq_of_waiting rfl

theorem Tends.ended_iff (h : Tends m n) {a : Answer} :
    n.state? t = some (.ended a) ↔ m.state? t = some (.ended a) := by
  constructor
  · intro hs
    by_cases ht : t < m.tasks.size
    · obtain ⟨s', hs', hn⟩ := h.old_of_lt ht hs
      rw [hs', hn.ended_iff.mp rfl]
    · obtain ⟨c, hc⟩ := h.new (Nat.le_of_not_lt ht) hs
      cases hc.ended_iff.mp rfl
  · intro hs
    obtain ⟨s', hs', hn⟩ := h.old hs
    rw [hs', hn.ended_iff.mpr rfl]

theorem Tends.running_iff (h : Tends m n) :
    n.state? t = some .running ↔ m.state? t = some .running := by
  constructor
  · intro hs
    by_cases ht : t < m.tasks.size
    · obtain ⟨s', hs', hn⟩ := h.old_of_lt ht hs
      rw [hs', hn.running_iff.mp rfl]
    · obtain ⟨c, hc⟩ := h.new (Nat.le_of_not_lt ht) hs
      cases hc.running_iff.mp rfl
  · intro hs
    obtain ⟨s', hs', hn⟩ := h.old hs
    rw [hs', hn.running_iff.mpr rfl]

/-- Effects that tell nobody. -/
theorem tells_iff_of_untold (h : Adds (fun e => ∀ t k, e.tells t k = false) m n) :
    Tells log n t ticket ↔ Tells log m t ticket := by
  obtain ⟨d, hd, hp⟩ := h
  unfold Tells
  rw [hd, List.append_assoc]
  constructor
  · rintro ⟨e, he, ht⟩
    rcases List.mem_append.mp he with he | he
    · rw [hp e he] at ht
      cases ht
    · exact ⟨e, he, ht⟩
  · rintro ⟨e, he, ht⟩
    exact ⟨e, List.mem_append_right _ he, ht⟩

namespace Ticketed

/-- Tickets only concern states and who is to be told. -/
theorem congr (h : Ticketed log m) (hs : ∀ u, n.state? u = m.state? u)
    (ho : ∀ u, n.observers? u = m.observers? u) (hn : n.nextTicket = m.nextTicket)
    (he : n.effects = m.effects) : Ticketed log n := by
  have tells {u k} : Tells log n u k ↔ Tells log m u k := by
    unfold Tells
    rw [he]
  have lists {o u k} : Lists n o u k ↔ Lists m o u k := by
    unfold Lists
    rw [ho]
  have ended (o : TaskId) : n.hasEnded o = m.hasEnded o := hasEnded_congr fun a => by rw [hs]
  exact {
    told := fun hk => hn ▸ h.told (tells.mp hk)
    listed := fun hk => hn ▸ h.listed (lists.mp hk)
    waits := fun hu => hn ▸ h.waits (hs _ ▸ hu)
    silent := fun hu hw hi => by
      obtain ⟨htold, hlist⟩ := h.silent (hs _ ▸ hu) hw hi
      exact ⟨fun hk => htold (tells.mp hk), fun o hk => hlist o (lists.mp hk)⟩
    awaits := fun hu ho => (h.awaits (hs _ ▸ hu) ho).imp tells.mpr fun ⟨hk, he⟩ =>
      ⟨lists.mpr hk, by rw [ended]; exact he⟩
    timed := fun hu hi => tells.mpr (h.timed (hs _ ▸ hu) hi) }

/-- Signals, cancellations and new tasks take no tickets. -/
theorem tends (h : Ticketed log m) (ht : Tends m n) (hn : n.nextTicket = m.nextTicket)
    (ha : Adds (fun e => ∀ t k, e.tells t k = false) m n) : Ticketed log n where
  told hk := by
    rw [hn]
    exact h.told ((tells_iff_of_untold ha).mp hk)
  listed hk := by
    rw [hn]
    exact h.listed (ht.lists_iff.mp hk)
  waits hs := by
    rw [hn]
    exact h.waits (ht.waiting hs)
  silent hs hw hi := by
    obtain ⟨htold, hlist⟩ := h.silent (ht.waiting hs) hw hi
    exact ⟨fun hk => htold ((tells_iff_of_untold ha).mp hk), fun o hk => hlist o (ht.lists_iff.mp hk)⟩
  awaits hs ho := by
    rcases h.awaits (ht.waiting hs) ho with hk | ⟨hk, he⟩
    · exact .inl ((tells_iff_of_untold ha).mpr hk)
    · refine .inr ⟨ht.lists_iff.mpr hk, ?_⟩
      rw [hasEnded_congr fun a => ht.ended_iff]
      exact he
  timed hs hi := (tells_iff_of_untold ha).mpr (h.timed (ht.waiting hs) hi)

/-- A task that neither waits nor has ended gets a state in which it does not either. -/
theorem setState (h : Ticketed log m) {s : TaskState} (hs : ∀ a, m.state? t ≠ some (.ended a))
    (hw : ∀ w k, s ≠ .waiting w k) (ha : ∀ a, s ≠ .ended a) : Ticketed log (m.setState t s) := by
  have lists {o u k} : Lists (m.setState t s) o u k ↔ Lists m o u k := by
    unfold Lists
    rw [observers?_setState]
  have waiting {u w k} (hu : (m.setState t s).state? u = some (.waiting w k)) :
      m.state? u = some (.waiting w k) := by
    rw [state?_setState] at hu
    split at hu
    · obtain ⟨_, -, rfl⟩ := Option.map_eq_some_iff.mp hu
      exact absurd rfl (hw w k)
    · exact hu
  have ended (o : TaskId) : (m.setState t s).hasEnded o = m.hasEnded o := by
    refine hasEnded_congr fun a => ?_
    rw [state?_setState]
    split
    · rename_i ho
      subst ho
      constructor
      · intro hu
        obtain ⟨_, -, rfl⟩ := Option.map_eq_some_iff.mp hu
        exact absurd rfl (ha a)
      · exact fun hu => absurd hu (hs a)
    · exact Iff.rfl
  exact {
    told := h.told
    listed := fun hk => h.listed (lists.mp hk)
    waits := fun hu => h.waits (waiting hu)
    silent := fun hu hw hi => by
      obtain ⟨htold, hlist⟩ := h.silent (waiting hu) hw hi
      exact ⟨htold, fun o hk => hlist o (lists.mp hk)⟩
    awaits := fun {u w k o} hu ho => by
      rcases h.awaits (waiting hu) ho with hk | ⟨hk, he⟩
      · exact .inl hk
      · exact .inr ⟨lists.mpr hk, by rw [ended]; exact he⟩
    timed := fun hu hi => h.timed (waiting hu) hi }

end Ticketed

/-! Waiting for the ends of tasks. -/

section enlist

variable {k j : Nat}

theorem hasEnded_enlist : (enlist t k m o).hasEnded u = m.hasEnded u := by
  unfold hasEnded ending?
  rw [state?_enlist]

theorem tells_effect {e : Effect} :
    Tells log (m.effect e) u j ↔ e.tells u j = true ∨ Tells log m u j := by
  unfold Tells
  simp [effect]

theorem tells_enlist :
    Tells log (enlist t k m o) u j ↔ Tells log m u j ∨ m.hasEnded o = true ∧ u = t ∧ j = k := by
  unfold enlist
  split
  · rename_i ho
    rw [tells_effect, or_comm]
    refine or_congr_right ?_
    simp only [Effect.tells, Bool.and_eq_true, beq_iff_eq]
    exact ⟨fun h => ⟨ho, h.1.symm, h.2.symm⟩, fun h => ⟨h.2.1.symm, h.2.2.symm⟩⟩
  · rename_i ho
    exact ⟨.inl, fun h => h.resolve_right fun h => ho h.1⟩

theorem lists_enlist {o' : TaskId} (ho : o < m.tasks.size) :
    Lists (enlist t k m o) o' u j ↔
      Lists m o' u j ∨ m.hasEnded o = false ∧ o' = o ∧ u = t ∧ j = k := by
  unfold enlist
  split
  · rename_i he
    refine ⟨.inl, fun h => h.resolve_right fun h => ?_⟩
    rw [he] at h
    cases h.1
  · rename_i he
    have he : m.hasEnded o = false := Bool.eq_false_iff.mpr he
    unfold Lists
    simp only [observers?, tasks_modifyTask, Array.getElem?_modify]
    by_cases hoo : o = o'
    · subst hoo
      rw [if_pos rfl, Array.getElem?_eq_getElem ho]
      simp [he]
    · rw [if_neg hoo]
      have : o' ≠ o := fun h => hoo h.symm
      simp [this]

theorem size_enlist : (enlist t k m o).tasks.size = m.tasks.size := by
  unfold enlist
  split <;> simp

theorem tells_enlists (on : List TaskId) (m : Machine) (h : Tells log (on.foldl (enlist t k) m) u j) :
    Tells log m u j ∨ on ≠ [] ∧ u = t ∧ j = k := by
  induction on generalizing m with
  | nil => exact .inl h
  | cons o on ih =>
    rcases ih _ h with h | h
    · exact (tells_enlist.mp h).imp_right fun h => ⟨by simp, h.2⟩
    · exact .inr ⟨by simp, h.2⟩

theorem tells_enlists_mono (on : List TaskId) (m : Machine) (h : Tells log m u j) :
    Tells log (on.foldl (enlist t k) m) u j := by
  induction on generalizing m with
  | nil => exact h
  | cons o on ih => exact ih _ (tells_enlist.mpr (.inl h))

theorem lists_enlists {o' : TaskId} (on : List TaskId) (m : Machine)
    (hlt : ∀ o ∈ on, o < m.tasks.size) (h : Lists (on.foldl (enlist t k) m) o' u j) :
    Lists m o' u j ∨ o' ∈ on ∧ u = t ∧ j = k := by
  induction on generalizing m with
  | nil => exact .inl h
  | cons o on ih =>
    have hlt' : ∀ o' ∈ on, o' < (enlist t k m o).tasks.size := fun o' ho => by
      rw [size_enlist]
      exact hlt o' (List.mem_cons_of_mem _ ho)
    rcases ih _ hlt' h with h | h
    · rcases (lists_enlist (hlt o List.mem_cons_self)).mp h with h | ⟨-, rfl, hk⟩
      · exact .inl h
      · exact .inr ⟨List.mem_cons_self, hk⟩
    · exact .inr ⟨List.mem_cons_of_mem _ h.1, h.2⟩

theorem lists_enlists_mono {o' : TaskId} (on : List TaskId) (m : Machine)
    (hlt : ∀ o ∈ on, o < m.tasks.size) (h : Lists m o' u j) :
    Lists (on.foldl (enlist t k) m) o' u j := by
  induction on generalizing m with
  | nil => exact h
  | cons o on ih =>
    refine ih _ (fun o' ho => ?_) ((lists_enlist (hlt o List.mem_cons_self)).mpr (.inl h))
    rw [size_enlist]
    exact hlt o' (List.mem_cons_of_mem _ ho)

theorem hasEnded_enlists (on : List TaskId) (m : Machine) :
    (on.foldl (enlist t k) m).hasEnded u = m.hasEnded u := by
  unfold hasEnded ending?
  rw [state?_enlists]

theorem awaits_enlists (on : List TaskId) (m : Machine) (hlt : ∀ o ∈ on, o < m.tasks.size)
    (ho : o ∈ on) : Awaits log (on.foldl (enlist t k) m) o t k := by
  induction on generalizing m with
  | nil => cases ho
  | cons o' on ih =>
    have hlt' : ∀ o ∈ on, o < (enlist t k m o').tasks.size := fun o ho => by
      rw [size_enlist]
      exact hlt o (List.mem_cons_of_mem _ ho)
    rcases List.mem_cons.mp ho with rfl | ho
    · cases he : m.hasEnded o with
      | true => exact .inl (tells_enlists_mono on _ (tells_enlist.mpr (.inr ⟨he, rfl, rfl⟩)))
      | false =>
        refine .inr ⟨lists_enlists_mono on _ hlt' ?_, ?_⟩
        · exact (lists_enlist (hlt o List.mem_cons_self)).mpr (.inr ⟨he, rfl, rfl, rfl⟩)
        · rw [List.foldl_cons, hasEnded_enlists, hasEnded_enlist]
          exact he
    · exact ih _ hlt' ho

end enlist

/-- What a wait that begins may change: all that is new has the next ticket. -/
structure Begins (log : List Effect) (t : TaskId) (w : Wait) (timed : Bool) (m n : Machine) :
    Prop where
  ticket : n.nextTicket = m.nextTicket + 1
  waiting : ∀ {u v j}, n.state? u = some (.waiting v j) →
    m.state? u = some (.waiting v j) ∨ u = t ∧ v = w ∧ j = m.nextTicket
  ended : ∀ o, n.hasEnded o = m.hasEnded o
  told : ∀ {u j}, Tells log n u j →
    Tells log m u j ∨ (w.awaited ≠ [] ∨ timed = true) ∧ u = t ∧ j = m.nextTicket
  tells : ∀ {u j}, Tells log m u j → Tells log n u j
  listed : ∀ {o u j}, Lists n o u j → Lists m o u j ∨ o ∈ w.awaited ∧ u = t ∧ j = m.nextTicket
  lists : ∀ {o u j}, Lists m o u j → Lists n o u j
  awaits : ∀ o ∈ w.awaited, Awaits log n o t m.nextTicket
  timer : timed = true → Tells log n t m.nextTicket

theorem Begins.ticketed {w : Wait} (h : Ticketed log m) (b : Begins log t w w.isTimed m n) :
    Ticketed log n where
  told hk := by
    rw [b.ticket]
    rcases b.told hk with hk | ⟨-, -, rfl⟩
    · exact Nat.lt_succ_of_lt (h.told hk)
    · exact Nat.lt_succ_self _
  listed hk := by
    rw [b.ticket]
    rcases b.listed hk with hk | ⟨-, -, rfl⟩
    · exact Nat.lt_succ_of_lt (h.listed hk)
    · exact Nat.lt_succ_self _
  waits hs := by
    rw [b.ticket]
    rcases b.waiting hs with hs | ⟨-, -, rfl⟩
    · exact Nat.lt_succ_of_lt (h.waits hs)
    · exact Nat.lt_succ_self _
  silent {u v j} hs hw hi := by
    rcases b.waiting hs with hs | ⟨rfl, rfl, rfl⟩
    · have hne := Nat.ne_of_lt (h.waits hs)
      obtain ⟨htold, hlist⟩ := h.silent hs hw hi
      exact ⟨fun hk => (b.told hk).elim htold fun hk => hne hk.2.2,
        fun o hk => (b.listed hk).elim (hlist o) fun hk => hne hk.2.2⟩
    · refine ⟨fun hk => ?_, fun o hk => ?_⟩
      · rcases b.told hk with hk | ⟨hk | hk, -⟩
        · exact Nat.lt_irrefl _ (h.told hk)
        · exact hk hw
        · rw [hi] at hk
          cases hk
      · rcases b.listed hk with hk | ⟨hk, -⟩
        · exact Nat.lt_irrefl _ (h.listed hk)
        · rw [hw] at hk
          cases hk
  awaits {u v j o} hs ho := by
    rcases b.waiting hs with hs | ⟨rfl, rfl, rfl⟩
    · rcases h.awaits hs ho with hk | ⟨hk, he⟩
      · exact .inl (b.tells hk)
      · exact .inr ⟨b.lists hk, by rw [b.ended]; exact he⟩
    · exact b.awaits o ho
  timed {u v j} hs hi := by
    rcases b.waiting hs with hs | ⟨rfl, rfl, rfl⟩
    · exact b.tells (h.timed hs hi)
    · exact b.timer hi

/-- A wait without a timer. -/
theorem suspend_begins (ht : m.state? t = some .running) {w : Wait}
    (hlt : ∀ o ∈ w.awaited, o < m.tasks.size) :
    Begins log t w false m (m.suspend t w w.awaited).1 := by
  let m' := ({ m with nextTicket := m.nextTicket + 1 } : Machine).setState t (.waiting w m.nextTicket)
  have hlt' : ∀ o ∈ w.awaited, o < m'.tasks.size := by simpa [m'] using hlt
  have same : ({ m with nextTicket := m.nextTicket + 1 } : Machine).state? = m.state? := rfl
  have lists {o u j} : Lists m' o u j ↔ Lists m o u j := by
    unfold Lists
    rw [observers?_setState]
    rfl
  have ended (o : TaskId) : m'.hasEnded o = m.hasEnded o := by
    refine hasEnded_congr fun a => ?_
    rw [state?_setState, same]
    split
    · rename_i ho
      rw [← ho, ht]
      simp
    · exact Iff.rfl
  exact {
    ticket := (Mute.suspend m t w w.awaited).nextTicket
    waiting := fun {u v j} hu => by
      rw [state?_suspend] at hu
      split at hu
      · rename_i ho
        rw [← ho, ht] at hu
        cases hu
        exact .inr ⟨ho.symm, rfl, rfl⟩
      · exact .inl hu
    ended := fun o => (hasEnded_enlists w.awaited m').trans (ended o)
    told := fun hu => (tells_enlists w.awaited m' hu).imp_right fun h => ⟨.inl h.1, h.2⟩
    tells := fun hu => tells_enlists_mono w.awaited m' hu
    listed := fun hu => (lists_enlists w.awaited m' hlt' hu).imp_left lists.mp
    lists := fun hu => lists_enlists_mono w.awaited m' hlt' (lists.mpr hu)
    awaits := fun o ho => awaits_enlists w.awaited m' hlt' ho
    timer := fun hi => by cases hi }

/-- A timer for a wait that has begun. -/
theorem Begins.startTimer {w : Wait} (b : Begins log t w false m n) (after : Seconds) :
    Begins log t w true m (n.effect (.startTimer t m.nextTicket after)) where
  ticket := b.ticket
  waiting := b.waiting
  ended := b.ended
  told hk := by
    rcases tells_effect.mp hk with hk | hk
    · simp only [Effect.tells, Bool.and_eq_true, beq_iff_eq] at hk
      exact .inr ⟨.inr rfl, hk.1.symm, hk.2.symm⟩
    · exact (b.told hk).imp_right fun h => ⟨.inl (h.1.resolve_right (by simp)), h.2⟩
  tells hk := tells_effect.mpr (.inr (b.tells hk))
  listed := b.listed
  lists := b.lists
  awaits o ho := (b.awaits o ho).imp_left fun hk => tells_effect.mpr (.inr hk)
  timer _ := tells_effect.mpr (.inl (by simp [Effect.tells]))

/-- The machine with a task that waits, for no longer than some seconds. -/
def lull (m : Machine) (t : TaskId) (w : Wait) (on : List TaskId) (limit : Option Seconds) : Machine :=
  match limit with
  | some after => (m.suspend t w on).1.effect (.startTimer t m.nextTicket after)
  | none => (m.suspend t w on).1

theorem tasks_lull (w : Wait) (on : List TaskId) (limit : Option Seconds) :
    (m.lull t w on limit).tasks = (m.suspend t w on).1.tasks := by
  cases limit <;> rfl

theorem Mute.lull (m : Machine) (t : TaskId) (w : Wait) (on : List TaskId) (limit : Option Seconds) :
    Mute { m with nextTicket := m.nextTicket + 1 } (m.lull t w on limit) := by
  have hs := Mute.suspend m t w on
  cases limit with
  | none => exact hs
  | some after => exact hs.trans ⟨rfl, .effect _ rfl⟩

theorem state?_lull (w : Wait) (on : List TaskId) (limit : Option Seconds) :
    (m.lull t w on limit).state? u =
      if t = u then (m.state? u).map fun _ => .waiting w m.nextTicket else m.state? u := by
  rw [state?, tasks_lull, ← state?, state?_suspend]

theorem pending?_lull (w : Wait) (on : List TaskId) (limit : Option Seconds) :
    (m.lull t w on limit).pending? u = m.pending? u := by
  rw [pending?, tasks_lull, ← pending?, pending?_suspend]

/-- A task that begins to wait takes the next ticket. -/
theorem Ticketed.lull (h : Ticketed log m) (ht : m.state? t = some .running) {w : Wait}
    (hlt : ∀ o ∈ w.awaited, o < m.tasks.size) {limit : Option Seconds}
    (hl : limit.isSome = w.isTimed) :
    Ticketed log (m.lull t w w.awaited limit) := by
  have hb : Begins log t w false m (m.suspend t w w.awaited).1 := suspend_begins ht hlt
  cases limit with
  | none =>
    have hi : false = w.isTimed := hl
    exact Begins.ticketed h (hi ▸ hb)
  | some after =>
    have hi : true = w.isTimed := hl
    exact Begins.ticketed h (hi ▸ hb.startTimer after)

theorem tells_tells {j : Nat} (os : List (TaskId × Nat)) (m : Machine) :
    Tells log (os.foldl (fun m (o, ticket) => m.effect (.tell o ticket)) m) u j ↔
      (u, j) ∈ os ∨ Tells log m u j := by
  induction os generalizing m with
  | nil => simp
  | cons o os ih =>
    rw [List.foldl_cons, ih, tells_effect, List.mem_cons]
    simp only [Effect.tells, Bool.and_eq_true, beq_iff_eq, Prod.ext_iff]
    constructor
    · rintro (h | h | h)
      · exact .inl (.inr h)
      · exact .inl (.inl ⟨h.1.symm, h.2.symm⟩)
      · exact .inr h
    · rintro ((h | h) | h)
      · exact .inr (.inl ⟨h.1.symm, h.2.symm⟩)
      · exact .inl h
      · exact .inr (.inr h)

theorem tells_finish {a : Answer} {j : Nat} :
    Tells log (m.finish t a) u j ↔ Lists m t u j ∨ Tells log m u j := by
  rw [finish_eq, tells_effect, tells_tells]
  simp only [Effect.tells, Bool.false_eq_true, false_or]
  exact Iff.rfl

theorem lists_finish {a : Answer} {j : Nat} :
    Lists (m.finish t a) o u j ↔ o ≠ t ∧ Lists m o u j := by
  unfold Lists
  simp only [observers?, tasks_finish, Array.getElem?_modify]
  by_cases ho : t = o
  · subst ho
    cases m.tasks[t]? <;> simp
  · have : o ≠ t := fun h => ho h.symm
    simp [ho, this]

/-- A task that ends tells all that are listed to be told. -/
theorem Ticketed.finish (h : Ticketed log m) (a : Answer) : Ticketed log (m.finish t a) := by
  have waiting {u w k} (hu : (m.finish t a).state? u = some (.waiting w k)) :
      m.state? u = some (.waiting w k) := by
    rw [state?_finish] at hu
    split at hu
    · obtain ⟨_, -, hu⟩ := Option.map_eq_some_iff.mp hu
      cases hu
    · exact hu
  have ended {o} (ho : o ≠ t) : (m.finish t a).hasEnded o = m.hasEnded o := by
    refine hasEnded_congr fun b => ?_
    rw [state?_finish, if_neg fun h => ho h.symm]
  have ticket : (m.finish t a).nextTicket = m.nextTicket := (Mute.finish m t a).nextTicket
  exact {
    told := fun hk => by
      rw [ticket]
      exact (tells_finish.mp hk).elim h.listed h.told
    listed := fun hk => by
      rw [ticket]
      exact h.listed (lists_finish.mp hk).2
    waits := fun hu => by
      rw [ticket]
      exact h.waits (waiting hu)
    silent := fun hu hw hi => by
      obtain ⟨htold, hlist⟩ := h.silent (waiting hu) hw hi
      exact ⟨fun hk => (tells_finish.mp hk).elim (hlist t) htold,
        fun o hk => hlist o (lists_finish.mp hk).2⟩
    awaits := fun {u w k o} hu ho => by
      rcases h.awaits (waiting hu) ho with hk | ⟨hk, he⟩
      · exact .inl (tells_finish.mpr (.inr hk))
      · by_cases hot : o = t
        · subst hot
          exact .inl (tells_finish.mpr (.inl hk))
        · exact .inr ⟨lists_finish.mpr ⟨hot, hk⟩, by rw [ended hot]; exact he⟩
    timed := fun hu hi => tells_finish.mpr (.inr (h.timed (waiting hu) hi)) }

end Workflow.Machine
