import Workflow.Proofs.Run.Recall
import Workflow.Proofs.Run.Transit
/-!
Where tasks stand with regard to pauses. A task goes on to a node only after it has come to it, and if it paused
there, only after the pause has been ended.
-/

namespace Workflow

/-- A task has come to a node and has not gone on to it yet, as it may: it did not pause, or the pause has been
ended. If the task does not execute the run, the end of the run ends its pause as well. -/
def IsCleared (past : List Sign) (main : Option TaskId) (t : TaskId) (walk : Walk) (node : Node) : Prop :=
  ∃ later reason earlier, past = later ++ .came t walk node reason :: earlier ∧ (∀ s ∈ later, s.task? ≠ some t) ∧
    (reason.isSome = true → (∃ b, .released b ∈ later) ∨ main ≠ some t ∧ .ended ∈ later)

/-- A task has gone on to a node, and it could do so. -/
def IsEntered (past : List Sign) (main : Option TaskId) (t : TaskId) (walk : Walk) (node : Node) : Prop :=
  ∃ later earlier, past = later ++ .went t walk node :: earlier ∧ (∀ s ∈ later, s.task? ≠ some t) ∧
    IsCleared earlier main t walk node

/-- A task has come to a node, where it paused, and has not gone on to it yet. -/
def IsHeldAt (past : List Sign) (t : TaskId) (walk : Walk) (node : Node) : Prop :=
  ∃ reason, Since (·.task? = some t) (.came t walk node (some reason)) past

section clearance

variable {past : List Sign} {main : Option TaskId} {t : TaskId} {walk : Walk} {node : Node} {s : Sign}

theorem IsCleared.cons (h : IsCleared past main t walk node) (hs : s.task? ≠ some t) :
    IsCleared (s :: past) main t walk node := by
  obtain ⟨later, reason, earlier, rfl, hl, hr⟩ := h
  refine ⟨s :: later, reason, earlier, rfl, List.forall_mem_cons.mpr ⟨hs, hl⟩, fun h => ?_⟩
  exact (hr h).imp (fun ⟨b, hb⟩ => ⟨b, List.mem_cons_of_mem _ hb⟩) fun ⟨hm, he⟩ => ⟨hm, List.mem_cons_of_mem _ he⟩

theorem IsCleared.of_main {main' : Option TaskId} (h : IsCleared past main t walk node)
    (hm : main ≠ some t → main' ≠ some t) : IsCleared past main' t walk node := by
  obtain ⟨later, reason, earlier, he, hl, hr⟩ := h
  exact ⟨later, reason, earlier, he, hl, fun h => (hr h).imp_right (.imp_left hm)⟩

theorem IsCleared.append (h : IsCleared past main t walk node) {s : Option Sign} (hs : ∀ a ∈ s, a.task? ≠ some t) :
    IsCleared (s.toList ++ past) main t walk node := by
  cases s with
  | none => exact h
  | some a => exact h.cons (hs a rfl)

theorem IsEntered.of_main {main' : Option TaskId} (h : IsEntered past main t walk node)
    (hm : main ≠ some t → main' ≠ some t) : IsEntered past main' t walk node := by
  obtain ⟨later, earlier, he, hl, hc⟩ := h
  exact ⟨later, earlier, he, hl, hc.of_main hm⟩

theorem IsEntered.append (h : IsEntered past main t walk node) {s : Option Sign} (hs : ∀ a ∈ s, a.task? ≠ some t) :
    IsEntered (s.toList ++ past) main t walk node := by
  cases s with
  | none => exact h
  | some a =>
    obtain ⟨later, earlier, rfl, hl, hc⟩ := h
    exact ⟨a :: later, earlier, rfl, List.forall_mem_cons.mpr ⟨hs a rfl, hl⟩, hc⟩

theorem IsCleared.enters (h : IsCleared past main t walk node) :
    IsEntered (.went t walk node :: past) main t walk node :=
  ⟨[], past, rfl, by simp, h⟩

theorem IsHeldAt.cons (h : IsHeldAt past t walk node) (hs : s.task? ≠ some t) : IsHeldAt (s :: past) t walk node := by
  obtain ⟨reason, h⟩ := h
  exact ⟨reason, since_cons.mpr (.inr ⟨hs, h⟩)⟩

theorem IsHeldAt.released {b : Bool} (h : IsHeldAt (.released b :: past) t walk node) :
    IsCleared (.released b :: past) main t walk node := by
  obtain ⟨reason, h⟩ := h
  obtain he | ⟨-, later, earlier, rfl, hl⟩ := since_cons.mp h
  · cases he
  · exact ⟨.released b :: later, some reason, earlier, rfl, List.forall_mem_cons.mpr ⟨by simp [Sign.task?], hl⟩,
      fun _ => .inl ⟨b, List.mem_cons_self⟩⟩

theorem IsHeldAt.ended (h : IsHeldAt (.ended :: past) t walk node) (hm : main ≠ some t) :
    IsCleared (.ended :: past) main t walk node := by
  obtain ⟨reason, h⟩ := h
  obtain he | ⟨-, later, earlier, rfl, hl⟩ := since_cons.mp h
  · cases he
  · exact ⟨.ended :: later, some reason, earlier, rfl, List.forall_mem_cons.mpr ⟨by simp [Sign.task?], hl⟩,
      fun _ => .inr ⟨hm, List.mem_cons_self⟩⟩

theorem isCleared_came (past : List Sign) (main : Option TaskId) (t : TaskId) (walk : Walk) (node : Node) :
    IsCleared (.came t walk node none :: past) main t walk node :=
  ⟨[], none, past, rfl, by simp, by simp⟩

theorem isHeldAt_came (past : List Sign) (t : TaskId) (walk : Walk) (node : Node) (reason : String) :
    IsHeldAt (.came t walk node (some reason) :: past) t walk node :=
  ⟨reason, since_cons.mpr (.inl rfl)⟩

end clearance

/-- Where a task stands with regard to pauses, unless the run has been cancelled: it goes on to a node only if it has
been cleared for that. -/
inductive Poises (past : List Sign) (m : Machine) (t : TaskId) : Control → List Pending → Prop
  | aside {c : Control} {p : List Pending} (hc : c.IsAside) (hp : ∀ k ∈ p, k.IsAside) : Poises past m t c p
  | going {walk : Walk} {node : Node} {p : List Pending} (hp : ∀ k ∈ p, k.IsAside)
      (hf : m.token.cancelled = false → IsCleared past m.main t walk node) :
      Poises past m t (.dispatch walk node) p
  | held {walk : Walk} {node : Node} {p : List Pending} (s i : Bool) (hp : ∀ k ∈ p, k.IsAside)
      (hh : IsHeldAt past t walk node)
      (hf : s = true → m.token.cancelled = false → IsCleared past m.main t walk node) :
      Poises past m t (.wake .resumption s i) (.checkpoint walk node :: p)
  | told {walk : Walk} {node : Node} {p : List Pending} (a : Answer) (hp : ∀ k ∈ p, k.IsAside)
      (hf : a = .done → m.token.cancelled = false → IsCleared past m.main t walk node) :
      Poises past m t (.answer a) (.checkpoint walk node :: p)
  | starting {walk : Walk} {a : Attempt} {p : List Pending} (hn : a.number = 1) (hw : a.place = walk.place)
      (hp : ∀ k ∈ p, k.IsAside) (he : IsEntered past m.main t walk a.node) : Poises past m t (.try a) p

/-- Where a task stands that executes the run or does not. -/
structure Poised (past : List Sign) (m : Machine) (t : TaskId) (c : Control) (p : List Pending) : Prop where
  poises : Poises past m t c p
  inner : m.main ≠ some t → c.IsInner ∧ ∀ k ∈ p, k.IsInner

namespace Control

variable {c d : Control}

theorem IsAside.aim (h : c.IsAside) (hd : d.aim = c.aim) : d.IsAside := by
  cases c with
  | wake w s i =>
    cases d with
    | wake w' s' i' => cases w <;> cases w' <;> first | trivial | cases hd
    | _ => cases w <;> cases hd
  | _ => exact eq_of_aim hd (by simp) ▸ h

theorem IsInner.aim (h : c.IsInner) (hd : d.aim = c.aim) : d.IsInner := by
  cases c with
  | wake w s i =>
    cases d with
    | wake w' s' i' => cases w <;> cases w' <;> first | trivial | cases hd
    | _ => cases w <;> cases hd
  | _ => exact eq_of_aim hd (by simp) ▸ h

theorem eq_resumption {s i : Bool} (h : d.aim = (wake .resumption s i).aim) : ∃ s' i', d = wake .resumption s' i' := by
  cases d with
  | wake w' s' i' => cases w' <;> first | exact ⟨s', i', rfl⟩ | cases h
  | _ => cases h

theorem IsErrand.isAside (h : c.IsErrand) : c.IsAside := by
  cases c <;> trivial

theorem IsErrand.isInner (h : c.IsErrand) : c.IsInner := by
  cases c <;> trivial

end Control

namespace Poised

variable {past : List Sign} {m n : Machine} {t : TaskId} {c d : Control} {p : List Pending}

/-- What others do leaves it alone where a task stands. -/
theorem mono (h : Poised past m t c p) (hm : n.main = some t ↔ m.main = some t)
    (hl : n.token.cancelled = false → m.token.cancelled = false) {s : Option Sign}
    (hs : ∀ a ∈ s, a.task? ≠ some t) : Poised (s.toList ++ past) n t c p := by
  have cleared {walk : Walk} {node : Node} (hc : IsCleared past m.main t walk node) :
      IsCleared (s.toList ++ past) n.main t walk node :=
    (hc.of_main (mt hm.mp)).append hs
  refine ⟨?_, fun hn => h.inner (mt hm.mpr hn)⟩
  cases h.poises with
  | aside hc hp => exact .aside hc hp
  | going hp hf => exact .going hp fun hc => cleared (hf (hl hc))
  | held a i hp hh hf =>
    refine .held a i hp ?_ fun ha hc => cleared (hf ha (hl hc))
    cases s with
    | none => exact hh
    | some b => exact hh.cons (hs b rfl)
  | told a hp hf => exact .told a hp fun ha hc => cleared (hf ha (hl hc))
  | starting hn hw hp he => exact .starting hn hw hp ((he.of_main (mt hm.mp)).append hs)

theorem congr (h : Poised past m t c p) (hm : n.main = m.main) (ht : n.token = m.token) : Poised past n t c p :=
  h.mono (by rw [hm]) (by rw [ht]; exact id) (s := none) nofun

/-- A wait may be over, and the end of a pause only if the task has been cleared. -/
theorem aim (h : Poised past m t c p) (hd : d.aim = c.aim)
    (hf : ∀ i, d = .wake .resumption true i → (∃ j, c = .wake .resumption true j) ∨
      (m.token.cancelled = false → ∀ walk node, IsHeldAt past t walk node → IsCleared past m.main t walk node)) :
    Poised past m t d p := by
  refine ⟨?_, fun hn => ⟨(h.inner hn).1.aim hd, (h.inner hn).2⟩⟩
  cases h.poises with
  | aside hc hp => exact .aside (hc.aim hd) hp
  | going hp hg => exact Control.eq_of_aim hd (by simp) ▸ .going hp hg
  | told a hp hg => exact Control.eq_answer hd ▸ .told a hp hg
  | starting hn hw hp he => exact Control.eq_of_aim hd (by simp) ▸ .starting hn hw hp he
  | held s i hp hh hg =>
    obtain ⟨s', i', rfl⟩ := Control.eq_resumption hd
    refine .held s' i' hp hh ?_
    rintro rfl hl
    obtain ⟨j, hj⟩ | hf := hf i' rfl
    · cases hj
      exact hg rfl hl
    · exact hf hl _ _ hh

theorem errand (hc : c.IsErrand) : Poised past m t c [] :=
  ⟨.aside hc.isAside (by simp), fun _ => ⟨hc.isInner, by simp⟩⟩

end Poised

namespace TaskState.Shifts

variable {s s' : TaskState}

theorem of_fresh {c : Control} {i : Bool} (h : s.Shifts s') (hs : s = .fresh c i) :
    ∃ j, s' = .fresh c j ∧ (i = true → j = true) := by
  induction h with
  | refl => exact ⟨i, hs, id⟩
  | signal _ ih =>
    obtain ⟨j, rfl, hj⟩ := ih
    exact ⟨j, rfl, hj⟩
  | interrupt _ ih =>
    obtain ⟨j, rfl, -⟩ := ih
    exact ⟨true, rfl, fun _ => rfl⟩
  | handOn _ ih =>
    obtain ⟨j, hj, -⟩ := ih
    cases hj

/-- What has been woken has been signalled or cancelled. -/
theorem roused (h : s.Shifts s') (hs : ∀ w a i, s = .woken w a i → a = true ∨ i = true) {w : Wait} {a i : Bool}
    (he : s' = .woken w a i) : a = true ∨ i = true := by
  induction h generalizing a i w with
  | refl => exact hs w a i he
  | @signal s' _ ih =>
    rcases s' with _ | _ | ⟨_ | _ | _ | _ | _ | _ | _ | _ | _ | _, _⟩ | _ | _ <;> cases he <;>
      first | exact .inl rfl | exact ih rfl
  | @interrupt s' _ ih => cases s' <;> cases he <;> exact .inr rfl
  | handOn => cases he

end TaskState.Shifts

namespace Machine

variable {past : List Sign} {m n : Machine} {env : Surroundings} {t u : TaskId} {c d : Control}
  {p q : List Pending} {x : StepResult}

/-- Where a task stands after what others did: it is new, or it stands where it stood but for how a wait is over. -/
theorem Discreet.post (h : Discreet m n) (hp : n.post t = some (.doing d q)) :
    d.IsErrand ∧ q = [] ∨ ∃ c, m.post t = some (.doing c q) ∧ d.aim = c.aim ∧
      ∀ i, d = .wake .resumption true i → (∃ j, c = .wake .resumption true j) ∨
        (∃ k, m.state? t = some (.waiting .resumption k)) ∧ n.state? t = some (.woken .resumption true i) := by
  obtain ⟨s', hs', hp⟩ := Option.bind_eq_some_iff.mp hp
  by_cases ht : t < m.tasks.size
  · obtain ⟨s, hs⟩ := exists_state? ht
    obtain ⟨s'', hs'', hk⟩ := h.old hs
    rw [hs'] at hs''
    cases hs''
    rw [h.pending ht] at hp
    refine .inr ?_
    have hpost := post_of_state? (m := m) hs
    cases s with
    | fresh e i =>
      obtain ⟨j, rfl, hj⟩ := hk.of_fresh rfl
      cases j with
      | true => cases hp
      | false =>
        cases i with
        | true => cases hj rfl
        | false =>
          cases hp
          exact ⟨d, hpost, rfl, fun i hd => .inl ⟨i, hd⟩⟩
    | running => cases hk.running_iff.mpr rfl; cases hp
    | ended a => cases hk.ended_iff.mpr rfl; cases hp
    | woken w a i =>
      obtain ⟨j, rfl, -⟩ := hk.of_woken rfl
      cases hp
      refine ⟨_, hpost, by cases w <;> rfl, ?_⟩
      rintro i' ⟨⟩
      exact .inl ⟨_, rfl⟩
    | waiting w k =>
      have ha := hk.aim?
      cases s' with
      | waiting w' k' =>
        cases hp
        exact ⟨_, hpost, Option.some.inj ha, fun i hd => by cases hd⟩
      | woken w' a i =>
        cases hp
        refine ⟨_, hpost, Option.some.inj ha, ?_⟩
        rintro i' ⟨⟩
        obtain ⟨s, j, hw⟩ := Control.eq_resumption (Option.some.inj ha.symm)
        cases hw
        exact .inr ⟨⟨k, hs⟩, hs'⟩
      | _ => cases ha
  · have hle := Nat.le_of_not_lt ht
    obtain ⟨c, hc⟩ := h.new hle hs'
    obtain ⟨j, rfl, -⟩ := hc.of_fresh rfl
    rw [(h.blank hle).1] at hp
    cases j with
    | true => cases hp
    | false =>
      cases hp
      exact .inl ⟨h.made hle hs', rfl⟩

/-- Whatever has been woken has been signalled or cancelled, and no task begins in a pause. -/
structure IsRoused (m : Machine) : Prop where
  woken : ∀ {t w s i}, m.state? t = some (.woken w s i) → s = true ∨ i = true
  fresh : ∀ {t c j}, m.state? t = some (.fresh c j) → ∀ s i, c ≠ .wake .resumption s i

theorem Discreet.isRoused (h : Discreet m n) (hm : m.IsRoused) : n.IsRoused := by
  refine ⟨fun {t w s i} ht => ?_, fun {t c j} ht => ?_⟩
  · by_cases hlt : t < m.tasks.size
    · obtain ⟨s₀, hs₀⟩ := exists_state? hlt
      obtain ⟨s', hs', hk⟩ := h.old hs₀
      rw [ht] at hs'
      cases hs'
      refine hk.roused (fun w s i he => ?_) rfl
      subst he
      exact hm.woken hs₀
    · obtain ⟨c, hc⟩ := h.new (Nat.le_of_not_lt hlt) ht
      obtain ⟨j, hj, -⟩ := hc.of_fresh rfl
      cases hj
  · by_cases hlt : t < m.tasks.size
    · obtain ⟨s₀, hs₀⟩ := exists_state? hlt
      obtain ⟨s', hs', hk⟩ := h.old hs₀
      rw [ht] at hs'
      cases hs'
      obtain ⟨i, rfl⟩ := hk.fresh
      exact hm.fresh hs₀
    · have hc := h.made (Nat.le_of_not_lt hlt) ht
      rintro s i rfl
      exact hc rfl

theorem IsRoused.of_state? (h : m.IsRoused) (hs : ∀ {u s}, n.state? u = some s → m.state? u = some s ∨
    (∀ w a i, s = .woken w a i → a = true ∨ i = true) ∧
      ∀ c j, s = .fresh c j → ∀ a i, c ≠ .wake .resumption a i) : n.IsRoused where
  woken hu := (hs hu).elim h.woken fun hn => hn.1 _ _ _ rfl
  fresh hu := (hs hu).elim h.fresh fun hn => hn.2 _ _ rfl

/-- What one task does next is set anew. -/
theorem IsRoused.set (h : m.IsRoused) {s : TaskState}
    (hn : ∀ u, n.state? u = if t = u then (m.state? u).map fun _ => s else m.state? u)
    (hs : ∀ w a i, s = .woken w a i → a = true ∨ i = true) (hf : ∀ c j, s ≠ .fresh c j) : n.IsRoused := by
  refine h.of_state? fun {u s'} hu => ?_
  rw [hn] at hu
  split at hu
  · obtain ⟨-, -, rfl⟩ := Option.map_eq_some_iff.mp hu
    exact .inr ⟨hs, fun c j he => absurd he (hf c j)⟩
  · exact .inl hu

theorem IsRoused.turn (h : m.IsRoused) (t : TaskId) (x : Turn) : (m.turn t x).1.IsRoused := by
  cases x with
  | go c q => exact h
  | wait w on limit q =>
    have he : (m.turn t (.wait w on limit q)).1 = (m.putPending t q).lull t w on limit := by
      cases limit <;> rfl
    rw [he]
    refine h.set (t := t) (s := .waiting w m.nextTicket) (fun u => ?_) (by simp) (by simp)
    rw [state?_lull, state?_putPending]
    rfl
  | pass q =>
    have he : (m.turn t (.pass q)).1 =
        ((m.putPending t q).setState t (.woken .sleep true false)).effect (.ready t) :=
      congrArg (·.effect (.ready t)) (modifyTask_eq m t q _)
    rw [he]
    refine h.set (t := t) (s := .woken .sleep true false) (fun u => ?_) (by rintro w a i ⟨⟩; exact .inl rfl) (by simp)
    rw [state?_effect, state?_setState, state?_putPending]
  | stop a => exact h.set (fun _ => state?_finish a) (by simp) (by simp)

/-- What others do to a task, of some that are not concerned by the sign. -/
theorem Discreet.poised (h : Discreet m n) {A : TaskId → Prop}
    (hm : ∀ t, A t → ∀ c q, m.post t = some (.doing c q) → Poised past m t c q) {s : Option Sign}
    (hs : ∀ t, A t → ∀ a ∈ s, a.task? ≠ some t)
    (hf : Holds m n ∨ (∃ b, s = some (.released b)) ∨ s = some .ended ∧ ∀ t, A t → m.main ≠ some t) (ht : A t)
    (hp : n.post t = some (.doing d q)) : Poised (s.toList ++ past) n t d q := by
  have hlive : n.token.cancelled = false → m.token.cancelled = false := fun hl => by
    cases hc : m.token.cancelled with
    | false => rfl
    | true => rw [h.token hc] at hl; cases hl
  obtain ⟨he, rfl⟩ | ⟨c, hc, hd, hw⟩ := h.post hp
  · exact .errand he
  · refine ((hm t ht c q hc).mono (by rw [h.main]) hlive (hs t ht)).aim hd fun i hi => ?_
    refine (hw i hi).imp_right fun ⟨⟨k, hk⟩, hn⟩ hl walk node hh => ?_
    obtain hf | ⟨b, rfl⟩ | ⟨rfl, hmain⟩ := hf
    · obtain hn' | hn' := hf hk hl <;> rw [hn] at hn' <;> cases hn'
    · exact hh.released
    · exact hh.ended (h.main ▸ hmain t ht)

theorem Strides.discreet (h : Strides m env c p x) : Discreet m x.1 := by
  cases h with
  | goesOn _ h => exact h.toDiscreet
  | goes h => exact h.steady.toDiscreet
  | tries h => exact h.after_started.toDiscreet
  | comes _ _ h => exact h.discreet
  | begins h | ends h => exact h
  | _ => exact .refl m

/-- Whoever waits for the end of a pause goes on waiting, unless the run ends by the task that executes it. -/
theorem Strides.holds (h : Strides m env c p x) (hi : m.main ≠ some t → ∀ k ∈ p, k.IsInner)
    {reason : Option String} {b : Bool}
    (hb : m.run.status.isTerminal = false → x.1.run.status.isTerminal = true → b = true) :
    Holds m x.1 ∨ c.sign? m env t reason b = some .ended ∧ m.main = some t := by
  cases h with
  | goesOn _ h => exact .inl h.held
  | goes h => exact .inl h.steady.held
  | tries h => exact .inl h.after_started.held
  | comes _ _ h => exact .inl h.held
  | begins _ hh => exact .inl hh
  | ends _ hh =>
    refine hh.imp_right fun ⟨hs, hn⟩ => ⟨?_, ?_⟩
    · rw [Control.sign?_other (by simp) (by simp), hb hs hn]
      rfl
    · exact Classical.byContradiction fun hm => hi hm _ List.mem_cons_self
  | _ => exact .inl fun ht _ => .inl ht

/-- Where a task stands that has come to a node. -/
theorem Comes.poised {walk : Walk} {node : Node} (h : Comes m walk node p x) (hp : ∀ k ∈ p, k.IsAside)
    (hi : m.main ≠ some t → ∀ k ∈ p, k.IsInner) (hd : x.2.post = .doing d q) :
    Poised (.came t walk node (m.gauge.reason? node) :: past) x.1 t d q := by
  have hinner (hm : x.1.main ≠ some t) : ∀ k ∈ p, k.IsInner := hi (h.discreet.main ▸ hm)
  rw [h.turn] at hd
  cases hreason : m.gauge.reason? node with
  | none =>
    rw [hreason] at hd
    cases hd
    exact ⟨.going hp fun _ => isCleared_came _ _ _ _ _, fun hm => ⟨trivial, hinner hm⟩⟩
  | some r =>
    rw [hreason] at hd
    cases hd
    refine ⟨.held _ _ hp (isHeldAt_came _ _ _ _ _) (fun h => by cases h), fun hm => ⟨trivial, ?_⟩⟩
    exact List.forall_mem_cons.mpr ⟨trivial, hinner hm⟩

/-- Where a task stands that goes on to a node, as it has been cleared to. -/
theorem Goes.poised {walk : Walk} {node : Node} (h : Goes m env walk node p x) (hp : ∀ k ∈ p, k.IsAside)
    (hf : m.token.cancelled = false → IsCleared past m.main t walk node)
    (hi : m.main ≠ some t → ∀ k ∈ p, k.IsInner) (hd : x.2.post = .doing d q) {reason : Option String} {b : Bool} :
    Poised (((Control.dispatch walk node).sign? m env t reason b).toList ++ past) x.1 t d q := by
  have hmain := h.steady.main
  have inner (hm : m.main ≠ some t) : d.IsInner ∧ ∀ k ∈ q, k.IsInner := by
    obtain hq | ⟨q', -, rfl⟩ := h.all inner_takesPlain (hi hm)
    · exact hq d q hd
    · cases hd
      exact ⟨trivial, List.forall_mem_cons.mpr ⟨trivial, hi hm⟩⟩
  obtain ha | ⟨q', hl, rfl⟩ := h.all aside_takesPlain hp
  · exact ⟨.aside (ha d q hd).1 (ha d q hd).2, fun hm => inner (hmain ▸ hm)⟩
  · cases hd
    rw [Control.sign?_goes hl]
    exact ⟨.starting rfl rfl (List.forall_mem_cons.mpr ⟨trivial, hp⟩) (hf hl).enters, inner⟩

/-- Where a task stands after its own step. -/
theorem Strides.poised (h : Strides m env c p x) (hp : Poised past m t c p)
    (hw : ∀ a i, c = .wake .resumption a i → a = true ∨ i = true) {reason : Option String}
    (hr : ∀ {walk node}, Comes m walk node p x → reason = m.gauge.reason? node) {b : Bool}
    (hd : x.2.post = .doing d q) : Poised ((c.sign? m env t reason b).toList ++ past) x.1 t d q := by
  have hmain := h.discreet.main
  have aside (ha : d.IsAside ∧ ∀ k ∈ q, k.IsAside) (hi : m.main ≠ some t → d.IsInner ∧ ∀ k ∈ q, k.IsInner) :
      Poised ((c.sign? m env t reason b).toList ++ past) x.1 t d q :=
    ⟨.aside ha.1 ha.2, fun hm => hi (hmain ▸ hm)⟩
  have hinner := hp.inner
  cases h with
  | goesOn hc h ha hi =>
    refine aside ?_ fun hm => hi (hinner hm).1 (hinner hm).2 d q hd
    cases hp.poises with
    | aside hc' hp => exact ha hc' hp d q hd
    | _ => exact absurd hc id
  | comes hc hs h =>
    rw [Control.sign?_comes hc hs, hr h]
    cases hp.poises with
    | aside _ hp => exact h.poised hp (fun hm => (hinner hm).2) hd
  | goes h =>
    cases hp.poises with
    | aside hc => exact absurd hc id
    | going hp hf => exact h.poised hp hf (fun hm => (hinner hm).2) hd
  | tries h ha hi =>
    cases hp.poises with
    | aside hc hp => exact aside (ha (Nat.le_of_succ_le hc) hp d q hd) fun hm => hi (hinner hm).2 d q hd
    | starting hn hw hp => exact aside (ha hn.ge hp d q hd) fun hm => hi (hinner hm).2 d q hd
  | turnsBack p a hn =>
    cases hd
    cases hp.poises with
    | aside _ hp => exact aside ⟨trivial, hp⟩ fun hm => ⟨trivial, (hinner hm).2⟩
  | wakes a i p =>
    cases hd
    cases hp.poises with
    | aside hc => exact absurd hc id
    | held _ _ hq _ hf =>
      refine ⟨.told _ hq fun hdone hl => ?_, fun hm => ⟨trivial, (hinner (hmain ▸ hm)).2⟩⟩
      cases i with
      | true => cases hdone
      | false =>
        refine (hf ((hw _ _ rfl).resolve_right (by simp)) hl).append fun a ha => ?_
        exact Control.task?_other (by simp) (by simp) a ha t
  | resumes walk node p =>
    cases hd
    cases hp.poises with
    | aside _ hp => exact absurd (hp _ List.mem_cons_self) id
    | told _ hq hf =>
      refine ⟨.going hq fun hl => (hf rfl hl).append fun a ha => ?_, fun hm => ⟨trivial, ?_⟩⟩
      · exact Control.task?_other (by simp) (by simp) a ha t
      · exact (List.forall_mem_cons.mp (hinner (hmain ▸ hm)).2).2
  | passes ha walk node p =>
    cases hd
    cases hp.poises with
    | aside _ hp => exact absurd (hp _ List.mem_cons_self) id
    | told _ hq =>
      exact aside ⟨trivial, hq⟩ fun hm => ⟨trivial, (List.forall_mem_cons.mp (hinner hm).2).2⟩
  | begins _ _ _ _ ha =>
    cases hp.poises with
    | aside _ hp => exact aside (ha hp d q hd) fun hm => absurd (hinner hm).1 id
  | ends =>
    cases hd
    cases hp.poises with
    | aside _ hp =>
      refine aside ⟨trivial, (List.forall_mem_cons.mp hp).2⟩ fun hm => ?_
      exact absurd ((hinner hm).2 _ List.mem_cons_self) id

/-- A task that pauses asks to be told of nothing. -/
theorem Strides.eq_wait (h : Strides m env c p x) (hp : Poised past m t c p) {s i : Bool}
    (hd : x.2.post = .doing (.wake .resumption s i) q) : x.2 = .wait .resumption [] none q := by
  cases h with
  | goesOn hc h ha =>
    cases hp.poises with
    | aside hc' hp => exact absurd (ha hc' hp _ _ hd).1 id
    | _ => exact absurd hc id
  | comes _ _ h =>
    rw [h.turn] at hd ⊢
    split at hd
    · cases hd
      rfl
    · cases hd
  | goes h =>
    cases hp.poises with
    | aside hc => exact absurd hc id
    | going hp =>
      obtain ha | ⟨q', -, rfl⟩ := h.all aside_takesPlain hp
      · exact absurd (ha _ _ hd).1 id
      · cases hd
  | tries h ha =>
    cases hp.poises with
    | aside hc hp => exact absurd (ha (Nat.le_of_succ_le hc) hp _ _ hd).1 id
    | starting hn _ hp => exact absurd (ha hn.ge hp _ _ hd).1 id
  | begins _ _ _ _ ha =>
    cases hp.poises with
    | aside _ hp => exact absurd (ha hp _ _ hd).1 id
  | _ => cases hd

end Machine

end Workflow
