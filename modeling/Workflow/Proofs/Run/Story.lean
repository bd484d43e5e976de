import Workflow.Proofs.Debug.Transparency
/-!
The story of a run: what it tells along its course. Runs of which nothing is asked but that they start
tell the same, if they go one course to its end.
-/

namespace Workflow

namespace Bearing

variable {b : Bearing} {e : Surroundings} {inTime : Nat → Bool}

/-- What is told in some steps of the course, the newest first. -/
def story (e : Surroundings) (inTime : Nat → Bool) : Nat → Bearing → List (String × Entries Value)
  | 0, _ => []
  | n + 1, b => story e inTime n (b.next e inTime) ++ b.said e

theorem story_add (j k : Nat) (b : Bearing) : story e inTime (j + k) b =
    story e inTime j ((Bearing.next e inTime)^[k] b) ++ story e inTime k b := by
  induction k generalizing b with
  | zero => exact (List.append_nil _).symm
  | succ k ih => rw [← Nat.add_assoc, story, ih, story, List.append_assoc, Function.iterate_succ_apply]

/-- At the end of the course there is nothing more to tell. -/
theorem IsFinal.said (h : b.IsFinal) : b.said e = [] := by
  obtain ⟨m, stance, n⟩ := b
  obtain ⟨hm, ht, rfl | rfl | ⟨a, rfl⟩⟩ := h
  · rfl
  · have hne : (m.run.status != .pending) = true := by
      have ht : m.run.status.isTerminal = true := ht
      cases hs : m.run.status <;> rw [hs] at ht <;> first | rfl | cases ht
    show heard (m.execute e []).1.effects = []
    unfold Machine.execute
    rw [if_pos hne, ← show m.gist = m from hm]
    rfl
  · show heard m.effects = []
    rw [← show m.gist = m from hm]
    rfl

theorem IsFinal.story (h : b.IsFinal) (j : Nat) : Bearing.story e inTime j b = [] := by
  induction j generalizing b with
  | zero => rfl
  | succ j ih => rw [Bearing.story, ih (h.next e inTime).1, h.said]; rfl

/-- A course has one story. -/
theorem IsFinal.story_unique {j k : Nat} (hj : ((Bearing.next e inTime)^[j] b).IsFinal)
    (hk : ((Bearing.next e inTime)^[k] b).IsFinal) :
    Bearing.story e inTime j b = Bearing.story e inTime k b := by
  have later {j k : Nat} (hjk : j ≤ k) (hj : ((Bearing.next e inTime)^[j] b).IsFinal) :
      Bearing.story e inTime k b = Bearing.story e inTime j b := by
    obtain ⟨i, rfl⟩ := Nat.exists_eq_add_of_le hjk
    rw [Nat.add_comm, story_add, hj.story]
    rfl
  rcases Nat.le_total j k with hjk | hjk
  · exact (later hjk hj).symm
  · exact later hjk hk

/-! Courses on which no handler is done with. -/

theorem next_congr (h : (b.next e inTime).settled = b.settled) (inTime' : Nat → Bool) :
    b.next e inTime' = b.next e inTime := by
  unfold Bearing.next at *
  split at h
  · rfl
  · exact absurd h (Nat.succ_ne_self _)
  · rfl

/-- It makes no difference which handlers end in time. -/
theorem iterate_congr (h : ∀ j, ((Bearing.next e inTime)^[j] b).settled = b.settled)
    (inTime' : Nat → Bool) (j : Nat) : (Bearing.next e inTime')^[j] b = (Bearing.next e inTime)^[j] b := by
  induction j with
  | zero => rfl
  | succ j ih =>
    rw [Function.iterate_succ_apply', Function.iterate_succ_apply', ih]
    refine next_congr ?_ inTime'
    rw [← Function.iterate_succ_apply' (Bearing.next e inTime), h, h]

theorem iterate_idle {n : Nat} (h : ((Bearing.next e inTime)^[n] b).stance = none) (i : Nat) :
    (Bearing.next e inTime)^[i + n] b = (Bearing.next e inTime)^[n] b := by
  induction i with
  | zero => rw [Nat.zero_add]
  | succ i ih =>
    rw [Nat.succ_add, Function.iterate_succ_apply', ih, Bearing.next, h]

end Bearing

namespace Execution

variable {x y : Execution} {w : World} {r : Registry} {flows : Entries Flow}

theorem after_append (w : World) (is js : List Input) (x : Execution) :
    after w (is ++ js) x = after w js (after w is x) := by
  induction is generalizing x with
  | nil => rfl
  | cons i is ih => exact ih _

/-- The events, but for the times that are told. -/
theorem undated_events (x : Execution) : x.events.map undated = (heard x.log).reverse := by
  rw [events, heard, List.filterMap_reverse, List.map_reverse, List.map_filterMap]
  rfl

theorem heard_put {m : Machine} (h : x.machine.effects = []) (hm : Machine.Adds Effect.IsMute x.machine m)
    (s : Option Strand) : heard (x.put m s).log = heard x.log := by
  obtain ⟨d, hd, hes⟩ := hm
  show heard (m.effects ++ x.log) = _
  rw [hd, h, List.append_nil, heard_append, heard_mute hes]
  rfl

theorem start_adds (m : Machine) (slotted : Bool) : Machine.Adds Effect.IsMute m (m.start slotted) := by
  unfold Machine.start
  split
  · exact .refl m
  · exact .effect _ rfl

/-- Nothing is told but by steps of the walker. -/
theorem move_hushes (h : x.IsSound) {a : Move}
    (ha : ∀ now s, a = .step now → x.active = some s → x.machine.main ≠ some s.task) :
    heard (x.move w a).log = heard x.log := by
  obtain ⟨late, hl, hm⟩ := move_mute (w := w) h ha
  rw [hl, heard_append, heard_mute hm, List.nil_append]

/-- A run that is paused stays so, unless somebody resumes it or puts an end to it. -/
theorem take_paused (h : x.IsSound) (hl : x.machine.token.cancelled = false)
    (hp : x.machine.run.status = .paused) {i : Input} (hi : i.IsPlain r flows) :
    (x.take w i).machine.run.status = .paused := by
  cases i with
  | command c =>
    obtain ⟨slotted, rfl⟩ := hi
    show (x.obey (.start slotted)).machine.run.status = _
    unfold obey
    split
    · show (x.machine.start slotted).run.status = _
      unfold Machine.start
      split <;> exact hp
    · exact hp
  | move a =>
    rcases move_cases (w := w) h a with ht | ⟨now, s, -, ht⟩
    · exact (congrArg (·.run.status) ht.watchers :).trans hp
    · obtain ⟨-, roles, hr⟩ := h
      rw [ht.active] at hr
      obtain ⟨-, q, hq, -, hstands⟩ := hr.strand rfl
      rw [hr.main.mpr ht.main] at hq
      cases hq
      -- The walker of a run that is paused waits.
      have running (h : x.machine.run.status = .running) : False := by
        rw [hp] at h
        cases h
      have halted (h : x.machine.IsHalted) : False := by
        rw [h.2] at hl
        cases hl
      have unbegun (h : x.machine.IsUnbegun) : False := by
        rcases h with ⟨h, -⟩ | h <;> rw [hp] at h <;> cases h
      have hstands := hstands rfl
      generalize s.control = c, s.pending = p at hstands
      cases hstands with
      | enqueue h => exact (unbegun h).elim
      | start h => exact (unbegun h).elim
      | execute h => exact (unbegun h).elim
      | walk h => exact (running h).elim
      | wake h => exact (running h).elim
      | resume h => exact (h.elim running halted).elim
      | back h => exact (halted h).elim
      | refuse h => exact (halted h).elim
      | unwind h => exact (halted h).elim
      | ended h =>
        rw [hp] at h
        cases h

/-- A run of which nothing is asked but that it starts goes along its course and tells what is to be told,
as long as it does not pause. -/
theorem take_story (h : x.IsSound) (hx : x.Undisturbed r) {i : Input} (hi : i.IsPlain r flows)
    (inTime : Nat → Bool) (n : Nat) (hv : ∀ v, x.verdict? i = some v → inTime n = v)
    (hp : (x.take w i).machine.run.status ≠ .paused) :
    ∃ j, (x.take w i).bearing (n + (x.verdict? i).toList.length) =
        (Bearing.next (w.background r flows) inTime)^[j] (x.bearing n) ∧
      heard (x.take w i).log = Bearing.story (w.background r flows) inTime j (x.bearing n) ++ heard x.log := by
  have stays {y : Execution} (hn : x.verdict? i = none) (hy : y.bearing n = x.bearing n)
      (hl : heard y.log = heard x.log) : ∃ j, y.bearing (n + (x.verdict? i).toList.length) =
        (Bearing.next (w.background r flows) inTime)^[j] (x.bearing n) ∧
          heard y.log = Bearing.story (w.background r flows) inTime j (x.bearing n) ++ heard x.log := by
    rw [hn]
    exact ⟨0, hy, hl⟩
  cases i with
  | command c =>
    obtain ⟨slotted, rfl⟩ := hi
    refine stays rfl (obey_bearing (c := .start slotted) h trivial n) ?_
    show heard (x.obey (.start slotted)).log = _
    unfold obey
    split
    · exact heard_put h.1 (start_adds x.machine slotted) none
    · rfl
  | move a =>
    by_cases hstep : ∃ now s, a = .step now ∧ x.active = some s ∧ x.machine.main = some s.task
    · obtain ⟨now, s, rfl, hs, hm⟩ := hstep
      have hmove : x.move w (.step now) = x.step w now := by
        unfold move
        rw [if_pos (by simp [allows, isIdle, hs])]
      have hp : (x.move w (.step now)).machine.run.status ≠ .paused := hp
      show ∃ j, (x.move w (.step now)).bearing _ = _ ∧ heard (x.move w (.step now)).log = _
      rw [hmove] at hp ⊢
      rcases step_goes (w := w) h hx hs hm hi.1 hi.2 inTime n hv with ⟨hb, hl⟩ | ⟨hb, hl⟩
      · exact ⟨0, hb, hl⟩
      · exact ⟨1, hb, hl.resolve_right hp⟩
    · have hother (now : Moment) (s : Strand) (ha : a = .step now) (hs : x.active = some s) :
          x.machine.main ≠ some s.task := fun hm => hstep ⟨now, s, ha, hs, hm⟩
      have hnone : x.verdict? (.move a) = none := by
        obtain ⟨-, roles, hr⟩ := h
        cases hv : x.verdict? (.move a) with
        | none => rfl
        | some v =>
          cases a with
          | step now =>
            cases hs : x.active with
            | none =>
              unfold verdict? at hv
              rw [hs] at hv
              cases hv
            | some s => exact absurd (main_of_verdict? hr hs hv).1 (hother now s rfl hs)
          | _ => cases hv
      refine stays hnone ?_ (move_hushes h hother)
      rcases move_cases (w := w) h a with ht | ⟨now, s, ha, ht⟩
      · exact ht.bearing n
      · exact absurd ht.main (hother now s ha ht.active)

theorem after_paused (h : x.IsSound) (hx : x.Undisturbed r) {is : List Input}
    (hi : ∀ i ∈ is, i.IsPlain r flows) (hp : x.machine.run.status = .paused) :
    (after w is x).machine.run.status = .paused := by
  induction is generalizing x with
  | nil => exact hp
  | cons i is ih =>
    have hi0 := hi i List.mem_cons_self
    exact ih (take_isSound h i) (take_undisturbed h hx (controls_of_isPlain hi0))
      (fun i hm => hi i (List.mem_cons_of_mem _ hm)) (take_paused h hx.live hp hi0)

/-- The story of a whole run. -/
theorem after_story (h : x.IsSound) (hx : x.Undisturbed r) {is : List Input}
    (hi : ∀ i ∈ is, i.IsPlain r flows) {inTime : Nat → Bool} (n : Nat)
    (hv : ∀ k v, (verdicts w is x)[k]? = some v → inTime (n + k) = v)
    (hp : (after w is x).machine.run.status ≠ .paused) :
    ∃ j, (after w is x).bearing (n + (verdicts w is x).length) =
        (Bearing.next (w.background r flows) inTime)^[j] (x.bearing n) ∧
      heard (after w is x).log =
        Bearing.story (w.background r flows) inTime j (x.bearing n) ++ heard x.log := by
  induction is generalizing x n with
  | nil => exact ⟨0, rfl, rfl⟩
  | cons i is ih =>
    have hi0 := hi i List.mem_cons_self
    have his : ∀ i ∈ is, i.IsPlain r flows := fun i hm => hi i (List.mem_cons_of_mem _ hm)
    have hs := take_isSound (w := w) h i
    have hu := take_undisturbed (w := w) h hx (controls_of_isPlain hi0)
    obtain ⟨j, hj, hl⟩ := take_story (w := w) h hx hi0 inTime n (fun v hs => by
      refine hv 0 v ?_
      rw [verdicts, hs]
      rfl) fun hpaused => hp (after_paused hs hu his hpaused)
    obtain ⟨k, hk, hm⟩ := ih hs hu his (n + (x.verdict? i).toList.length) (fun k v hs => by
      rw [Nat.add_assoc]
      refine hv _ v ?_
      rw [verdicts, List.getElem?_append_right (Nat.le_add_right _ _), Nat.add_sub_cancel_left]
      exact hs) hp
    refine ⟨k + j, ?_, ?_⟩
    · rw [Function.iterate_add_apply, ← hj, ← hk, verdicts, List.length_append, Nat.add_assoc]
      rfl
    · rw [Bearing.story_add, ← hj, List.append_assoc, ← hl, ← hm]
      rfl

theorem not_paused_of_ended (ht : x.machine.run.status.isTerminal = true) :
    x.machine.run.status ≠ .paused := by
  rintro hp
  rw [hp] at ht
  cases ht

/-- Runs that start from one point of their course, and whose handlers end in time or not alike, tell the
same. -/
theorem after_heard (hx : x.IsSound) (hx' : x.Undisturbed r) (hy : y.IsSound) (hy' : y.Undisturbed r)
    (hb : x.bearing 0 = y.bearing 0) {is js : List Input} (hi : ∀ i ∈ is, i.IsPlain r flows)
    (hj : ∀ i ∈ js, i.IsPlain r flows) {inTime : Nat → Bool}
    (hvi : ∀ k v, (verdicts w is x)[k]? = some v → inTime k = v)
    (hvj : ∀ k v, (verdicts w js y)[k]? = some v → inTime k = v)
    (hti : (after w is x).machine.run.status.isTerminal = true)
    (htj : (after w js y).machine.run.status.isTerminal = true) (hl : heard x.log = heard y.log) :
    heard (after w is x).log = heard (after w js y).log := by
  have controls {is : List Input} (hi : ∀ i ∈ is, i.IsPlain r flows) : ∀ i ∈ is, i.Controls r flows :=
    fun i hm => controls_of_isPlain (hi i hm)
  obtain ⟨j, hj', hlj⟩ := after_story hx hx' hi 0 (fun k v hk => by rw [Nat.zero_add]; exact hvi k v hk)
    (not_paused_of_ended hti)
  obtain ⟨k, hk', hlk⟩ := after_story hy hy' hj 0 (fun k v hk => by rw [Nat.zero_add]; exact hvj k v hk)
    (not_paused_of_ended htj)
  have hfi := bearing_isFinal (after_undisturbed (w := w) hx hx' (controls hi)).1 hti
    (0 + (verdicts w is x).length)
  have hfj := bearing_isFinal (after_undisturbed (w := w) hy hy' (controls hj)).1 htj
    (0 + (verdicts w js y).length)
  rw [hj', hb] at hfi
  rw [hk'] at hfj
  rw [hlj, hlk, hb, hl, hfi.story_unique hfj]

/-- A run is done with the handlers that it meets on its course. -/
theorem verdicts_eq_nil (hx : x.IsSound) (hx' : x.Undisturbed r) {is : List Input}
    (hi : ∀ i ∈ is, i.Controls r flows) {inTime : Nat → Bool}
    (h : ∀ j, ((Bearing.next (w.background r flows) inTime)^[j] (x.bearing 0)).settled = 0) :
    verdicts w is x = [] := by
  let seen (k : Nat) : Bool := ((verdicts w is x)[k]?).getD true
  have hseen (k : Nat) (v : Bool) (hk : (verdicts w is x)[k]? = some v) : seen (0 + k) = v := by
    show ((verdicts w is x)[0 + k]?).getD true = v
    rw [Nat.zero_add, hk]
    rfl
  obtain ⟨j, hj⟩ := after_bearing hx hx' hi 0 hseen
  rw [Bearing.iterate_congr h] at hj
  have hsettled := (congrArg Bearing.settled hj).trans (h j)
  exact List.eq_nil_of_length_eq_zero ((Nat.zero_add _).symm.trans hsettled)

/-- A run that has ended stays as it ended, and tells nothing more. -/
theorem take_ended (h : x.IsSound) (hx : x.Undisturbed r) (ht : x.machine.run.status.isTerminal = true)
    {i : Input} (hi : i.IsPlain r flows) :
    (x.take w i).machine.gist = x.machine.gist ∧ (x.take w i).events = x.events := by
  let inTime : Nat → Bool := fun _ => (x.verdict? i).getD true
  have hv (v : Bool) (hs : x.verdict? i = some v) : inTime 0 = v := by
    show (x.verdict? i).getD true = v
    rw [hs]
    rfl
  have hfinal := bearing_isFinal h ht 0
  obtain ⟨k, hk⟩ := take_bearing (w := w) h hx (controls_of_isPlain hi) inTime 0 hv
  have hgist : (x.take w i).machine.gist = x.machine.gist :=
    (congrArg Bearing.machine hk).trans (hfinal.iterate k).1
  have hended : (x.take w i).machine.run.status.isTerminal = true := by
    rw [Machine.isTerminal_of_gist hgist, ht]
  obtain ⟨j, -, hl⟩ := take_story (w := w) h hx hi inTime 0 hv (not_paused_of_ended hended)
  obtain ⟨late, hlate⟩ := take_log (w := w) (x := x) i
  rw [hfinal.story, List.nil_append, hlate, heard_append, List.append_left_eq_self] at hl
  refine ⟨hgist, ?_⟩
  have hnone : late.reverse.filterMap Effect.event? = [] := by
    rw [List.filterMap_eq_nil_iff]
    intro f hf
    have hf : f.event?.map undated = none :=
      List.filterMap_eq_nil_iff.mp hl f (List.mem_reverse.mp hf)
    exact Option.map_eq_none_iff.mp hf
  rw [events, hlate, List.reverse_append, List.filterMap_append, hnone, List.append_nil]
  rfl

theorem after_ended (h : x.IsSound) (hx : x.Undisturbed r) (ht : x.machine.run.status.isTerminal = true)
    {is : List Input} (hi : ∀ i ∈ is, i.IsPlain r flows) :
    (after w is x).machine.gist = x.machine.gist ∧ (after w is x).events = x.events := by
  induction is generalizing x with
  | nil => exact ⟨rfl, rfl⟩
  | cons i is ih =>
    have hi0 := hi i List.mem_cons_self
    obtain ⟨hgist, hevents⟩ := take_ended (w := w) h hx ht hi0
    obtain ⟨hg, he⟩ := ih (take_isSound h i) (take_undisturbed h hx (controls_of_isPlain hi0))
      (by rw [Machine.isTerminal_of_gist hgist, ht]) fun i hm => hi i (List.mem_cons_of_mem _ hm)
    exact ⟨hg.trans hgist, he.trans hevents⟩

end Execution

end Workflow
