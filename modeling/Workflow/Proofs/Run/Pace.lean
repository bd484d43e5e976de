import Workflow.Proofs.Run.Convergence
import Workflow.Proofs.Run.Plain
import Workflow.Proofs.Run.Termination
/-!
Runs at any pace. Whichever handlers are to end in time and whichever are not, there is a run that comes
to its end with these verdicts and without any pause: a handler that is to be late does not begin before
its time is over, and one that is to be in time is carried out before the walker goes on.
-/

namespace Workflow.Execution

variable {x : Execution} {w : World} {r : Registry} {flows : Entries Flow} {roles : List Role}
  {s : Strand} {t : TaskId} {b : Bool}

/-- The next verdict is still open to be one that is given. -/
structure Timely (b : Bool) (x : Execution) : Prop where
  late : b = false → ∀ {t a h u}, x.Bides t (.settlement a h u) →
    (∃ c, x.machine.state? h = some (.fresh c false)) ∧ ∀ s, x.active = some s → s.task = t
  early : b = true → ∀ {t a h u}, x.Bides t (.settlement a h u) →
    x.machine.hasEnded h = true ∨ ∃ k, x.machine.state? t = some (.waiting (.settlement a h u) k)

theorem Timely.of_not_bides (h : ∀ t a k u, ¬ x.Bides t (.settlement a k u)) (b : Bool) :
    x.Timely b where
  late _ _ _ _ _ hb := absurd hb (h _ _ _ _)
  early _ _ _ _ _ hb := absurd hb (h _ _ _ _)

/-- Only the walker waits for a handler. -/
theorem Bides.main (hr : x.machine.Sound roles x.log x.active) {a : Attempt} {h u : TaskId}
    (hb : x.Bides t (.settlement a h u)) : x.machine.main = some t ∧ roles[h]? = some .handler := by
  obtain ⟨q, p, hq, hsuits⟩ := hb.suits hr
  obtain ⟨rfl, hh⟩ := Machine.settlement_suits hsuits
  exact ⟨hr.main.mp hq, hh⟩

/-! Steps. -/

/-- After a step of the walker any verdict is possible. -/
theorem timely_of_walker (hr : x.machine.Sound roles x.log (some s)) (hs : x.active = some s)
    (hm : x.machine.main = some s.task) (now : Moment) (b : Bool) : (x.step w now).Timely b := by
  have hr' : x.machine.Sound roles x.log x.active := by rw [hs]; exact hr
  have hself {t a h u} (hb : (x.step w now).Bides t (.settlement a h u)) : s.task = t := by
    by_contra hne
    have hold := hb.of_step hs hr now hne (.inl (by simp [Wait.guard?]))
    have hmain := (hold.main hr').1
    rw [hm] at hmain
    exact hne (Option.some.inj hmain)
  have hrun := (hr.strand rfl).1
  have hrun' := (hr.step_tends w now).running_iff.mpr hrun
  exact {
    late := fun _ t a h u hb => by
      obtain rfl := hself hb
      obtain ⟨on, limit, p, hz⟩ := hb.of_self hs hr (.inl (by simp [Wait.guard?]))
      obtain ⟨call, -, -, hst⟩ := (hr.step_minds w now).handler hz
      have hne : s.task ≠ h := by
        rintro rfl
        rw [hrun'] at hst
        cases hst
      refine ⟨⟨.handle call, (state?_step_other hs now hne).trans hst⟩, fun s' hs' => ?_⟩
      rw [step_eq hs, hz] at hs'
      cases hs'
    early := fun _ t a h u hb => by
      obtain rfl := hself hb
      obtain ⟨on, limit, p, hz⟩ := hb.of_self hs hr (.inl (by simp [Wait.guard?]))
      have hst := Machine.state?_turn_wait hrun' (.settlement a h u) on limit p
      rw [← hz] at hst
      rw [step_eq hs]
      exact .inr ⟨_, hst⟩ }

/-- A handler that has ended stays so. -/
theorem hasEnded_step (hr : x.machine.Sound roles x.log (some s)) (hs : x.active = some s)
    (now : Moment) {h : TaskId} (hend : x.machine.hasEnded h = true) :
    (x.step w now).machine.hasEnded h = true := by
  obtain ⟨a, ha⟩ := Machine.hasEnded_iff.mp hend
  have hne : s.task ≠ h := by
    rintro rfl
    rw [(hr.strand rfl).1] at ha
    cases ha
  obtain ⟨s', hs', hn⟩ := (hr.step_tends w now).old ha
  refine Machine.hasEnded_iff.mpr ⟨a, (state?_step_other hs now hne).trans ?_⟩
  rw [hs', hn.ended_iff.mpr rfl]

/-- A step of another task leaves the verdict open. -/
theorem Timely.of_errand (hb : x.Timely b) (hr : x.machine.Sound roles x.log (some s))
    (hs : x.active = some s) (hm : x.machine.main ≠ some s.task) (now : Moment) :
    (x.step w now).Timely b := by
  have hr' : x.machine.Sound roles x.log x.active := by rw [hs]; exact hr
  obtain ⟨-, q, hq, hsuits, -⟩ := hr.strand rfl
  have hw : q ≠ .walker := by
    rintro rfl
    exact hm (hr.main.mp hq)
  obtain ⟨more, ha, hturn⟩ := Machine.step_aside hr.fitting w now hq hw hsuits
  have hold {t a h u} (hbides : (x.step w now).Bides t (.settlement a h u)) :
      s.task ≠ t ∧ x.Bides t (.settlement a h u) := by
    have hne : s.task ≠ t := by
      rintro rfl
      obtain ⟨on, limit, p, hz⟩ := hbides.of_self hs hr (.inl (by simp [Wait.guard?]))
      rw [hz] at hturn
      exact hw (Machine.settlement_suits hturn.1).1
    exact ⟨hne, hbides.of_step hs hr now hne (.inl (by simp [Wait.guard?]))⟩
  exact {
    late := fun hf t a h u hbides => by
      obtain ⟨hne, hbides⟩ := hold hbides
      exact absurd ((hb.late hf hbides).2 s hs) hne
    early := fun ht t a h u hbides => by
      obtain ⟨hne, hbides⟩ := hold hbides
      have hmain := (hbides.main hr').1
      rcases hb.early ht hbides with hend | ⟨k, hk⟩
      · exact .inl (hasEnded_step hr hs now hend)
      · refine .inr ⟨k, (state?_step_other hs now hne).trans ?_⟩
        rw [ha.walker (hr.main.mpr hmain), hk] }

/-! Other moves. -/

/-- A move that is no step leaves the tasks alone that do not make it. -/
theorem state?_move_other {a : Move} (ha : a.task? = some t) {u : TaskId} (hne : t ≠ u) :
    (x.move w a).machine.state? u = x.machine.state? u := by
  unfold move
  split
  · cases a with
    | step now => cases ha
    | begin v =>
      cases ha
      show (x.begin t).machine.state? u = _
      have hb := x.begins t
      generalize x.begin t = y at hb ⊢
      cases hb with
      | unready => rfl
      | dismissed => exact (Machine.state?_finish (m := x.machine) _).trans (if_neg hne)
      | fresh | woken => exact (Machine.state?_setState (m := x.machine) _).trans (if_neg hne)
    | tell v k =>
      cases ha
      show (x.machine.tell t k).state? u = _
      unfold Machine.tell
      split
      · split
        · exact Machine.state?_signal.trans (if_neg hne)
        · rfl
      · rfl
    | grant v =>
      cases ha
      exact (Machine.state?_setState (m := x.machine) _).trans (if_neg hne)
  · rfl

/-- The task in the middle of its steps after such a move is the one that made it. -/
theorem active_move (hx : x.active = none) {a : Move} (ha : a.task? = some t) (s : Strand)
    (hs : (x.move w a).active = some s) : s.task = t := by
  unfold move at hs
  split at hs
  · cases a with
    | step now => cases ha
    | begin v =>
      cases ha
      have hs : (x.begin t).active = some s := hs
      have hb := x.begins t
      generalize x.begin t = y at hb hs
      cases hb with
      | unready => rw [hx] at hs; cases hs
      | dismissed => cases hs
      | fresh | woken => cases hs; rfl
    | tell v k => cases hs
    | grant v =>
      have hs : x.active = some s := hs
      rw [hx] at hs
      cases hs
  · rw [hx] at hs
    cases hs

/-- The task that makes a move has not ended. -/
theorem ne_of_hasEnded {a : Move} (hallow : x.allows a = true) (ha : a.task? = some t) {u : TaskId}
    (hend : x.machine.hasEnded u = true) : t ≠ u := by
  obtain ⟨e, he⟩ := Machine.hasEnded_iff.mp hend
  rintro rfl
  cases a with
  | step now => cases ha
  | begin v =>
    cases ha
    simp [allows, he] at hallow
  | tell v k =>
    cases ha
    simp [allows, he] at hallow
  | grant v =>
    cases ha
    simp [allows, he] at hallow

theorem move_eases (h : x.IsSound) {a : Move} (ha : a.task? = some t) : x.Eases (x.move w a) := by
  unfold move
  split
  · rename_i hallow
    cases a with
    | step now => cases ha
    | begin v =>
      simp only [allows, isIdle, Bool.and_eq_true, Option.isNone_iff_eq_none] at hallow
      exact begin_eases hallow.1 v
    | tell v k => exact tell_eases h hallow
    | grant v => exact grant_eases hallow
  · exact .refl x

/-- A move of the walker, or of others while there is time, leaves the verdict open. -/
theorem Timely.move (hb : x.Timely b) (h : x.IsSound) (hx : x.active = none) {a : Move}
    (hallow : x.allows a = true) (ha : a.task? = some t)
    (hlate : b = false → ∀ {v k h u}, x.Bides v (.settlement k h u) → t = v)
    (hearly : b = true → ∀ {k h u}, x.Bides t (.settlement k h u) → x.machine.hasEnded h = true) :
    (x.move w a).Timely b := by
  have heases := move_eases (w := w) h ha
  obtain ⟨-, roles, hr⟩ := h
  exact {
    late := fun hf v k h u hbides => by
      have hold := heases.bides hbides
      obtain rfl := hlate hf hold
      obtain ⟨⟨c, hc⟩, -⟩ := hb.late hf hold
      obtain ⟨hmain, hhandler⟩ := hold.main hr
      refine ⟨⟨c, (state?_move_other ha ?_).trans hc⟩, active_move hx ha⟩
      rintro rfl
      rw [hr.main.mpr hmain] at hhandler
      cases hhandler
    early := fun ht v k h u hbides => by
      have hold := heases.bides hbides
      have kept (hend : x.machine.hasEnded h = true) : (x.move w a).machine.hasEnded h = true := by
        obtain ⟨e, he⟩ := Machine.hasEnded_iff.mp hend
        exact Machine.hasEnded_iff.mpr ⟨e, (state?_move_other ha (ne_of_hasEnded hallow ha hend)).trans he⟩
      by_cases hv : t = v
      · subst hv
        exact .inl (kept (hearly ht hold))
      · rcases hb.early ht hold with hend | ⟨k, hk⟩
        · exact .inl (kept hend)
        · exact .inr ⟨k, (state?_move_other ha hv).trans hk⟩ }

/-- A task that waits for some time, or has done so, can go on. -/
theorem canGo_of_bides {v : Wait} (hr : x.machine.Sound roles x.log none) (hx : x.active = none)
    (he : x.machine.effects = []) (hb : x.Bides t v) (hv : v.isTimed = true) : x.CanGo t := by
  obtain ⟨a, i, p, hp⟩ := hb
  rw [post_idle hx] at hp
  cases hst : x.machine.state? t with
  | none =>
    rw [Machine.post, hst] at hp
    cases hp
  | some st =>
    rw [Machine.post_of_state? hst] at hp
    cases st with
    | fresh c i => exact canGo_of_ready hx hst (by simp) (by simp) (by simp)
    | waiting w k =>
      cases hp
      exact canGo_of_timed hr hx he hst hv
    | woken w a i => exact canGo_of_ready hx hst (by simp) (by simp) (by simp)
    | running => cases hp
    | ended a => cases hp

/-- A move that can be made and that gives no other verdict than a given one. -/
structure InPace (x : Execution) (w : World) (b : Bool) (now : Moment) (a : Move) : Prop where
  allowed : x.allows a = true
  own : a = .step now ∨ ∃ t, a.task? = some t
  given : ∀ v, x.verdict? (.move a) = some v → v = b ∧ ∀ c, (x.move w a).Timely c
  unsaid : x.verdict? (.move a) = none → (x.move w a).Timely b

/-- A task in the middle of its steps takes the next one. -/
theorem step_inPace (h : x.IsSound) (hs : x.active = some s) (hb : x.Timely b) (now : Moment) :
    x.InPace w b now (.step now) := by
  obtain ⟨he, roles, hr⟩ := h
  have hr' := hr
  rw [hs] at hr'
  have hallow : x.allows (.step now) = true := by simp [allows, isIdle, hs]
  have hmove : x.move w (.step now) = x.step w now := by
    unfold Execution.move
    rw [if_pos hallow]
  refine ⟨hallow, .inl rfl, ?_, ?_⟩
  · intro v hv
    obtain ⟨hmain, a, k, u, c, i, hc, rfl⟩ := main_of_verdict? hr hs hv
    refine ⟨?_, fun c => hmove ▸ timely_of_walker hr' hs hmain now c⟩
    have hbides := bides_of_strand (v := .settlement a k u) hs (by rw [hc]; rfl)
    cases b with
    | false =>
      obtain ⟨⟨c, hc⟩, -⟩ := hb.late rfl hbides
      rw [Machine.hasEnded, Machine.ending?, hc]
      rfl
    | true =>
      rcases hb.early rfl hbides with hend | ⟨j, hj⟩
      · exact hend
      · rw [(hr'.strand rfl).1] at hj
        cases hj
  · intro _
    rw [hmove]
    by_cases hmain : x.machine.main = some s.task
    · exact timely_of_walker hr' hs hmain now b
    · exact hb.of_errand hr' hs hmain now

/-- No verdict is given by a move that is no step. -/
theorem exists_inPace_of_canGo (h : x.IsSound) (hs : x.active = none) (hb : x.Timely b) (now : Moment)
    (hgo : x.CanGo t) (hlate : b = false → ∀ {v k h u}, x.Bides v (.settlement k h u) → t = v)
    (hearly : b = true → ∀ {k h u}, x.Bides t (.settlement k h u) → x.machine.hasEnded h = true) :
    ∃ a, x.InPace w b now a := by
  obtain ⟨a, hallow, ha⟩ := hgo
  have hnone : x.verdict? (.move a) = none := by
    cases a <;> first | rfl | cases ha
  refine ⟨a, hallow, .inr ⟨t, ha⟩, fun v hv => ?_, fun _ => hb.move h hs hallow ha hlate hearly⟩
  rw [hnone] at hv
  cases hv

/-- While the walker waits for a handler, the walker goes on if the handler is to be late or has ended;
otherwise the handler does, or the watcher of its rest. -/
theorem exists_inPace_of_settlement (h : x.IsSound) (hrou : x.Roused) (hs : x.active = none)
    (hb : x.Timely b) (now : Moment) {a : Attempt} {k u : TaskId} (hbides : x.Bides t (.settlement a k u)) :
    ∃ a, x.InPace w b now a := by
  obtain ⟨he, roles, hr⟩ := id h
  have hr' := hr
  rw [hs] at hr'
  obtain ⟨hmain, hhandler⟩ := hbides.main hr
  cases b with
  | false =>
    refine exists_inPace_of_canGo h hs hb now (canGo_of_bides hr' hs he hbides rfl)
      (fun _ _ _ _ _ hv => ?_) fun hf => by cases hf
    have := (hv.main hr).1
    rw [hmain] at this
    exact Option.some.inj this
  | true =>
    by_cases hend : x.machine.hasEnded k = true
    · refine exists_inPace_of_canGo h hs hb now (canGo_of_bides hr' hs he hbides rfl)
        (fun hf => by cases hf) fun _ c j v hv => ?_
      obtain ⟨_, _, _, hp⟩ := hbides
      obtain ⟨_, _, _, hq⟩ := hv
      rw [hp] at hq
      cases hq
      exact hend
    · obtain ⟨st, hst⟩ := Machine.exists_state? (hr.fitting.lt hhandler)
      have hlive : ∀ a, st ≠ .ended a := by
        rintro a rfl
        exact hend (Machine.hasEnded_iff.mpr ⟨a, hst⟩)
      have errand {o : TaskId} {q : Role} (ho : roles[o]? = some q) (hq : q ≠ .walker)
          (hgo : x.CanGo o) : ∃ a, x.InPace w true now a :=
        exists_inPace_of_canGo h hs hb now hgo (fun hf => by cases hf) fun _ c j v hv => by
          rw [hr.main.mpr (hv.main hr).1] at ho
          exact absurd (Option.some.inj ho).symm hq
      rcases canGo_of_handler hr' hs he hrou hhandler hst hlive with hgo | ⟨o, ho, hgo⟩
      · exact errand hhandler (by decide) hgo
      · exact errand ho (by decide) hgo

/-- A run that is neither paused nor at its end can go on in such a way that the next verdict is a given
one. -/
theorem exists_inPace (h : x.IsSound) (hrou : x.Roused)
    (hm : x.machine.main ≠ none) (hp : x.machine.run.status ≠ .paused)
    (ht : x.machine.run.status.isTerminal = false) (hb : x.Timely b) (now : Moment) :
    ∃ a, x.InPace w b now a := by
  cases hs : x.active with
  | some s => exact ⟨_, step_inPace h hs hb now⟩
  | none =>
    by_cases hset : ∃ t a k u, x.Bides t (.settlement a k u)
    · obtain ⟨t, a, k, u, hbides⟩ := hset
      exact exists_inPace_of_settlement h hrou hs hb now hbides
    · have hnot : ∀ t a k u, ¬ x.Bides t (.settlement a k u) :=
        fun t a k u hb => hset ⟨t, a, k, u, hb⟩
      obtain ⟨a, hallow⟩ := exists_allowed h hrou hm hp ht
      obtain ⟨t, ha⟩ : ∃ t, a.task? = some t := by
        cases a with
        | step now =>
          rw [allows, isIdle_of_active hs] at hallow
          cases hallow
        | _ => exact ⟨_, rfl⟩
      exact exists_inPace_of_canGo h hs hb now ⟨a, hallow, ha⟩
        (fun _ _ _ _ _ hv => absurd hv (hnot _ _ _ _)) fun _ _ _ _ hv => absurd hv (hnot _ _ _ _)

/-- A run that is asked for no pause comes to its end by itself, with the verdicts that are given. -/
theorem exists_ended (hr : r.IsBuiltin) (flows : Entries Flow) (h : x.IsSound) (hrou : x.Roused)
    (hm : x.machine.main ≠ none) (hask : x.machine.IsUnasked) {inTime : Nat → Bool} (n : Nat)
    (hb : x.Timely (inTime n)) :
    ∃ as : List Move, (∀ a ∈ as, (Input.move a).Controls r flows) ∧
      (after w (as.map .move) x).machine.run.status.isTerminal = true ∧
      ∀ k v, (verdicts w (as.map .move) x)[k]? = some v → inTime (n + k) = v := by
  induction hd : x.distance w.settings using isNearer_wf.induction generalizing x n with
  | _ d ih =>
    by_cases ht : x.machine.run.status.isTerminal = true
    · exact ⟨[], by simp, ht, by simp [verdicts]⟩
    · let now : Moment := { registry := r, builtin := hr, flows := flows }
      obtain ⟨a, hallow, ha, hsome, hnone⟩ := exists_inPace (w := w) h hrou hm hask.status
        (Bool.eq_false_iff.mpr ht) hb now
      have hcontrols : (Input.move a).Controls r flows := by
        rcases ha with rfl | ⟨t, ha⟩
        · exact ⟨rfl, rfl⟩
        · cases a <;> trivial
      -- Where the verdict is given, the next one is open; where it is not, it stays so.
      obtain ⟨hopen, hgiven⟩ :
          (x.move w a).Timely (inTime (n + (x.verdict? (.move a)).toList.length)) ∧
            ∀ v, x.verdict? (.move a) = some v → inTime n = v := by
        cases hv : x.verdict? (.move a) with
        | none => exact ⟨hnone hv, by simp⟩
        | some v =>
          obtain ⟨rfl, hopen⟩ := hsome v hv
          exact ⟨hopen _, by rintro _ ⟨⟩; rfl⟩
      obtain ⟨as, has, hend, hverdicts⟩ := ih _ (hd ▸ move_isNearer h hallow) (take_isSound h (.move a))
        (hrou.take h (.move a)) (take_main (w := w) h hm (.move a)) (move_isUnasked h hask a) _ hopen rfl
      refine ⟨a :: as, ?_, hend, fun k v hk => ?_⟩
      · rintro b (_ | ⟨_, hb⟩)
        · exact hcontrols
        · exact has b hb
      · rw [List.map_cons, verdicts] at hk
        cases hv : x.verdict? (.move a) with
        | none =>
          rw [hv] at hk hverdicts
          exact hverdicts k v hk
        | some b =>
          rw [hv] at hk hverdicts
          cases k with
          | zero => exact (hgiven b hv).trans (Option.some.inj hk)
          | succ k =>
            rw [Nat.add_comm k, ← Nat.add_assoc]
            exact hverdicts k v hk

end Workflow.Execution
