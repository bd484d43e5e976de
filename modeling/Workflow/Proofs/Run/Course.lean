import Mathlib.Logic.Function.Iterate
import Workflow.Proofs.Run.Ledger
import Workflow.Proofs.Run.Retelling
import Workflow.Proofs.Run.Vigil
/-!
The course of a run that nothing cuts short. What a run does is determined by its gist and by what its
walker does next, but for the handlers that have not ended in time; everything else that goes on in it
leaves it where it is in its course.
-/

namespace Workflow

/-- How far a run has come: its gist, what its walker does next, and how many handlers it is done
with. -/
structure Bearing where
  machine : Machine
  stance : Stance
  settled : Nat

/-- What runs that differ in their times have around them in common. -/
def World.background (w : World) (r : Registry) (flows : Entries Flow) : Surroundings where
  settings := w.settings
  registry := r
  flows := flows
  provider := w.provider
  slotsLocked := false
  calls := []
  now := 0.0
  stamp := 0

theorem World.surroundings_alike (w : World) {now : Moment} {r : Registry} {flows : Entries Flow}
    (hr : now.registry = r) (hf : now.flows = flows) :
    (w.surroundings now).Alike (w.background r flows) :=
  ⟨rfl, hr, hf, rfl⟩

/-- An input that neither cancels a run nor writes its variables; steps find the same handlers and flows
around them. -/
def Input.Controls (r : Registry) (flows : Entries Flow) : Input → Prop
  | .move (.step now) => now.registry = r ∧ now.flows = flows
  | .move _ => True
  | .command c => c.IsControl

/-- What comes of an attempt, by whether its handler has ended in time. -/
def Machine.verdict (m : Machine) (r : Registry) (a : Attempt) (inTime : Bool) : Answer :=
  if inTime then m.settled (((m.call? a).map r.reply).getD .interrupted)
  else .outcome (.failed (.timeout a.node.id a.policy.timeoutMs) none)

/-- How the course of a run goes on, if it is known which handlers end in time. -/
def Bearing.next (e : Surroundings) (inTime : Nat → Bool) (b : Bearing) : Bearing :=
  match b.stance with
  | none => b
  | some (.wake (.settlement a _ _) _ _, p) =>
    { b with
      stance := some (.answer (b.machine.verdict e.registry a (inTime b.settled)), p)
      settled := b.settled + 1 }
  | some (c, p) =>
    let x := (b.machine.step e 0 c p).gist
    { b with machine := x.1, stance := x.2 }

/-- What a run tells as its course goes on, the newest first. -/
def Bearing.said (e : Surroundings) (b : Bearing) : List (String × Entries Value) :=
  match b.stance with
  | none | some (.wake (.settlement _ _ _) _ _, _) => []
  | some (c, p) => heard (b.machine.step e 0 c p).1.effects

namespace Machine

variable {roles : List Role} {m n : Machine} {c d : Control} {p q : List Pending} {e f : Surroundings}
  {t : TaskId}

/-- A step leaves a run where it is in its course and tells nothing, or takes it on as the same step does
with its gist and tells the same, unless the run pauses with it. -/
def Recounts (f : Surroundings) (m : Machine) (c : Control) (p : List Pending) (x : StepResult) : Prop :=
  (x.gist = (m.gist, Stance.gist (some (c, p))) ∧ Hushes m x.1) ∨
    ∃ d q, Stance.gist (some (c, p)) = some (d, q) ∧ d.wait? = none ∧
      StepResult.Agrees x (m.gist.step f 0 d q) ∧
      (Echoes m m.gist x.1 (m.gist.step f 0 d q).1 ∨ x.1.run.status = .paused)

theorem Recounts.pursues {x : StepResult} (h : Recounts f m c p x) :
    (x.gist = (m.gist, Stance.gist (some (c, p))) ∧ Hushes m x.1) ∨
      ∀ inTime k, Bearing.next f inTime ⟨m.gist, Stance.gist (some (c, p)), k⟩ = ⟨x.gist.1, x.gist.2, k⟩ ∧
        (Utters (Bearing.said f ⟨m.gist, Stance.gist (some (c, p)), k⟩) m x.1 ∨
          x.1.run.status = .paused) := by
  obtain h | ⟨d, q, hd, hw, ha, ht⟩ := h
  · exact .inl h
  · refine .inr fun inTime k => ⟨?_, ht.imp_left ?_⟩
    · rw [hd, ha]
      unfold Bearing.next
      cases d with
      | wake w s i => cases hw
      | _ => rfl
    · rintro ⟨es, hm, b, hb, hes⟩
      have hsaid : Bearing.said f ⟨m.gist, some (d, q), k⟩ = es := by
        rw [← hes, ← List.append_nil b, ← show m.gist.effects = [] from rfl, ← hb]
        unfold Bearing.said
        cases d with
        | wake w s i => cases hw
        | _ => rfl
      rw [hd, hsaid]
      exact hm

/-- An answer is handed to the work that waits for it, except that a node is come to after a pause. -/
theorem answer_recounts (he : e.Alike f) {k : Pending} (hk : ∀ held, k ≠ .slot held) (a : Answer)
    (p : List Pending) : Recounts f m (.answer a) (k :: p) (m.step e t (.answer a) (k :: p)) := by
  obtain ⟨l, hl⟩ : ∃ l, k.gist? = some l := by
    cases k <;> first | exact ⟨_, rfl⟩ | exact absurd rfl (hk _)
  have hw : Stance.work (k :: p) = l :: Stance.work p := List.filterMap_cons_some hl
  by_cases ha : a = .done ∧ ∃ walk node, k = .checkpoint walk node
  · obtain ⟨rfl, walk, node, rfl⟩ := ha
    exact .inl ⟨rfl, .refl m⟩
  · have harrived : Stance.gist (some (.answer a, k :: p)) = some (.answer a, l :: Stance.work p) := by
      show some (Stance.arrived (.answer a) (Stance.work (k :: p))) = _
      rw [hw]
      unfold Stance.arrived
      split
      · rename_i hd hk
        cases hd
        cases hk
        refine absurd ⟨rfl, ?_⟩ ha
        cases k <;> cases hl
        exact ⟨_, _, rfl⟩
      · rfl
    exact .inr ⟨_, _, harrived, rfl,
      resume_agrees (m.gist_gist.symm) (Stance.work_work p).symm he hl a,
      .inl (resume_echoes m.gist_gist.symm hl a)⟩

/-- A step of the walker that does not end a wait. -/
theorem Stands.recounts (h : Stands m c p) (hl : m.token.cancelled = false) (hc : c.wait? = none)
    (he : e.Alike f) (t : TaskId) : Recounts f m c p (m.step e t c p) := by
  have halted (h : m.IsHalted) : Recounts f m c p (m.step e t c p) := by
    rw [h.2] at hl
    cases hl
  cases h with
  | enqueue h =>
    show Recounts f m .enqueue [] (m.enqueue [])
    unfold Machine.enqueue
    rw [if_neg (by rw [hl]; decide)]
    exact .inl ⟨rfl, .after (.spawn m _) (.spawn _ _)⟩
  | start h t u s i => cases hc
  | execute h hp =>
    exact .inr ⟨.execute, _, rfl, rfl, execute_agrees m.gist_gist.symm (Stance.work_work p).symm,
      .inl (execute_echoes m.gist_gist.symm)⟩
  | walk h hu hw hm hlive =>
    by_cases ha : ∃ a, c = .answer a
    · obtain ⟨a, rfl⟩ := ha
      obtain ⟨q, b, rfl, hq, -⟩ := hu.work
      cases q with
      | nil => exact answer_recounts he (by simp) a b
      | cons k q =>
        refine answer_recounts he ?_ a _
        rintro held rfl
        exact hq _ List.mem_cons_self
    · have hd : Stance.gist (some (c, p)) = some (c, Stance.work p) := by
        cases c <;> first | rfl | exact absurd hw id | exact absurd ⟨_, rfl⟩ ha
      exact .inr ⟨c, _, hd, hc, walk_agrees m.gist_gist.symm (Stance.work_work p).symm he hw
        (fun a he => ha ⟨a, he⟩) (by rw [h]; rfl), walk_echoes rfl he hw fun a he => ha ⟨a, he⟩⟩
  | wake h hu hw hm s i => cases hc
  | resume h hu hm s i => cases hc
  | back h hu hm => exact halted h
  | refuse h hu walk node => exact halted h
  | unwind h hu => exact halted h
  | ended h hp a =>
    rcases p with _ | ⟨k, _ | ⟨l, q⟩⟩
    · have hd : Stance.gist (some (.answer a, [])) = some (.answer a, []) := by
        cases a <;> rfl
      exact .inr ⟨_, _, hd, rfl, Prod.ext m.gist_gist.symm rfl, .inl (.refl m m.gist)⟩
    · obtain ⟨held, rfl⟩ : ∃ held, k = .slot held := by
        cases k <;> first | exact ⟨_, rfl⟩ | exact absurd hp id
      have given : Hushes m (if held then m.effect .giveSlotBack else m) := by
        split
        · exact .effect m (x := .giveSlotBack) rfl
        · exact .refl m
      refine .inl ⟨by cases held <;> cases a <;> rfl, ?_⟩
      cases a with
      | interrupted => exact given
      | thrown f => exact given
      | _ => exact given.after (.effect _ (x := .prune) rfl)
    · cases k <;> exact absurd hp id

/-- Commands that control the pauses of a run leave its gist as it is. -/
theorem obey_gist (m : Machine) {c : Command} (hc : c.IsControl) : (m.obey c).1.gist = m.gist := by
  have released (n : Machine) (mode : String) (hs : n.run.status = .paused) :
      (n.release mode).gist = n.gist := by
    unfold release
    dsimp only
    rw [endPause_gist]
    unfold gist Run.gist emit effect
    dsimp only
    rw [hs]
    rfl
  cases c with
  | start slotted =>
    show (m.start slotted).gist = m.gist
    cases hm : m.main with
    | none =>
      rw [start_eq hm]
      rfl
    | some t =>
      unfold start
      rw [hm]
  | pause =>
    show m.pause.1.gist = m.gist
    unfold pause
    split <;> rfl
  | resume =>
    show m.resumeRun.1.gist = m.gist
    unfold resumeRun
    split
    · exact released { m with stepArmed := false } _ (beq_iff_eq.mp (by assumption))
    · rfl
  | stepOver =>
    show m.stepOver.1.gist = m.gist
    unfold stepOver
    split
    · exact released { m with stepArmed := true } _ (beq_iff_eq.mp (by assumption))
    · rfl
  | edit f => rfl
  | cancel reason stamp => exact absurd hc id
  | setVar name v frame => exact absurd hc id

/-- What a walker waits for is what the work that waits in it is for. -/
theorem Stands.meets {w : Wait} {s i : Bool} (h : Stands m (.wake w s i) p) : w.Meets p := by
  cases h with
  | start => trivial
  | walk h hu hc => exact absurd hc id
  | wake h hu hw hm => exact hm
  | resume h hu hm => exact hm

end Machine

namespace Execution

variable {x : Execution} {w : World} {r : Registry} {roles : List Role} {s : Strand} {e : Surroundings}

section wake

variable (hx : x.Undisturbed r) (hs : x.active = some s)
  (hr : x.machine.Sound roles x.log (some s)) (hm : x.machine.main = some s.task)

include hx hs hr hm

/-- The end of a wait of the walker, that for a handler apart, leaves the run where it is in its
course. -/
theorem Undisturbed.wake_stance {v : Wait} {a i : Bool} (hc : s.control = .wake v a i)
    (hv : ∀ b h u, v ≠ .settlement b h u) :
    (x.machine.wake e s.task v a i s.pending).2.stance.gist =
      Stance.gist (some (.wake v a i, s.pending)) := by
  have hr' : x.machine.Sound roles x.log x.active := by rw [hs]; exact hr
  obtain ⟨-, q, hq, hsuits, hstands⟩ := hr.strand rfl
  rw [hr.main.mpr hm] at hq
  cases hq
  have hself := bides_of_strand (v := v) hs (by rw [hc]; rfl)
  have hstands := hstands rfl
  rw [hc] at hsuits hstands
  cases hsuits.2 rfl
  have hsuits := hsuits.1
  generalize s.pending = p at hsuits hstands
  unfold Machine.wake
  cases v with
  | start taker watcher =>
    dsimp only
    rw [if_neg (by decide)]
    split <;> rfl
  | settlement b h u => exact absurd rfl (hv b h u)
  | grace h => exact absurd hself hx.graceless
  | removal h o j =>
    obtain ⟨-, rfl⟩ := (show _ ∧ j = false from hsuits)
    rfl
  | nap u =>
    have hend : (x.machine.dropTimer s.task).hasEnded u = false := by
      show x.machine.hasEnded u = false
      rw [Machine.hasEnded, (hx.guarded hself rfl).ending? hr']
      rfl
    dsimp only
    rw [if_neg (by rw [hend]; decide)]
    rfl
  | rousing u j =>
    obtain ⟨-, rfl⟩ := (show _ ∧ j = false from hsuits)
    dsimp only
    rw [if_neg (by decide)]
    split
    · rename_i he
      cases (hx.dismissed hself).ending? hr' he
    · rfl
  | resumption => rfl
  | sleep => rfl
  | grant => exact absurd hsuits id
  | cancellation => exact absurd hsuits id

/-- What the walker makes of the end of a wait for a handler. -/
theorem Undisturbed.settlement_stance {b : Attempt} {h u : TaskId} {a i : Bool}
    (hc : s.control = .wake (.settlement b h u) a i) :
    (x.machine.wake e s.task (.settlement b h u) a i s.pending).2.stance.gist =
      some (.answer (x.machine.gist.verdict r b (x.machine.hasEnded h)), Stance.work s.pending) := by
  have hr' : x.machine.Sound roles x.log x.active := by rw [hs]; exact hr
  obtain ⟨-, q, hq, hsuits, hstands⟩ := hr.strand rfl
  rw [hr.main.mpr hm] at hq
  cases hq
  have hself := bides_of_strand (v := .settlement b h u) hs (by rw [hc]; rfl)
  have hmeets := ((hc ▸ hstands rfl : x.machine.Stands _ _)).meets
  rw [hc] at hsuits
  cases hsuits.2 rfl
  obtain ⟨hhandler, hwatcher⟩ := (show roles[h]? = some .handler ∧ roles[u]? = some .watcher from hsuits.1)
  obtain ⟨call, hcall, hheads⟩ := hx.handler hself
  obtain ⟨k, q, hp⟩ : ∃ k q, s.pending = .primitive k :: q := by
    have hmeets : (Answer.handled (.failure none)).Meets s.pending := hmeets
    generalize s.pending = p at hmeets
    rcases p with _ | ⟨k, q⟩
    · exact absurd hmeets id
    · cases k <;> first | exact ⟨_, _, rfl⟩ | exact absurd hmeets id
  have arrived (a : Answer) : Stance.gist (some (.answer a, s.pending)) =
      some (.answer a, Stance.work s.pending) := by
    rw [hp]
    cases a <;> rfl
  have hend : (x.machine.dropTimer s.task).hasEnded u = false := by
    show x.machine.hasEnded u = false
    rw [Machine.hasEnded, (hx.guarded hself rfl).ending? hr']
    rfl
  -- The watcher is cancelled first, which says nothing of the handler.
  have hkept : ((x.machine.dropTimer s.task).interruptTask u).ending? h = x.machine.ending? h := by
    have hne : u ≠ h := by
      rintro rfl
      rw [hhandler] at hwatcher
      cases hwatcher
    have hnot := (Machine.dropTimer_aside hr.fitting s.task).fits.not_handsOn hwatcher (by decide)
    rw [Machine.ending?, Machine.state?_interruptTask hnot, if_neg hne]
    rfl
  have htoken : ((x.machine.dropTimer s.task).interruptTask u).token = x.machine.token :=
    (Machine.Silent.interruptTask _ u).mute.token
  unfold Machine.wake Machine.wakeFromSettlement Machine.removeHandler
  dsimp only
  rw [hend, if_neg (by decide), if_neg (by decide), hkept, Machine.hasEnded]
  cases he : x.machine.ending? h with
  | none => exact arrived _
  | some a =>
    obtain ⟨c, hc, hh⟩ := hheads
    rw [post_of_ending? hr' he] at hc
    cases hc
    cases hh
    refine (arrived _).trans ?_
    have hgist : x.machine.gist.call? b = some call := (Machine.call?_congr rfl b).trans hcall
    unfold Machine.verdict Machine.settled
    rw [htoken, hgist]
    rfl

end wake

/-- What the walker does next in the course of a run. Before its start that is to execute the run. -/
def position (x : Execution) : Stance :=
  if x.machine.main.isNone then some (.execute, []) else x.stance.gist

/-- How far a run has come that is done with some handlers. -/
def bearing (x : Execution) (settled : Nat) : Bearing :=
  ⟨x.machine.gist, x.position, settled⟩

/-- If the walker takes the step with which it is done with a handler, whether that has ended in
time. -/
def verdict? (x : Execution) : Input → Option Bool
  | .move (.step _) =>
    match x.active with
    | some ⟨_, .wake (.settlement _ h _) _ _, _⟩ => some (x.machine.hasEnded h)
    | _ => none
  | _ => none

/-- A change that leaves a run where it is in its course. -/
theorem bearing_congr {y : Execution} (hg : y.machine.gist = x.machine.gist)
    (hm : y.machine.main = x.machine.main) (hs : x.stance.Stirs y.stance) (n : Nat) :
    y.bearing n = x.bearing n := by
  have hst : y.stance.gist = x.stance.gist := by
    generalize x.stance = a at hs
    generalize y.stance = b at hs
    cases hs with
    | refl => rfl
    | wake v => cases v <;> rfl
  unfold bearing position
  rw [hg, hm, hst]

theorem Attends.bearing {y : Execution} (h : x.Attends y) (n : Nat) : y.bearing n = x.bearing n :=
  bearing_congr (congrArg Machine.gist h.watchers :) (congrArg Machine.main h.watchers :) h.stance n

/-- A command that controls the pauses of a run, or starts it. -/
theorem obey_bearing (h : x.IsSound) {c : Command} (hc : c.IsControl) (n : Nat) :
    (x.obey c).bearing n = x.bearing n := by
  unfold obey
  split
  · rename_i hi
    have hidle := Option.isNone_iff_eq_none.mp hi
    have hg : (x.put (x.machine.obey c).1 none).machine.gist = x.machine.gist :=
      x.machine.obey_gist hc
    by_cases hstart : x.machine.main = none ∧ ∃ slotted, c = .start slotted
    · obtain ⟨hm, slotted, rfl⟩ := hstart
      have hmain : (x.put (x.machine.start slotted) none).machine.main = some x.machine.tasks.size := by
        rw [Machine.start_eq hm]
        rfl
      have hstance := start_stance hm slotted
      have hp : (x.put (x.machine.start slotted) none).position = x.position := by
        unfold position
        rw [hmain, hstance, hm]
        cases slotted <;> rfl
      show (⟨_, (x.put (x.machine.start slotted) none).position, n⟩ : Bearing) = _
      rw [hp]
      exact congrArg (fun g => (⟨g, x.position, n⟩ : Bearing)) hg
    · obtain ⟨ht, hm⟩ := Machine.obey_tends x.machine (c := c) fun hm slotted hs =>
        hstart ⟨hm, slotted, hs⟩
      exact bearing_congr hg hm (stirs_of_tends h hidle rfl (ht.trans (.of_tasks rfl)) hm) n
  · rfl

/-- Only the walker is done with handlers. -/
theorem main_of_verdict? (hr : x.machine.Sound roles x.log x.active) (hs : x.active = some s) {now : Moment}
    {v : Bool} (hv : x.verdict? (.move (.step now)) = some v) :
    x.machine.main = some s.task ∧ ∃ a h u b i, s.control = .wake (.settlement a h u) b i ∧
      v = x.machine.hasEnded h := by
  obtain ⟨-, q, hq, hsuits, -⟩ := hr.strand hs
  unfold verdict? at hv
  dsimp only at hv
  rw [hs] at hv
  split at hv
  · rename_i hc
    cases hc
    cases hv
    obtain ⟨rfl, -⟩ := Machine.settlement_suits hsuits.1
    exact ⟨hr.main.mp hq, _, _, _, _, _, rfl, rfl⟩
  · cases hv

/-- What a task tells by a step is what is told from then on. -/
theorem heard_step (h : x.machine.effects = []) (hs : x.active = some s) {now : Moment}
    {es : List (String × Entries Value)} (hu : x.machine.Utters es
      (x.machine.step (w.surroundings now) s.task s.control s.pending).1) :
    heard (x.step w now).log = es ++ heard x.log := by
  obtain ⟨d, hd, rfl⟩ := hu
  obtain ⟨late, hl, hmute⟩ := step_log (w := w) hs now
  rw [hl, hd, h, List.append_nil, heard_append, heard_append, heard_mute hmute, List.nil_append]

/-- Where a run is in its course is where its walker is, as long as that is in the middle of its steps. -/
theorem bearing_of_walker (hs : x.active = some s) (hm : x.machine.main = some s.task) (n : Nat) :
    x.bearing n = ⟨x.machine.gist, Stance.gist (some (s.control, s.pending)), n⟩ := by
  unfold bearing position
  rw [hm, stance_of_walker hs hm]
  rfl

/-- After a step it is where this has taken the walker. -/
theorem bearing_step (h : x.IsSound) (hs : x.active = some s) (hm : x.machine.main = some s.task)
    (now : Moment) (n : Nat) : (x.step w now).bearing n =
      ⟨(x.machine.step (w.surroundings now) s.task s.control s.pending).1.gist,
        (x.machine.step (w.surroundings now) s.task s.control s.pending).2.stance.gist, n⟩ := by
  have ht := step_treads (w := w) h hs hm now
  obtain ⟨-, roles, hr⟩ := h
  rw [hs] at hr
  obtain ⟨_, more, hproc⟩ := hr.proceeds w now
  have hmain : (x.step w now).machine.main = some s.task :=
    (congrArg Machine.main ht.core : _ = _).trans (hproc.main.trans hm)
  have hgist : (x.step w now).machine.gist =
      (x.machine.step (w.surroundings now) s.task s.control s.pending).1.gist :=
    (congrArg Machine.gist ht.core :)
  unfold bearing position
  rw [hmain, hgist, ht.stance]
  rfl

/-- The end of a wait of the walker says nothing and leaves the gist as it is. -/
theorem wake_silent (h : x.IsSound) (hs : x.active = some s) (hm : x.machine.main = some s.task)
    (now : Moment) {v : Wait} {a i : Bool} (hc : s.control = .wake v a i) :
    (x.machine.wake (w.surroundings now) s.task v a i s.pending).1.gist = x.machine.gist ∧
      heard (x.step w now).log = heard x.log := by
  obtain ⟨hquiet, roles, hr⟩ := h
  rw [hs] at hr
  obtain ⟨-, q, hq, hsuits, hstands⟩ := hr.strand rfl
  rw [hr.main.mpr hm] at hq
  cases hq
  have hmute := (Machine.walkerWake_aside s.task hr.fitting (w.surroundings now) (hc ▸ hsuits)
    (hc ▸ hstands rfl : x.machine.Stands _ _).meets).silent.mute
  obtain ⟨d, hd, hes⟩ := hmute.adds
  have hhush : x.machine.Hushes (x.machine.wake (w.surroundings now) s.task v a i s.pending).1 :=
    ⟨d, hd, heard_mute hes⟩
  refine ⟨hmute.gist, (heard_step hquiet hs ?_ : heard (x.step w now).log = [] ++ heard x.log)⟩
  rw [hc]
  exact hhush

/-- The walker goes on after a wait for a handler, and tells nothing. -/
theorem settlement_goes (h : x.IsSound) (hx : x.Undisturbed r) (hs : x.active = some s)
    (hm : x.machine.main = some s.task) {now : Moment} (flows : Entries Flow) {inTime : Nat → Bool} {n : Nat}
    {v : Bool} (hv : x.verdict? (.move (.step now)) = some v) (hn : inTime n = v) :
    (x.step w now).bearing (n + 1) = (x.bearing n).next (w.background r flows) inTime ∧
      heard (x.step w now).log = (x.bearing n).said (w.background r flows) ++ heard x.log := by
  obtain ⟨roles, hr'⟩ := h.2
  have hr := hr'
  rw [hs] at hr
  obtain ⟨-, a, k, u, b, i, hc, rfl⟩ := main_of_verdict? hr' hs hv
  obtain ⟨hgist, hheard⟩ := wake_silent (w := w) h hs hm now hc
  have hst := hx.settlement_stance (e := w.surroundings now) hs hr hm hc
  rw [bearing_of_walker hs hm, bearing_step h hs hm, hheard, hc]
  refine ⟨?_, rfl⟩
  show (⟨(x.machine.wake _ _ _ _ _ _).1.gist, (x.machine.wake _ _ _ _ _ _).2.stance.gist, _⟩ :
    Bearing) = _
  rw [hst, hgist]
  show _ = (⟨_, some (.answer (x.machine.gist.verdict r a (inTime n)), Stance.work s.pending), _⟩ :
    Bearing)
  rw [hn]

/-- After any other wait the run is where it was. -/
theorem wake_stays (h : x.IsSound) (hx : x.Undisturbed r) (hs : x.active = some s)
    (hm : x.machine.main = some s.task) {now : Moment} {v : Wait} {a i : Bool}
    (hc : s.control = .wake v a i) (hv : x.verdict? (.move (.step now)) = none) (n : Nat) :
    (x.step w now).bearing n = x.bearing n ∧ heard (x.step w now).log = heard x.log := by
  obtain ⟨roles, hr⟩ := h.2
  rw [hs] at hr
  have hne : ∀ b h u, v ≠ .settlement b h u := by
    rintro b h u rfl
    unfold verdict? at hv
    obtain ⟨t, c, p⟩ := s
    cases hc
    dsimp only at hv
    rw [hs] at hv
    cases hv
  obtain ⟨hgist, hheard⟩ := wake_silent (w := w) h hs hm now hc
  have hst := hx.wake_stance (e := w.surroundings now) hs hr hm hc hne
  refine ⟨?_, hheard⟩
  rw [bearing_of_walker hs hm, bearing_step h hs hm, hc]
  show (⟨(x.machine.wake _ _ _ _ _ _).1.gist, (x.machine.wake _ _ _ _ _ _).2.stance.gist, _⟩ :
    Bearing) = _
  rw [hst, hgist]

/-- The walker takes a step: the run stays where it is in its course and tells nothing, or it goes on and
tells what is to be told, unless it pauses. -/
theorem step_goes (h : x.IsSound) (hx : x.Undisturbed r) (hs : x.active = some s)
    (hm : x.machine.main = some s.task) {now : Moment} {flows : Entries Flow} (hn : now.registry = r)
    (hf : now.flows = flows) (inTime : Nat → Bool) (n : Nat)
    (hv : ∀ v, x.verdict? (.move (.step now)) = some v → inTime n = v) :
    let y := x.step w now
    (y.bearing (n + (x.verdict? (.move (.step now))).toList.length) = x.bearing n ∧
      heard y.log = heard x.log) ∨
    (y.bearing (n + (x.verdict? (.move (.step now))).toList.length) =
        (x.bearing n).next (w.background r flows) inTime ∧
      (heard y.log = (x.bearing n).said (w.background r flows) ++ heard x.log ∨
        y.machine.run.status = .paused)) := by
  intro y
  cases hverdict : x.verdict? (.move (.step now)) with
  | some v =>
    obtain ⟨hgo, htold⟩ := settlement_goes (w := w) h hx hs hm flows hverdict (hv v hverdict)
    exact .inr ⟨hgo, .inl htold⟩
  | none =>
    cases hc : s.control.wait? with
    | none =>
      obtain ⟨roles, hr⟩ := h.2
      rw [hs] at hr
      obtain ⟨-, q, hq, -, hstands⟩ := hr.strand rfl
      rw [hr.main.mpr hm] at hq
      cases hq
      have tells {es : List (String × Entries Value)} (hu : x.machine.Utters es
          (x.machine.step (w.surroundings now) s.task s.control s.pending).1) :
          heard y.log = es ++ heard x.log :=
        heard_step h.1 hs hu
      rw [bearing_of_walker hs hm, bearing_step h hs hm]
      rcases ((hstands rfl).recounts hx.live hc (w.surroundings_alike hn hf) s.task).pursues with
        ⟨hstay, hhush⟩ | hgo
      · exact .inl ⟨congrArg (fun g => (⟨g.1, g.2, n⟩ : Bearing)) hstay, (tells hhush :)⟩
      · obtain ⟨hnext, htold⟩ := hgo inTime n
        refine .inr ⟨hnext.symm, htold.imp tells fun hp => ?_⟩
        exact (congrArg (·.run.status) (step_treads (w := w) h hs hm now).core :).trans hp
    | some v =>
      obtain ⟨a, i, hc⟩ : ∃ a i, s.control = .wake v a i := by
        cases h : s.control with
        | wake w a i =>
          rw [h] at hc
          cases hc
          exact ⟨a, i, rfl⟩
        | _ =>
          rw [h] at hc
          cases hc
      exact .inl (wake_stays h hx hs hm hc hverdict n)

/-- A step of the walker leaves the run where it is in its course, or takes it on. -/
theorem step_bearing (h : x.IsSound) (hx : x.Undisturbed r) (hs : x.active = some s)
    (hm : x.machine.main = some s.task) {now : Moment} {flows : Entries Flow} (hn : now.registry = r)
    (hf : now.flows = flows) (inTime : Nat → Bool) (n : Nat)
    (hv : ∀ v, x.verdict? (.move (.step now)) = some v → inTime n = v) :
    ∃ j, (x.step w now).bearing (n + (x.verdict? (.move (.step now))).toList.length) =
      (Bearing.next (w.background r flows) inTime)^[j] (x.bearing n) := by
  rcases step_goes (w := w) h hx hs hm hn hf inTime n hv with ⟨h, -⟩ | ⟨h, -⟩
  · exact ⟨0, h⟩
  · exact ⟨1, h⟩

/-- Whatever comes in, a run stays where it is in its course, or goes on in it. -/
theorem take_bearing (h : x.IsSound) (hx : x.Undisturbed r) {i : Input} {flows : Entries Flow}
    (hi : i.Controls r flows) (inTime : Nat → Bool) (n : Nat)
    (hv : ∀ v, x.verdict? i = some v → inTime n = v) :
    ∃ j, (x.take w i).bearing (n + (x.verdict? i).toList.length) =
      (Bearing.next (w.background r flows) inTime)^[j] (x.bearing n) := by
  have stays {y : Execution} (hn : x.verdict? i = none) (hy : y.bearing n = x.bearing n) :
      ∃ j, y.bearing (n + (x.verdict? i).toList.length) =
        (Bearing.next (w.background r flows) inTime)^[j] (x.bearing n) := by
    rw [hn]
    exact ⟨0, hy⟩
  cases i with
  | command c => exact stays rfl (obey_bearing h hi n)
  | move a =>
    show ∃ j, (x.move w a).bearing _ = _
    cases a with
    | step now =>
      cases hs : x.active with
      | none =>
        have hn : x.verdict? (.move (.step now)) = none := by
          unfold verdict?
          rw [hs]
        refine stays hn ?_
        unfold move step
        rw [hs]
        split <;> rfl
      | some s =>
        have hmove : x.move w (.step now) = x.step w now := by
          unfold move
          rw [if_pos (by simp [allows, isIdle, hs])]
        rw [hmove]
        by_cases hm : x.machine.main = some s.task
        · exact step_bearing h hx hs hm hi.1 hi.2 inTime n hv
        · refine stays ?_ ((step_attends h hs hm now).bearing n)
          obtain ⟨-, roles, hr⟩ := h
          cases hv : x.verdict? (.move (.step now)) with
          | none => rfl
          | some v => exact absurd (main_of_verdict? hr hs hv).1 hm
    | _ =>
      refine stays rfl ?_
      rcases move_cases (w := w) h _ with ht | ⟨now, s, hstep, -⟩
      · exact ht.bearing n
      · cases hstep

end Execution

end Workflow
