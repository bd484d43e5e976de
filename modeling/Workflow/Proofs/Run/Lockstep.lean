import Workflow.Proofs.Run.Ascent
import Workflow.Proofs.Run.Isolation
import Workflow.Proofs.Run.Termination
/-!
Runs in which a call in the scope of its caller goes on. Whatever is done to such a run, taking the call
back before it leads to the same as taking it back afterwards.
-/

namespace Workflow

namespace Descent

variable {d : Descent} {m : Machine} {x : Execution} {w : World} {t : TaskId}

theorem Lasts.endPause (h : d.Lasts m) : d.Lasts m.endPause := by
  have hs := (Machine.Silent.endPause m).mute
  exact h.of_run hs.layers hs.run (Machine.Tends.endPause m).size

/-! Commands. -/

theorem release_machine (h : d.Lasts m) (mode : String) :
    (d.machine m).release mode = d.machine (m.release mode) ∧ d.Lasts (m.release mode) := by
  let n : Machine := { m with
    pauseRequested := false, run := { m.run with status := .running, pauseReason := none } }
  have hn : d.Lasts n := ⟨h.hollow, h.stack, h.traced, h.deeper, h.tasks⟩
  let payload : Entries Value := [("nodeId", .ofText? m.run.current), ("mode", .str mode)]
  have he : (d.machine n).emit "run.resumed" payload = d.machine (n.emit "run.resumed" payload) :=
    emit_eq hn _ (by simp [payload, Effect.backPayload])
  exact ⟨(congrArg Machine.endPause he).trans (endPause_machine _), (hn.emit _ _).endPause⟩

/-- A command does the same with the call taken back. -/
theorem obey_machine (h : d.Lasts m) (hm : m.main ≠ none) {c : Command}
    (hc : ∀ name v frame, c ≠ .setVar name v frame) :
    (d.machine m).obey c = (d.machine (m.obey c).1, (m.obey c).2) ∧ d.Lasts (m.obey c).1 := by
  cases c with
  | start slotted =>
    obtain ⟨t, ht⟩ := Option.ne_none_iff_exists'.mp hm
    have hs (n : Machine) (hn : n.main = some t) : n.start slotted = n := by
      unfold Machine.start
      rw [hn]
    show ((d.machine m).start slotted, true) = (d.machine (m.start slotted), true) ∧
      d.Lasts (m.start slotted)
    rw [hs _ ht, hs _ (show (d.machine m).main = some t from ht)]
    exact ⟨rfl, h⟩
  | pause =>
    show (d.machine m).pause = (d.machine m.pause.1, m.pause.2) ∧ d.Lasts m.pause.1
    unfold Machine.pause
    rw [show (d.machine m).run.status = m.run.status from rfl]
    split
    · exact ⟨rfl, h.of_run rfl rfl (Nat.le_refl _)⟩
    · exact ⟨rfl, h.of_run rfl rfl (Nat.le_refl _)⟩
    · exact ⟨rfl, h⟩
  | resume =>
    obtain ⟨he, hn⟩ := release_machine (m := { m with stepArmed := false })
      (h.of_run rfl rfl (Nat.le_refl _)) "resume"
    show (d.machine m).resumeRun = (d.machine m.resumeRun.1, m.resumeRun.2) ∧ d.Lasts m.resumeRun.1
    unfold Machine.resumeRun
    rw [show (d.machine m).run.status = m.run.status from rfl]
    split
    · exact ⟨congrArg (·, true) he, hn⟩
    · exact ⟨rfl, h⟩
  | stepOver =>
    obtain ⟨he, hn⟩ := release_machine (m := { m with stepArmed := true })
      (h.of_run rfl rfl (Nat.le_refl _)) "step"
    show (d.machine m).stepOver = (d.machine m.stepOver.1, m.stepOver.2) ∧ d.Lasts m.stepOver.1
    unfold Machine.stepOver
    rw [show (d.machine m).run.status = m.run.status from rfl]
    split
    · exact ⟨congrArg (·, true) he, hn⟩
    · exact ⟨rfl, h⟩
  | cancel reason stamp =>
    have halted (text : String) : ((d.machine m).cancelToken (some text)).endPause =
        d.machine (m.halt text) := by
      rw [cancelToken_machine, endPause_machine]
      rfl
    have going (n : Machine) (hn : n.main ≠ none) : (n.run.status == .pending && n.main.isNone) = false := by
      rw [Option.isNone_eq_false_iff.mpr (Option.isSome_iff_ne_none.mpr hn), Bool.and_false]
    have hmain (text : String) : (m.halt text).main ≠ none := by
      rw [(Machine.halt_changes m text).main]
      exact hm
    show (d.machine m).cancel reason stamp = (d.machine (m.cancel reason stamp).1,
      (m.cancel reason stamp).2) ∧ d.Lasts (m.cancel reason stamp).1
    unfold Machine.cancel
    rw [show (d.machine m).run.status = m.run.status from rfl]
    split
    · exact ⟨rfl, h⟩
    · dsimp only
      rw [halted, going (d.machine _) (hmain _), show (m.cancelToken (some _)).endPause = m.halt _ from rfl,
        going _ (hmain _)]
      exact ⟨rfl, (h.cancelToken _).endPause⟩
  | setVar name v frame => exact absurd rfl (hc name v frame)
  | edit f => exact ⟨rfl, h.of_eq rfl rfl rfl (Nat.le_refl _)⟩

/-! Moves. -/

theorem log_append (es : List Effect) {log : List Effect} (h : d.logged ≤ log.length) :
    d.log (es ++ log) = es.map .back ++ d.log log := by
  have hn : (es ++ log).length - d.logged = es.length + (log.length - d.logged) := by
    rw [List.length_append]
    omega
  rw [Descent.log, Descent.log, hn, List.take_length_add_append, List.drop_length_add_append,
    List.map_append, List.append_assoc]

/-- What is logged after the call has begun is taken back. -/
theorem opens (h : d.logged ≤ x.log.length) : d.guise.Opens x :=
  fun es => log_append es h

theorem put_execution (h : d.logged ≤ x.log.length) (m : Machine) (a : Option Strand) :
    (d.execution x).put (d.machine m) (a.map d.strand) = d.execution (x.put m a) :=
  d.guise.put_execution (opens h) m a

theorem isIdle_execution (d : Descent) (x : Execution) : (d.execution x).isIdle = x.isIdle :=
  d.guise.isIdle_execution x

theorem allows_execution (d : Descent) (x : Execution) (a : Move) :
    (d.execution x).allows a = x.allows a :=
  d.guise.allows_execution x a

/-- A step that does the same with the call taken back. -/
theorem step_execution (h : d.logged ≤ x.log.length) {s : Strand} (hs : x.active = some s)
    (now : Moment)
    (he : (d.machine x.machine).step (w.surroundings now) s.task (d.controlOf s.task s.control)
        (d.workOf s.task s.pending) =
      (d.machine (x.machine.step (w.surroundings now) s.task s.control s.pending).1,
        d.turnOf s.task (x.machine.step (w.surroundings now) s.task s.control s.pending).2)) :
    (d.execution x).step w now = d.execution (x.step w now) :=
  d.guise.stepIn_execution (opens h) hs he

/-! The course of a call. -/

/-- A run in which the call goes on. -/
structure Goes (d : Descent) (x : Execution) : Prop where
  sound : x.IsSound
  main : x.machine.main = some d.walker
  lasts : d.Lasts x.machine
  logged : d.logged ≤ x.log.length
  stance : ∀ c p, x.stance = some (c, p) → d.Does c ∧ d.Works p

theorem log_take (x : Execution) (w : World) (i : Input) : x.log.length ≤ (x.take w i).log.length := by
  have put (m : Machine) (a : Option Strand) : x.log.length ≤ (x.put m a).log.length := by
    show _ ≤ (m.effects ++ x.log).length
    rw [List.length_append]
    exact Nat.le_add_left _ _
  cases i with
  | command c =>
    show _ ≤ (x.obey c).log.length
    unfold Execution.obey
    split
    · exact put _ _
    · exact Nat.le_refl _
  | move a =>
    show _ ≤ (x.move w a).log.length
    unfold Execution.move
    split
    · cases a with
      | begin t =>
        show _ ≤ (x.begin t).log.length
        have hb := x.begins t
        generalize x.begin t = y at hb ⊢
        cases hb with
        | dismissed => exact put _ _
        | _ => exact Nat.le_refl _
      | step now =>
        show _ ≤ (x.step w now).log.length
        unfold Execution.step
        split
        · exact Nat.le_refl _
        · exact put _ _
      | tell t ticket => exact put _ _
      | grant t => exact Nat.le_refl _
    · exact Nat.le_refl _

/-- Tasks are never removed. -/
theorem size_take (h : x.IsSound) (hm : x.machine.main ≠ none) (i : Input) :
    x.machine.tasks.size ≤ (x.take w i).machine.tasks.size := by
  cases i with
  | command c =>
    show _ ≤ (x.obey c).machine.tasks.size
    unfold Execution.obey
    split
    · exact Nat.le_of_eq (Machine.tasks_size_obey hm c).symm
    · exact Nat.le_refl _
  | move a =>
    show _ ≤ (x.move w a).machine.tasks.size
    unfold Execution.move
    split
    · cases a with
      | begin t =>
        show _ ≤ (x.begin t).machine.tasks.size
        have hb := x.begins t
        generalize x.begin t = y at hb ⊢
        cases hb with
        | unready => exact Nat.le_refl _
        | dismissed => exact Nat.le_of_eq (size_turn x.machine t (.stop .interrupted)).symm
        | fresh | woken => exact Nat.le_of_eq (Machine.size_setState _).symm
      | step now =>
        cases hs : x.active with
        | none =>
          show _ ≤ (x.step w now).machine.tasks.size
          unfold Execution.step
          rw [hs]
        | some s =>
          obtain ⟨-, roles, hr⟩ := h
          rw [hs] at hr
          show _ ≤ (x.step w now).machine.tasks.size
          rw [Execution.step_eq hs]
          exact Nat.le_trans (hr.step_tends w now).size (Nat.le_of_eq (size_turn _ _ _).symm)
      | tell t ticket => exact (Machine.Tends.tell x.machine t ticket).size
      | grant t => exact Nat.le_of_eq (Machine.size_setState _).symm
    · exact Nat.le_refl _

/-- The walker is at most woken. -/
theorem Goes.stirs {y : Execution} (h : d.Goes x) (hs : x.stance.Stirs y.stance) (c : Control)
    (p : List Pending) (hc : y.stance = some (c, p)) : d.Does c ∧ d.Works p := by
  generalize hx : x.stance = a at hs
  rw [hc] at hs
  cases hs with
  | refl => exact h.stance c p hx
  | wake v s i s' i' q => exact ⟨trivial, (h.stance _ _ hx).2⟩

/-- Others leave the call where it is. -/
theorem Goes.attends {y : Execution} (h : d.Goes x) (ha : x.Attends y) (hy : y.IsSound)
    (hl : x.log.length ≤ y.log.length) (hs : x.machine.tasks.size ≤ y.machine.tasks.size) :
    d.Goes y where
  sound := hy
  main := (congrArg Machine.main ha.watchers :).trans h.main
  lasts := h.lasts.of_eq ha.layers (congrArg (·.run.stack) ha.watchers :)
    (congrArg (·.run.trace) ha.watchers :) hs
  logged := Nat.le_trans h.logged hl
  stance := h.stirs ha.stance

end Descent

namespace Machine

/-- Above the work below a walk the run is in the midst of its walk. -/
theorem Stands.underway_of_not_isBottom {m : Machine} {c : Control} {p : List Pending} (h : Stands m c p)
    (hp : ¬ IsBottom p) : Underway m p := by
  cases h with
  | enqueue => exact absurd trivial hp
  | start => exact absurd trivial hp
  | execute h hb => exact absurd hb hp
  | walk h hu => exact hu
  | wake h hu => exact hu
  | resume h hu => exact hu
  | back h hu => exact hu
  | refuse h hu => exact hu
  | unwind h hu => exact hu
  | ended h hb => exact absurd hb hp

end Machine

namespace Execution

/-- Whether a call has just been refused, since there are too many frames on the stack. -/
def Refuses (s : Settings) (x : Execution) : Prop :=
  ∃ p, x.stance = some (.answer (.outcome (.failed (.callDepth s.maxCallDepth) none)), p)

/-- Whether no call is refused during some moves and commands. -/
def Grants (w : World) : List Input → Execution → Prop
  | [], x => ¬ x.Refuses w.settings
  | i :: is, x => ¬ x.Refuses w.settings ∧ Grants w is (x.take w i)

end Execution

namespace Descent

open Execution (Treads)

variable {d : Descent} {x y : Execution} {w : World}

theorem Works.not_isBottom {p : List Pending} (h : d.Works p) : ¬ Machine.IsBottom p := by
  obtain ⟨ks, rfl, -⟩ := h
  intro hb
  have hk := Machine.frameKeys_bottom hb
  rw [frameKeys, List.filterMap_append] at hk
  exact d.framed (List.append_eq_nil_iff.mp hk).2

/-- In work of the call the stack holds a frame for each call, and those before. -/
theorem Works.length_stack {m : Machine} {key : Nat} {flow node : String} {p : List Pending}
    (h : d.Works p) (hu : m.Underway (.frame key flow node :: p)) : d.frames + 1 < m.run.stack.length := by
  obtain ⟨root, hk⟩ := hu.keys
  obtain ⟨ks, rfl, -⟩ := h
  have hlen := congrArg List.length hk
  simp only [Machine.stackKeys, frameKeys, List.filterMap_cons, List.filterMap_append, List.length_map,
    List.length_reverse, List.length_append, List.length_cons] at hlen
  unfold frames frameKeys
  omega

theorem Goes.spares (h : d.Goes x) (hm : x.machine.main = some t) : d.spares t = false := by
  rw [Option.some.inj (hm.symm.trans h.main)]
  exact d.spares_walker

/-- Work of the call waits for an answer, unless the work below the call does. -/
theorem Goes.awaits (h : d.Goes x) {a : Answer} {p : List Pending} (hs : x.stance = some (.answer a, p))
    (hb : ¬ x.Hands d.base) : ∃ k q, p = k :: q ∧ d.Awaits k ∧ d.Works q ∧
      ∀ key flow node, k = .frame key flow node → d.frames + 1 < x.machine.run.stack.length := by
  obtain ⟨-, hp⟩ := h.stance _ _ hs
  obtain ⟨ks, hks, hk⟩ := hp
  cases ks with
  | nil => exact absurd ⟨a, by rw [hs, hks]; rfl⟩ hb
  | cons k ks =>
    have hq : d.Works (ks ++ d.base) := ⟨ks, rfl, fun l hl => hk l (List.mem_cons_of_mem _ hl)⟩
    refine ⟨k, ks ++ d.base, hks, hk k List.mem_cons_self, hq, ?_⟩
    rintro key flow node rfl
    rcases h.sound.stands hs with hstands | ⟨v, hv, -⟩
    · have hu := hstands.underway_of_not_isBottom (Works.not_isBottom ⟨_, hks, hk⟩)
      rw [hks] at hu
      exact hq.length_stack hu
    · cases hv

/-- The start of the run is over. -/
theorem Goes.not_start (h : d.Goes x) (u v : TaskId) (a i : Bool) (p : List Pending) :
    x.stance ≠ some (.wake (.start u v) a i, p) := by
  intro hs
  have hbottom := (h.stance _ _ hs).2.not_isBottom
  have hstands := h.sound.stands hs
  rcases hstands with hstands | ⟨v', hv, hwaits⟩
  · cases hstands with
    | start => exact hbottom trivial
    | walk h hu hwalk => exact hwalk
    | wake h hu hwalk => exact hwalk
  · cases hv
    cases hwaits with
    | start => exact hbottom trivial
    | walk h hu hwalk => exact hwalk

/-- The walker takes a step of the call, unless it hands an answer to the work below the call or a
call is refused. -/
theorem Goes.treads (h : d.Goes x) {now : Moment} {s : Strand} (ht : Treads w now s x (x.step w now))
    (hb : ¬ x.Hands d.base) (hr : ¬ (x.step w now).Refuses w.settings) :
    (d.execution x).step w now = d.execution (x.step w now) ∧ d.Lasts (x.step w now).machine ∧
      ∀ c p, (x.step w now).stance = some (c, p) → d.Does c ∧ d.Works p := by
  have hs := Execution.stance_of_walker ht.active ht.main
  obtain ⟨hc, hp⟩ := h.stance _ _ hs
  have hself := h.spares ht.main
  have hanswer (a : Answer) (ha : s.control = .answer a) := h.awaits (ha ▸ hs) hb
  have hstart (u v : TaskId) (a i : Bool) : s.control ≠ .wake (.start u v) a i :=
    fun hw => h.not_start u v a i s.pending (hw ▸ hs)
  have hfollows : d.Follows (w.surroundings now).settings.maxCallDepth
      (x.machine.step (w.surroundings now) s.task s.control s.pending) _ :=
    step_follows h.lasts hp hc s.task hanswer hstart
  have hstance := ht.stance
  have hlasts (hm : d.Lasts (x.machine.step (w.surroundings now) s.task s.control s.pending).1) :
      d.Lasts (x.step w now).machine := by
    rw [Execution.step_eq ht.active]
    exact (turn_lasts hm s.task _).of_run rfl rfl (Nat.le_refl _)
  have hstep := step_execution (w := w) h.logged ht.active now
  rw [controlOf_eq hself, workOf_eq hself, turnOf_eq hself] at hstep
  have hlimit : (w.surroundings now).settings = w.settings := rfl
  rw [hlimit] at hfollows
  generalize x.machine.step (w.surroundings now) s.task s.control s.pending = r at *
  generalize (d.machine x.machine).step (w.surroundings now) s.task (d.control s.control)
    (d.work s.pending) = r' at *
  cases hfollows with
  | refused m p => exact absurd ⟨p, hstance⟩ hr
  | @back m turn hm hx =>
    refine ⟨hstep rfl, hlasts hm, fun c p hc => ?_⟩
    rw [hstance] at hc
    cases turn with
    | go c' p' =>
      cases hc
      exact hx
    | wait v on limit p' =>
      cases hc
      exact ⟨trivial, hx⟩
    | pass p' =>
      cases hc
      exact ⟨trivial, hx⟩
    | stop a => exact absurd hx id

/-- A command that writes no variable does the same with the call taken back. -/
theorem Goes.take_command (h : d.Goes x) {c : Command} (hc : ∀ name v frame, c ≠ .setVar name v frame) :
    (d.execution x).take w (.command c) = d.execution (x.take w (.command c)) ∧
      d.Goes (x.take w (.command c)) := by
  have hne : x.machine.main ≠ none := by simp [h.main]
  obtain ⟨he, hk⟩ := obey_machine h.lasts hne hc
  refine ⟨?_, Execution.take_isSound h.sound _, (Execution.main_take h.sound hne _).trans h.main, ?_,
    Nat.le_trans h.logged (log_take x w _), ?_⟩
  · show (d.execution x).obey c = d.execution (x.obey c)
    unfold Execution.obey
    rw [isIdle_execution]
    split
    · rw [← put_execution h.logged, show (d.execution x).machine = d.machine x.machine from rfl, he]
      rfl
    · rfl
  · show d.Lasts (x.obey c).machine
    unfold Execution.obey
    split
    · exact hk.of_run rfl rfl (Nat.le_refl _)
    · exact h.lasts
  · intro e p hep
    rcases Execution.obey_cases h.sound c with hstirs | ⟨hm, -⟩
    · exact h.stirs hstirs e p hep
    · exact absurd hm hne

/-- A move that is no step of the walker does the same with the call taken back. -/
theorem Goes.move_other (h : d.Goes x) {a : Move}
    (ho : ∀ now s, a = .step now → x.active = some s → x.machine.main ≠ some s.task) :
    (d.execution x).move w a = d.execution (x.move w a) := by
  unfold Execution.move
  rw [allows_execution]
  split
  · rename_i ha
    cases a with
    | begin t => exact d.guise.begin_execution (opens h.logged) t
    | tell t ticket => exact d.guise.tell_execution (opens h.logged) t ticket
    | grant t => exact d.guise.grant_execution x t
    | step now =>
      cases hs : x.active with
      | none => simp [Execution.allows, Execution.isIdle, hs] at ha
      | some s =>
        have hm := ho now s rfl hs
        obtain ⟨-, roles, hsound⟩ := h.sound
        obtain ⟨-, r, hrole, hsuits, -⟩ := hsound.strand hs
        have hr : r ≠ .walker := fun hw => hm (hsound.main.mp (hw ▸ hrole))
        exact step_execution h.logged hs now (errand_machine h.lasts hr hsuits w now)
  · rfl

/-- What an input does to a run in which the call goes on, it does with the call taken back. -/
theorem Goes.take (h : d.Goes x) {i : Input} (hi : ¬ i.IsWrite)
    (hb : ∀ now s, Treads w now s x (x.take w i) → ¬ x.Hands d.base)
    (hr : ¬ (x.take w i).Refuses w.settings) :
    (d.execution x).take w i = d.execution (x.take w i) ∧ d.Goes (x.take w i) := by
  have hne : x.machine.main ≠ none := by simp [h.main]
  have hy : (x.take w i).IsSound := Execution.take_isSound h.sound i
  have hl := log_take x w i
  cases i with
  | command c =>
    refine h.take_command ?_
    rintro name v frame rfl
    exact hi trivial
  | move a =>
    by_cases ho : ∀ now s, a = .step now → x.active = some s → x.machine.main ≠ some s.task
    · refine ⟨h.move_other ho, h.attends ?_ hy hl (size_take h.sound hne _)⟩
      rcases Execution.move_cases (w := w) h.sound a with hat | ⟨now, s, ha, ht⟩
      · exact hat
      · exact absurd ht.main (ho now s ha ht.active)
    · push Not at ho
      obtain ⟨now, s, rfl, hs, hm⟩ := ho
      have hallows : x.allows (.step now) = true := by simp [Execution.allows, Execution.isIdle, hs]
      have hx : x.take w (.move (.step now)) = x.step w now := if_pos hallows
      have hd : (d.execution x).take w (.move (.step now)) = (d.execution x).step w now :=
        if_pos ((allows_execution d x _).trans hallows)
      have hmain := (Execution.main_take (w := w) h.sound hne (.move (.step now))).trans h.main
      rw [hx] at hb hr hy hl hmain
      rw [hx, hd]
      have ht := Execution.step_treads (w := w) h.sound hs hm now
      obtain ⟨he, hn, hstance⟩ := h.treads ht (hb now s ht) hr
      exact ⟨he, hy, hmain, hn, Nat.le_trans h.logged hl, hstance⟩

/-- A walker that hands an answer to the frame of a call is no longer in the call. -/
theorem treads_frame {now : Moment} {s : Strand} {key : Nat} {flow node : String} {p : List Pending}
    (ht : Treads w now s x y) (h : x.Hands (.frame key flow node :: p)) :
    ¬ y.IsAbove (.frame key flow node :: p) := by
  obtain ⟨a, ha⟩ := h
  have hs := Execution.stance_of_walker ht.active ht.main
  obtain ⟨t, c, q⟩ := s
  cases ha.symm.trans hs
  have hstep : ∃ b, (x.machine.step (w.surroundings now) t (.answer a)
      (.frame key flow node :: p)).2 = .answer b p := by
    cases a with
    | outcome o => exact ⟨_, rfl⟩
    | _ => exact ⟨_, rfl⟩
  obtain ⟨b, hb⟩ := hstep
  exact Execution.not_isAbove_rest (ht.stance.trans (congrArg Turn.stance hb))

/-- What moves and commands do to a run in which the call goes on, they do with the call taken back. -/
theorem Goes.after {key : Nat} {flow node : String} {p : List Pending}
    (hd : d.base = .frame key flow node :: p) (h : d.Goes x) {is : List Input}
    (hi : ∀ i ∈ is, ¬ i.IsWrite) (hs : Execution.Stays w d.base is x) (hg : Execution.Grants w is x) :
    Execution.after w is (d.execution x) = d.execution (Execution.after w is x) ∧
      d.Goes (Execution.after w is x) := by
  induction is generalizing x with
  | nil => exact ⟨rfl, h⟩
  | cons i is ih =>
    have hb : ∀ now s, Treads w now s x (x.take w i) → ¬ x.Hands d.base := by
      intro now s ht hh
      rw [hd] at hh hs
      refine treads_frame ht hh ?_
      cases is with
      | nil => exact hs.2
      | cons j js => exact hs.2.1
    have hr : ¬ (x.take w i).Refuses w.settings := by
      cases is with
      | nil => exact hg.2
      | cons j js => exact hg.2.1
    obtain ⟨he, hk⟩ := h.take (hi i List.mem_cons_self) hb hr
    obtain ⟨he', hk'⟩ := ih hk (fun j hj => hi j (List.mem_cons_of_mem _ hj)) hs.2 hg.2
    exact ⟨(congrArg (Execution.after w is) he).trans he', hk'⟩

/-- Where the walker stands with the call taken back. -/
theorem stance_execution (h : x.machine.main = some d.walker) :
    (d.execution x).stance = x.stance.map fun (c, p) => (d.control c, d.work p) := by
  have hm : (d.execution x).machine.main = some d.walker := h
  have hself := d.spares_walker
  have parked : (d.machine x.machine).stance d.walker =
      (x.machine.stance d.walker).map fun (c, p) => (d.control c, d.work p) := by
    have hp : (d.machine x.machine).pending? d.walker = (x.machine.pending? d.walker).map d.work := by
      simp only [Machine.pending?, machine, Array.getElem?_mapIdx, Option.map_map]
      congr 1
      funext k
      exact workOf_eq hself k.pending
    have hq : ((x.machine.pending? d.walker).map d.work).getD [] =
        d.work ((x.machine.pending? d.walker).getD []) := by
      cases x.machine.pending? d.walker <;> rfl
    have hw (v : Wait) (a i : Bool) : d.control (.wake v a i) = .wake (d.waitOf d.walker v) a i := by
      rw [← controlOf_wake, controlOf_eq hself]
    unfold Machine.stance
    rw [state?_machine, hp, hq]
    rcases x.machine.state? d.walker with _ | ⟨⟩ | _ | _ | _ | _
    all_goals simp [TaskState.stance, TaskState.control?, stateOf, controlOf_eq hself, hw]
  cases ha : x.active with
  | none =>
    rw [Execution.stance_of_idle h ha, Execution.stance_of_idle hm (congrArg (Option.map d.strand) ha)]
    exact parked
  | some s =>
    have hd : (d.execution x).active = some (d.strand s) := congrArg (Option.map d.strand) ha
    by_cases ht : s.task = d.walker
    · rw [Execution.stance_of_walker ha (ht ▸ h), Execution.stance_of_walker hd (ht ▸ h)]
      simp [strand, ht, controlOf_eq hself, workOf_eq hself]
    · rw [Execution.stance_of_other ha h ht, Execution.stance_of_other hd hm ht]
      exact parked

end Descent

end Workflow
