import Workflow.Proofs.Debug.Rejection
import Workflow.Proofs.Run.Pace
/-!
Debugging does not change what a run computes. A debugger does nothing to a run but what the run obeys:
it asks for pauses, ends them, and edits breakpoints. Runs that differ in this only have one course, and
with the same handlers in time they come to the same end of it.
-/

namespace Workflow

namespace Debugger

open Work

variable {α β : Type} {x : Work α} {f : α → Work β} {e e' e'' : Engine}

/-! What a debugger does to runs. -/

/-- Nothing has changed but what the debugger knows and what its observers are told. -/
def SameRuns (e e' : Engine) : Prop :=
  ∃ d ps, e' = { e with debugger := d, pushed := ps }

theorem SameRuns.refl (e : Engine) : SameRuns e e :=
  ⟨_, _, rfl⟩

theorem SameRuns.trans (h : SameRuns e e') (h' : SameRuns e' e'') : SameRuns e e'' := by
  obtain ⟨_, _, rfl⟩ := h
  obtain ⟨d, ps, rfl⟩ := h'
  exact ⟨d, ps, rfl⟩

/-- Work that is about nothing but the debugger. -/
def Leaves (x : Work α) : Prop :=
  ∀ e, SameRuns e (x.result e).2

/-- A run at most has been given a command that neither cancels it nor writes its variables. -/
def Steered (e e' : Engine) : Prop :=
  SameRuns e e' ∨ ∃ k c, c.IsControl ∧ SameRuns (e.onMachine k fun m => (m.obey c).1) e'

def Steers (x : Work α) : Prop :=
  ∀ e, Steered e (x.result e).2

theorem Work.Looks.leaves (h : Looks x) : Leaves x := by
  intro e
  rw [h e]
  exact .refl e

theorem Leaves.modify {g : Engine → Engine} (h : ∀ e, SameRuns e (g e)) : Leaves (modify g) :=
  h

theorem Leaves.bind (h : Leaves x) (hf : ∀ a, Leaves (f a)) : Leaves (x >>= f) := by
  intro e
  have hx := h e
  rw [result_bind]
  generalize x.result e = y at hx
  obtain ⟨r | a, e'⟩ := y
  · exact hx
  · exact hx.trans (hf a e')

theorem Leaves.steers (h : Leaves x) : Steers x :=
  fun e => .inl (h e)

/-- What is checked before a run is given a command. -/
theorem Work.Looks.steers (h : Looks x) (hf : ∀ a, Steers (f a)) : Steers (x >>= f) :=
  fun e => h.leads (P := fun y => Steered e y.2) (fun _ => .inl (.refl e)) fun a _ => hf a e

/-- What is told after a run has been given a command. -/
theorem Steers.bind (h : Steers x) (hf : ∀ a, Leaves (f a)) : Steers (x >>= f) := by
  intro e
  have hx := h e
  rw [result_bind]
  generalize x.result e = y at hx
  obtain ⟨r | a, e'⟩ := y
  · exact hx
  · rcases hx with hx | ⟨k, c, hc, hx⟩
    · exact .inl (hx.trans (hf a e'))
    · exact .inr ⟨k, c, hc, hx.trans (hf a e')⟩

/-- A run is given a command. -/
theorem steers_modify (k : MachineId) {c : Command} (hc : c.IsControl) :
    Steers (modify (·.onMachine k fun m => (m.obey c).1)) :=
  fun _ => .inr ⟨k, c, hc, .refl _⟩

/-! Commands. -/

theorem tellState_sameRuns (run : String) (e : Engine) : SameRuns e (tellState run e) :=
  ⟨_, _, rfl⟩

theorem openSession_sameRuns (run : String) (k : MachineId) (e : Engine) :
    SameRuns e (openSession run k e) := by
  unfold openSession
  dsimp only
  split <;> exact ⟨_, _, rfl⟩

theorem dropRetired_sameRuns (run : String) (e : Engine) : SameRuns e (dropRetired run e) := by
  unfold dropRetired
  split
  · exact ⟨_, _, rfl⟩
  · exact .refl e

theorem stateOf_looks (run : String) : Looks (stateOf run) :=
  Looks.get.bind fun _ => .pure _

/-- The state of a run is told. -/
theorem telling_leaves (run : String) : Leaves (do modify (tellState run); stateOf run) :=
  (Leaves.modify (tellState_sameRuns run)).bind fun _ => (stateOf_looks run).leaves

theorem attach_leaves (run : String) : Leaves (attach run) :=
  (requireRun_looks run).leaves.bind fun k =>
    (Leaves.modify (openSession_sameRuns run k)).bind fun _ => telling_leaves run

theorem closing_leaves (run : String) : Leaves (do
    modify (closeSession run)
    modify (tellState run)
    let state ← stateOf run
    modify (dropRetired run)
    return state) :=
  (Leaves.modify fun _ => ⟨_, _, rfl⟩).bind fun _ =>
    (Leaves.modify (tellState_sameRuns run)).bind fun _ => (stateOf_looks run).leaves.bind fun state =>
      (Leaves.modify (dropRetired_sameRuns run)).bind fun _ => (Looks.pure state).leaves

theorem detach_leaves (run : String) : Leaves (detach run) := by
  refine Looks.get.leaves.bind fun e => ?_
  split
  · exact (requireRun_looks run).leaves.bind fun _ => closing_leaves run
  · exact closing_leaves run

theorem commandRun_onMachine (e : Engine) (k : MachineId) (f : Machine → Machine × Bool) :
    (e.commandRun k f).1 = e.onMachine k fun m => (f m).1 := by
  have hm : (e.machines.modify k fun _ => (f (e.machine k)).1) =
      e.machines.modify k fun m => (f m).1 := by
    refine Array.ext (by simp) fun i hi _ => ?_
    simp only [Array.getElem_modify]
    split
    · rename_i hk
      subst hk
      rw [Engine.machine, Array.getElem?_eq_getElem (by simpa using hi)]
      rfl
    · rfl
  show ({ e with machines := e.machines.modify k fun _ => (f (e.machine k)).1 } : Engine).settleEffects k
    = _
  rw [hm]
  rfl

theorem control_steers (run command needs : String) (fits : Status → Bool) {c : Command}
    (hc : c.IsControl) : Steers (control run command needs fits (·.obey c)) := by
  refine (requireAttached_looks run).steers fun _ => (requireMachine_looks run).steers fun k =>
    Looks.get.steers fun e => ?_
  dsimp only
  split
  · exact (Looks.throw _).leaves.steers
  · simp only [commandRun_onMachine]
    exact (steers_modify k hc).bind fun _ => (stateOf_looks run).leaves

theorem changeBreakpoints_steers (run : String) (f : Breakpoints → Breakpoints) :
    Steers (changeBreakpoints run f) :=
  (requireRun_looks run).steers fun k =>
    (steers_modify k (c := .edit f) trivial).bind fun _ => telling_leaves run

theorem setBreakpoints_steers (run : String) (nodes : Value) :
    Steers (setBreakpoints run nodes) := by
  refine (requireAttached_looks run).steers fun _ => ?_
  split
  · exact changeBreakpoints_steers run _
  · exact (Looks.throw _).leaves.steers

theorem changeBreakpoint_steers (run : String) (node : Value)
    (f : Breakpoints → String → Breakpoints) : Steers (changeBreakpoint run node f) := by
  refine (requireAttached_looks run).steers fun _ => ?_
  dsimp only
  split
  · exact (Looks.throw _).leaves.steers
  · exact changeBreakpoints_steers run _

theorem command_steers {op : String} (h : op ≠ "setVar") (run : String) (given : Value) :
    Steers (command op run given) := by
  unfold command
  split
  · exact (attach_leaves run).steers
  · exact (detach_leaves run).steers
  · exact control_steers run _ _ _ (c := .pause) trivial
  · exact control_steers run _ _ _ (c := .resume) trivial
  · exact control_steers run _ _ _ (c := .stepOver) trivial
  · exact setBreakpoints_steers run _
  · exact changeBreakpoint_steers run _ _
  · exact changeBreakpoint_steers run _ _
  · exact absurd rfl h
  · exact (getVar_looks run _ _).leaves.steers
  · exact ((requireAttached_looks run).bind fun _ => stateOf_looks run).leaves.steers

theorem handle_steered (e : Engine) {given : Value} (h : opOf given ≠ "setVar") :
    Steered e (handle e given).1 := by
  obtain ⟨r, hr⟩ | ⟨-, r, hr⟩ | hr := handle_cases e given
  · rw [hr]
    exact .inl (.refl e)
  · rw [hr]
    exact .inl (.refl e)
  · have hc := command_steers h (given.field "runId").name given e
    rw [hr]
    unfold opOf at hc
    generalize (command _ _ given).result e = y at hc
    obtain ⟨r | r, e'⟩ := y <;> exact hc

/-- Whether a debugger is attached makes no difference to a run. -/
theorem handle_sameRuns (e : Engine) {given : Value} (h : opOf given ∈ ["attach", "detach"]) :
    SameRuns e (handle e given).1 := by
  obtain ⟨r, hr⟩ | ⟨-, r, hr⟩ | hr := handle_cases e given
  · rw [hr]
    exact .refl e
  · rw [hr]
    exact .refl e
  · have hc : SameRuns e ((command (opOf given) (given.field "runId").name given).result e).2 := by
      simp only [List.mem_cons, List.not_mem_nil, or_false] at h
      rcases h with h | h
      · rw [h]
        exact attach_leaves _ e
      · rw [h]
        exact detach_leaves _ e
    rw [hr]
    unfold opOf at hc
    generalize (command _ _ given).result e = y at hc
    obtain ⟨r | r, e'⟩ := y <;> exact hc

end Debugger

/-- An input that is not asked for by a debugger. -/
def Input.IsPlain (r : Registry) (flows : Entries Flow) : Input → Prop
  | .move a => (Input.move a).Controls r flows
  | .command c => ∃ slotted, c = .start slotted

namespace Execution

variable {x : Execution} {w : World} {r : Registry} {flows : Entries Flow} {us vs : List Bool}

theorem controls_of_isPlain {i : Input} (h : i.IsPlain r flows) : i.Controls r flows := by
  cases i with
  | move a => exact h
  | command c =>
    obtain ⟨slotted, rfl⟩ := h
    trivial

/-- No handler is waited for while a run is paused: its time does not run out meanwhile. -/
theorem not_settlement_of_paused (h : x.IsSound) (hp : x.machine.run.status = .paused) (t : TaskId)
    (a : Attempt) (k u : TaskId) (n : Nat) :
    x.machine.state? t ≠ some (.waiting (.settlement a k u) n) := by
  intro hst
  obtain ⟨-, roles, hr⟩ := h
  obtain ⟨q, hq⟩ := Machine.exists_role hr.fitting hst
  obtain ⟨p, hpending⟩ := Machine.exists_pending? hst
  obtain ⟨rfl, -⟩ := Machine.settlement_suits (hr.fitting.state hq hst hpending)
  have hwaits : x.machine.Waits (.settlement a k u) p := hr.parked (hr.main.mp hq) hst hpending
  cases hwaits with
  | walk hrun =>
    rw [hp] at hrun
    cases hrun

/-- Handlers that two runs are both done with ended in time in both or in neither. -/
def Agree (us vs : List Bool) : Prop :=
  ∀ (k : Nat) (u v : Bool), us[k]? = some u → vs[k]? = some v → u = v

/-- Which handlers end in time, as far as runs that agree on it are concerned. -/
theorem Agree.exists_inTime (h : Agree us vs) : ∃ inTime : Nat → Bool,
    (∀ k u, us[k]? = some u → inTime k = u) ∧ ∀ k v, vs[k]? = some v → inTime k = v := by
  refine ⟨fun k => (us[k]?.or vs[k]?).getD true, fun k u hu => by simp [hu], fun k v hv => ?_⟩
  cases hu : us[k]? with
  | none => simp [hu, hv]
  | some u => simp [hu, h k u v hu hv]

theorem Agree.eq_of_length (h : Agree us vs) (hl : us.length = vs.length) : us = vs :=
  List.ext_getElem hl fun k hu hv => h k _ _ (List.getElem?_eq_getElem hu) (List.getElem?_eq_getElem hv)

/-- A run that is started comes to its end by itself, whichever handlers end in time. -/
theorem exists_plain (w : World) (hr : r.IsBuiltin) (flows : Entries Flow) (id : String) (flow : Flow)
    (bindings : Entries Value) (stamp : Instant) (inTime : Nat → Bool) :
    let x := ofMachine (.create id flow bindings [] false stamp)
    ∃ js : List Input, (∀ j ∈ js, j.IsPlain r flows) ∧
      (after w js x).machine.run.status.isTerminal = true ∧
        ∀ k v, (verdicts w js x)[k]? = some v → inTime k = v := by
  intro x
  have hx : x.IsSound := create_isSound ..
  have heases := obey_eases (c := .start false) hx trivial
  have hrou : x.Roused := by
    intro t u i k hw
    simp [x, ofMachine, Machine.create, Machine.state?] at hw
  have hask : x.machine.IsUnasked := ⟨rfl, rfl, rfl, rfl, by rintro ⟨⟩⟩
  have hopen : (x.obey (.start false)).Timely (inTime 0) := by
    refine .of_not_bides (fun t a k u hb => ?_) _
    obtain ⟨s, i, p, hp⟩ := heases.bides hb
    cases hp
  obtain ⟨as, has, ht, hv⟩ := exists_ended (w := w) hr flows (take_isSound (w := w) hx (.command (.start false)))
    (hrou.take (w := w) hx (.command (.start false))) (by rintro ⟨⟩) (start_isUnasked hask false) 0 hopen
  refine ⟨.command (.start false) :: as.map .move, ?_, ht, fun k v hk => ?_⟩
  · rintro j (_ | ⟨_, hj⟩)
    · exact ⟨false, rfl⟩
    · obtain ⟨a, ha, rfl⟩ := List.mem_map.mp hj
      exact has a ha
  · rw [← Nat.zero_add k]
    exact hv k v hk

/-- Debugging does not change what a run computes. A debugger that attaches or detaches does nothing to
the runs; its other commands, unless they write variables, at most give one run a command that controls
its pauses. Whenever such commands come in, if the run ends, then it ends without them, with breakpoints
or a first pause or without: there is a run of the same flow with the same variables that nothing is
asked of, for which the same handlers are in time, and whichever it is, it has traced the same steps and
has the same status, error and outputs. A pause takes no time from handlers. -/
theorem debugging_transparent (w : World) (hr : r.IsBuiltin) (flows : Entries Flow) (id : String)
    (flow : Flow) (bindings : Entries Value) (breakpoints : Breakpoints) (pauseOnStart : Bool)
    (stamp stamp' : Instant) :
    let x := ofMachine (.create id flow bindings breakpoints pauseOnStart stamp)
    let y := ofMachine (.create id flow bindings [] false stamp')
    (∀ (e : Engine) (given : Value),
      (Debugger.opOf given ∈ ["attach", "detach"] → Debugger.SameRuns e (Debugger.handle e given).1) ∧
      (Debugger.opOf given ≠ "setVar" → Debugger.Steered e (Debugger.handle e given).1)) ∧
    (∀ is : List Input, (∀ i ∈ is, i.Controls r flows) →
      (after w is x).machine.run.status.isTerminal = true →
      (∃ js : List Input, (∀ j ∈ js, j.IsPlain r flows) ∧
        (after w js y).machine.run.status.isTerminal = true ∧ verdicts w js y = verdicts w is x) ∧
      ∀ js : List Input, (∀ j ∈ js, j.IsPlain r flows) →
        (after w js y).machine.run.status.isTerminal = true →
        Agree (verdicts w is x) (verdicts w js y) →
        (after w js y).machine.run.result = (after w is x).machine.run.result) ∧
    ∀ (is : List Input) (t : TaskId) (a : Attempt) (h u : TaskId) (n : Nat),
      (after w is x).machine.run.status = .paused →
      (after w is x).machine.state? t ≠ some (.waiting (.settlement a h u) n) := by
  intro x y
  have hx : x.IsSound := create_isSound ..
  have hy : y.IsSound := create_isSound ..
  have hx' : x.Undisturbed r := create_undisturbed ..
  have hy' : y.Undisturbed r := create_undisturbed ..
  -- Both runs start from one point of their course.
  have same {is js : List Input} (hi : ∀ i ∈ is, i.Controls r flows) (hj : ∀ j ∈ js, j.IsPlain r flows)
      (hti : (after w is x).machine.run.status.isTerminal = true)
      (htj : (after w js y).machine.run.status.isTerminal = true)
      (h : Agree (verdicts w is x) (verdicts w js y)) :
      (after w is x).machine.gist = (after w js y).machine.gist ∧
        (verdicts w is x).length = (verdicts w js y).length := by
    obtain ⟨inTime, hvi, hvj⟩ := h.exists_inTime
    exact after_gist hx hx' hy hy' rfl hi (fun j hm => controls_of_isPlain (hj j hm)) hvi hvj hti htj
  refine ⟨fun e given => ⟨Debugger.handle_sameRuns e, Debugger.handle_steered e⟩, fun is hi ht => ⟨?_, ?_⟩,
    fun is t a h u n hp => not_settlement_of_paused (after_isSound hx is) hp t a h u n⟩
  · obtain ⟨js, hj, htj, hv⟩ := exists_plain w hr flows id flow bindings stamp' fun k =>
      ((verdicts w is x)[k]?).getD true
    have hagree : Agree (verdicts w is x) (verdicts w js y) := by
      intro k u v hu hk
      rw [← hv k v hk, hu]
      rfl
    exact ⟨js, hj, htj, (hagree.eq_of_length (same hi hj ht htj hagree).2).symm⟩
  · intro js hj htj hagree
    exact (Machine.result_of_gist (same hi hj ht htj hagree).1 ht).symm

def assertion : Registry :=
  [("assert", { handler := .builtin .assert })]

theorem assertion_isBuiltin : assertion.IsBuiltin := by
  simp [Registry.IsBuiltin, assertion]

/-- A flow with one node, which asserts a truth. -/
def assertingFlow : Flow :=
  { id := "f", nodes := [{ id := "n", kind := "assert", config := [("condition", .bool true)] }] }

/-- Some steps of a task that begins. -/
def stint (t : TaskId) (k : Nat) : List Input :=
  .move (.begin t) :: List.replicate k (.move (.step { registry := assertion, builtin := assertion_isBuiltin }))

/-- From the checkpoint of the node to the end, if the walker waits for its handler under a ticket. -/
def assertingEnd (ticket : Nat) : List Input :=
  stint 2 1 ++ stint 1 2 ++ .move (.tell 0 ticket) :: stint 0 7 ++ stint 2 2

/-- The run without a pause. -/
def assertingPlain : List Input :=
  .command (.start false) :: stint 0 5 ++ assertingEnd 0

/-- The run with a pause before its node. -/
def assertingPaused : List Input :=
  .command (.start false) :: stint 0 3 ++ .command .resume :: stint 0 5 ++ assertingEnd 1

/-- A run that has paused at a breakpoint, and the same run without it. -/
theorem debugging_transparent_asserting :
    let w : World := { settings := {} }
    let x := ofMachine (.create "" assertingFlow [] ["n"] false 0)
    let y := ofMachine (.create "" assertingFlow [] [] false 0)
    (after w (assertingPaused.take 5) x).machine.run.status = .paused ∧
    (∀ i ∈ assertingPaused, i.Controls assertion []) ∧ (∀ j ∈ assertingPlain, j.IsPlain assertion []) ∧
    (after w assertingPaused x).machine.run.status.isTerminal = true ∧
    (after w assertingPlain y).machine.run.status.isTerminal = true ∧
    Agree (verdicts w assertingPaused x) (verdicts w assertingPlain y) ∧
    (after w assertingPlain y).machine.run.result = (after w assertingPaused x).machine.run.result := by
  intro w x y
  have hstint (t : TaskId) (k : Nat) : ∀ i ∈ stint t k, i.IsPlain assertion [] := by
    simp [stint, List.mem_replicate, Input.IsPlain, Input.Controls]
  have hend (n : Nat) : ∀ i ∈ assertingEnd n, i.IsPlain assertion [] := by
    simp only [assertingEnd, List.forall_mem_append, List.forall_mem_cons]
    exact ⟨⟨⟨hstint 2 1, hstint 1 2⟩, trivial, hstint 0 7⟩, hstint 2 2⟩
  have hplain : ∀ j ∈ assertingPlain, j.IsPlain assertion [] := by
    simp only [assertingPlain, List.forall_mem_append, List.forall_mem_cons]
    exact ⟨⟨⟨false, rfl⟩, hstint 0 5⟩, hend 0⟩
  have hpaused : ∀ i ∈ assertingPaused, i.Controls assertion [] := by
    simp only [assertingPaused, List.forall_mem_append, List.forall_mem_cons]
    exact ⟨⟨⟨trivial, fun i hi => controls_of_isPlain (hstint 0 3 i hi)⟩, trivial,
      fun i hi => controls_of_isPlain (hstint 0 5 i hi)⟩, fun i hi => controls_of_isPlain (hend 1 i hi)⟩
  have htx : (after w assertingPaused x).machine.run.status.isTerminal = true := by decide +kernel
  have hty : (after w assertingPlain y).machine.run.status.isTerminal = true := by decide +kernel
  have hvx : verdicts w assertingPaused x = [true] := by decide +kernel
  have hvy : verdicts w assertingPlain y = [true] := by decide +kernel
  have hagree : Agree (verdicts w assertingPaused x) (verdicts w assertingPlain y) := by
    intro k u v hu hv
    rw [hvx] at hu
    rw [hvy, hu] at hv
    exact Option.some.inj hv
  obtain ⟨-, hruns, -⟩ := debugging_transparent w assertion_isBuiltin [] "" assertingFlow [] ["n"] false 0 0
  have hx : ofMachine (.create "" assertingFlow [] ["n"] false 0) = x := rfl
  have hy : ofMachine (.create "" assertingFlow [] [] false 0) = y := rfl
  rw [hx, hy] at hruns
  exact ⟨by decide +kernel, hpaused, hplain, htx, hty, hagree,
    (hruns assertingPaused hpaused htx).2 assertingPlain hplain hty hagree⟩

end Execution

end Workflow
