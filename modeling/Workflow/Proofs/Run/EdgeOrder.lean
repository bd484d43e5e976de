import Workflow.Proofs.Debug.Transparency
import Workflow.Proofs.Run.Ordered
/-!
The order of edges is irrelevant. Whatever happens to a run, putting the edges of its flows in order first leads to
the same as doing so afterwards. So the runs of two flows that differ only in the order of their edges do the same.
-/

namespace Workflow

/-- Surroundings in which flows are found with their edges in another order. -/
structure Surroundings.IsRearranged (env env' : Surroundings) : Prop where
  flows : Flow.AreRearranged env.flows env'.flows
  others : env' = { env with flows := env'.flows }

/-- The same happening, but that flows are found with their edges in another order. -/
inductive Happening.IsRearranged : Happening → Happening → Prop
  | refl (a : Happening) : IsRearranged a a
  | step {env env' : Surroundings} (h : env.IsRearranged env') : IsRearranged (.step env) (.step env')

namespace Arrangement

variable {o : Arrangement}

/-! Commands. -/

theorem release_machine (m : Machine) (mode : String) :
    (o.machine m).release mode = o.machine (m.release mode) := by
  let n : Machine := { m with
    pauseRequested := false, run := { m.run with status := .running, pauseReason := none } }
  exact endPause_machine (n.emit "run.resumed" [("nodeId", .ofText? m.run.current), ("mode", .str mode)])

theorem start_machine (m : Machine) (slotted : Bool) : (o.machine m).start slotted = o.machine (m.start slotted) := by
  unfold Machine.start
  rw [show (o.machine m).main = m.main from rfl]
  split
  · rfl
  · cases slotted with
    | true =>
      rw [show (o.machine m).spawn (if true then .enqueue else .execute) [] = _ from spawn_machine m .enqueue []]
      rfl
    | false =>
      rw [show (o.machine m).spawn (if false then .enqueue else .execute) [] = _ from spawn_machine m .execute []]
      rfl

theorem cancel_machine (m : Machine) (reason : Option String) (stamp : Instant) :
    (o.machine m).cancel reason stamp = (o.machine (m.cancel reason stamp).1, (m.cancel reason stamp).2) := by
  unfold Machine.cancel
  rw [show (o.machine m).run.status = m.run.status from rfl]
  split
  · rfl
  · dsimp only
    rw [cancelToken_machine, endPause_machine]
    generalize (m.cancelToken _).endPause = n
    rw [finalize_machine, show (o.machine n).run.status = n.run.status from rfl,
      show (o.machine n).main = n.main from rfl]
    split <;> rfl

theorem obey_machine (m : Machine) (c : Command) :
    (o.machine m).obey c = (o.machine (m.obey c).1, (m.obey c).2) := by
  cases c with
  | start slotted => exact congrArg (·, true) (start_machine m slotted)
  | pause =>
    show (o.machine m).pause = (o.machine m.pause.1, m.pause.2)
    unfold Machine.pause
    rw [show (o.machine m).run.status = m.run.status from rfl]
    split <;> rfl
  | resume =>
    show (o.machine m).resumeRun = (o.machine m.resumeRun.1, m.resumeRun.2)
    unfold Machine.resumeRun
    rw [show (o.machine m).run.status = m.run.status from rfl]
    split
    · exact congrArg (·, true) (release_machine { m with stepArmed := false } "resume")
    · rfl
  | stepOver =>
    show (o.machine m).stepOver = (o.machine m.stepOver.1, m.stepOver.2)
    unfold Machine.stepOver
    rw [show (o.machine m).run.status = m.run.status from rfl]
    split
    · exact congrArg (·, true) (release_machine { m with stepArmed := true } "step")
    · rfl
  | cancel reason stamp => exact cancel_machine m reason stamp
  | setVar name v frame =>
    have hlayers : (o.machine m).frameLayers frame = m.frameLayers frame := rfl
    unfold Machine.obey Machine.setVar
    dsimp only
    rw [hlayers]
    cases m.frameLayers frame <;> rfl
  | edit f => rfl

theorem interruptMain_machine (m : Machine) : (o.machine m).interruptMain = o.machine m.interruptMain := by
  unfold Machine.interruptMain
  rw [show (o.machine m).main = m.main from rfl]
  split
  · exact interruptTask_machine m _
  · rfl

/-! Whatever happens. -/

variable {x : Execution}

theorem opens (x : Execution) : o.guise.Opens x :=
  fun _ => List.map_append

theorem put_execution (x : Execution) (m : Machine) :
    (o.execution x).put (o.machine m) none = o.execution (x.put m none) :=
  o.guise.put_execution (opens x) m none

theorem isIdle_execution (x : Execution) : (o.execution x).isIdle = x.isIdle :=
  o.guise.isIdle_execution x

theorem allows_execution (x : Execution) (a : Move) : (o.execution x).allows a = x.allows a :=
  o.guise.allows_execution x a

theorem stepIn_execution (x : Execution) (env : Surroundings) :
    (o.execution x).stepIn (o.surroundings env) = o.execution (x.stepIn env) := by
  cases hs : x.active with
  | none =>
    unfold Execution.stepIn
    rw [hs, show (o.execution x).active = none from congrArg (Option.map o.guise.strand) hs]
  | some s =>
    refine o.guise.stepIn_execution (opens x) hs ?_
    exact step_result x.machine s.pending env s.task s.control

/-- Whatever happens to a run, its edges may be put in order before or after it. -/
theorem meet_execution (x : Execution) (a : Happening) :
    (o.execution x).meet (o.happening a) = o.execution (x.meet a) := by
  unfold Execution.meet happening
  cases a with
  | step env => exact stepIn_execution x env
  | begin t =>
    dsimp only
    rw [allows_execution]
    split
    · exact o.guise.begin_execution (opens x) t
    · rfl
  | tell t ticket =>
    dsimp only
    rw [allows_execution]
    split
    · exact o.guise.tell_execution (opens x) t ticket
    · rfl
  | grant t =>
    dsimp only
    rw [allows_execution]
    split
    · exact o.guise.grant_execution x t
    · rfl
  | command c =>
    dsimp only [Execution.obey]
    rw [isIdle_execution, show (o.execution x).machine.obey c = _ from obey_machine x.machine c]
    split
    · exact put_execution x _
    · rfl
  | interrupt =>
    dsimp only
    rw [isIdle_execution, show (o.execution x).machine.interruptMain = _ from interruptMain_machine x.machine]
    split
    · exact put_execution x _
    · rfl

theorem canonical_happening {a b : Happening} (h : a.IsRearranged b) :
    canonical.happening a = canonical.happening b := by
  cases h with
  | refl => rfl
  | @step env env' h =>
    show Happening.step (canonical.surroundings env) = .step (canonical.surroundings env')
    rw [surroundings, surroundings, h.others, canonical_flows h.flows]

theorem canonical_happenings {hs js : List Happening} (h : List.Forall₂ Happening.IsRearranged hs js) :
    hs.map canonical.happening = js.map canonical.happening := by
  induction h with
  | nil => rfl
  | cons ha _ ih => rw [List.map_cons, List.map_cons, canonical_happening ha, ih]

theorem following_execution (hs : List Happening) (x : Execution) :
    Execution.following (hs.map o.happening) (o.execution x) = o.execution (Execution.following hs x) := by
  induction hs generalizing x with
  | nil => rfl
  | cons a hs ih =>
    rw [List.map_cons, Execution.following, meet_execution, ih]
    rfl

/-! Moves in a world. -/

def moment (o : Arrangement) (now : Moment) : Moment :=
  { now with flows := now.flows.map fun s => (s.1, o.flow s.2) }

def input (o : Arrangement) : Input → Input
  | .move (.step now) => .move (.step (o.moment now))
  | i => i

theorem happening_input (w : World) (i : Input) : (o.input i).happening w = o.happening (i.happening w) := by
  cases i with
  | command c => rfl
  | move a => cases a <;> rfl

theorem take_execution (w : World) (x : Execution) (i : Input) :
    (o.execution x).take w (o.input i) = o.execution (x.take w i) := by
  rw [← Execution.meet_happening, happening_input, meet_execution, Execution.meet_happening]

theorem after_execution (w : World) (is : List Input) (x : Execution) :
    Execution.after w (is.map o.input) (o.execution x) = o.execution (Execution.after w is x) := by
  induction is generalizing x with
  | nil => rfl
  | cons i is ih =>
    rw [List.map_cons, Execution.after, take_execution, ih]
    rfl

theorem verdict?_execution (x : Execution) (i : Input) : (o.execution x).verdict? (o.input i) = x.verdict? i := by
  cases i with
  | command c => rfl
  | move a =>
    cases a with
    | step now =>
      obtain ⟨m, _ | ⟨t, c, p⟩, log⟩ := x
      · rfl
      · cases c with
        | wake v s i =>
          cases v with
          | settlement a h u => exact congrArg some (hasEnded_machine o m h)
          | _ => rfl
        | _ => rfl
    | _ => rfl

theorem verdicts_execution (w : World) (is : List Input) (x : Execution) :
    Execution.verdicts w (is.map o.input) (o.execution x) = Execution.verdicts w is x := by
  induction is generalizing x with
  | nil => rfl
  | cons i is ih =>
    rw [List.map_cons, Execution.verdicts, verdict?_execution, take_execution, ih]
    rfl

theorem input_controls {r : Registry} {flows : Entries Flow} {i : Input} (h : i.Controls r flows) :
    (o.input i).Controls r (flows.map fun s => (s.1, o.flow s.2)) := by
  cases i with
  | command c => exact h
  | move a =>
    cases a with
    | step now => exact ⟨h.1, congrArg (List.map _) h.2⟩
    | _ => trivial

/-- A run begins with the flow put in order. -/
theorem create_execution (id : String) (flow : Flow) (bindings : Entries Value) (breakpoints : Breakpoints)
    (pauses : Bool) (stamp : Instant) : o.execution (.ofMachine (.create id flow bindings breakpoints pauses stamp)) =
      .ofMachine (.create id (o.flow flow) bindings breakpoints pauses stamp) := by
  simp [execution, Guise.execution, Guise.machine, guise, Execution.ofMachine, Machine.create]

theorem events_execution (x : Execution) : (o.execution x).events = x.events := by
  have hevent (e : Effect) : (o.effect e).event? = e.event? := by cases e <;> rfl
  show (x.log.map o.effect).reverse.filterMap Effect.event? = x.log.reverse.filterMap Effect.event?
  rw [← List.map_reverse, List.filterMap_map]
  exact congrArg (fun f => x.log.reverse.filterMap f) (funext hevent)

end Arrangement

namespace Execution

/-- The order of edges is irrelevant. A flow that is valid is valid with its edges in any other order, at every depth
of sub-flows, and runs of the two do the same: whatever happens to both, with any handlers, they trace the same
steps, tell of the same events and have the same status, error and outputs. With built-in handlers this is so
however each of them is carried out, if both end and the same handlers are in time. The flows that are found by
their ids, also the flow itself, may have their edges in another order as well. -/
theorem edge_order_irrelevant {f g : Flow} (hg : f.IsRearranged g) (hf : f.validate = .ok ()) :
    g.validate = .ok () ∧ ∀ (id : String) (bindings : Entries Value) (breakpoints : Breakpoints) (pauses : Bool)
      (stamp : Instant),
      let x := ofMachine (.create id f bindings breakpoints pauses stamp)
      (∀ hs js, List.Forall₂ Happening.IsRearranged hs js →
        let y := ofMachine (.create id g bindings breakpoints pauses stamp)
        (following js y).machine.run.result = (following hs x).machine.run.result ∧
          (following js y).events = (following hs x).events) ∧
      ∀ (breakpoints' : Breakpoints) (pauses' : Bool) (stamp' : Instant) (w : World) (r : Registry)
        (flows flows' : Entries Flow) (is js : List Input), Flow.AreRearranged flows flows' →
        let y := ofMachine (.create id g bindings breakpoints' pauses' stamp')
        (∀ i ∈ is, i.Controls r flows) → (∀ j ∈ js, j.Controls r flows') →
        (after w is x).machine.run.status.isTerminal = true →
        (after w js y).machine.run.status.isTerminal = true →
        Agree (verdicts w is x) (verdicts w js y) →
        (after w js y).machine.run.result = (after w is x).machine.run.result := by
  have hvalid := Flow.validate_eq_ok_iff.mp hf
  let o := Arrangement.canonical
  have hsame : o.flow f = o.flow g := Arrangement.canonical_flow hg hvalid
  refine ⟨Flow.validate_eq_ok_iff.mpr (hg.isValid hvalid), fun id bindings breakpoints pauses stamp => ?_⟩
  intro x
  refine ⟨fun hs js hh => ?_, ?_⟩
  · intro y
    have hlike : o.execution (following js y) = o.execution (following hs x) := by
      rw [← Arrangement.following_execution, ← Arrangement.following_execution, Arrangement.create_execution,
        Arrangement.create_execution, hsame, Arrangement.canonical_happenings hh]
    refine ⟨congrArg (·.machine.run.result) hlike, ?_⟩
    rw [← o.events_execution, hlike, o.events_execution]
  · intro breakpoints' pauses' stamp' w r flows flows' is js hflows y hi hj hti htj hagree
    -- Put in order, both runs are runs of one flow.
    let x₁ := ofMachine (.create id (o.flow f) bindings breakpoints pauses stamp)
    let y₁ := ofMachine (.create id (o.flow f) bindings breakpoints' pauses' stamp')
    have hx : o.execution x = x₁ := Arrangement.create_execution ..
    have hy : o.execution y = y₁ := by rw [Arrangement.create_execution, ← hsame]
    have hax : after w (is.map o.input) x₁ = o.execution (after w is x) := by
      rw [← hx, Arrangement.after_execution]
    have hay : after w (js.map o.input) y₁ = o.execution (after w js y) := by
      rw [← hy, Arrangement.after_execution]
    have hvx : verdicts w (is.map o.input) x₁ = verdicts w is x := by rw [← hx, Arrangement.verdicts_execution]
    have hvy : verdicts w (js.map o.input) y₁ = verdicts w js y := by rw [← hy, Arrangement.verdicts_execution]
    have hknown : flows.map (fun s => (s.1, o.flow s.2)) = flows'.map fun s => (s.1, o.flow s.2) :=
      Arrangement.canonical_flows hflows
    obtain ⟨inTime, hvi, hvj⟩ := hagree.exists_inTime
    obtain ⟨hgist, -⟩ := after_gist (create_isSound ..) (create_undisturbed ..) (create_isSound ..)
      (create_undisturbed ..) (show x₁.bearing 0 = y₁.bearing 0 from rfl)
      (List.forall_mem_map.mpr fun i hm => hknown ▸ Arrangement.input_controls (hi i hm))
      (List.forall_mem_map.mpr fun j hm => Arrangement.input_controls (hj j hm))
      (hvx ▸ hvi) (hvy ▸ hvj) (hax ▸ hti) (hay ▸ htj)
    rw [hax, hay] at hgist
    exact (Machine.result_of_gist hgist hti).symm

/-- A flow with a fork and a flow inside it, with its edges and those inside in some order. -/
def branching (edges inner : List Edge) : Flow where
  id := "main"
  nodes := [
    { id := "fork", kind := "if", config := [("condition", .bool true)] },
    { id := "call", kind := "executeFlow", config := [("flowId", .str "body")] },
    { id := "rest", kind := "log", disabled := true }]
  edges
  subflows := [("body", {
    id := "body"
    nodes := [
      { id := "second", kind := "log", disabled := true }, { id := "first", kind := "log", disabled := true },
      { id := "third", kind := "log", disabled := true }]
    edges := inner })]

def branches : List Edge := [
  { id := "yes", source := "fork", target := "call", label := "true" },
  { id := "no", source := "fork", target := "rest", label := "false" }]

def row : List Edge := [
  { id := "a", source := "first", target := "second", label := "default" },
  { id := "b", source := "second", target := "third", label := "default" }]

theorem branching_isRearranged {edges edges' inner inner' : List Edge} (he : edges.Perm edges')
    (hi : inner.Perm inner') : (branching edges inner).IsRearranged (branching edges' inner') := by
  refine .intro (branching edges inner) he rfl fun s hs => ?_
  obtain rfl := List.mem_singleton.mp hs
  exact .intro _ hi rfl nofun

/-- A task that begins and takes some steps, where the flow is found by its id. -/
def paces (flow : Flow) (k : Nat) : List Input :=
  .move (.begin 0) :: List.replicate k (.move (.step {
    registry := [], builtin := Registry.isBuiltin_nil, flows := [("main", flow)] }))

theorem paces_controls (flow : Flow) (k : Nat) : ∀ i ∈ paces flow k, i.Controls [] [("main", flow)] := by
  simp [paces, List.mem_replicate, Input.Controls]

/-- The flow goes the same way with its edges in the reverse order, also with a pause on the way. -/
theorem edge_order_irrelevant_branching :
    let w : World := { settings := {} }
    let f := branching branches row
    let g := branching branches.reverse row.reverse
    let is := .command (.start false) :: paces f 27
    let js := .command (.start false) :: paces g 15 ++ .command .resume :: paces g 15
    let x := ofMachine (.create "" f [] [] false 0)
    let y := ofMachine (.create "" g [] ["second"] false 1)
    f.IsRearranged g ∧ f.validate = .ok () ∧ g.validate = .ok () ∧
      (after w is x).machine.run.status.isTerminal = true ∧ (after w js y).machine.run.status.isTerminal = true ∧
      (after w is x).machine.run.trace.toList.map (·.node) = ["fork", "first", "second", "third", "call"] ∧
      (after w js y).machine.run.result = (after w is x).machine.run.result := by
  intro w f g is js x y
  have hg : f.IsRearranged g := branching_isRearranged (List.reverse_perm branches).symm (List.reverse_perm row).symm
  have hf : f.validate = .ok () := by rfl
  have htx : (after w is x).machine.run.status.isTerminal = true := by decide +kernel
  have hty : (after w js y).machine.run.status.isTerminal = true := by decide +kernel
  have hvx : verdicts w is x = [] := by decide +kernel
  have hflows : Flow.AreRearranged [("main", f)] [("main", g)] :=
    ⟨rfl, fun s hs => .inr (List.mem_singleton.mp hs ▸ ⟨Flow.validate_eq_ok_iff.mp hf, hg⟩)⟩
  have hi : ∀ i ∈ is, i.Controls [] [("main", f)] := List.forall_mem_cons.mpr ⟨trivial, paces_controls f 27⟩
  have hj : ∀ j ∈ js, j.Controls [] [("main", g)] := by
    refine List.forall_mem_append.mpr ⟨List.forall_mem_cons.mpr ⟨trivial, paces_controls g 15⟩, ?_⟩
    exact List.forall_mem_cons.mpr ⟨trivial, paces_controls g 15⟩
  obtain ⟨hvalid, hruns⟩ := edge_order_irrelevant hg hf
  have hagree : Agree (verdicts w is x) (verdicts w js y) := by
    intro k u v hu
    rw [hvx] at hu
    cases hu
  refine ⟨hg, hf, hvalid, htx, hty, by decide +kernel, ?_⟩
  have hsame := (hruns "" [] [] false 0).2 ["second"] false 1 w [] [("main", f)] [("main", g)] is js hflows
  have hx : ofMachine (.create "" f [] [] false 0) = x := rfl
  have hy : ofMachine (.create "" g [] ["second"] false 1) = y := rfl
  rw [hx, hy] at hsame
  exact hsame hi hj htx hty hagree

end Execution

end Workflow
