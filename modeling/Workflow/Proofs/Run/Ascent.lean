import Workflow.Proofs.Run.Chore
import Workflow.Proofs.Run.Descent
/-!
Steps of a call in the scope of its caller. A step with the call taken back leads to where the step
leads, taken back, unless a call is refused since too many frames are on the stack already.
-/

namespace Workflow.Descent

open Machine (StepResult)

variable {d : Descent} {m : Machine} {q : Place} {ls : List Nat} {p : List Pending}

/-! Variables. -/

theorem addLayer_machine (h : d.Lasts m) (l : Layer) (ls : List Nat) :
    (d.machine m).addLayer l (d.layers ls) =
      (d.machine (m.addLayer l ls).1, d.layers (m.addLayer l ls).2) := by
  refine Prod.ext rfl ?_
  exact (layers_push (Nat.ne_of_lt h.layer_lt)).symm

theorem addLayer_fronts (h : d.Lasts m) (hl : d.Fronts ls) (l : Layer) :
    d.Fronts (m.addLayer l ls).2 :=
  hl.push (Nat.ne_of_lt h.layer_lt)

theorem Lasts.addLayer (h : d.Lasts m) (l : Layer) (ls : List Nat) : d.Lasts (m.addLayer l ls).1 where
  hollow := by
    show (m.layers.push l)[d.layer]? = _
    rw [Array.getElem?_push, if_neg (Nat.ne_of_lt h.layer_lt), h.hollow]
  stack := h.stack
  traced := h.traced
  deeper := h.deeper
  tasks := h.tasks

/-- What is written through a scope in the call is written to the same layers with the call taken
back, and the call's own layer stays empty. -/
theorem rewrite_machine (h : d.Lasts m) (hl : d.Fronts ls) {f : Scope → Scope}
    (hf : ∀ {n s t}, Scope.Pads n s t → Scope.Pads n (f s) (f t)) :
    (d.machine m).putScope (d.layers ls) (f (m.scope (d.layers ls))) =
        d.machine (m.putScope ls (f (m.scope ls))) ∧
      d.Lasts (m.putScope ls (f (m.scope ls))) := by
  obtain ⟨near, rfl, hn⟩ := hl
  rw [layers_append hn]
  obtain ⟨he, hk⟩ := putScope_eq h hn (hf (scope_pads near h))
  exact ⟨congrArg d.machine he, hk, h.stack, h.traced, h.deeper, h.tasks⟩

theorem merge_machine (h : d.Lasts m) (hq : d.Deep q) (node : String) (values : Entries Value) :
    (d.machine m).merge (d.place q).layers node values = d.machine (m.merge q.layers node values) ∧
      d.Lasts (m.merge q.layers node values) := by
  obtain ⟨he, hk⟩ := rewrite_machine h hq.fronts (f := (·.update values)) fun hp => hp.update values
  refine ⟨?_, hk.emit _ _⟩
  rw [place_layers hq.fronts, Machine.merge, Machine.merge,
    ← emit_eq (m := m.write q.layers values) hk "vars.patch" rfl]
  exact congrArg (Machine.emit · _ _) he

theorem writeReturns_machine (h : d.Lasts m) (hq : d.Deep q) (node : Node) {child : List Nat}
    (hc : d.Fronts child) (returns : Value) :
    (d.machine m).writeReturns (d.place q) node (d.layers child) returns =
        d.machine (m.writeReturns q node child returns) ∧
      d.Lasts (m.writeReturns q node child returns) := by
  have hv (name : String) : Scope.find? name ((d.machine m).scope (d.layers child)) =
      Scope.find? name (m.scope child) := find?_eq h hc name
  unfold Machine.writeReturns
  simp only [hv]
  split
  · exact ⟨rfl, h⟩
  · exact merge_machine h hq node.id _

/-! Steps. -/

/-- A step with the call taken back follows the step, unless a call is refused. -/
inductive Follows (d : Descent) (limit : Nat) : StepResult → StepResult → Prop
  | refused (m : Machine) (p : List Pending) (y : StepResult) :
      Follows d limit (m, .fail (.callDepth limit) p) y
  | back {m : Machine} {x : Turn} (hm : d.Lasts m) (hx : d.Keeps x) :
      Follows d limit (m, x) (d.machine m, d.turn x)

variable {env : Surroundings} {limit : Nat}

theorem Follows.ite {c : Prop} [Decidable c] {x x' y y' : StepResult} (h : c → d.Follows limit x y)
    (h' : ¬ c → d.Follows limit x' y') :
    d.Follows limit (if c then x else x') (if c then y else y') := by
  split
  · exact h ‹_›
  · exact h' ‹_›

theorem Follows.answer (hm : d.Lasts m) (hp : d.Works p) (a : Answer) :
    d.Follows limit (m, .answer a p) (d.machine m, .answer a (d.work p)) :=
  .back hm ⟨trivial, hp⟩

theorem Follows.go (hm : d.Lasts m) {c : Control} (hc : d.Does c) (hp : d.Works p) :
    d.Follows limit (m, .go c p) (d.machine m, .go (d.control c) (d.work p)) :=
  .back hm ⟨hc, hp⟩

theorem call_follows (hm : d.Lasts m) (hl : d.Fronts ls) (hp : d.Works p) (flow : Flow) (node : Node)
    (shared : Bool) :
    d.Follows env.settings.maxCallDepth (m.call env flow ls node shared p)
      ((d.machine m).call env flow (d.layers ls) node shared (d.work p)) := by
  have hlen : (d.machine m).run.stack.length = m.run.stack.length - 1 := length_stack hm.stack
  unfold Machine.call
  split
  · exact .refused _ _ _
  · rename_i hlimit
    rw [if_neg (by rw [hlen]; omega)]
    have hm' : d.Lasts { m with
        nextFrame := m.nextFrame + 1
        run := { m.run with stack := m.run.stack ++
          [{ key := m.nextFrame, flow := flow.id, invokedBy := some node.id, layers := ls, shared }] } } :=
      ⟨hm.hollow, by simpa using Nat.lt_succ_of_lt hm.stack, hm.traced, hm.deeper, hm.tasks⟩
    have hfollows : d.Follows env.settings.maxCallDepth _ _ := .go hm'
      (c := .enter ⟨flow, ls, 0⟩ m.nextFrame) hl
      (hp.cons (k := .frame m.nextFrame flow.id node.id) trivial)
    simp only [machine, stack_append hm.stack, control, place_eq (q := ⟨flow, ls, 0⟩) hl] at hfollows
    exact hfollows

theorem rest_follows (hm : d.Lasts m) (hp : d.Works p) (seconds : Seconds) :
    d.Follows limit (m.rest seconds p) ((d.machine m).rest seconds (d.work p)) := by
  unfold Machine.rest
  split
  · exact .answer hm hp _
  · have hs := spawn_machine hm .watch
    rw [show d.control .watch = .watch from rfl] at hs
    rw [hs]
    exact .back (hm.spawn .watch) hp

theorem sleep_follows (hm : d.Lasts m) (hp : d.Works p) (seconds : Seconds) :
    d.Follows limit (m.sleep seconds p) ((d.machine m).sleep seconds (d.work p)) := by
  unfold Machine.sleep
  split
  · exact .back hm hp
  · exact .back hm hp

theorem watch_follows (hm : d.Lasts m) (hp : d.Works p) (self : TaskId) :
    d.Follows limit (m.watch self p) ((d.machine m).watch self (d.work p)) := by
  refine .ite (fun _ => .answer hm hp _) fun _ => ?_
  exact .back (x := .wait .cancellation [] none p)
    (hm.of_eq (n := { m with watchers := m.watchers ++ [self] }) rfl rfl rfl (Nat.le_refl _)) hp

/-- A body is carried out in front of the layer that is made for it. -/
theorem body_follows (hm : d.Lasts m) (hq : d.Deep q) (hp : d.Works p) (l : Layer) (flow : Flow)
    (node : Node) (shared : Bool) :
    d.Follows env.settings.maxCallDepth
      ((m.addLayer l q.layers).1.call env flow (m.addLayer l q.layers).2 node shared p)
      (((d.machine m).addLayer l (d.place q).layers).1.call env flow
        ((d.machine m).addLayer l (d.place q).layers).2 node shared (d.work p)) := by
  rw [place_layers hq.fronts, addLayer_machine hm]
  exact call_follows (hm.addLayer l q.layers) (addLayer_fronts hm hq.fronts l) hp flow node shared

/-- Defaults are bound where names are free, and then arguments are. -/
theorem defaults_pads (vars args : Entries Value) {n : Nat} {s t : Scope} (h : Scope.Pads n s t) :
    Scope.Pads n
      ((vars.foldl (fun s (name, v) =>
        if Scope.contains name s then s else Scope.set name v s) s).update args)
      ((vars.foldl (fun s (name, v) =>
        if Scope.contains name s then s else Scope.set name v s) t).update args) :=
  (h.default vars).update args

theorem Lasts.cancelToken (h : d.Lasts m) (reason : Option String) : d.Lasts (m.cancelToken reason) := by
  have hs := (Machine.cancelToken_silent m reason).mute
  have hr : (m.cancelToken reason).run = m.run := hs.run
  exact h.of_run hs.layers hr (Machine.Tends.cancelToken m reason).size

theorem startedPayload_back (hq : d.Deep q) (node : Node) (number : Nat) :
    Machine.startedPayload node number (d.place q).depth =
      Effect.backPayload (Machine.startedPayload node number q.depth) := by
  rw [place_depth hq.fronts]
  simp [Machine.startedPayload, Effect.backPayload, Value.less_nat hq.depth]

section deep

variable (hm : d.Lasts m) (hp : d.Works p)

include hm

/-- Conditions and templates see the same variables with the call taken back. -/
theorem deep_vars (hq : d.Deep q) : (d.machine m).vars (d.place q).layers = m.vars q.layers := by
  rw [place_layers hq.fronts]
  exact vars_eq (m := m) hm hq.fronts

omit hm in
theorem lookupFlow_machine (flow : Flow) (ref : Value) :
    (d.machine m).lookupFlow env flow ref = m.lookupFlow env flow ref := rfl

include hp

theorem iterate_follows {loop : Loop} (hl : d.Deep loop.place) (bound iterations : Nat) :
    d.Follows env.settings.maxCallDepth (m.iterate env loop bound iterations p)
      ((d.machine m).iterate env (d.loop loop) bound iterations (d.work p)) := by
  unfold Machine.iterate
  dsimp only
  rw [loop_place, deep_vars hm hl]
  refine .ite (fun _ => .answer hm hp _) fun _ => .ite (fun _ => .answer hm hp _) fun _ =>
    .ite (fun _ => .answer hm hp _) fun _ => ?_
  exact body_follows hm hl (hp.cons (k := .while loop bound iterations) hl) _ _ _ _

theorem startWhile_follows (hq : d.Deep q) (node : Node) :
    d.Follows env.settings.maxCallDepth (m.startWhile env q node p)
      ((d.machine m).startWhile env (d.place q) node (d.work p)) := by
  unfold Machine.startWhile
  dsimp only
  split
  · exact .answer hm hp _
  · refine .ite (fun _ => .answer hm hp _) fun _ => ?_
    rw [lookupFlow_machine, place_flow]
    split
    · exact .answer hm hp _
    · exact .go hm (c := .iterate ⟨q, node, _⟩ _ 0) hq hp

theorem nextItem_follows {loop : Loop} (hl : d.Deep loop.place) (itemName : String)
    (indexName : Option String) (index : Nat) (items : List Value) :
    d.Follows env.settings.maxCallDepth (m.nextItem env loop itemName indexName index items p)
      ((d.machine m).nextItem env (d.loop loop) itemName indexName index items (d.work p)) := by
  cases items with
  | nil => exact .answer hm hp _
  | cons item rest =>
    refine .ite (fun _ => .answer hm hp _) fun _ => ?_
    exact body_follows hm hl (hp.cons (k := .foreach loop itemName indexName (index + 1) rest) hl) _ _ _ _

theorem startForeach_follows (hq : d.Deep q) (node : Node) :
    d.Follows env.settings.maxCallDepth (m.startForeach env q node p)
      ((d.machine m).startForeach env (d.place q) node (d.work p)) := by
  unfold Machine.startForeach
  dsimp only
  refine .ite (fun _ => .answer hm hp _) fun _ => ?_
  rw [lookupFlow_machine, place_flow, deep_vars hm hq]
  split
  · exact .answer hm hp _
  · exact nextItem_follows hm hp (by exact hq) _ _ _ _

theorem supply_follows {c : Collection} (hc : d.Deep c.loop.place) :
    d.Follows limit (m.supply c p) ((d.machine m).supply (d.collection c) (d.work p)) := by
  unfold Machine.supply
  rw [show (d.collection c).rest = c.rest from rfl]
  split
  · exact .go hm (c := .element { c with rest := _ } _ _) hc hp
  · dsimp only
    rw [show (d.collection c).saveAs = c.saveAs from rfl]
    split
    · exact .answer hm hp _
    · obtain ⟨he, hk⟩ := merge_machine hm hc c.loop.node.id [(c.saveAs.name, .list c.collected)]
      have hh : d.Follows limit _ _ := .answer hk hp (.outcome (.completed (some Label.loopExit)))
      rw [← he] at hh
      exact hh

theorem element_follows (self : TaskId) {c : Collection} (hc : d.Deep c.loop.place) (acts : List Act)
    (item : Except HandlerFault Value) :
    d.Follows env.settings.maxCallDepth (m.element env self c acts item p)
      ((d.machine m).element env self (d.collection c) acts item (d.work p)) := by
  have hk (acts : List Act) : d.Works (.element c acts item :: p) := hp.cons hc
  unfold Machine.element
  split
  · exact sleep_follows hm (hk _) _
  · rename_i reason acts
    have hh : d.Follows env.settings.maxCallDepth _ _ := .go (hm.cancelToken reason)
      (c := .element c acts item) hc hp
    rw [← cancelToken_machine] at hh
    exact hh
  · exact watch_follows hm (hk _) _
  · split
    · exact .answer hm hp _
    · refine .ite (fun _ => .answer hm hp _) fun _ => ?_
      exact body_follows hm hc
        (hp.cons (k := .elements { c with collected := c.collected ++ [_] }) hc) _ _ _ _

theorem startElements_follows {a : Attempt} (ha : d.Deep a.place) :
    d.Follows limit (m.startElements env a p)
      ((d.machine m).startElements env (d.attempt a) (d.work p)) := by
  unfold Machine.startElements
  split
  · exact .answer hm hp _
  · rw [attempt_place, deep_vars hm ha,
      attempt_node]
    split
    · exact .answer hm hp _
    · dsimp only
      refine .ite (fun _ => .answer hm hp _) fun _ => ?_
      rw [lookupFlow_machine, place_flow]
      split
      · exact .answer hm hp _
      · split
        · exact .answer (hm.effect (.note _)) hp _
        · exact .go (hm.effect (.note _)) (c := .supply ⟨⟨a.place, a.node, _⟩, _, _, [], _⟩) ha hp

theorem invoke_follows (hq : d.Deep q) (node : Node) (target : Flow) (args : Entries Value)
    (inline : Bool) (returns : Value) :
    d.Follows env.settings.maxCallDepth
      (m.invoke env q node target args inline returns p fun _ p => p)
      ((d.machine m).invoke env (d.place q) node target args inline returns (d.work p)
        fun _ p => p) := by
  have hchild (l : Layer) : d.Fronts (m.addLayer l q.layers).2 := addLayer_fronts hm hq.fronts l
  have hwork (l : Layer) (r : Option Value) :
      d.work (.invocation q node (m.addLayer l q.layers).2 r :: p) =
        .invocation (d.place q) node (d.layers (m.addLayer l q.layers).2) r :: d.work p := by
    rw [work, List.map_cons, pending, if_pos hq.fronts.mem]
    rfl
  have hadd (l : Layer) : (d.machine m).addLayer l (d.place q).layers =
      (d.machine (m.addLayer l q.layers).1, d.layers (m.addLayer l q.layers).2) := by
    rw [place_layers hq.fronts]
    exact addLayer_machine hm l q.layers
  unfold Machine.invoke
  refine .ite (fun _ => ?_) fun _ => ?_
  · obtain ⟨he, hk⟩ := rewrite_machine (hm.addLayer { shared := true } q.layers) (hchild _)
      (f := fun s => (target.vars.foldl (fun s (name, v) =>
        if Scope.contains name s then s else Scope.set name v s) s).update args)
      (defaults_pads target.vars args)
    have hh : d.Follows env.settings.maxCallDepth _ _ := call_follows hk (hchild { shared := true })
      (hp.cons (k := .invocation q node (m.addLayer { shared := true } q.layers).2 none)
        ⟨hq, hchild _⟩) target node true
    rw [← he, hwork] at hh
    dsimp only
    rw [hadd]
    exact hh
  · dsimp only
    rw [hadd, ← hwork]
    exact call_follows (hm.addLayer _ q.layers) (hchild _)
      (hp.cons (k := .invocation q node _ _) ⟨hq, hchild _⟩) target node false

theorem startExecuteFlow_follows (hq : d.Deep q) (node : Node) :
    d.Follows env.settings.maxCallDepth (m.startExecuteFlow env q node p)
      ((d.machine m).startExecuteFlow env (d.place q) node (d.work p)) := by
  unfold Machine.startExecuteFlow
  rw [deep_vars hm hq]
  split
  · exact .answer hm hp _
  · rw [lookupFlow_machine, place_flow]
    dsimp only
    split
    · exact .answer hm hp _
    · split
      · exact invoke_follows hm hp hq _ _ _ _ _
      · exact .answer hm hp _

theorem startPrimitive_follows {a : Attempt} (ha : d.Deep a.place) :
    d.Follows limit (m.startPrimitive env a p)
      ((d.machine m).startPrimitive env (d.attempt a) (d.work p)) := by
  unfold Machine.startPrimitive
  dsimp only
  refine .ite (fun _ => .answer hm hp _) fun _ => ?_
  rw [attempt_place, deep_vars hm ha,
    attempt_node]
  split
  · exact .answer hm hp _
  · split
    · exact .answer hm hp _
    · rename_i config _ _ _
      let c : Call := ⟨a.place, a.node, a.number, config.fields, (m.scope a.place.layers).snapshot⟩
      have hv : ((d.machine m).scope (d.place a.place).layers).snapshot = c.vars := by
        rw [place_layers ha.fronts]
        exact snapshot_eq (m := m) hm ha.fronts
      have hs : (d.machine m).spawn (.handle (d.call c)) [] =
          (d.machine (m.spawn (.handle c) []).1, (m.spawn (.handle c) []).2) :=
        spawn_machine hm (.handle c)
      have hw := spawn_machine (hm.spawn (.handle c)) .watch
      rw [hv, show Machine.spawn (d.machine m) (.handle
        ⟨d.place a.place, a.node, (d.attempt a).number, config.fields, c.vars⟩) [] = _ from hs]
      dsimp only
      rw [show Machine.spawn (d.machine (m.spawn (.handle c) []).1) .watch [] = _ from hw]
      exact .back ((hm.spawn (.handle c)).spawn .watch)
        (x := .wait (.settlement a _ _) _ _ (.primitive a :: p)) (hp.cons (k := .primitive a) ha)

theorem attempt_follows {a : Attempt} (ha : d.Deep a.place) :
    d.Follows env.settings.maxCallDepth (m.attempt env a p)
      ((d.machine m).attempt env (d.attempt a) (d.work p)) := by
  have hn := hm.emit "node.started" (Machine.startedPayload a.node a.number a.place.depth)
  have hk : d.Works (.attempt a env.now :: p) := hp.cons ha
  have he : (d.machine m).emit "node.started" (Machine.startedPayload (d.attempt a).node
      (d.attempt a).number (d.attempt a).place.depth) = _ :=
    emit_eq hm "node.started" (startedPayload_back ha a.node a.number)
  unfold Machine.attempt
  rw [he]
  dsimp only
  rw [attempt_node]
  split
  · rw [attempt_place, deep_vars hn ha]
    exact .answer hn hk _
  · exact startForeach_follows hn hk ha _
  · exact startElements_follows hn hk ha
  · exact startWhile_follows hn hk ha _
  · exact startExecuteFlow_follows hn hk ha _
  · exact startPrimitive_follows hn hk ha

end deep

/-! Walking. -/

theorem Lasts.arrive (h : d.Lasts m) (frame : Nat) (node : String) : d.Lasts (m.arrive frame node) :=
  ⟨h.hollow, by simpa [Machine.arrive] using h.stack, h.traced, h.deeper, h.tasks⟩

theorem arrive_machine (m : Machine) (frame : Nat) (node : String) :
    (d.machine m).arrive frame node = d.machine (m.arrive frame node) := by
  have hs (s : List Frame) : (d.stack s).map (fun f =>
      if f.key == frame then { f with current := some node } else f) =
      d.stack (s.map fun f => if f.key == frame then { f with current := some node } else f) := by
    simp only [stack, List.map_append, List.map_take, List.map_drop, List.map_map]
    congr 3
    funext f
    by_cases hf : f.key = frame <;> simp [Descent.frame, hf]
  unfold Machine.arrive machine
  dsimp only
  rw [hs]

theorem takePause_machine (h : d.Lasts m) (node : Node) :
    (d.machine m).takePause node = (d.machine (m.takePause node).1, (m.takePause node).2) ∧
      d.Lasts (m.takePause node).1 := by
  have kept {n : Machine} (hl : n.layers = m.layers) (hr : n.run = m.run) (ht : n.tasks = m.tasks) :
      d.Lasts n :=
    h.of_run hl hr (Nat.le_of_eq (by rw [ht]))
  unfold Machine.takePause
  rw [show (d.machine m).pauseOnStart = m.pauseOnStart from rfl,
    show (d.machine m).stepArmed = m.stepArmed from rfl,
    show (d.machine m).pauseRequested = m.pauseRequested from rfl,
    show (d.machine m).run.breakpoints = m.run.breakpoints from rfl]
  split
  · exact ⟨rfl, kept rfl rfl rfl⟩
  · split
    · exact ⟨rfl, kept rfl rfl rfl⟩
    · split
      · exact ⟨rfl, kept rfl rfl rfl⟩
      · split <;> exact ⟨rfl, h⟩

theorem refusePolicy_machine (env : Surroundings) (h : d.Lasts m) {w : Walk} (hw : d.Deep w.place)
    (node : Node) (fault : PolicyFault) :
    (d.machine m).refusePolicy env (d.walk w) node fault =
        (d.machine (m.refusePolicy env w node fault).1, (m.refusePolicy env w node fault).2) ∧
      d.Lasts (m.refusePolicy env w node fault).1 := by
  have hstarted := emit_eq h "node.started" (startedPayload_back hw node 1)
  have hn := h.emit "node.started" (Machine.startedPayload node 1 w.place.depth)
  let entry (depth : Nat) : TraceEntry :=
    { node := node.id, outcome := .failed, time := 0, depth
      error := some (.invalid ("invalid policy: " ++ fault.message) []) }
  have htraced := trace_eq hn env (e := entry w.place.depth)
    (f := entry (d.place w.place).depth) (by rw [place_depth hw.fronts])
  have ht : d.Lasts ((m.emit "node.started" _).trace env (entry w.place.depth)) := hn.trace env hw.depth
  unfold Machine.refusePolicy
  dsimp only
  rw [walk_place, hstarted, htraced, emit_eq ht "node.failed"]
  · exact ⟨rfl, ht.emit _ _⟩
  · simp [Effect.backPayload]

section walk

variable (hm : d.Lasts m) (hp : d.Works p)

include hm hp

theorem enter_follows (hl : d.Fronts q.layers) (frame : Nat) :
    d.Follows limit (m.enter q frame p) ((d.machine m).enter (d.place q) frame (d.work p)) := by
  have hlen : (d.machine m).run.stack.length = m.run.stack.length - 1 := length_stack hm.stack
  have hdeep : d.Deep { q with depth := m.run.stack.length - 1 } :=
    ⟨hl, by have := hm.stack; have := d.frames_pos; dsimp only; omega⟩
  unfold Machine.enter
  dsimp only
  rw [place_flow]
  refine .ite (fun _ => .answer hm hp _) fun _ => ?_
  split
  · rename_i node _
    have hh : d.Follows limit _ _ := .go hm (c := .next ⟨_, frame, 0⟩ (some node)) hdeep hp
    simp only [control, walk, place_eq hdeep.fronts] at hh
    rw [hlen, place_eq hl]
    exact hh
  · exact .answer hm hp _

theorem next_follows (self : TaskId) {w : Walk} (hw : d.Deep w.place) (node : Option Node) :
    d.Follows limit (m.next env self w node p)
      ((d.machine m).next env self (d.walk w) node (d.work p)) := by
  unfold Machine.next
  cases node with
  | none => exact .answer hm hp _
  | some node =>
    dsimp only
    rw [walk_place, place_flow]
    refine .ite (fun _ => .answer hm hp _) fun _ => .ite (fun _ => .answer hm hp _) fun _ => ?_
    obtain ⟨he, hk⟩ := takePause_machine (hm.arrive w.frame node.id) node
    rw [walk_frame, arrive_machine, he]
    generalize (m.arrive w.frame node.id).takePause node = r at hk
    obtain ⟨n, reason⟩ := r
    cases reason with
    | none => exact .go hk (c := .dispatch { w with steps := w.steps + 1 } node) hw hp
    | some reason =>
      have hn : d.Lasts { n with
          run := { n.run with status := .paused, pauseReason := some reason }
          paused := n.paused ++ [self] } :=
        ⟨hk.hollow, hk.stack, hk.traced, hk.deeper, hk.tasks⟩
      let payload (depth : Nat) : Entries Value :=
        [("reason", .str reason), ("nodeId", .str node.id), ("depth", .nat depth)]
      have hpayload : payload (d.place w.place).depth = Effect.backPayload (payload w.place.depth) := by
        rw [place_depth hw.fronts]
        simp [payload, Effect.backPayload, Value.less_nat hw.depth]
      have hh : d.Follows limit _ _ := .back (hn.emit "run.paused" (payload w.place.depth))
        (x := .wait .resumption [] none (.checkpoint { w with steps := w.steps + 1 } node :: p))
        (hp.cons (k := .checkpoint { w with steps := w.steps + 1 } node) hw)
      rw [← emit_eq hn "run.paused" hpayload] at hh
      exact hh

theorem dispatch_follows {w : Walk} (hw : d.Deep w.place) (node : Node) :
    d.Follows limit (m.dispatch env w node p)
      ((d.machine m).dispatch env (d.walk w) node (d.work p)) := by
  have hk : d.Works (.visit w node :: p) := hp.cons hw
  unfold Machine.dispatch
  dsimp only
  rw [walk_place, place_flow]
  refine .ite (fun _ => .answer hm hp _) fun _ => .ite (fun _ => ?_) fun _ => ?_
  · let payload (depth : Nat) : Entries Value :=
      [("nodeId", .str node.id), ("kind", .str node.kind), ("depth", .nat depth),
        ("reason", .str "disabled")]
    have hpayload : payload (d.place w.place).depth = Effect.backPayload (payload w.place.depth) := by
      rw [place_depth hw.fronts]
      simp [payload, Effect.backPayload, Value.less_nat hw.depth]
    let entry (depth : Nat) : TraceEntry :=
      { node := node.id, outcome := .skipped, time := 0, depth, label := some Label.default }
    have hn := hm.emit "node.skipped" (payload w.place.depth)
    have hh : d.Follows limit _ _ := .answer (hn.trace env (e := entry w.place.depth) hw.depth) hk
      (.outcome (.completed (some Label.default)))
    rw [← trace_eq hn env (f := entry (d.place w.place).depth) (by rw [place_depth hw.fronts]),
      ← emit_eq hm "node.skipped" hpayload] at hh
    exact hh
  · split
    · exact .go hm (c := .try ⟨w.place, node, _, 1⟩) hw hk
    · rename_i fault _
      obtain ⟨he, hr⟩ := refusePolicy_machine env hm hw node fault
      split
      · rw [he]
        exact .answer hr hk _
      · rw [he]
        exact .answer hr hk _
      · exact .answer hm hk _

end walk

/-! Answers. -/

/-- A step of an attempt is traced, and an event tells of it. -/
theorem account_machine (env : Surroundings) (h : d.Lasts m) (hq : d.Deep q) (type : String)
    {f : Nat → TraceEntry} (he : ∀ n, (f n).depth = n ∧ { f n with depth := n - 1 } = f (n - 1))
    {g : Nat → Entries Value} (hp : ∀ n, 1 ≤ n → g (n - 1) = Effect.backPayload (g n)) :
    ((d.machine m).trace env (f (d.place q).depth)).emit type (g (d.place q).depth) =
        d.machine ((m.trace env (f q.depth)).emit type (g q.depth)) ∧
      d.Lasts ((m.trace env (f q.depth)).emit type (g q.depth)) := by
  have hn : d.Lasts (m.trace env (f q.depth)) := h.trace env (by rw [(he _).1]; exact hq.depth)
  refine ⟨?_, hn.emit _ _⟩
  rw [trace_eq h env (e := f q.depth), emit_eq hn]
  · rw [place_depth hq.fronts, hp _ hq.depth]
  · rw [place_depth hq.fronts, ← (he _).2, (he _).1]

section answers

variable (hm : d.Lasts m) (hp : d.Works p)

include hm hp

theorem afterFailure_follows {a : Attempt} (ha : d.Deep a.place) (since : Seconds) (e : ErrorInfo) :
    d.Follows limit (m.afterFailure env a since e p)
      ((d.machine m).afterFailure env (d.attempt a) since e (d.work p)) := by
  have hd : Decision.make (d.attempt a) e = Decision.make a e := by
    simp [Decision.make, attempt]
  obtain ⟨he, hn⟩ := account_machine env hm ha "node.failed"
    (f := fun depth => { node := a.node.id, outcome := .failed, time := 0, depth
                         attempt := a.number, error := some e })
    (fun n => ⟨rfl, rfl⟩)
    (g := fun depth => [("nodeId", .str a.node.id), ("attempt", .nat a.number),
      ("error", e.toValue), ("decision", .str (Decision.make a e).text),
      ("tookMs", .int (Seconds.toMillis (env.now - since))), ("depth", .nat depth)])
    (fun n h => by simp [Effect.backPayload, Value.less_nat h])
  unfold Machine.afterFailure
  dsimp only at he hn ⊢
  rw [hd, attempt_place, attempt_node, attempt_number, he]
  split
  · rw [attempt_policy]
    split
    · exact rest_follows hn (hp.cons (k := .backoff a) ha) _
    · exact .answer hn hp _
  · exact .answer hn hp _
  · exact .answer hn hp _
  · exact .answer hn hp _

theorem afterAttempt_follows {a : Attempt} (ha : d.Deep a.place) (since : Seconds) (o : Outcome) :
    d.Follows limit (m.afterAttempt env a since o p)
      ((d.machine m).afterAttempt env (d.attempt a) since o (d.work p)) := by
  cases o with
  | cancelled =>
    let entry (depth : Nat) : TraceEntry :=
      { node := a.node.id, outcome := .cancelled, time := 0, depth, attempt := a.number }
    have hh : d.Follows limit _ _ := .answer (hm.trace env (e := entry a.place.depth) ha.depth) hp
      (.outcome .cancelled)
    rw [← trace_eq hm env (f := entry (d.place a.place).depth) (by rw [place_depth ha.fronts])] at hh
    exact hh
  | completed label =>
    obtain ⟨he, hn⟩ := account_machine env hm ha "node.completed"
      (f := fun depth => { node := a.node.id, outcome := .completed, time := 0, depth
                           attempt := a.number, label })
      (fun n => ⟨rfl, rfl⟩)
      (g := fun depth => [("nodeId", .str a.node.id), ("label", .ofText? label),
        ("attempt", .nat a.number), ("tookMs", .int (Seconds.toMillis (env.now - since))),
        ("depth", .nat depth)])
      (fun n h => by simp [Effect.backPayload, Value.less_nat h])
    have hh : d.Follows limit _ _ := .answer hn hp (.outcome (.completed label))
    rw [← he] at hh
    exact hh
  | failed e node => exact afterFailure_follows hm hp ha since e

theorem afterVisit_follows {w : Walk} (hw : d.Deep w.place) (node : Node) (o : Outcome) :
    d.Follows limit (m, Machine.afterVisit w node o p)
      (d.machine m, Machine.afterVisit (d.walk w) node o (d.work p)) := by
  unfold Machine.afterVisit
  rw [walk_place, place_flow]
  split
  · exact .go hm (c := .next w _) hw hp
  · exact .answer hm hp _
  · exact .answer hm hp _

omit hp in
/-- A frame that is left in the call is one of those above the call's own. -/
theorem leaveFrame_machine (hs : d.frames + 1 < m.run.stack.length) (key : Nat) (node : String) :
    (d.machine m).leaveFrame key node = d.machine (m.leaveFrame key node) ∧
      d.Lasts (m.leaveFrame key node) := by
  obtain ⟨s, f, he⟩ : ∃ s f, m.run.stack = s ++ [f] :=
    ⟨m.run.stack.dropLast, m.run.stack.getLast (by rintro h; simp [h] at hs),
      (List.dropLast_concat_getLast _).symm⟩
  have hlen : d.frames < s.length := by simpa [he] using hs
  have hback : d.stack m.run.stack = d.stack s ++ [d.frame f] := by rw [he, stack_append hlen]
  have hleft : (m.leaveFrame key node).run.stack = if f.key == key then s else m.run.stack := by
    simp [Machine.leaveFrame, he]
  constructor
  · unfold Machine.leaveFrame machine
    dsimp only
    rw [hback, he]
    simp only [List.getLast?_append, List.getLast?_singleton, Option.some_or, List.dropLast_concat]
    rw [show (d.frame f).key = f.key from rfl]
    split
    · rfl
    · rw [stack_append hlen]
  · refine ⟨hm.hollow, ?_, hm.traced, hm.deeper, hm.tasks⟩
    rw [hleft]
    split
    · exact hlen
    · exact hm.stack

/-- What is done about an answer to work of the call. -/
theorem resume_follows {k : Pending} (hk : d.Awaits k)
    (hs : ∀ key flow node, k = .frame key flow node → d.frames + 1 < m.run.stack.length) (a : Answer) :
    d.Follows env.settings.maxCallDepth (m.resume env k a p)
      ((d.machine m).resume env (d.pending k) a (d.work p)) := by
  have passed : d.Follows env.settings.maxCallDepth (m, .answer a p)
      (d.machine m, .answer a (d.work p)) := .answer hm hp a
  cases k with
  | checkpoint w node =>
    cases a with
    | done => exact .go hm (c := .dispatch w node) hk hp
    | _ => exact passed
  | visit w node =>
    cases a with
    | outcome o => exact afterVisit_follows hm hp hk node o
    | _ => exact passed
  | attempt b since =>
    cases a with
    | outcome o => exact afterAttempt_follows hm hp hk since o
    | _ => exact passed
  | backoff b =>
    cases a with
    | rested cutShort =>
      refine .ite (fun _ => .answer hm hp _) fun _ => ?_
      exact .go hm (c := .try { b with number := b.number + 1 }) hk hp
    | _ => exact passed
  | primitive b =>
    cases a with
    | handled r =>
      cases r with
      | failure e => exact .answer hm hp _
      | success values =>
        obtain ⟨he, hn⟩ := merge_machine hm hk b.node.id values
        have hh : d.Follows env.settings.maxCallDepth _ _ := .answer
          (m := if values.isEmpty then m else m.merge b.place.layers b.node.id values)
          (by split <;> assumption) hp (.outcome (.completed (some Label.default)))
        have hif : (if values.isEmpty then d.machine m
            else (d.machine m).merge (d.place b.place).layers b.node.id values) =
            d.machine (if values.isEmpty then m else m.merge b.place.layers b.node.id values) := by
          rw [he]
          split <;> rfl
        rw [← hif] at hh
        exact hh
    | _ => exact passed
  | frame key flow node =>
    obtain ⟨he, hn⟩ := leaveFrame_machine hm (hs key flow node rfl) key node
    have left (a : Answer) : d.Follows env.settings.maxCallDepth (m.leaveFrame key node, .answer a p)
        ((d.machine m).leaveFrame key node, .answer a (d.work p)) := by
      rw [he]
      exact .answer hn hp a
    cases a <;> exact left _
  | foreach loop itemName indexName index rest =>
    cases a with
    | outcome o =>
      cases o with
      | completed l => exact nextItem_follows hm hp hk _ _ _ _
      | _ => exact passed
    | _ => exact passed
  | «while» loop bound iterations =>
    cases a with
    | outcome o =>
      cases o with
      | completed l => exact .go hm (c := .iterate loop bound (iterations + 1)) hk hp
      | _ => exact passed
    | _ => exact passed
  | element c acts item =>
    cases a with
    | rested cutShort => exact .go hm (c := .element c acts item) hk hp
    | _ => exact passed
  | elements c =>
    cases a with
    | outcome o =>
      cases o with
      | completed l => exact .go hm (c := .supply c) hk hp
      | _ => exact passed
    | thrown f => exact .answer hm hp _
    | _ => exact passed
  | invocation q node child returns =>
    obtain ⟨hq, hc⟩ := hk
    rw [pending, if_pos hq.fronts.mem]
    cases returns with
    | none => cases a <;> exact passed
    | some returns =>
      cases a with
      | outcome o =>
        cases o with
        | completed l =>
          obtain ⟨he, hn⟩ := writeReturns_machine hm hq node hc returns
          have hh : d.Follows env.settings.maxCallDepth _ _ := .answer hn hp (.outcome (.completed l))
          rw [← he] at hh
          exact hh
        | _ => exact passed
      | _ => exact passed
  | _ => exact absurd hk id

end answers

/-! Waking up. -/

/-- A step that leaves the work as it is: it hands an answer to it, or waits for other tasks. -/
inductive Rouses (d : Descent) (p p' : List Pending) : StepResult → StepResult → Prop
  | answer {n : Machine} (hn : d.Lasts n) (a : Answer) :
      Rouses d p p' (n, .answer a p) (d.machine n, .answer a p')
  | wait {n : Machine} (hn : d.Lasts n) {w : Wait}
      (hw : ∀ a handler watcher, w ≠ .settlement a handler watcher) (on : List TaskId)
      (limit : Option Seconds) : Rouses d p p' (n, .wait w on limit p) (d.machine n, .wait w on limit p')

theorem Lasts.interruptTask (h : d.Lasts m) (t : TaskId) : d.Lasts (m.interruptTask t) := by
  have hs := (Machine.Silent.interruptTask m t).mute
  exact h.of_run hs.layers hs.run (Nat.le_of_eq (Machine.size_interrupt _ m t).symm)

section wake

variable {p' : List Pending} {t : TaskId}

theorem Rouses.follows {x y : StepResult} (h : d.Rouses p (d.work p) x y) (hp : d.Works p) :
    d.Follows limit x y := by
  cases h with
  | answer hn a => exact .answer hn hp a
  | @wait n hn w hw on limit' =>
    have hh : d.Follows limit _ _ := .back hn (x := .wait w on limit' p) hp
    have he : d.wait w = w := by
      cases w <;> first | rfl | exact absurd rfl (hw _ _ _)
    rw [turn, he] at hh
    exact hh

variable (hm : d.Lasts m)

include hm

theorem removeHandler_rouses (handler : TaskId) (o : Outcome) :
    d.Rouses p p' (m.removeHandler handler o p) ((d.machine m).removeHandler handler o p') := by
  unfold Machine.removeHandler
  rw [interruptTask_machine]
  exact .wait (hm.interruptTask handler) (by simp) _ _

theorem wakeFromSettlement_rouses (a : Attempt) (handler watcher : TaskId) (interrupted : Bool) :
    d.Rouses p p' (m.wakeFromSettlement env a handler watcher interrupted p)
      ((d.machine m).wakeFromSettlement env (if d.spares t then a else d.attempt a) handler watcher
        interrupted p') := by
  have hnode : (if d.spares t then a else d.attempt a).node = a.node := by split <;> rfl
  have hpolicy : (if d.spares t then a else d.attempt a).policy = a.policy := by split <;> rfl
  have he : (if m.hasEnded watcher then d.machine m else (d.machine m).interruptTask watcher) =
      d.machine (if m.hasEnded watcher then m else m.interruptTask watcher) := by
    rw [interruptTask_machine]
    split <;> rfl
  have hn : d.Lasts (if m.hasEnded watcher then m else m.interruptTask watcher) := by
    split
    · exact hm
    · exact hm.interruptTask watcher
  unfold Machine.wakeFromSettlement
  dsimp only
  rw [hasEnded_machine, he, hnode, hpolicy, ending?_machine]
  generalize (if m.hasEnded watcher then m else m.interruptTask watcher) = n at hn
  split
  · exact .answer hn _
  · split
    · exact .answer hn _
    · split
      · exact .wait hn (by simp) _ _
      · exact removeHandler_rouses hn _ _

/-- After a wait other than that for a start. -/
theorem wake_rouses (self : TaskId) {w : Wait} (hw : ∀ u v, w ≠ .start u v)
    (signalled interrupted : Bool) :
    d.Rouses p p' (m.wake env self w signalled interrupted p)
      ((d.machine m).wake env self (d.waitOf t w) signalled interrupted p') := by
  have hn : d.Lasts (m.dropTimer self) := hm.effect _
  have hended (u : TaskId) : ((d.machine m).dropTimer self).hasEnded u = (m.dropTimer self).hasEnded u :=
    hasEnded_machine d (m.dropTimer self) u
  cases w with
  | start u v => exact absurd rfl (hw u v)
  | grant =>
    cases interrupted with
    | false => exact .answer ((hm.effect (.leaveSlotQueue self)).effect .passSlotOn) _
    | true =>
      cases signalled with
      | false => exact .answer (hm.effect (.leaveSlotQueue self)) _
      | true => exact .answer ((hm.effect (.leaveSlotQueue self)).effect .giveSlotBack) _
  | cancellation =>
    exact .answer (n := { m with watchers := m.watchers.filter (· != self) })
      (hm.of_run rfl rfl (Nat.le_refl _)) _
  | resumption => exact .answer hm _
  | settlement a handler watcher => exact wakeFromSettlement_rouses hn a _ _ _
  | grace handler =>
    unfold Machine.wake waitOf
    dsimp only
    rw [hended]
    split
    · exact .answer hn _
    · split
      · exact .answer hn _
      · exact removeHandler_rouses hn _ _
  | removal handler o passedOn => exact .answer hm _
  | nap watcher =>
    have hi : ((d.machine m).dropTimer self).interruptTask watcher =
        d.machine ((m.dropTimer self).interruptTask watcher) :=
      interruptTask_machine (m.dropTimer self) watcher
    unfold Machine.wake waitOf
    dsimp only
    rw [hended, hi]
    split
    · exact .answer hn _
    · exact .wait (hn.interruptTask watcher) (by simp) _ _
  | rousing watcher before =>
    unfold Machine.wake waitOf
    dsimp only
    rw [ending?_machine]
    split
    · exact .answer hm _
    · split <;> exact .answer hm _
  | sleep => exact .answer hn _

end wake

/-! Whole steps. -/

/-- A step of the walker in the call, unless it hands an answer to the work below the call. -/
theorem step_follows (hm : d.Lasts m) (hp : d.Works p) {c : Control} (hc : d.Does c) (self : TaskId)
    (ha : ∀ a, c = .answer a → ∃ k q, p = k :: q ∧ d.Awaits k ∧ d.Works q ∧
      ∀ key flow node, k = .frame key flow node → d.frames + 1 < m.run.stack.length)
    (hw : ∀ u v s i, c ≠ .wake (.start u v) s i) :
    d.Follows env.settings.maxCallDepth (m.step env self c p)
      ((d.machine m).step env self (d.control c) (d.work p)) := by
  cases c with
  | enter q frame => exact enter_follows hm hp hc frame
  | next w node => exact next_follows hm hp self hc node
  | dispatch w node => exact dispatch_follows hm hp hc node
  | «try» a => exact attempt_follows hm hp hc
  | iterate l bound iterations => exact iterate_follows hm hp hc _ _
  | supply c => exact supply_follows hm hp hc
  | element c acts item => exact element_follows hm hp self hc _ _
  | wake w s i =>
    have hr : d.Rouses p (d.work p) (m.wake env self w s i p) _ := wake_rouses (t := d.walker) hm self
      (fun u v he => hw u v s i (congrArg (Control.wake · s i) he)) s i
    rw [waitOf_eq d.spares_walker] at hr
    exact hr.follows hp
  | answer a =>
    obtain ⟨k, q, rfl, hk, hq, hs⟩ := ha a rfl
    exact resume_follows hm hq hk hs a
  | _ => exact absurd hc id

section errand

variable {t : TaskId} {roles : List Role} {r : Role}

/-- At most the rest of a handler that sleeps waits in a task that does not walk. -/
theorem small_of_wait {w : Wait} (h : w.Suits roles r p) (hr : r ≠ .walker) : p = [] ∨ p = [.rest] := by
  cases r <;> cases w <;> first
    | exact absurd rfl hr | exact absurd h id | exact .inl h | exact .inr h.2

theorem small_of_suits {c : Control} (h : c.Suits roles r p) (hr : r ≠ .walker) : p = [] ∨ p = [.rest] := by
  cases c with
  | wake w s i => exact small_of_wait h.1 hr
  | answer a =>
    cases p with
    | nil => exact .inl rfl
    | cons k q =>
      obtain ⟨rfl, rfl⟩ := h.of_answer hr
      exact .inr rfl
  | _ => cases r <;> first | exact absurd rfl hr | exact absurd h id | exact .inl h

/-- Work of others has no places. -/
theorem workOf_small (d : Descent) (t : TaskId) (hp : p = [] ∨ p = [.rest]) : d.workOf t p = p := by
  unfold workOf
  split
  · rfl
  · rcases hp with rfl | rfl <;> rfl

theorem controlOf_answer (d : Descent) (t : TaskId) (a : Answer) :
    d.controlOf t (.answer a) = .answer a := by
  unfold controlOf
  split <;> rfl

theorem turnOf_answer (d : Descent) (t : TaskId) (hp : p = [] ∨ p = [.rest]) (a : Answer) :
    d.turnOf t (.answer a p) = .answer a p := by
  simp only [Turn.answer, turnOf, controlOf_answer, d.workOf_small t hp]

theorem Rouses.eq {x y : StepResult} (h : d.Rouses p p x y) (hp : p = [] ∨ p = [.rest]) :
    y = (d.machine x.1, d.turnOf t x.2) := by
  cases h with
  | answer hn a => rw [d.turnOf_answer t hp]
  | @wait n hn w hw on limit =>
    have he : d.waitOf t w = w := by
      cases w <;> first | rfl | exact absurd rfl (hw _ _ _)
    simp only [turnOf, he, d.workOf_small t hp]

theorem rest_rouses (hm : d.Lasts m) (seconds : Seconds) (hp : p = [] ∨ p = [.rest]) :
    (d.machine m).rest seconds p = (d.machine (m.rest seconds p).1, d.turnOf t (m.rest seconds p).2) := by
  have hs := spawn_machine hm .watch
  rw [show d.control .watch = .watch from rfl] at hs
  unfold Machine.rest
  split
  · rw [d.turnOf_answer t hp]
    rfl
  · rw [hs]
    simp only [turnOf, waitOf, d.workOf_small t hp]

/-- A built-in handler makes nothing of the place where it is called. -/
theorem handle_machine (hm : d.Lasts m) (w : World) (now : Moment) (c : Call) :
    (d.machine m).handle (w.surroundings now) (if d.spares t then c else d.call c) [] =
      (d.machine (m.handle (w.surroundings now) c []).1,
        d.turnOf t (m.handle (w.surroundings now) c []).2) := by
  have answered (a : Answer) : (d.machine m, Turn.answer a []) =
      (d.machine m, d.turnOf t (Turn.answer a [])) := by
    rw [d.turnOf_answer t (.inl rfl)]
  have hnode : (if d.spares t then c else d.call c).node = c.node := by split <;> rfl
  have hconfig : (if d.spares t then c else d.call c).config = c.config := by split <;> rfl
  have hvars : (if d.spares t then c else d.call c).vars = c.vars := by split <;> rfl
  unfold Machine.handle
  rw [hnode]
  split
  · exact answered _
  · rename_i reg hreg
    obtain ⟨b, hb⟩ := now.builtin.handler hreg
    rw [hb]
    dsimp only
    rw [hconfig, hvars]
    split
    · exact answered _
    · exact answered _
    · exact rest_rouses hm _ (.inr rfl)

/-- A step of a task that does not walk. -/
theorem errand_machine (hm : d.Lasts m) (hr : r ≠ .walker) {c : Control} (hc : c.Suits roles r p)
    (w : World) (now : Moment) :
    (d.machine m).step (w.surroundings now) t (d.controlOf t c) (d.workOf t p) =
      (d.machine (m.step (w.surroundings now) t c p).1,
        d.turnOf t (m.step (w.surroundings now) t c p).2) := by
  have kept {c : Control} (hk : d.control c = c) : d.controlOf t c = c := by
    unfold controlOf
    split
    · rfl
    · exact hk
  have hp := small_of_suits hc hr
  rw [d.workOf_small t hp]
  cases c with
  | takeSlot =>
    rw [kept rfl]
    refine Rouses.eq ?_ hp
    show d.Rouses p p (m.takeSlot _ t p) ((d.machine m).takeSlot _ t p)
    unfold Machine.takeSlot
    split
    · exact .wait (hm.effect (.queueForSlot t)) (by simp) _ _
    · exact .answer (hm.effect .takeSlot) _
  | watch =>
    rw [kept rfl]
    refine Rouses.eq ?_ hp
    show d.Rouses p p (m.watch t p) ((d.machine m).watch t p)
    unfold Machine.watch
    rw [show (d.machine m).token = m.token from rfl]
    split
    · exact .answer hm _
    · exact .wait (n := { m with watchers := m.watchers ++ [t] }) (hm.of_run rfl rfl (Nat.le_refl _))
        (by simp) _ _
  | handle c =>
    obtain rfl : p = [] := by
      cases r <;> first | exact absurd rfl hr | exact absurd hc id | exact hc
    have hcontrol : d.controlOf t (.handle c) = .handle (if d.spares t then c else d.call c) := by
      unfold controlOf
      split <;> rfl
    rw [hcontrol]
    exact handle_machine hm w now c
  | wake v s i =>
    have hstart (u v' : TaskId) : v ≠ .start u v' := by
      rintro rfl
      cases r <;> first | exact absurd rfl hr | exact absurd hc.1 id
    rw [d.controlOf_wake]
    exact (wake_rouses hm t hstart s i).eq hp
  | answer a =>
    rw [d.controlOf_answer]
    cases p with
    | nil => rfl
    | cons k q =>
      obtain ⟨rfl, rfl⟩ := hc.of_answer hr
      refine Rouses.eq (p := []) ?_ (.inl rfl)
      cases a <;> exact .answer hm _
  | _ => cases r <;> first | exact absurd rfl hr | exact absurd hc id

end errand

end Workflow.Descent
