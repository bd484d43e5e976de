import Workflow.Proofs.Flow.Arrangement
import Workflow.Proofs.Run.Guise
import Workflow.Proofs.Run.Happening
/-!
A run with the edges of all its flows put in order. A step finds the same entries, the same edges behind nodes and
the same flows as without an order, so it leads to where the step leads, put in order.
-/

namespace Workflow.Arrangement

open Machine (StepResult)

section order

variable (o : Arrangement)

def place (q : Place) : Place := { q with flow := o.flow q.flow }

def attempt (a : Attempt) : Attempt := { a with place := o.place a.place }

def call (c : Call) : Call := { c with place := o.place c.place }

def walk (w : Walk) : Walk := { w with place := o.place w.place }

def loop (l : Loop) : Loop := { l with place := o.place l.place, body := o.flow l.body }

def collection (c : Collection) : Collection := { c with loop := o.loop c.loop }

def pending : Pending → Pending
  | .checkpoint w node => .checkpoint (o.walk w) node
  | .visit w node => .visit (o.walk w) node
  | .attempt a since => .attempt (o.attempt a) since
  | .backoff a => .backoff (o.attempt a)
  | .primitive a => .primitive (o.attempt a)
  | .foreach l itemName indexName index rest => .foreach (o.loop l) itemName indexName index rest
  | .while l bound iterations => .while (o.loop l) bound iterations
  | .element c acts item => .element (o.collection c) acts item
  | .elements c => .elements (o.collection c)
  | .invocation q node child returns => .invocation (o.place q) node child returns
  | .plan c acts finish => .plan (o.call c) acts finish
  | k => k

def work (p : List Pending) : List Pending :=
  p.map o.pending

def wait : Wait → Wait
  | .settlement a handler watcher => .settlement (o.attempt a) handler watcher
  | w => w

def control : Control → Control
  | .enter q frame => .enter (o.place q) frame
  | .next w node => .next (o.walk w) node
  | .dispatch w node => .dispatch (o.walk w) node
  | .try a => .try (o.attempt a)
  | .iterate l bound iterations => .iterate (o.loop l) bound iterations
  | .supply c => .supply (o.collection c)
  | .element c acts item => .element (o.collection c) acts item
  | .handle c => .handle (o.call c)
  | .act c acts finish => .act (o.call c) acts finish
  | .wake w signalled interrupted => .wake (o.wait w) signalled interrupted
  | c => c

def turn : Turn → Turn
  | .go c p => .go (o.control c) (o.work p)
  | .wait w on limit p => .wait (o.wait w) on limit (o.work p)
  | .pass p => .pass (o.work p)
  | .stop a => .stop a

def note : CallNote → CallNote
  | .handler c cancelled => .handler (o.call c) cancelled
  | .elements selector node attempt => .elements selector node attempt

def effect : Effect → Effect
  | .note n => .note (o.note n)
  | e => e

/-- A run with its edges in order is the run in another guise. -/
def guise : Guise where
  run r := { r with flow := o.flow r.flow }
  attempt _ := o.attempt
  control _ := o.control
  work _ := o.work
  effect := o.effect
  log := List.map o.effect
  work_nil _ := rfl
  control_wake _ _ _ _ := rfl
  effect_plain e h := by
    cases e with
    | note => exact h.elim
    | _ => rfl
  tells_log es t ticket := by
    rw [List.any_map]
    exact congrArg es.any (funext fun e => by cases e <;> rfl)

def machine (m : Machine) : Machine := o.guise.machine m

/-- A step from a machine whose edges are in order. -/
def result (x : StepResult) : StepResult := (o.machine x.1, o.turn x.2)

def surroundings (env : Surroundings) : Surroundings :=
  { env with flows := env.flows.map fun s => (s.1, o.flow s.2) }

def execution (x : Execution) : Execution := o.guise.execution x

def happening : Happening → Happening
  | .step env => .step (o.surroundings env)
  | a => a

end order

variable {o : Arrangement} {env : Surroundings}

/-! Tasks. -/

theorem ending?_machine (o : Arrangement) (m : Machine) (t : TaskId) :
    (o.machine m).ending? t = m.ending? t :=
  o.guise.ending?_machine m t

theorem hasEnded_machine (o : Arrangement) (m : Machine) (t : TaskId) :
    (o.machine m).hasEnded t = m.hasEnded t :=
  o.guise.hasEnded_machine m t

theorem interruptTask_machine (m : Machine) (t : TaskId) :
    (o.machine m).interruptTask t = o.machine (m.interruptTask t) :=
  o.guise.interruptTask_machine m t

theorem spawn_machine (m : Machine) (c : Control) (p : List Pending) :
    (o.machine m).spawn (o.control c) (o.work p) = (o.machine (m.spawn c p).1, (m.spawn c p).2) :=
  o.guise.spawn_machine m c p

theorem cancelToken_machine (m : Machine) (reason : Option String) :
    (o.machine m).cancelToken reason = o.machine (m.cancelToken reason) :=
  o.guise.cancelToken_machine m reason

theorem endPause_machine (m : Machine) : (o.machine m).endPause = o.machine m.endPause :=
  o.guise.endPause_machine m

/-! Parts of steps. -/

theorem result_ite {c : Prop} [Decidable c] {x x' y y' : StepResult} (h : c → y = o.result x)
    (h' : ¬ c → y' = o.result x') : (if c then y else y') = o.result (if c then x else x') := by
  split
  · exact h ‹_›
  · exact h' ‹_›

theorem lookupFlow_machine (m : Machine) (env : Surroundings) (f : Flow) (ref : Value) :
    (o.machine m).lookupFlow (o.surroundings env) (o.flow f) ref = (m.lookupFlow env f ref).map o.flow := by
  have hown : Entries.find? ref.name (o.machine m).run.flow.subflows =
      (Entries.find? ref.name m.run.flow.subflows).map o.flow := o.find?_subflows ref.name m.run.flow
  have hknown : Entries.find? ref.name (o.surroundings env).flows =
      (Entries.find? ref.name env.flows).map o.flow := o.find?_map ref.name env.flows
  unfold Machine.lookupFlow
  dsimp only
  rw [hown, hknown, o.find?_subflows, ← Option.map_or, ← Option.map_or]
  split <;> rfl

section steps

variable (m : Machine) (p : List Pending)

theorem call_result (env : Surroundings) (flow : Flow) (ls : List Nat) (node : Node) (shared : Bool) :
    (o.machine m).call (o.surroundings env) (o.flow flow) ls node shared (o.work p) =
      o.result (m.call env flow ls node shared p) := by
  unfold Machine.call
  refine result_ite (fun _ => rfl) fun _ => ?_
  simp only [flow_id]
  rfl

/-- A body is carried out in front of the layer that is made for it. -/
theorem body_result (env : Surroundings) (l : Layer) (q : Place) (flow : Flow) (node : Node) (shared : Bool) :
    ((o.machine m).addLayer l (o.place q).layers).1.call (o.surroundings env) (o.flow flow)
        ((o.machine m).addLayer l (o.place q).layers).2 node shared (o.work p) =
      o.result ((m.addLayer l q.layers).1.call env flow (m.addLayer l q.layers).2 node shared p) :=
  call_result (m.addLayer l q.layers).1 p env flow (m.addLayer l q.layers).2 node shared

theorem rest_result (seconds : Seconds) :
    (o.machine m).rest seconds (o.work p) = o.result (m.rest seconds p) := by
  unfold Machine.rest
  refine result_ite (fun _ => rfl) fun _ => ?_
  rw [show (o.machine m).spawn .watch [] = _ from spawn_machine m .watch []]
  rfl

theorem sleep_result (seconds : Seconds) :
    (o.machine m).sleep seconds (o.work p) = o.result (m.sleep seconds p) :=
  result_ite (fun _ => rfl) fun _ => rfl

theorem watch_result (self : TaskId) : (o.machine m).watch self (o.work p) = o.result (m.watch self p) :=
  result_ite (fun _ => rfl) fun _ => rfl

theorem finalize_machine (stamp : Instant) (r : Outcome) :
    (o.machine m).finalize stamp r = o.machine (m.finalize stamp r) := by
  unfold Machine.finalize
  rw [show (o.machine m).run.status = m.run.status from rfl, show (o.machine m).token = m.token from rfl]
  split
  · rfl
  · dsimp only
    rw [← endPause_machine]
    congr 1
    split
    · rfl
    · cases r <;> rfl

/-! Starting and executing. -/

theorem enqueue_result : (o.machine m).enqueue (o.work p) = o.result (m.enqueue p) := by
  unfold Machine.enqueue
  refine result_ite (fun _ => rfl) fun _ => ?_
  rw [show (o.machine m).spawn .takeSlot [] = _ from spawn_machine m .takeSlot []]
  dsimp only
  rw [show (o.machine (m.spawn .takeSlot []).1).spawn .watch [] = _ from spawn_machine _ .watch []]
  rfl

theorem takeSlot_result (env : Surroundings) (self : TaskId) :
    (o.machine m).takeSlot (o.surroundings env) self (o.work p) = o.result (m.takeSlot env self p) :=
  result_ite (fun _ => rfl) fun _ => rfl

theorem execute_result (env : Surroundings) :
    (o.machine m).execute (o.surroundings env) (o.work p) = o.result (m.execute env p) := by
  unfold Machine.execute
  refine result_ite (fun _ => rfl) fun _ => result_ite (fun _ => ?_) fun _ => ?_
  · exact congrArg (·, Turn.answer .done (o.work p)) (finalize_machine m env.stamp .cancelled)
  · have hid : (o.machine m).run.flow.id = m.run.flow.id := o.flow_id m.run.flow
    dsimp only
    rw [hid]
    rfl

/-! Walking a flow. -/

theorem enter_result (q : Place) (frame : Nat) :
    (o.machine m).enter (o.place q) frame (o.work p) = o.result (m.enter q frame p) := by
  unfold Machine.enter
  dsimp only [place]
  rw [flow_entry, entryNode?_flow, flow_id]
  refine result_ite (fun _ => rfl) fun _ => ?_
  split <;> rfl

theorem takePause_machine (node : Node) :
    (o.machine m).takePause node = (o.machine (m.takePause node).1, (m.takePause node).2) := by
  unfold Machine.takePause
  rw [show (o.machine m).pauseOnStart = m.pauseOnStart from rfl,
    show (o.machine m).stepArmed = m.stepArmed from rfl,
    show (o.machine m).pauseRequested = m.pauseRequested from rfl,
    show (o.machine m).run.breakpoints = m.run.breakpoints from rfl]
  repeat' split
  all_goals rfl

theorem next_result (env : Surroundings) (self : TaskId) (w : Walk) (node : Option Node) :
    (o.machine m).next (o.surroundings env) self (o.walk w) node (o.work p) = o.result (m.next env self w node p) := by
  unfold Machine.next
  cases node with
  | none => rfl
  | some node =>
    dsimp only [walk, place]
    rw [flow_id, show (o.machine m).arrive w.frame node.id = o.machine (m.arrive w.frame node.id) from rfl,
      takePause_machine]
    refine result_ite (fun _ => rfl) fun _ => result_ite (fun _ => rfl) fun _ => ?_
    generalize (m.arrive w.frame node.id).takePause node = r
    obtain ⟨n, reason⟩ := r
    cases reason <;> rfl

theorem dispatch_result (env : Surroundings) (w : Walk) (node : Node) :
    (o.machine m).dispatch (o.surroundings env) (o.walk w) node (o.work p) = o.result (m.dispatch env w node p) := by
  unfold Machine.dispatch
  dsimp only [walk, place]
  rw [flow_policy]
  refine result_ite (fun _ => rfl) fun _ => result_ite (fun _ => rfl) fun _ => ?_
  rw [show (o.surroundings env).settings = env.settings from rfl]
  split
  · rfl
  · split <;> rfl

/-! Control nodes. -/

theorem iterate_result (env : Surroundings) (l : Loop) (bound iterations : Nat) :
    (o.machine m).iterate (o.surroundings env) (o.loop l) bound iterations (o.work p) =
      o.result (m.iterate env l bound iterations p) := by
  unfold Machine.iterate
  refine result_ite (fun _ => rfl) fun _ => result_ite (fun _ => rfl) fun _ => result_ite (fun _ => rfl) fun _ => ?_
  exact body_result m (.while l bound iterations :: p) env _ l.place l.body l.node true

theorem startWhile_result (env : Surroundings) (q : Place) (node : Node) :
    (o.machine m).startWhile (o.surroundings env) (o.place q) node (o.work p) =
      o.result (m.startWhile env q node p) := by
  unfold Machine.startWhile
  dsimp only [place]
  rw [lookupFlow_machine]
  split
  · rfl
  · refine result_ite (fun _ => rfl) fun _ => ?_
    cases m.lookupFlow env q.flow ((Value.obj node.config).field "subflowId") <;> rfl

theorem nextItem_result (env : Surroundings) (l : Loop) (itemName : String) (indexName : Option String) (index : Nat)
    (items : List Value) :
    (o.machine m).nextItem (o.surroundings env) (o.loop l) itemName indexName index items (o.work p) =
      o.result (m.nextItem env l itemName indexName index items p) := by
  unfold Machine.nextItem
  cases items with
  | nil => rfl
  | cons item rest =>
    refine result_ite (fun _ => rfl) fun _ => ?_
    exact body_result m (.foreach l itemName indexName (index + 1) rest :: p) env _ l.place l.body l.node true

theorem startForeach_result (env : Surroundings) (q : Place) (node : Node) :
    (o.machine m).startForeach (o.surroundings env) (o.place q) node (o.work p) =
      o.result (m.startForeach env q node p) := by
  unfold Machine.startForeach
  dsimp only
  refine result_ite (fun _ => rfl) fun _ => ?_
  rw [show (o.place q).flow = o.flow q.flow from rfl, lookupFlow_machine]
  cases m.lookupFlow env q.flow ((Value.obj node.config).field "subflowId") with
  | none => rfl
  | some body => exact nextItem_result m p env ⟨q, node, body⟩ _ _ 0 _

theorem supply_result (c : Collection) :
    (o.machine m).supply (o.collection c) (o.work p) = o.result (m.supply c p) := by
  unfold Machine.supply
  rw [show (o.collection c).rest = c.rest from rfl, show (o.collection c).saveAs = c.saveAs from rfl]
  split
  · rfl
  · dsimp only
    split <;> rfl

theorem element_result (env : Surroundings) (self : TaskId) (c : Collection) (acts : List Act)
    (item : Except HandlerFault Value) :
    (o.machine m).element (o.surroundings env) self (o.collection c) acts item (o.work p) =
      o.result (m.element env self c acts item p) := by
  unfold Machine.element
  split
  · exact sleep_result m (.element c _ item :: p) _
  · exact congrArg (·, Turn.go (.element (o.collection c) _ item) (o.work p)) (cancelToken_machine m _)
  · exact watch_result m (.element c _ item :: p) self
  · split
    · rfl
    · refine result_ite (fun _ => rfl) fun _ => ?_
      exact body_result m (.elements { c with collected := c.collected ++ [_] } :: p) env _ c.loop.place c.loop.body
        c.loop.node true

theorem startElements_result (env : Surroundings) (a : Attempt) :
    (o.machine m).startElements (o.surroundings env) (o.attempt a) (o.work p) =
      o.result (m.startElements env a p) := by
  unfold Machine.startElements
  rw [show (o.surroundings env).provider = env.provider from rfl]
  split
  · rfl
  · rw [show (o.machine m).vars (o.attempt a).place.layers = m.vars a.place.layers from rfl,
      show (o.attempt a).node = a.node from rfl]
    split
    · rfl
    · dsimp only
      refine result_ite (fun _ => rfl) fun _ => ?_
      rw [show (o.attempt a).place.flow = o.flow a.place.flow from rfl, lookupFlow_machine]
      cases m.lookupFlow env a.place.flow _ with
      | none => rfl
      | some body =>
        dsimp only [Option.map_some]
        split <;> rfl

theorem invoke_result (env : Surroundings) (q : Place) (node : Node) (target : Flow) (args : Entries Value)
    (inline : Bool) (returns : Value) {wrap : List Nat → List Pending → List Pending}
    (hw : ∀ child, wrap child (o.work p) = o.work (wrap child p)) :
    (o.machine m).invoke (o.surroundings env) (o.place q) node (o.flow target) args inline returns (o.work p) wrap =
      o.result (m.invoke env q node target args inline returns p wrap) := by
  unfold Machine.invoke
  rw [flow_vars]
  refine result_ite (fun _ => ?_) fun _ => ?_
  · dsimp only
    rw [hw]
    let r := m.addLayer { shared := true } q.layers
    let s := target.vars.foldl (fun s v => if Scope.contains v.1 s then s else Scope.set v.1 v.2 s) (r.1.scope r.2)
    exact call_result (r.1.putScope r.2 (s.update args)) (.invocation q node r.2 none :: wrap r.2 p) env target r.2
      node true
  · dsimp only
    rw [hw]
    exact body_result m (.invocation q node _ _ :: wrap _ p) env _ q target node false

theorem writeReturns_machine (q : Place) (node : Node) (child : List Nat) (returns : Value) :
    (o.machine m).writeReturns (o.place q) node child returns = o.machine (m.writeReturns q node child returns) := by
  unfold Machine.writeReturns
  rw [show (o.machine m).scope child = m.scope child from rfl]
  dsimp only
  split <;> rfl

theorem startExecuteFlow_result (env : Surroundings) (q : Place) (node : Node) :
    (o.machine m).startExecuteFlow (o.surroundings env) (o.place q) node (o.work p) =
      o.result (m.startExecuteFlow env q node p) := by
  unfold Machine.startExecuteFlow
  rw [show (o.machine m).vars (o.place q).layers = m.vars q.layers from rfl]
  split
  · rfl
  · rw [show (o.place q).flow = o.flow q.flow from rfl, lookupFlow_machine]
    cases m.lookupFlow env q.flow _ with
    | none => rfl
    | some target =>
      dsimp only [Option.map_some]
      split
      · exact invoke_result m p env q node target _ _ _ fun _ => rfl
      · rfl

theorem startPrimitive_result (env : Surroundings) (a : Attempt) :
    (o.machine m).startPrimitive (o.surroundings env) (o.attempt a) (o.work p) =
      o.result (m.startPrimitive env a p) := by
  unfold Machine.startPrimitive
  dsimp only
  refine result_ite (fun _ => rfl) fun _ => ?_
  rw [show (o.machine m).vars (o.attempt a).place.layers = m.vars a.place.layers from rfl,
    show (o.attempt a).node = a.node from rfl, show (o.surroundings env).registry = env.registry from rfl]
  split
  · rfl
  · split
    · rfl
    · rename_i config _ _ _
      let c : Call := ⟨a.place, a.node, a.number, config.fields, (m.scope a.place.layers).snapshot⟩
      have hhandler : (o.machine m).spawn (.handle (o.call c)) [] =
          (o.machine (m.spawn (.handle c) []).1, (m.spawn (.handle c) []).2) := spawn_machine m (.handle c) []
      have hwatcher : (o.machine (m.spawn (.handle c) []).1).spawn .watch [] = _ := spawn_machine _ .watch []
      rw [show Machine.spawn (o.machine m) (.handle ⟨(o.attempt a).place, a.node, (o.attempt a).number, config.fields,
        ((o.machine m).scope (o.attempt a).place.layers).snapshot⟩) [] = _ from hhandler]
      dsimp only
      rw [hwatcher]
      rfl

theorem attempt_result (env : Surroundings) (a : Attempt) :
    (o.machine m).attempt (o.surroundings env) (o.attempt a) (o.work p) = o.result (m.attempt env a p) := by
  let n := m.emit "node.started" (Machine.startedPayload a.node a.number a.place.depth)
  let q := .attempt a env.now :: p
  unfold Machine.attempt
  rw [show (o.attempt a).node = a.node from rfl]
  dsimp only
  split
  · rfl
  · exact startForeach_result n q env a.place a.node
  · exact startElements_result n q env a
  · exact startWhile_result n q env a.place a.node
  · exact startExecuteFlow_result n q env a.place a.node
  · exact startPrimitive_result n q env a

/-! Handlers. -/

theorem handle_result (env : Surroundings) (c : Call) :
    (o.machine m).handle (o.surroundings env) (o.call c) (o.work p) = o.result (m.handle env c p) := by
  unfold Machine.handle
  rw [show (o.call c).node = c.node from rfl, show (o.surroundings env).registry = env.registry from rfl]
  split
  · rfl
  · split
    · rw [show (o.call c).config = c.config from rfl, show (o.call c).vars = c.vars from rfl]
      split
      · rfl
      · rfl
      · exact rest_result m (.rest :: p) _
    · rfl

theorem subexecute_result (env : Surroundings) (c : Call) (ref : Value) (args : Entries Value) (inline : Bool)
    (saveAs : Option String) :
    (o.machine m).subexecute (o.surroundings env) (o.call c) ref args inline saveAs (o.work p) =
      o.result (m.subexecute env c ref args inline saveAs p) := by
  unfold Machine.subexecute
  rw [show (o.call c).place.flow = o.flow c.place.flow from rfl, lookupFlow_machine]
  cases m.lookupFlow env c.place.flow ref with
  | none => rfl
  | some target => exact invoke_result m p env c.place c.node target args inline .null fun _ => rfl

theorem act_result (env : Surroundings) (self : TaskId) (c : Call) (acts : List Act) (finish : Finish) :
    (o.machine m).act (o.surroundings env) self (o.call c) acts finish (o.work p) =
      o.result (m.act env self c acts finish p) := by
  unfold Machine.act
  split
  · exact sleep_result m (.plan c _ finish :: p) _
  · exact watch_result m (.plan c _ finish :: p) self
  · exact congrArg (·, Turn.go (.act (o.call c) _ finish) (o.work p)) (cancelToken_machine m _)
  · split
    · rfl
    · rfl
    · rfl
    · exact subexecute_result m p env c _ _ _ _

/-! Answers to work that waits. -/

theorem make_attempt (a : Attempt) (e : ErrorInfo) : Decision.make (o.attempt a) e = Decision.make a e := by
  unfold Decision.make
  rw [show (o.attempt a).place.flow = o.flow a.place.flow from rfl, edge?_flow]
  rfl

theorem afterFailure_result (env : Surroundings) (a : Attempt) (since : Seconds) (e : ErrorInfo) :
    (o.machine m).afterFailure (o.surroundings env) (o.attempt a) since e (o.work p) =
      o.result (m.afterFailure env a since e p) := by
  unfold Machine.afterFailure
  rw [make_attempt]
  dsimp only
  split
  · rw [show (o.attempt a).policy = a.policy from rfl, show (o.attempt a).number = a.number from rfl]
    split
    · exact rest_result ((m.trace env _).emit _ _) (.backoff a :: p) _
    · rfl
  · rfl
  · rfl
  · rfl

theorem afterAttempt_result (env : Surroundings) (a : Attempt) (since : Seconds) (r : Outcome) :
    (o.machine m).afterAttempt (o.surroundings env) (o.attempt a) since r (o.work p) =
      o.result (m.afterAttempt env a since r p) := by
  cases r with
  | failed e node => exact afterFailure_result m p env a since e
  | _ => rfl

theorem afterVisit_turn (w : Walk) (node : Node) (r : Outcome) :
    Machine.afterVisit (o.walk w) node r (o.work p) = o.turn (Machine.afterVisit w node r p) := by
  unfold Machine.afterVisit
  rw [show (o.walk w).place.flow = o.flow w.place.flow from rfl]
  split
  · rw [next?_flow]
    rfl
  · rfl
  · rfl

theorem resume_result (env : Surroundings) (k : Pending) (a : Answer) :
    (o.machine m).resume (o.surroundings env) (o.pending k) a (o.work p) = o.result (m.resume env k a p) := by
  cases k with
  | slot held => cases held <;> cases a <;> rfl
  | execution =>
    cases a with
    | outcome r => exact congrArg (·, Turn.answer .done (o.work p)) (finalize_machine m env.stamp r)
    | thrown f => exact congrArg (·, Turn.answer .done (o.work p)) (finalize_machine m env.stamp _)
    | interrupted =>
      refine congrArg (·, Turn.answer .interrupted (o.work p)) ?_
      rw [cancelToken_machine]
      exact finalize_machine _ env.stamp .cancelled
    | _ => rfl
  | visit w node =>
    cases a with
    | outcome r => exact congrArg (o.machine m, ·) (afterVisit_turn p w node r)
    | _ => rfl
  | attempt b since =>
    cases a with
    | outcome r => exact afterAttempt_result m p env b since r
    | _ => rfl
  | backoff b =>
    cases a with
    | rested cutShort => exact result_ite (fun _ => rfl) fun _ => rfl
    | _ => rfl
  | primitive b =>
    cases a with
    | handled r =>
      cases r with
      | failure e => rfl
      | success values =>
        refine congrArg (·, Turn.outcome (.completed (some Label.default)) (o.work p)) ?_
        show _ = o.machine (if _ then _ else _)
        split <;> rfl
    | _ => rfl
  | foreach l itemName indexName index rest =>
    cases a with
    | outcome r =>
      cases r with
      | completed label => exact nextItem_result m p env l itemName indexName index rest
      | _ => rfl
    | _ => rfl
  | «while» l bound iterations =>
    cases a with
    | outcome r => cases r <;> rfl
    | _ => rfl
  | elements c =>
    cases a with
    | outcome r => cases r <;> rfl
    | _ => rfl
  | invocation q node child returns =>
    cases returns with
    | none => cases a <;> rfl
    | some returns =>
      cases a with
      | outcome r =>
        cases r with
        | completed label =>
          exact congrArg (·, Turn.outcome (.completed label) (o.work p)) (writeReturns_machine m q node child returns)
        | _ => rfl
      | _ => rfl
  | subexecution child =>
    cases a with
    | outcome r => cases r <;> rfl
    | _ => rfl
  | _ => cases a <;> rfl

/-! Waking up. -/

theorem removeHandler_result (handler : TaskId) (r : Outcome) :
    (o.machine m).removeHandler handler r (o.work p) = o.result (m.removeHandler handler r p) :=
  congrArg (·, Turn.wait (.removal handler r false) [handler] none (o.work p)) (interruptTask_machine m handler)

theorem wakeFromSettlement_result (env : Surroundings) (a : Attempt) (handler watcher : TaskId) (interrupted : Bool) :
    (o.machine m).wakeFromSettlement (o.surroundings env) (o.attempt a) handler watcher interrupted (o.work p) =
      o.result (m.wakeFromSettlement env a handler watcher interrupted p) := by
  have hkept : (if m.hasEnded watcher then o.machine m else (o.machine m).interruptTask watcher) =
      o.machine (if m.hasEnded watcher then m else m.interruptTask watcher) := by
    rw [interruptTask_machine]
    split <;> rfl
  unfold Machine.wakeFromSettlement
  dsimp only
  rw [hasEnded_machine, hkept, ending?_machine]
  generalize (if m.hasEnded watcher then m else m.interruptTask watcher) = n
  refine result_ite (fun _ => rfl) fun _ => ?_
  split
  · rfl
  · exact result_ite (fun _ => rfl) fun _ => removeHandler_result n p handler _

theorem wake_result (env : Surroundings) (self : TaskId) (w : Wait) (signalled interrupted : Bool) :
    (o.machine m).wake (o.surroundings env) self (o.wait w) signalled interrupted (o.work p) =
      o.result (m.wake env self w signalled interrupted p) := by
  have hended (u : TaskId) : ((o.machine m).dropTimer self).hasEnded u = (m.dropTimer self).hasEnded u :=
    hasEnded_machine o (m.dropTimer self) u
  cases w with
  | start taker watcher =>
    unfold Machine.wake wait
    dsimp only
    refine result_ite (fun _ => ?_) fun _ => ?_
    · refine congrArg (·, Turn.answer .interrupted (o.work p)) ?_
      rw [ending?_machine, ← interruptTask_machine]
      congr 1
      split
      · rfl
      · exact interruptTask_machine m taker
    · rw [interruptTask_machine, ending?_machine]
      split
      · rfl
      · exact congrArg (·, Turn.go .execute (.slot false :: o.work p)) (interruptTask_machine _ taker)
  | settlement a handler watcher => exact wakeFromSettlement_result (m.dropTimer self) p env a handler watcher _
  | grace handler =>
    unfold Machine.wake wait
    dsimp only
    rw [hended]
    exact result_ite (fun _ => rfl) fun _ => result_ite (fun _ => rfl) fun _ =>
      removeHandler_result (m.dropTimer self) p handler .cancelled
  | nap watcher =>
    unfold Machine.wake wait
    dsimp only
    rw [hended]
    exact result_ite (fun _ => rfl) fun _ => congrArg (·, Turn.wait (.rousing watcher interrupted) [watcher] none
      (o.work p)) (interruptTask_machine (m.dropTimer self) watcher)
  | rousing watcher before =>
    unfold Machine.wake wait
    dsimp only
    rw [ending?_machine]
    refine result_ite (fun _ => rfl) fun _ => ?_
    split <;> rfl
  | grant => cases interrupted <;> cases signalled <;> rfl
  | _ => rfl

/-- A step leads to where the step leads, with the edges put in order. -/
theorem step_result (env : Surroundings) (self : TaskId) (c : Control) :
    (o.machine m).step (o.surroundings env) self (o.control c) (o.work p) = o.result (m.step env self c p) := by
  cases c with
  | enqueue => exact enqueue_result m p
  | takeSlot => exact takeSlot_result m p env self
  | execute => exact execute_result m p env
  | enter q frame => exact enter_result m p q frame
  | next w node => exact next_result m p env self w node
  | dispatch w node => exact dispatch_result m p env w node
  | «try» a => exact attempt_result m p env a
  | iterate l bound iterations => exact iterate_result m p env l bound iterations
  | supply c => exact supply_result m p c
  | element c acts item => exact element_result m p env self c acts item
  | handle c => exact handle_result m p env c
  | act c acts finish => exact act_result m p env self c acts finish
  | watch => exact watch_result m p self
  | wake w signalled interrupted => exact wake_result m p env self w signalled interrupted
  | answer a =>
    cases p with
    | nil => rfl
    | cons k p => exact resume_result m p env k a

end steps

end Workflow.Arrangement
