import Workflow.Expr.Template
import Workflow.Run.Condition
import Workflow.Run.Machine
/-!
How the tasks of a run proceed. A step takes what a task does next and the work that waits for it,
and says how the task goes on: with the next thing, by waiting, or not at all.
-/

namespace Workflow

/-- How a task goes on after a step. -/
inductive Turn where
  | go (control : Control) (pending : List Pending)
  /-- The task waits, for the ends of tasks among others, and for no longer than some seconds. -/
  | wait (w : Wait) (on : List TaskId) (limit : Option Seconds) (pending : List Pending)
  /-- The task lets all others that are ready go first. -/
  | pass (pending : List Pending)
  | stop (a : Answer)

namespace ErrorInfo

def invalid (message : String) (data : Entries Value) : ErrorInfo :=
  { code := "validation_error", message, retryable := false
    data := if data.isEmpty then .null else .obj data }

def missingFlow (ref : Value) : ErrorInfo :=
  { code := "subflow_not_found", message := "subflow '" ++ ref.name ++ "' not found"
    retryable := false, data := .obj [("flowId", ref)] }

def stepLimit (flow : String) (limit : Nat) : ErrorInfo :=
  { code := "step_limit_exceeded"
    message := "frame for flow '" ++ flow ++ "' exceeded " ++ toString limit ++ " steps"
    retryable := false }

def callDepth (limit : Nat) : ErrorInfo :=
  { code := "call_depth_exceeded"
    message := "call depth limit " ++ toString limit ++ " reached"
    retryable := false }

def loopLimit (node : String) (bound : Nat) : ErrorInfo :=
  { code := "loop_limit_exceeded"
    message := "while node '" ++ node ++ "' exceeded maxIterations=" ++ toString bound
    retryable := false
    data := .obj [("nodeId", .str node), ("maxIterations", .nat bound)] }

def timeout (node : String) (ms : Nat) : ErrorInfo :=
  { code := "timeout"
    message := "node '" ++ node ++ "' timed out after " ++ toString ms ++ "ms" }

def noProvider : ErrorInfo :=
  { code := "provider_unavailable"
    message := "no live-collection provider is configured for loopElements"
    retryable := false }

def ofHandler (message : String) : ErrorInfo :=
  { code := "handler_error", message }

/-- The failure of a node whose flow failed at one of its own nodes. -/
def ofSubflow (flow : String) (node : Option String) (cause : ErrorInfo) : ErrorInfo :=
  { code := "handler_failure"
    message := "subflow '" ++ flow ++ "' failed at node '" ++ node.getD "None" ++ "': "
      ++ cause.message
    retryable := cause.retryable
    data := .obj [("flowId", .str flow), ("nodeId", .ofText? node)]
    cause := some cause }

def internal (fault : HandlerFault) : ErrorInfo :=
  { code := "internal", message := "kernel error: " ++ fault.text, retryable := false }

end ErrorInfo

namespace Turn

def answer (a : Answer) (pending : List Pending) : Turn :=
  .go (.answer a) pending

def outcome (o : Outcome) (pending : List Pending) : Turn :=
  answer (.outcome o) pending

def fail (e : ErrorInfo) (pending : List Pending) : Turn :=
  outcome (.failed e none) pending

end Turn

/-- What is done about a failed attempt. -/
inductive Decision where
  | retry | continue | reroute | stop
  deriving Repr, DecidableEq

namespace Decision

def text : Decision → String
  | retry => "retry"
  | .continue => "continue"
  | reroute => "onError"
  | stop => "stop"

/-- A fatal failure stops the run. Otherwise a retry comes first if there is one left, then going
on regardless, then the edge for errors. -/
def make (a : Attempt) (e : ErrorInfo) : Decision :=
  if Policy.fatalCodes.contains e.code then stop
  else if a.policy.allowsRetry e a.number then retry
  else
    let goesOn : Bool := match a.policy.onError with
      | .retry => a.policy.fallback == .continue
      | o => o == .continue
    if goesOn then .continue
    else if (a.place.flow.edge? a.node.id Label.onError).isSome then reroute
    else stop

end Decision

namespace Machine

abbrev StepResult := Machine × Turn

def trace (m : Machine) (env : Surroundings) (e : TraceEntry) : Machine :=
  { m with run := { m.run with trace := m.run.trace.push { e with time := env.stamp } } }

def vars (m : Machine) (layers : List Nat) : Variables :=
  (m.scope layers).vars

/-- Writes a node's values and says so. -/
def merge (m : Machine) (layers : List Nat) (node : String) (values : Entries Value) : Machine :=
  (m.write layers values).emit "vars.patch" [
    ("nodeId", .str node), ("patch", .obj values), ("source", .str "node")]

/-- Lets all tasks that wait for the end of a pause go on. -/
def endPause (m : Machine) : Machine :=
  m.paused.foldl signal { m with paused := [] }

def milliseconds (n : Nat) : Seconds :=
  ((Double.ofInt? n).getD Double.positiveInfinity) / 1000.0

/-- Ends the run, unless it has ended. A cancelled run is cancelled however its flow ended. -/
def finalize (m : Machine) (stamp : Instant) (o : Outcome) : Machine :=
  if m.run.status.isTerminal then m
  else
    let run := { m.run with stack := [], finishedAt := some stamp, pauseReason := none }
    let took := ("tookMs", Value.int (run.tookMs?.getD 0))
    let cancelled (m : Machine) : Machine :=
      { m with run := { run with status := .cancelled } }.emit "run.cancelled" [
        ("reason", .ofText? m.token.reason), took]
    let m := if m.token.cancelled then cancelled m
      else
        match o with
        | .cancelled => cancelled m
        | .failed e node =>
          { m with run := { run with status := .failed, error := some e } }.emit "run.failed" [
            ("nodeId", .ofText? node), ("error", e.toValue), took]
        | .completed _ =>
          let outputs := (m.scope rootLayers).snapshot
          { m with run := { run with status := .completed, outputs := some outputs } }.emit
            "run.completed" [("outputs", .obj outputs), took]
    m.endPause

/-- Rests for some seconds unless the run is cancelled. -/
def rest (m : Machine) (seconds : Seconds) (pending : List Pending) : StepResult :=
  if !(seconds > 0.0) then (m, .answer (.rested m.token.cancelled) pending)
  else
    let (m, watcher) := m.spawn .watch []
    (m, .wait (.nap watcher) [watcher] (some seconds) pending)

/-- Sleeps for some seconds. Without any the task only lets others go first. -/
def sleep (m : Machine) (seconds : Seconds) (pending : List Pending) : StepResult :=
  if seconds > 0.0 then (m, .wait .sleep [] (some seconds) pending) else (m, .pass pending)

/-- The flow that a node refers to: one inside its flow, one inside the run's flow, or a known one. -/
def lookupFlow (m : Machine) (env : Surroundings) (flow : Flow) (ref : Value) : Option Flow :=
  if ref.isVacant then none
  else
    let key := ref.name
    (Entries.find? key flow.subflows).or
      ((Entries.find? key m.run.flow.subflows).or (Entries.find? key env.flows))

/-- Walks a flow in a frame of its own. -/
def call (m : Machine) (env : Surroundings) (flow : Flow) (layers : List Nat) (node : Node)
    (shared : Bool) (pending : List Pending) : StepResult :=
  if m.run.stack.length ≥ env.settings.maxCallDepth then
    (m, .fail (.callDepth env.settings.maxCallDepth) pending)
  else
    let key := m.nextFrame
    let frame : Frame := { key, flow := flow.id, invokedBy := some node.id, layers, shared }
    let m := { m with
      nextFrame := key + 1
      run := { m.run with stack := m.run.stack ++ [frame] } }
    (m, .go (.enter ⟨flow, layers, 0⟩ key) (.frame key flow.id node.id :: pending))

/-- Leaves a frame, if it is still the last one. -/
def leaveFrame (m : Machine) (key : Nat) (node : String) : Machine :=
  let stack := match m.run.stack.getLast? with
    | some f => if f.key == key then m.run.stack.dropLast else m.run.stack
    | none => []
  { m with run := { m.run with stack, current := some node } }

/-! Starting and executing. -/

def enqueue (m : Machine) (pending : List Pending) : StepResult :=
  if m.token.cancelled then (m, .go .execute (.slot false :: pending))
  else
    let (m, taker) := m.spawn .takeSlot []
    let (m, watcher) := m.spawn .watch []
    (m, .wait (.start taker watcher) [taker, watcher] none pending)

def takeSlot (m : Machine) (env : Surroundings) (self : TaskId) (pending : List Pending) :
    StepResult :=
  if env.slotsLocked then (m.effect (.queueForSlot self), .wait .grant [] none pending)
  else (m.effect .takeSlot, .answer .done pending)

/-- Waits for the run's cancellation. -/
def watch (m : Machine) (self : TaskId) (pending : List Pending) : StepResult :=
  if m.token.cancelled then (m, .answer (.rested true) pending)
  else
    ({ m with watchers := m.watchers ++ [self] }, .wait .cancellation [] none pending)

def execute (m : Machine) (env : Surroundings) (pending : List Pending) : StepResult :=
  if m.run.status != .pending then (m, .answer .done pending)
  else if m.token.cancelled then (m.finalize env.stamp .cancelled, .answer .done pending)
  else
    let flow := m.run.flow
    let m := { m with run := { m.run with status := .running, startedAt := some env.stamp } }
    let m := m.emit "run.started" [("flowId", .str flow.id)]
    let key := m.nextFrame
    let frame : Frame := { key, flow := flow.id, invokedBy := none, layers := rootLayers }
    let m := { m with
      nextFrame := key + 1
      run := { m.run with stack := m.run.stack ++ [frame] } }
    (m, .go (.enter ⟨flow, rootLayers, 0⟩ key) (.execution :: pending))

/-! Walking a flow. -/

def enter (m : Machine) (place : Place) (frame : Nat) (pending : List Pending) : StepResult :=
  let place := { place with depth := m.run.stack.length - 1 }
  let flow := place.flow
  if !flow.entry.isVacant && !flow.entry.isHashable then
    (m, .answer (.thrown (.ofShape (.unhashable flow.entry.typeName))) pending)
  else
    match flow.entryNode? with
    | some node => (m, .go (.next ⟨place, frame, 0⟩ (some node)) pending)
    | none =>
      (m, .fail (.invalid ("flow '" ++ flow.id ++ "' has no entry node")
        [("flowId", .str flow.id)]) pending)

/-- Why the run pauses before a node, if it does; what asked for the pause is then used up. -/
def takePause (m : Machine) (node : Node) : Machine × Option String :=
  if m.pauseOnStart then ({ m with pauseOnStart := false }, some "start")
  else if m.stepArmed then ({ m with stepArmed := false }, some "step")
  else if m.pauseRequested then ({ m with pauseRequested := false }, some "command")
  else if m.run.breakpoints.contains node.id then (m, some "breakpoint")
  else (m, none)

/-- Says which node the run and one of its frames have come to. -/
def arrive (m : Machine) (frame : Nat) (node : String) : Machine :=
  let stack := m.run.stack.map fun f =>
    if f.key == frame then { f with current := some node } else f
  { m with run := { m.run with stack, current := some node } }

def next (m : Machine) (env : Surroundings) (self : TaskId) (walk : Walk) (node : Option Node)
    (pending : List Pending) : StepResult :=
  match node with
  | none => (m, .outcome (.completed none) pending)
  | some node =>
    if m.token.cancelled then (m, .outcome .cancelled pending)
    else if walk.steps + 1 > env.settings.maxStepsPerFrame then
      (m, .outcome (.failed (.stepLimit walk.place.flow.id env.settings.maxStepsPerFrame)
        (some node.id)) pending)
    else
      let walk := { walk with steps := walk.steps + 1 }
      let (m, reason) := (m.arrive walk.frame node.id).takePause node
      match reason with
      | none => (m, .go (.dispatch walk node) pending)
      | some reason =>
        let run := { m.run with status := .paused, pauseReason := some reason }
        let m := { m with run, paused := m.paused ++ [self] }.emit "run.paused" [
          ("reason", .str reason), ("nodeId", .str node.id), ("depth", .nat walk.place.depth)]
        (m, .wait .resumption [] none (.checkpoint walk node :: pending))

def startedPayload (node : Node) (attempt depth : Nat) : Entries Value := [
  ("nodeId", .str node.id), ("kind", .str node.kind), ("attempt", .nat attempt),
  ("depth", .nat depth)]

/-- A node whose policy makes no sense fails at its first attempt. -/
def refusePolicy (m : Machine) (env : Surroundings) (walk : Walk) (node : Node)
    (fault : PolicyFault) : Machine × ErrorInfo :=
  let error := ErrorInfo.invalid ("invalid policy: " ++ fault.message) []
  let depth := walk.place.depth
  let m := m.emit "node.started" (startedPayload node 1 depth)
  let m := m.trace env
    { node := node.id, outcome := .failed, time := 0, depth, error := some error }
  (m.emit "node.failed" [("nodeId", .str node.id), ("attempt", .nat 1), ("error", error.toValue),
    ("decision", .str Decision.stop.text)], error)

def dispatch (m : Machine) (env : Surroundings) (walk : Walk) (node : Node)
    (pending : List Pending) : StepResult :=
  let depth := walk.place.depth
  if m.token.cancelled then (m, .outcome .cancelled pending)
  else if node.disabled then
    let m := m.emit "node.skipped" [("nodeId", .str node.id), ("kind", .str node.kind),
      ("depth", .nat depth), ("reason", .str "disabled")]
    let m := m.trace env { node := node.id, outcome := .skipped, time := 0, depth
                           label := some Label.default }
    (m, .outcome (.completed (some Label.default)) (.visit walk node :: pending))
  else
    let layers := [walk.place.flow.policy, node.policy].map fun p =>
      (p.map Value.obj).getD .null
    match Policy.resolve env.settings layers with
    | .ok policy => (m, .go (.try ⟨walk.place, node, policy, 1⟩) (.visit walk node :: pending))
    | .error fault =>
      match fault.kind with
      | .type | .value =>
        let (m, error) := m.refusePolicy env walk node fault
        (m, .outcome (.failed error (some node.id)) (.visit walk node :: pending))
      | kind =>
        (m, .answer (.thrown (.raised kind.name fault.message)) (.visit walk node :: pending))

/-! Control nodes. -/

/-- Whether a `while` node may go on, and what it does then. -/
def iterate (m : Machine) (env : Surroundings) (loop : Loop) (bound iterations : Nat)
    (pending : List Pending) : StepResult :=
  let condition := (Value.obj loop.node.config).field "condition"
  if !Condition.holds (m.vars loop.place.layers) condition then
    (m, .outcome (.completed (some Label.loopExit)) pending)
  else if iterations ≥ bound then (m, .fail (.loopLimit loop.node.id bound) pending)
  else if m.token.cancelled then (m, .outcome .cancelled pending)
  else
    let (m, child) := m.addLayer { shared := true } loop.place.layers
    m.call env loop.body child loop.node true (.while loop bound iterations :: pending)

/-- The bound that a `while` node gives, zero if it is none. -/
def givenBound (v : Value) : Except ShapeFault Int :=
  match v with
  | .bool _ => .ok 0
  | v =>
    match v.toWhole with
    | .ok n => .ok n
    | .error f => if f.kind == .overflow then .error f else .ok 0

def startWhile (m : Machine) (env : Surroundings) (place : Place) (node : Node)
    (pending : List Pending) : StepResult :=
  let config := Value.obj node.config
  let given := config.field "maxIterations"
  match givenBound given with
  | .error f => (m, .answer (.thrown (.ofShape f)) pending)
  | .ok bound =>
    if bound ≤ 0 then
      (m, .fail (.invalid ("while node '" ++ node.id ++ "' requires a positive maxIterations")
        [("maxIterations", given)]) pending)
    else
      match m.lookupFlow env place.flow (config.field "subflowId") with
      | none => (m, .fail (.missingFlow (config.field "subflowId")) pending)
      | some body =>
        (m, .go (.iterate ⟨place, node, body⟩ (min bound.toNat env.settings.maxLoopIterations) 0)
          pending)

/-- Carries the body of a `foreach` node out for the next item. -/
def nextItem (m : Machine) (env : Surroundings) (loop : Loop) (itemName : String)
    (indexName : Option String) (index : Nat) (items : List Value) (pending : List Pending) :
    StepResult :=
  match items with
  | [] => (m, .outcome (.completed (some Label.loopExit)) pending)
  | item :: rest =>
    if m.token.cancelled then (m, .outcome .cancelled pending)
    else
      let counted := indexName.toList.map fun name => (name, Value.nat index)
      let bindings := Entries.ofList ((itemName, item) :: counted)
      let (m, child) := m.addLayer { bindings, shared := true } loop.place.layers
      m.call env loop.body child loop.node true
        (.foreach loop itemName indexName (index + 1) rest :: pending)

/-- The name of the variable for an item. -/
def itemName (config : Value) : String :=
  ((config.field "itemVar").orElse (.str "item")).name

def startForeach (m : Machine) (env : Surroundings) (place : Place) (node : Node)
    (pending : List Pending) : StepResult :=
  let config := Value.obj node.config
  let listName := config.field "listVar"
  if listName.isVacant then
    (m, .fail (.invalid ("foreach node '" ++ node.id ++ "' requires listVar") []) pending)
  else
    match m.lookupFlow env place.flow (config.field "subflowId") with
    | none => (m, .fail (.missingFlow (config.field "subflowId")) pending)
    | some body =>
      let indexName := config.field "indexVar"
      let items := match (m.vars place.layers).lookup (namePath listName.name) with
        | .list items => items
        | _ => []
      m.nextItem env ⟨place, node, body⟩ (itemName config)
        (if indexName.isVacant then none else some indexName.name) 0 items pending

/-- Takes the next element of a live collection, or writes what was collected. -/
def supply (m : Machine) (c : Collection) (pending : List Pending) : StepResult :=
  match c.rest with
  | e :: rest => (m, .go (.element { c with rest } e.acts e.item) pending)
  | [] =>
    let m := if c.saveAs.isVacant then m
      else m.merge c.loop.place.layers c.loop.node.id [(c.saveAs.name, .list c.collected)]
    (m, .outcome (.completed (some Label.loopExit)) pending)

def enumerationFailed (f : HandlerFault) : ErrorInfo :=
  .ofHandler ("enumeration failed: " ++ f.text)

/-- Carries out what comes before an element, and then the body for it. -/
def element (m : Machine) (env : Surroundings) (self : TaskId) (c : Collection) (acts : List Act)
    (item : Except HandlerFault Value) (pending : List Pending) : StepResult :=
  match acts with
  | .sleep ms :: acts => m.sleep (Seconds.ofMillis ms) (.element c acts item :: pending)
  | .cancel reason :: acts => (m.cancelToken reason, .go (.element c acts item) pending)
  | .awaitCancel :: acts => m.watch self (.element c acts item :: pending)
  | [] =>
    match item with
    | .error f => (m, .fail (enumerationFailed f) pending)
    | .ok v =>
      if m.token.cancelled then (m, .outcome .cancelled pending)
      else
        let c := { c with collected := c.collected ++ [v] }
        let (m, child) := m.addLayer { bindings := [(c.itemName, v)], shared := true }
          c.loop.place.layers
        m.call env c.loop.body child c.loop.node true (.elements c :: pending)

def startElements (m : Machine) (env : Surroundings) (a : Attempt) (pending : List Pending) :
    StepResult :=
  match env.provider with
  | none => (m, .fail .noProvider pending)
  | some provider =>
    match Template.resolve (m.vars a.place.layers) (.obj a.node.config) with
    | .error f => (m, .answer (.thrown (.ofNumber f)) pending)
    | .ok config =>
      let selector := config.field "selector"
      if selector.isVacant then
        (m, .fail (.invalid ("loopElements node '" ++ a.node.id ++ "' requires selector") [])
          pending)
      else
        match m.lookupFlow env a.place.flow (config.field "subflowId") with
        | none => (m, .fail (.missingFlow (config.field "subflowId")) pending)
        | some body =>
          let m := m.effect (.note (.elements selector a.node.id a.number))
          match provider.elements with
          | .error f => (m, .fail (enumerationFailed f) pending)
          | .ok rest =>
            (m, .go (.supply {
              loop := ⟨a.place, a.node, body⟩, itemName := itemName config
              saveAs := config.field "saveAs", collected := [], rest }) pending)

/-- Calls a flow. Inline, it writes into the caller's scope; otherwise into a layer of its own, from
which only what is returned comes back. -/
def invoke (m : Machine) (env : Surroundings) (place : Place) (node : Node) (target : Flow)
    (args : Entries Value) (inline : Bool) (returns : Value) (pending : List Pending)
    (wrap : List Nat → List Pending → List Pending) : StepResult :=
  if inline then
    let (m, child) := m.addLayer { shared := true } place.layers
    let s := target.vars.foldl (fun s (name, v) =>
      if Scope.contains name s then s else Scope.set name v s) (m.scope child)
    let m := m.putScope child (s.update args)
    m.call env target child node true
      (.invocation place node child none :: wrap child pending)
  else
    let bindings := target.vars.foldl (fun bs (name, v) =>
      if Entries.contains name args then bs else Entries.insert name v bs) args
    let (m, child) := m.addLayer { bindings } place.layers
    m.call env target child node false
      (.invocation place node child (if returns.isVacant then none else some returns)
        :: wrap child pending)

/-- The caller's names for what is returned, each with the child's name. -/
def returnNames : Value → Entries String
  | .str s => [(s, s)]
  | .obj fields => fields.map fun (parent, child) => (parent, child.name)
  | .list names => Entries.ofList (names.map fun n => (n.name, n.name))
  | _ => []

/-- Writes what a called flow returns. -/
def writeReturns (m : Machine) (place : Place) (node : Node) (child : List Nat) (returns : Value) :
    Machine :=
  let s := m.scope child
  let values := (returnNames returns).filterMap fun (parent, name) =>
    (s.find? name).map (parent, ·)
  if values.isEmpty then m else m.merge place.layers node.id values

def startExecuteFlow (m : Machine) (env : Surroundings) (place : Place) (node : Node)
    (pending : List Pending) : StepResult :=
  match Template.resolve (m.vars place.layers) (.obj node.config) with
  | .error f => (m, .answer (.thrown (.ofNumber f)) pending)
  | .ok config =>
    match m.lookupFlow env place.flow (config.field "flowId") with
    | none => (m, .fail (.missingFlow (config.field "flowId")) pending)
    | some target =>
      match (config.field "args").orElse (.obj []) with
      | .obj args =>
        let inline := !((config.field? "inline").getD (.bool true)).isVacant
        m.invoke env place node target args inline (config.field "returns") pending
          fun _ pending => pending
      | _ =>
        (m, .fail (.invalid ("executeFlow node '" ++ node.id ++ "' args must be an object") [])
          pending)

/-! Handlers. -/

def startPrimitive (m : Machine) (env : Surroundings) (a : Attempt) (pending : List Pending) :
    StepResult :=
  let kind := a.node.kind
  if !Entries.contains kind env.registry then
    (m, .outcome (.failed (.unknownKind kind) (some a.node.id)) pending)
  else
    match Template.resolve (m.vars a.place.layers) (.obj a.node.config) with
    | .error f => (m, .answer (.thrown (.ofNumber f)) pending)
    | .ok config =>
      match env.registry.violations kind config.fields with
      | v :: vs =>
        (m, .fail (.invalid ("config for '" ++ kind ++ "' is invalid: " ++ v)
          [("violations", .strings (v :: vs))]) pending)
      | [] =>
        let vars := (m.scope a.place.layers).snapshot
        let (m, handler) := m.spawn (.handle ⟨a.place, a.node, a.number, config.fields, vars⟩) []
        let (m, watcher) := m.spawn .watch []
        (m, .wait (.settlement a handler watcher) [handler, watcher]
          (some (milliseconds a.policy.timeoutMs)) (.primitive a :: pending))

/-- Carries out one attempt at a node. -/
def attempt (m : Machine) (env : Surroundings) (a : Attempt) (pending : List Pending) : StepResult :=
  let m := m.emit "node.started" (startedPayload a.node a.number a.place.depth)
  let pending := .attempt a env.now :: pending
  match a.node.kind with
  | "if" =>
    (m, .outcome (.completed (some (Condition.chosenLabel (m.vars a.place.layers)
      a.node.config))) pending)
  | "foreach" => m.startForeach env a.place a.node pending
  | "loopElements" => m.startElements env a pending
  | "while" => m.startWhile env a.place a.node pending
  | "executeFlow" => m.startExecuteFlow env a.place a.node pending
  | _ => m.startPrimitive env a pending

/-- Calls the handler for a node's kind. -/
def handle (m : Machine) (env : Surroundings) (c : Call) (pending : List Pending) : StepResult :=
  match Entries.find? c.node.kind env.registry with
  | none => (m, .answer (.thrown (.unknownKind c.node.kind)) pending)
  | some reg =>
    match reg.handler with
    | .builtin b =>
      match b.act c.config c.vars with
      | .error f => (m, .answer (.thrown (.ofShape f)) pending)
      | .ok (.reply r _) => (m, .answer (.handled r) pending)
      | .ok (.rest ms) => m.rest (Seconds.ofMillis ms) (.rest :: pending)
    | .planned plans =>
      let plan := Plan.ofCall plans ((Entries.find? c.node.kind env.calls).getD 0)
      (m.effect (.note (.handler c m.token.cancelled)), .go (.act c plan.acts plan.finish) pending)

/-- Runs another flow for a handler. -/
def subexecute (m : Machine) (env : Surroundings) (c : Call) (ref : Value) (args : Entries Value)
    (inline : Bool) (saveAs : Option String) (pending : List Pending) : StepResult :=
  match m.lookupFlow env c.place.flow ref with
  | none => (m, .answer (.handled (.failure (some (.missingFlow ref)))) pending)
  | some target =>
    m.invoke env c.place c.node target args inline .null pending
      fun child pending => .subexecution child :: .saving saveAs :: pending

/-- Carries out the rest of a plan. -/
def act (m : Machine) (env : Surroundings) (self : TaskId) (c : Call) (acts : List Act)
    (finish : Finish) (pending : List Pending) : StepResult :=
  match acts with
  | .sleep ms :: acts => m.sleep (Seconds.ofMillis ms) (.plan c acts finish :: pending)
  | .awaitCancel :: acts => m.watch self (.plan c acts finish :: pending)
  | .cancel reason :: acts => (m.cancelToken reason, .go (.act c acts finish) pending)
  | [] =>
    match finish with
    | .stop => (m, .answer .interrupted pending)
    | .fault f => (m, .answer (.thrown f) pending)
    | .result r => (m, .answer (.handled r) pending)
    | .subflow ref args inline saveAs => m.subexecute env c ref args inline saveAs pending

/-! Answers to work that waits. -/

/-- What follows a failed attempt. -/
def afterFailure (m : Machine) (env : Surroundings) (a : Attempt) (since : Seconds) (e : ErrorInfo)
    (pending : List Pending) : StepResult :=
  let decision := Decision.make a e
  let m := m.trace env { node := a.node.id, outcome := .failed, time := 0, depth := a.place.depth
                         attempt := a.number, error := some e }
  let m := m.emit "node.failed" [("nodeId", .str a.node.id), ("attempt", .nat a.number),
    ("error", e.toValue), ("decision", .str decision.text),
    ("tookMs", .int (Seconds.toMillis (env.now - since))), ("depth", .nat a.place.depth)]
  match decision with
  | .retry =>
    match Double.ofInt? (a.policy.delayMs a.number) with
    | some ms => m.rest (Seconds.ofMillis ms) (.backoff a :: pending)
    | none =>
      (m, .answer (.thrown (.raised FaultKind.overflow.name "int too large to convert to float"))
        pending)
  | .continue => (m, .outcome (.completed (some Label.default)) pending)
  | .reroute => (m, .outcome (.completed (some Label.onError)) pending)
  | .stop => (m, .outcome (.failed e (some a.node.id)) pending)

def afterAttempt (m : Machine) (env : Surroundings) (a : Attempt) (since : Seconds) (o : Outcome)
    (pending : List Pending) : StepResult :=
  match o with
  | .cancelled =>
    (m.trace env { node := a.node.id, outcome := .cancelled, time := 0, depth := a.place.depth
                   attempt := a.number }, .outcome .cancelled pending)
  | .completed label =>
    let m := m.trace env { node := a.node.id, outcome := .completed, time := 0
                           depth := a.place.depth, attempt := a.number, label }
    let m := m.emit "node.completed" [("nodeId", .str a.node.id), ("label", .ofText? label),
      ("attempt", .nat a.number), ("tookMs", .int (Seconds.toMillis (env.now - since))),
      ("depth", .nat a.place.depth)]
    (m, .outcome (.completed label) pending)
  | .failed e _ => m.afterFailure env a since e pending

/-- The labels to look for behind a node that completed under one. -/
def labelsAfter (label : Option String) : List String :=
  match label with
  | none | some "" => [Label.default]
  | some l => if l == Label.loopExit then [l, Label.default] else [l]

def afterVisit (walk : Walk) (node : Node) (o : Outcome) (pending : List Pending) : Turn :=
  match o with
  | .completed label => .go (.next walk (walk.place.flow.next? node.id (labelsAfter label))) pending
  | .failed e none => .outcome (.failed e (some node.id)) pending
  | o => .outcome o pending

/-- The outcome of a node that called a flow. -/
def afterCall (flow : String) : Outcome → Outcome
  | .completed _ => .completed (some Label.default)
  | .failed e node => .failed (.ofSubflow flow node e) none
  | .cancelled => .cancelled

/-- Hands an answer to the work that waits for it. Faults and interruptions go through all work that
does not deal with them. -/
def resume (m : Machine) (env : Surroundings) (k : Pending) (a : Answer) (pending : List Pending) :
    StepResult :=
  match k, a with
  | .slot held, a =>
    let m := if held then m.effect .giveSlotBack else m
    match a with
    | .interrupted | .thrown _ => (m, .answer a pending)
    | a => (m.effect .prune, .answer a pending)
  | .execution, .outcome o => (m.finalize env.stamp o, .answer .done pending)
  | .execution, .thrown f =>
    (m.finalize env.stamp (.failed (.internal f) none), .answer .done pending)
  | .execution, .interrupted =>
    ((m.cancelToken (some "task_cancelled")).finalize env.stamp .cancelled,
      .answer .interrupted pending)
  | .checkpoint walk node, .done => (m, .go (.dispatch walk node) pending)
  | .visit walk node, .outcome o => (m, afterVisit walk node o pending)
  | .attempt at_ since, .outcome o => m.afterAttempt env at_ since o pending
  | .backoff at_, .rested cutShort =>
    if cutShort || m.token.cancelled then (m, .outcome .cancelled pending)
    else (m, .go (.try { at_ with number := at_.number + 1 }) pending)
  | .primitive at_, .handled (.success values) =>
    let m := if values.isEmpty then m else m.merge at_.place.layers at_.node.id values
    (m, .outcome (.completed (some Label.default)) pending)
  | .primitive _, .handled (.failure e) =>
    (m, .fail (e.getD (.ofHandler "handler failed")) pending)
  | .frame key flow node, .outcome o =>
    (m.leaveFrame key node, .outcome (afterCall flow o) pending)
  | .frame key _ node, a => (m.leaveFrame key node, .answer a pending)
  | .foreach loop itemName indexName index rest, .outcome (.completed _) =>
    m.nextItem env loop itemName indexName index rest pending
  | .while loop bound iterations, .outcome (.completed _) =>
    (m, .go (.iterate loop bound (iterations + 1)) pending)
  | .element c acts item, .rested _ => (m, .go (.element c acts item) pending)
  | .elements c, .outcome (.completed _) => (m, .go (.supply c) pending)
  | .elements _, .thrown f => (m, .fail (enumerationFailed f) pending)
  | .invocation place node child (some returns), .outcome (.completed l) =>
    (m.writeReturns place node child returns, .outcome (.completed l) pending)
  | .subexecution child, .outcome o =>
    let r : HandlerResult := match o with
      | .completed _ => .success ((m.scope child).headD {}).bindings
      | .cancelled => .refuse "cancelled" "run was cancelled" .null
      | .failed e _ => .failure (some e)
    (m, .answer (.handled r) pending)
  | .plan c acts finish, .rested _ => (m, .go (.act c acts finish) pending)
  | .saving saveAs, .handled r => (m, .answer (.handled (Plan.saved saveAs r)) pending)
  | .rest, .rested cutShort => (m, .answer (.handled (Builtin.rested cutShort)) pending)
  | _, a => (m, .answer a pending)

/-! Waking up. -/

def dropTimer (m : Machine) (self : TaskId) : Machine :=
  m.effect (.stopTimer self)

/-- What a handler's end means for the node's attempt. -/
def settled (m : Machine) (a : Answer) : Answer :=
  match a with
  | .interrupted =>
    if m.token.cancelled then .outcome .cancelled
    else .outcome (.failed (.ofHandler "handler was cancelled") none)
  | .thrown f => .outcome (.failed f.toErrorInfo none)
  | a => if m.token.cancelled then .outcome .cancelled else a

/-- Cancels a handler's task and waits for its end. -/
def removeHandler (m : Machine) (handler : TaskId) (o : Outcome) (pending : List Pending) :
    StepResult :=
  (m.interruptTask handler, .wait (.removal handler o false) [handler] none pending)

def wakeFromSettlement (m : Machine) (env : Surroundings) (a : Attempt)
    (handler watcher : TaskId) (interrupted : Bool) (pending : List Pending) : StepResult :=
  let cancelled := m.hasEnded watcher
  let m := if cancelled then m else m.interruptTask watcher
  if interrupted then (m, .answer .interrupted pending)
  else
    match m.ending? handler with
    | some end_ => (m, .answer (m.settled end_) pending)
    | none =>
      if cancelled then
        (m, .wait (.grace handler) [handler] (some (milliseconds env.settings.cancelGraceMs))
          pending)
      else
        m.removeHandler handler (.failed (.timeout a.node.id a.policy.timeoutMs) none) pending

/-- What a woken task does. -/
def wake (m : Machine) (env : Surroundings) (self : TaskId) (w : Wait)
    (signalled interrupted : Bool) (pending : List Pending) : StepResult :=
  match w with
  | .start taker watcher =>
    if interrupted then
      let m := match m.ending? taker with
        | some .done => m.effect .giveSlotBack
        | _ => m.interruptTask taker
      (m.interruptTask watcher, .answer .interrupted pending)
    else
      let m := m.interruptTask watcher
      match m.ending? taker with
      | some .done => (m, .go .execute (.slot true :: pending))
      | _ => (m.interruptTask taker, .go .execute (.slot false :: pending))
  | .grant =>
    let m := m.effect (.leaveSlotQueue self)
    if interrupted then
      (if signalled then m.effect .giveSlotBack else m, .answer .interrupted pending)
    else (m.effect .passSlotOn, .answer .done pending)
  | .cancellation =>
    ({ m with watchers := m.watchers.filter (· != self) },
      .answer (if interrupted then .interrupted else .rested true) pending)
  | .resumption => (m, .answer (if interrupted then .interrupted else .done) pending)
  | .settlement a handler watcher =>
    (m.dropTimer self).wakeFromSettlement env a handler watcher interrupted pending
  | .grace handler =>
    let m := m.dropTimer self
    if interrupted then (m, .answer .interrupted pending)
    else if m.hasEnded handler then (m, .outcome .cancelled pending)
    else m.removeHandler handler .cancelled pending
  | .removal _ o passedOn =>
    (m, .answer (if interrupted || passedOn then .interrupted else .outcome o) pending)
  | .nap watcher =>
    let m := m.dropTimer self
    if m.hasEnded watcher then (m, .answer (.rested true) pending)
    else (m.interruptTask watcher, .wait (.rousing watcher interrupted) [watcher] none pending)
  | .rousing watcher before =>
    if interrupted || before then (m, .answer .interrupted pending)
    else
      match m.ending? watcher with
      | some (.rested _) => (m, .answer (.rested true) pending)
      | _ => (m, .answer (.rested false) pending)
  | .sleep =>
    (m.dropTimer self, .answer (if interrupted then .interrupted else .rested false) pending)

/-- One step of a task. -/
def step (m : Machine) (env : Surroundings) (self : TaskId) (c : Control)
    (pending : List Pending) : StepResult :=
  match c with
  | .enqueue => m.enqueue pending
  | .takeSlot => m.takeSlot env self pending
  | .watch => m.watch self pending
  | .execute => m.execute env pending
  | .enter place frame => m.enter place frame pending
  | .next walk node => m.next env self walk node pending
  | .dispatch walk node => m.dispatch env walk node pending
  | .try a => m.attempt env a pending
  | .iterate loop bound iterations => m.iterate env loop bound iterations pending
  | .supply c => m.supply c pending
  | .element c acts item => m.element env self c acts item pending
  | .handle c => m.handle env c pending
  | .act c acts finish => m.act env self c acts finish pending
  | .wake w signalled interrupted => m.wake env self w signalled interrupted pending
  | .answer a =>
    match pending with
    | [] => (m, .stop a)
    | k :: pending => m.resume env k a pending

/-- Lets a task go on as a step said; the answer says what it does next if it does not wait. -/
def turn (m : Machine) (self : TaskId) : Turn → Machine × Option (Control × List Pending)
  | .go control pending => (m, some (control, pending))
  | .wait w on limit pending =>
    let m := m.modifyTask self ({ · with pending })
    let (m, ticket) := m.suspend self w on
    (match limit with
      | some after => m.effect (.startTimer self ticket after)
      | none => m, none)
  | .pass pending =>
    let m := m.modifyTask self fun k => { k with pending, state := .woken .sleep true false }
    (m.effect (.ready self), none)
  | .stop a => (m.finish self a, none)

end Machine

end Workflow
