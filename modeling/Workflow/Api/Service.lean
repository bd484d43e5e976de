import Workflow.Api.Form
import Workflow.Api.Origin
import Workflow.Api.Route
import Workflow.Debug.Command
import Workflow.Log.Sanitize
/-!
The service that clients send requests to: an engine, with answers to requests about its flows and
runs.
-/

namespace Workflow.Api

structure Service where
  engine : Engine
  /-- The origins whose pages may send requests. -/
  origins : List String := ({} : Settings).corsAllowOrigins

/-- What a request is answered with. -/
inductive Reply where
  | data (status : Nat) (v : Value)
  /-- A value without an envelope. -/
  | plain (v : Value)

abbrev Answered := Except Failure (Engine × Reply)

/-! Reading requests. -/

def refused {α : Type} (r : Except Refusal α) : Except Failure α :=
  r.mapError .refused

/-- A form in the body; where there is none something stands for it. -/
def readBody {α : Type} (r : Request) (read : Value → Form.Read α) (absent : Form.Read α) :
    Except Failure α :=
  match r.value? with
  | .error .unreadable => .error .unreadableBody
  | .error (.notJson position) =>
    .error (.badForm [⟨[.str "body", .nat position], .notJson⟩])
  | .ok v => ((v.map read).getD absent).mapError fun ps =>
      .badForm (ps.map (·.under (.str "body")))

/-- A parameter of the query; where there is none something stands for it. -/
def readParameter {α : Type} (r : Request) (name : String) (read : String → Form.Read α)
    (absent : α) : Except Failure α :=
  match r.parameter? name with
  | none => .ok absent
  | some s => (Form.within name (read s)).mapError fun ps =>
      .badForm (ps.map (·.under (.str "query")))

/-- In which form a flow is shown. -/
inductive FlowFormat where
  | graph
  | steps

def FlowFormat.read (s : String) : Form.Read FlowFormat :=
  match s with
  | "graph" => .ok .graph
  | "steps" => .ok .steps
  | _ => Form.refuse (.mismatch "^(graph|steps)$")

/-- How many runs are listed if nothing is said. -/
def defaultLimit : Nat := 50

def readLimit (s : String) : Form.Read Nat := do
  let n ← Form.whole (.str s)
  if n < 1 then Form.refuse (.below 1)
  else if n > 500 then Form.refuse (.above 500)
  else return n.toNat

/-- A status by its name; an empty one asks for nothing. -/
def readStatus (s : Option String) : Except Failure (Option Status) :=
  match s.filter (!·.isEmpty) with
  | none => .ok none
  | some s =>
    match Status.ofText? s with
    | some status => .ok (some status)
    | none => .error (.refused (.invalid ("unknown run status '" ++ s ++ "'") []))

/-! What is shown. -/

def flowSummary (f : Flow) : Value :=
  .obj [
    ("id", .str f.id), ("name", f.name), ("version", .int f.version),
    ("node_count", .nat f.nodes.length), ("edge_count", .nat f.edges.length),
    ("subflows", .strings ((Entries.keys f.subflows).mergeSort fun a b => decide (a ≤ b)))]

/-- A run with its trace, as far as that is for clients, and its outputs. -/
def runDetail (r : Run) : Value :=
  .obj (r.summary.fields ++ [
    ("trace", .list (Log.publicTrace (r.trace.toList.map TraceEntry.toValue))),
    ("outputs", (r.outputs.map Value.obj).getD .null)])

def deleted (id : String) : Value :=
  .obj [("id", .str id), ("deleted", .bool true)]

def health (e : Engine) : Value :=
  .obj [
    ("status", .str "healthy"), ("version", .str version),
    ("handler_kinds", .strings e.registry.kinds),
    ("active_runs", .nat (e.heldMachines.countP (!·.run.status.isTerminal))),
    ("timestamp", .str (Instant.text (Instant.ofSeconds (.float e.now))))]

/-! Carrying out requests. -/

def createFlow (e : Engine) (form : FlowForm) : Answered := do
  let f ← refused (form.toFlow.mapError Engine.unreadable)
  let e ← refused (e.keepFlow f form.replace)
  return (e, .data 201 f.toValue)

def showFlow (e : Engine) (id : String) (format : FlowFormat) : Answered := do
  let f ← refused (e.getFlow id)
  match format with
  | .graph => return (e, .data 200 f.toValue)
  | .steps =>
    let steps ← refused ((Steps.ofFlow f).mapError .shape)
    return (e, .data 200 (.obj [("id", .str f.id), ("steps", .list steps)]))

def startRun (e : Engine) (form : RunForm) : Answered := do
  let (e, k) ← refused (e.createRunOf form.flow {
    id := form.run
    vars := form.vars
    breakpoints := Breakpoints.ofList form.breakpoints
    pauseOnStart := form.pauseOnStart })
  let e ← refused (e.startRun (e.machine k).run.id)
  return (e, .data 201 (e.machine k).run.summary)

/-- Cancels a run and answers when it has ended. -/
def cancelRun (e : Engine) (id reason : String) : Answered := do
  let k ← refused (e.find id)
  let (e, client) ← refused (e.cancelAndAwait id (some reason))
  let e := e.serveClient client Engine.patience
  return (e, .data 200 (e.machine k).run.summary)

/-- Lets go of a run and answers when it has ended. -/
def discardRun (e : Engine) (id : String) : Answered := do
  let (e, client) ← refused (e.discard id)
  return (e.serveClient client Engine.patience, .data 200 (deleted id))

def listRuns (e : Engine) (r : Request) : Answered := do
  let limit ← readParameter r "limit" readLimit defaultLimit
  let status ← readStatus (r.parameter? "status")
  let runs := e.listRuns (r.parameter? "flowId") status limit
  return (e, .data 200 (.obj [("items", .list (runs.map Run.summary))]))

def carryOut (e : Engine) (r : Request) : Route → Answered
  | .health => return (e, .plain (health e))
  | .createFlow => do createFlow e (← readBody r FlowForm.read required)
  | .listFlows =>
    return (e, .data 200 (.obj [("items", .list ((Store.sortedFlows e.flows).map flowSummary))]))
  | .getFlow id => do showFlow e id (← readParameter r "format" FlowFormat.read .graph)
  | .deleteFlow id => do return (← refused (e.deleteFlow id), .data 200 (deleted id))
  | .startRun => do startRun e (← readBody r RunForm.read required)
  | .listRuns => listRuns e r
  | .getRun id => do
    let k ← refused (e.find id)
    return (e, .data 200 (runDetail (e.machine k).run))
  | .cancelRun id => do cancelRun e id (← readBody r readReason (.ok defaultReason))
  | .discardRun id => discardRun e id
  | .debug => do
    let (e, response) := Debugger.handle e (← readBody r readCommand required)
    return (e, .plain response)

namespace Service

def create (settings : Settings) : Service where
  engine := Engine.create settings (Registry.withBuiltins [] false)

/-- Answers what is asked for on a path. -/
def respond (e : Engine) (r : Request) : Engine × Response :=
  let fail (f : Failure) : Engine × Response :=
    let (e, id) := e.freshId none
    (e, .ofFailure id f)
  match Route.find r.method r.path with
  | .error .unknownPath => fail .unknownPath
  | .error .wrongMethod => fail .wrongMethod
  | .error (.moved path) => (e, .moved path)
  | .ok route =>
    match carryOut e r route with
    | .error f => fail f
    | .ok (e, .plain v) => (e, .json 200 v)
    | .ok (e, .data status v) =>
      let (e, id) := e.freshId none
      (e, .ofData id status v)

/-- Adds the headers of every response: the id of the request, which may be given with it, and the
version. What is asked of runs and flows is not to be stored. -/
def sign (id : String) (r : Request) (response : Response) : Response :=
  let response := (response.withHeader "x-request-id" id).withHeader "api-version" version
  if r.path.startsWith "/v1/" then response.withHeader "cache-control" "no-store" else response

/-- Answers a request. The answer for a mistake of the service itself is left bare. -/
def answer (s : Service) (r : Request) : Service × Response :=
  let (e, id) := s.engine.freshId (r.header? "x-request-id")
  match Origin.preflight? s.origins r with
  | some response => ({ s with engine := e }, sign id r response)
  | none =>
    let (e, response) := respond e r
    ({ s with engine := e },
      if response.fault.isSome then response
      else sign id r (Origin.allow s.origins r response))

/-- Ends all runs and closes the debugger. -/
def shutdown (s : Service) : Service :=
  { s with engine := s.engine.shutdown.settle.closeDebugger }

end Service

end Workflow.Api
