import Workflow.Flow.Basic
import Workflow.Flow.Wire
import Workflow.Value.Shape
/-!
Flows as plain lists of steps: each step is an object with `id`, `type` and the fields of its node's
config beside them.
-/

namespace Workflow.Steps

def defaultKind : String := "script"

/-- A delay that says nothing readable lasts a second. -/
def defaultDelay : Int := 1000

def targetFields : List String := ["target", "start", "end"]

/-- A target is an object; anything else names no candidate. -/
def target (v : Value) : Entries Value :=
  match v with
  | .obj fields => fields
  | _ => [("candidates", .list [])]

/-- Makes objects of the targets that are given. -/
def normalizeTargets (fields : Entries Value) : Entries Value :=
  fields.map fun (k, v) =>
    if targetFields.contains k && !v.isVacant then (k, .obj (target v)) else (k, v)

/-- The config of the node for a step: all fields but its id and type. -/
def config (step : Value) : Entries Value :=
  normalizeTargets (step.fields.filter fun f => f.1 != "id" && f.1 != "type")

/-- A text that is not empty, or a default. -/
def textOr (default : String) (v : Value) : String :=
  match v with
  | .str s => if s.isEmpty then default else s
  | _ => default

def node (index : Nat) (step : Value) : Node :=
  { id := textOr ("n_" ++ toString index) (step.field "id")
    kind := textOr defaultKind (step.field "type")
    config := config step }

/-- The nodes of steps, numbered from `index` on. -/
def nodes : Nat → List Value → List Node
  | _, [] => []
  | index, step :: rest => node index step :: nodes (index + 1) rest

/-- Default edges from each node to the following one. -/
def links : Nat → List Node → List Edge
  | index, a :: b :: rest =>
    { id := Edge.defaultId index a.id b.id, source := a.id, target := b.id, label := Label.default }
      :: links (index + 1) (b :: rest)
  | _, _ => []

/-- The flow that carries out steps one after the other. -/
def toFlow (id : String) (steps : List Value) (vars : Entries Value) (name : Value)
    (subflows : List (String × Flow)) : Flow :=
  let ns := nodes 0 steps
  { id, nodes := ns, edges := links 0 ns, vars, subflows, name }

/-- The milliseconds of a delay: never negative, and a whole number where they can be. -/
def delay (fields : Entries Value) : Except ShapeFault Value :=
  let raw := match Entries.find? "sleep" fields with
    | some v => v
    | none => (Entries.find? "ms" fields).getD .null
  if raw.isNull then .ok (.int defaultDelay)
  else
    match raw.toDouble with
    | .error f => if f.kind == .overflow then .error f else .ok (.int defaultDelay)
    | .ok x =>
      if x > 0.0 then
        match Double.finite? x with
        | some d => .ok (if d.isWhole then .int d.truncate else .float x)
        | none => .ok (.float x)
      else .ok (.int 0)

/-- The step for a node. A delay becomes a wait. -/
def ofNode (n : Node) : Except ShapeFault Value :=
  if n.kind == "delay" then do
    let ms ← delay n.config
    return .obj [("id", .str n.id), ("type", .str "wait"), ("condition", .obj [("sleep", ms)])]
  else
    .ok (.obj (normalizeTargets
      (Entries.update [("id", .str n.id), ("type", .str n.kind)] n.config)))

/-- The edges that count in an order: those with the label, if one is given, between known nodes. -/
def selected (ns : List Node) (label : Option String) (es : List Edge) : List Edge :=
  es.filter fun e =>
    (match label with
      | some l => e.label == l
      | none => true) && ns.any (·.id == e.source) && ns.any (·.id == e.target)

/-- The nodes that still wait for edges, with the number of edges. -/
abbrev Waiting := String → Nat

/-- Releases the targets of a node's edges; those that wait for no more edges join the queue. -/
def release (targets : List String) (waiting : Waiting) (queue : List String) :
    Waiting × List String :=
  targets.foldl (fun (waiting, queue) t =>
    let left := waiting t - 1
    (fun id => if id == t then left else waiting id,
      if left == 0 then queue ++ [t] else queue)) (waiting, queue)

/-- Takes nodes from the queue until it is empty. -/
def takeReady (es : List Edge) : Nat → Waiting → List String → List String → List String
  | 0, _, _, taken => taken
  | _, _, [], taken => taken
  | fuel + 1, waiting, id :: queue, taken =>
    if taken.contains id then takeReady es fuel waiting queue taken
    else
      let targets := (es.filter (·.source == id)).map (·.target)
      let (waiting, queue) := release targets waiting queue
      takeReady es fuel waiting queue (taken ++ [id])

/-- The nodes in an order in which every selected edge leads forward, or as they are stored if there
is none. Of nodes with one id the last one counts. -/
def order (ns : List Node) (es : List Edge) (label : Option String) : List Node :=
  let es := selected ns label es
  let waiting : Waiting := fun id => es.countP (·.target == id)
  let ready := (ns.map (·.id)).filter (waiting · == 0)
  let ids := takeReady es (ns.length + es.length) waiting ready []
  if ids.length == ns.length then
    ids.filterMap fun id => ns.reverse.find? (·.id == id)
  else ns

def defaultEdges (es : List Edge) : List Edge :=
  es.filter (·.label == Label.default)

/-- The steps of nodes, in the order of all their edges. -/
def ofNodes (ns : List Node) (es : List Edge) : Except ShapeFault (List Value) :=
  (if es.isEmpty then ns else order ns es none).mapM ofNode

def ofFlow (f : Flow) : Except ShapeFault (List Value) :=
  ofNodes f.nodes f.edges

end Workflow.Steps
