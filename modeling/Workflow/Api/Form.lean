import Workflow.Flow.Steps
import Workflow.Form.Field
import Workflow.Value.Nesting
/-!
The forms that clients send: flows, runs, cancellations and commands of a debugger. A form is read
as a whole; all of its problems are told, in the order of its fields.
-/

namespace Workflow.Api

open Form

/-- Bounds on variables and sub-flows. -/
def bounds : Bounds := ⟨20, 1000⟩

/-- The most nodes of a flow. -/
def nodeLimit : Nat := 1000

/-- Refuses a value beyond its bounds. -/
def bounded (v : Value) : Read Value :=
  match v.excess? bounds 0 with
  | some excess => refuse (.rule excess.message)
  | none => .ok v

def required {α : Type} : Read α := refuse .missing

/-- The fields of a form. -/
def formFields : Value → Read (Entries Value)
  | .obj fields => .ok fields
  | _ => refuse .formType

/-- A flow, as nodes or as steps. -/
structure FlowForm where
  id : String
  name : Option String
  nodes : Option (List (Entries Value))
  edges : List (Entries Value)
  steps : Option (List (Entries Value))
  vars : Entries Value
  entry : Option String
  subflows : Entries (Entries Value)
  policy : Option (Entries Value)
  replace : Bool

namespace FlowForm

/-- The value of each sub-flow. -/
def subflowValues (f : FlowForm) : Entries Value :=
  Entries.mapValues Value.obj f.subflows

/-- The first rule that a form breaks as a whole. -/
def broken? (f : FlowForm) : Option String :=
  if f.nodes.isSome == f.steps.isSome then some "provide exactly one of 'nodes' or 'steps'"
  else
    let count := (f.nodes.getD (f.steps.getD [])).length
    if count > nodeLimit then
      some ("flow has " ++ toString count ++ " nodes, maximum is " ++ toString nodeLimit)
    else
      (((Value.obj f.vars).excess? bounds 0).or
        ((Value.obj f.subflowValues).excess? bounds 0)).map Excess.message

/-- Reads all fields of a form, each on its own. -/
def fill (v : Value) : Read FlowForm := do
  let given ← formFields v
  let id := field given "id" [] (boundedText 1 128) required
  let name := field given "name" [] (optional (boundedText 0 256)) (.ok none)
  let nodes := field given "nodes" [] (optional (items object)) (.ok none)
  let edges := field given "edges" [] (items object) (.ok [])
  let steps := field given "steps" [] (optional (items object)) (.ok none)
  let vars := field given "variables" [] object (.ok [])
  let entry := field given "entryNodeId" ["entry_node_id"] (optional text) (.ok none)
  let subflows := field given "subflows" [] (members object) (.ok [])
  let policy := field given "policy" [] (optional object) (.ok none)
  let replace := field given "replace" [] flag (.ok false)
  let all := problems id ++ problems name ++ problems nodes ++ problems edges ++ problems steps
    ++ problems vars ++ problems entry ++ problems subflows ++ problems policy
    ++ problems replace
  if !all.isEmpty then throw all
  return ⟨← id, ← name, ← nodes, ← edges, ← steps, ← vars, ← entry, ← subflows, ← policy,
    ← replace⟩

/-- A form that is filled in and breaks no rule. -/
def read (v : Value) : Read FlowForm := do
  let form ← fill v
  match form.broken? with
  | some message => refuse (.rule message)
  | none => return form

/-- The description of a flow that is given as nodes. -/
def description (f : FlowForm) : Value :=
  .ofFields [
    ("id", some (.str f.id)),
    ("name", f.name.map .str),
    ("nodes", f.nodes.map fun ns => .list (ns.map .obj)),
    ("edges", some (.list (f.edges.map .obj))),
    ("variables", some (.obj f.vars)),
    ("entryNodeId", f.entry.map .str),
    ("subflows", some (.obj f.subflowValues)),
    ("policy", f.policy.map .obj)]

/-- The flow that a form describes. -/
def toFlow (f : FlowForm) : Except ShapeFault Flow :=
  match f.steps with
  | some steps => do
    let subflows ← Flow.readEntries f.subflowValues
    return Steps.toFlow f.id (steps.map .obj) f.vars (.ofText? f.name) subflows
  | none => Flow.ofValue f.description

end FlowForm

/-- A run of a flow that is kept. -/
structure RunForm where
  flow : String
  vars : Entries Value
  breakpoints : List String
  pauseOnStart : Bool
  run : Option String

namespace RunForm

def boundedFields (v : Value) : Read (Entries Value) := do
  let fields ← object v
  let _ ← bounded v
  return fields

def read (v : Value) : Read RunForm := do
  let given ← formFields v
  let flow := field given "flowId" ["flow_id"] filledText required
  let vars := field given "variables" [] boundedFields (.ok [])
  let breakpoints := field given "breakpoints" [] (items text) (.ok [])
  let pauseOnStart := field given "pauseOnStart" ["pause_on_start"] flag (.ok false)
  let run := field given "runId" ["run_id"] (optional (boundedText 0 128)) (.ok none)
  let all := problems flow ++ problems vars ++ problems breakpoints ++ problems pauseOnStart
    ++ problems run
  if !all.isEmpty then throw all
  return ⟨← flow, ← vars, ← breakpoints, ← pauseOnStart, ← run⟩

end RunForm

/-- The reason of a cancellation that gives none. -/
def defaultReason : String := "cancelled via api"

/-- The reason for which a run is to be cancelled. The whole form may be left out. -/
def readReason (v : Value) : Read String := do
  if v.isNull then return defaultReason
  let given ← formFields v
  let reason ← field given "reason" [] (optional (boundedText 0 256)) (.ok none)
  return (reason.filter (!·.isEmpty)).getD defaultReason

/-- A field of a debugger's command. -/
structure CommandField where
  name : String
  others : List String := []
  read : Value → Read Value
  isRequired : Bool := false

def optionalText (v : Value) : Read Value :=
  (optional text v).map Value.ofText?

def commandFields : List CommandField := [
  { name := "type", read := fun v => (boundedText 1 64 v).map .str, isRequired := true },
  { name := "runId", others := ["run_id"], read := optionalText },
  { name := "flowId", others := ["flow_id"], read := optionalText },
  { name := "nodeId", others := ["node_id"], read := optionalText },
  { name := "nodeIds", others := ["node_ids"], read := fun v =>
      (optional (items text) v).map fun ids => (ids.map Value.strings).getD .null },
  { name := "name", read := optionalText },
  { name := "value", read := bounded },
  { name := "frame", read := fun v =>
      (optional whole v).map fun n => (n.map Value.int).getD .null }]

/-- A field under its first name, nothing if it is not given. -/
def CommandField.take (given : Entries Value) (f : CommandField) : Read (Option (String × Value)) :=
  field given f.name f.others (fun v => (f.read v).map fun w => some (f.name, w))
    (if f.isRequired then required else .ok none)

/-- A debugger's command with those of its fields that are given. -/
def readCommand (v : Value) : Read Value := do
  let given ← formFields v
  let fields := commandFields.map (CommandField.take given)
  let all := fields.flatMap problems
  if !all.isEmpty then throw all
  return .obj ((← fields.mapM id).filterMap id)

end Workflow.Api
