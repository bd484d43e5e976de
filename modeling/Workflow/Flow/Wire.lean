import Workflow.Flow.Basic
import Workflow.Value.Shape
/-!
Flows as JSON. Ids and labels of any type are read as their text; an edge without an id gets one
from its place and its ends.
-/

namespace Workflow

/-- The text of the first of two fields that is not vacant. -/
def firstName (fields : Value) (key other : String) : String :=
  let v := (fields.field key).orElse (fields.field other)
  if v.isVacant then "" else v.name

/-- The fields of a policy, if one is given. -/
def policyOf (v : Value) : Except ShapeFault (Option (Entries Value)) :=
  if v.isVacant then .ok none else v.toFields.map some

namespace Node

def ofValue (v : Value) : Except ShapeFault Node := do
  let id ← v.require "id"
  let config ← (v.field "config").toFieldsOrNone
  let policy ← policyOf (v.field "policy")
  return {
    id := id.name
    kind := firstName v "kind" "type"
    config
    policy
    disabled := !(v.field "disabled").isVacant
    name := v.field "name" }

def toValue (n : Node) : Value :=
  .ofFields [
    ("id", some (.str n.id)),
    ("kind", some (.str n.kind)),
    ("config", some (.obj n.config)),
    ("policy", n.policy.map .obj),
    ("disabled", if n.disabled then some (.bool true) else none),
    ("name", if n.name.isVacant then none else some n.name)]

end Node

namespace Edge

/-- The id of an edge that is given none. -/
def defaultId (index : Nat) (source target : String) : String :=
  "e_" ++ toString index ++ "_" ++ source ++ "_" ++ target

/-- One end of an edge, under either of its names. -/
def endpoint (v : Value) (key other : String) : String :=
  match v.field? key with
  | some w => w.name
  | none =>
    match v.field? other with
    | some w => w.name
    | none => ""

def ofValue (index : Nat) (v : Value) : Except ShapeFault Edge :=
  if !v.isObject then .error (.noAttribute v.typeName "get")
  else
    let source := endpoint v "from" "source"
    let target := endpoint v "to" "target"
    let id := v.field "id"
    let label := v.field "label"
    .ok {
      id := if id.isVacant then defaultId index source target else id.name
      source
      target
      label := if label.isVacant then Label.default else label.name }

def ofValues : Nat → List Value → Except ShapeFault (List Edge)
  | _, [] => .ok []
  | index, v :: rest => do
    let e ← ofValue index v
    return e :: (← ofValues (index + 1) rest)

def toValue (e : Edge) : Value :=
  .ofFields [
    ("id", some (.str e.id)),
    ("from", some (.str e.source)),
    ("to", some (.str e.target)),
    ("label", some (.str e.label))]

end Edge

namespace Flow

/-- All of a flow but its sub-flows, its policy, name and version. -/
def headOf (v : Value) (fallbackId : Option String) : Except ShapeFault Flow := do
  let id ← match v.field? "id", fallbackId with
    | some w, _ => pure w.name
    | none, some id => pure id
    | none, none => throw (.missingKey "id")
  let nodes ← ((v.field "nodes").orElse (.list [])).iterate
  let nodes ← nodes.mapM Node.ofValue
  let edges ← ((v.field "edges").orElse (.list [])).iterate
  let edges ← Edge.ofValues 0 edges
  let vars ← (v.field "variables").toFieldsOrNone
  return {
    id, nodes, edges, vars
    entry := (v.field "entryNodeId").orElse (v.field "entry_node_id") }

/-- The version of a flow, one if it is vacant. -/
def versionOf (v : Value) : Except ShapeFault Int :=
  if (v.field "version").isVacant then .ok 1 else (v.field "version").toWhole

mutual

/-- Reads a flow; a sub-flow that names no id has its key as one. -/
def read (fallbackId : Option String) : Value → Except ShapeFault Flow
  | .obj fields => do
    let v := Value.obj fields
    let head ← headOf v fallbackId
    let subflows ← readSubflowsIn fields
    let policy ← policyOf (v.field "policy")
    let version ← versionOf v
    return { head with subflows, policy, name := v.field "name", version }
  | v => .error (match fallbackId with
      | none => .noAttribute v.typeName "get"
      | some _ => .notMapping v.typeName)

/-- Reads the sub-flows among the fields of a flow. -/
def readSubflowsIn : List (String × Value) → Except ShapeFault (List (String × Flow))
  | [] => .ok []
  | (k, v) :: rest => if k == "subflows" then readSubflows v else readSubflowsIn rest

def readSubflows : Value → Except ShapeFault (List (String × Flow))
  | .obj entries => readEntries entries
  | v => if v.isVacant then .ok [] else .error (.noAttribute v.typeName "items")

def readEntries : List (String × Value) → Except ShapeFault (List (String × Flow))
  | [] => .ok []
  | (k, v) :: rest => do
    let f ← read (some k) v
    return (k, f) :: (← readEntries rest)

end

def ofValue (v : Value) : Except ShapeFault Flow :=
  read none v

mutual

def toValue : Flow → Value
  | ⟨id, nodes, edges, vars, entry, subflows, policy, name, version⟩ =>
    .ofFields [
      ("id", some (.str id)),
      ("version", some (.int version)),
      ("nodes", some (.list (nodes.map Node.toValue))),
      ("edges", some (.list (edges.map Edge.toValue))),
      ("variables", some (.obj vars)),
      ("name", if name.isVacant then none else some name),
      ("entryNodeId", if entry.isVacant then none else some entry),
      ("policy", policy.map .obj),
      ("subflows", if subflows.isEmpty then none else some (.obj (subflowValues subflows)))]

def subflowValues : List (String × Flow) → List (String × Value)
  | [] => []
  | (k, f) :: rest => (k, toValue f) :: subflowValues rest

end

end Flow

end Workflow
