import Workflow.Value.Basic
/-!
Flows: nodes with labelled edges between them, variables to start with, and flows inside a flow.
-/

namespace Workflow

/-- A step of a flow. Its kind names the handler that carries it out, or a control structure. -/
structure Node where
  id : String
  kind : String
  config : Entries Value := []
  policy : Option (Entries Value) := none
  disabled : Bool := false
  name : Value := .null

structure Edge where
  id : String
  source : String
  target : String
  label : String

structure Flow where
  id : String
  nodes : List Node
  edges : List Edge := []
  vars : Entries Value := []
  /-- The node to start from; if vacant, the first one that no edge leads to. -/
  entry : Value := .null
  subflows : List (String × Flow) := []
  policy : Option (Entries Value) := none
  name : Value := .null
  version : Int := 1

instance : Inhabited Flow := ⟨⟨"", [], [], [], .null, [], none, .null, 1⟩⟩

namespace Label

def default : String := "default"
def holds : String := "true"
def fails : String := "false"
def loopExit : String := "loop-exit"
def onError : String := "onError"

end Label

namespace Node

/-- Kinds that the run carries out itself. -/
def controlKinds : List String := ["if", "foreach", "while", "loopElements", "executeFlow"]

def isControl (n : Node) : Bool :=
  controlKinds.contains n.kind

end Node

namespace Flow

/-- The first node with an id. -/
def node? (f : Flow) (id : String) : Option Node :=
  f.nodes.find? (·.id == id)

def outgoing (f : Flow) (id : String) : List Edge :=
  f.edges.filter (·.source == id)

def firstWithoutIncoming? (f : Flow) : Option Node :=
  f.nodes.find? fun n => !f.edges.any (·.target == n.id)

/-- The node to start from. -/
def entryNode? (f : Flow) : Option Node :=
  if f.entry.isVacant then f.firstWithoutIncoming?
  else
    match f.entry with
    | .str id => f.node? id
    | _ => none

/-- The edge out of a node with a label; a flow that is valid has at most one. -/
def edge? (f : Flow) (id label : String) : Option Edge :=
  f.edges.find? fun e => e.source == id && e.label == label

/-- The node behind the first of several labels that an edge carries. -/
def next? (f : Flow) (id : String) : List String → Option Node
  | [] => none
  | label :: rest =>
    match f.edge? id label with
    | some e => f.node? e.target
    | none => f.next? id rest

end Flow

end Workflow
