import Workflow.Flow.Basic
import Workflow.Value.Shape
/-!
What is wrong with a flow: duplicate or kindless nodes, edges to nowhere, two edges with one label,
no place to start, a cycle, and the same for every sub-flow.
-/

namespace Workflow

inductive Problem where
  | noNodes (flow : String)
  | repeatedNode (id : String) (count : Nat)
  | noKind (id : String)
  | unknownSource (edge source : String)
  | unknownTarget (edge target : String)
  | repeatedLabel (source label : String)
  | unknownEntry (entry : Value)
  | noEntry (flow : String)
  | cycle (path : List String)
  | inSubflow (key : String) (problem : Problem)

namespace Problem

def message : Problem → String
  | noNodes flow => "flow '" ++ flow ++ "' has no nodes"
  | repeatedNode id count => "node id '" ++ id ++ "' appears " ++ toString count ++ " times"
  | noKind id => "node '" ++ id ++ "' has no kind"
  | unknownSource edge source => "edge '" ++ edge ++ "' starts at unknown node '" ++ source ++ "'"
  | unknownTarget edge target => "edge '" ++ edge ++ "' ends at unknown node '" ++ target ++ "'"
  | repeatedLabel source label =>
    "node '" ++ source ++ "' has more than one '" ++ label ++ "' edge"
  | unknownEntry entry => "entry node '" ++ entry.name ++ "' does not exist"
  | noEntry flow => "flow '" ++ flow ++ "' has no entry node"
  | cycle path => "cycle detected: " ++ String.intercalate " -> " path
  | inSubflow key problem => "subflow '" ++ key ++ "': " ++ problem.message

end Problem

namespace Flow

/-- The ids of the nodes, each once, in order. -/
def nodeIds (f : Flow) : List String :=
  (f.nodes.map (·.id)).foldl (fun ids id => if ids.contains id then ids else ids ++ [id]) []

def hasNode (f : Flow) (id : String) : Bool :=
  f.nodes.any (·.id == id)

/-- The nodes that edges lead to from a node, edges to nowhere left out. -/
def children (f : Flow) (id : String) : List String :=
  ((f.edges.filter fun e => e.source == id && f.hasNode e.target)).map (·.target)

/-- Visits a node and all that is reachable from it. `path` leads back to the root and `done` holds
the nodes known to lead into no cycle; a child on the path closes a cycle, which is the error. -/
def visit (f : Flow) : Nat → List String → List String → String → Except (List String) (List String)
  | 0, _, done, _ => .ok done
  | fuel + 1, path, done, id => do
    let path := id :: path
    let done ← (f.children id).foldlM (fun done child =>
      if path.contains child then
        .error (path.reverse.dropWhile (· != child) ++ [child])
      else if done.contains child then .ok done
      else visit f fuel path done child) done
    return id :: done

/-- A closed walk along edges, if there is one. -/
def findCycle? (f : Flow) : Option (List String) :=
  let ids := f.nodeIds
  let all := ids.foldlM (fun done id =>
    if done.contains id then .ok done else f.visit ids.length [] done id) []
  match all with
  | .ok _ => none
  | .error cycle => some cycle

def repeatedNodes (f : Flow) : List Problem :=
  f.nodeIds.filterMap fun id =>
    let count := f.nodes.countP (·.id == id)
    if count > 1 then some (.repeatedNode id count) else none

def kindlessNodes (f : Flow) : List Problem :=
  f.nodes.filterMap fun n => if n.kind == "" then some (.noKind n.id) else none

def looseEnds (f : Flow) : List Problem :=
  f.edges.flatMap fun e =>
    (if f.hasNode e.source then [] else [.unknownSource e.id e.source])
      ++ (if f.hasNode e.target then [] else [.unknownTarget e.id e.target])

/-- One problem for each edge with the source and label of an edge before it. -/
def repeatedLabels : List Edge → List Edge → List Problem
  | _, [] => []
  | seen, e :: rest =>
    let here := if seen.any fun d => d.source == e.source && d.label == e.label then
      [.repeatedLabel e.source e.label] else []
    here ++ repeatedLabels (e :: seen) rest

def entryProblems (f : Flow) : List Problem :=
  let known := match f.entry with
    | .str id => f.hasNode id
    | _ => false
  if !f.entry.isVacant && !known then [.unknownEntry f.entry]
  else if f.entryNode?.isNone then [.noEntry f.id]
  else []

def cycleProblems (f : Flow) : List Problem :=
  match f.findCycle? with
  | some path => [.cycle path]
  | none => []

/-- The problems of a flow itself. -/
def ownProblems (f : Flow) : List Problem :=
  f.repeatedNodes ++ f.kindlessNodes ++ f.looseEnds ++ repeatedLabels [] f.edges
    ++ f.entryProblems ++ f.cycleProblems

mutual

/-- The problems of a flow and of the flows inside it. -/
def problems : Flow → List Problem
  | ⟨id, nodes, edges, vars, entry, subflows, policy, name, version⟩ =>
    let f : Flow := ⟨id, nodes, edges, vars, entry, subflows, policy, name, version⟩
    if nodes.isEmpty then [.noNodes id]
    else f.ownProblems ++ subflowProblems subflows

def subflowProblems : List (String × Flow) → List Problem
  | [] => []
  | (key, f) :: rest => (problems f).map (.inSubflow key) ++ subflowProblems rest

end

mutual

/-- The type of an entry id that cannot be looked up at all, the first met in a flow with nodes. -/
def unreadableEntry? : Flow → Option String
  | ⟨_, nodes, _, _, entry, subflows, _, _, _⟩ =>
    if nodes.isEmpty then none
    else if !entry.isVacant && !entry.isHashable then some entry.typeName
    else unreadableEntryIn? subflows

def unreadableEntryIn? : List (String × Flow) → Option String
  | [] => none
  | (_, f) :: rest =>
    match unreadableEntry? f with
    | some type => some type
    | none => unreadableEntryIn? rest

end

end Flow

end Workflow
