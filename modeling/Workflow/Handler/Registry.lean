import Workflow.Handler.Builtin
import Workflow.Handler.Plan
import Workflow.Refusal
import Workflow.Schema.Meta
/-!
The registry of handlers: which kinds of nodes there are, who carries them out, and what their
configs must look like.
-/

namespace Workflow

inductive Handler where
  | builtin (b : Builtin)
  /-- Plans for the first call, the second one and so on. -/
  | planned (plans : List Plan)

structure Registration where
  handler : Handler
  schema : Option Schema := none

abbrev Registry := Entries Registration

namespace Registry

/-- Checks the schema of a config, if there is one. -/
def readSchema (kind : String) (schema : Value) : Except Refusal (Option Schema) :=
  if schema.isNull then .ok none
  else
    match Schema.read schema with
    | .ok s => .ok (some s)
    | .error message => .error (.badSchema kind message)

/-- Registers a handler, if it is one at all, for a kind. -/
def register (r : Registry) (kind : Value) (handler : Option Handler) (schema : Value)
    (replace : Bool) : Except Refusal Registry :=
  match kind with
  | .str kind =>
    if kind.isEmpty then .error .emptyKind
    else if Node.controlKinds.contains kind then .error (.controlKind kind)
    else
      match handler with
      | none => .error (.notCallable kind)
      | some handler => do
        let schema ← readSchema kind schema
        if Entries.contains kind r && !replace then throw (.kindTaken kind)
        return Entries.insert kind { handler, schema } r
  | _ => .error .emptyKind

/-- Registers what every registry starts with; kinds that are taken are replaced or left alone. -/
def withBuiltins (r : Registry) (replace : Bool) : Registry :=
  Builtin.kinds.foldl (fun r (kind, b) =>
    if Entries.contains kind r && !replace then r
    else
      match Schema.read b.schema with
      | .ok schema => Entries.insert kind { handler := .builtin b, schema := some schema } r
      | .error _ => r) r

/-- All kinds in order. -/
def kinds (r : Registry) : List String :=
  (Entries.keys r).mergeSort fun a b => decide (a ≤ b)

def find (r : Registry) (kind : String) : Except Refusal Registration :=
  match Entries.find? kind r with
  | some reg => .ok reg
  | none => .error (.unknownKind kind)

/-- What is wrong with a config, nothing where no schema is registered. -/
def violations (r : Registry) (kind : String) (config : Entries Value) : List String :=
  match (Entries.find? kind r).bind (·.schema) with
  | some s => s.violations (.obj config)
  | none => []

end Registry

end Workflow
