import Workflow.Expr.Eval
import Workflow.Handler.Result
/-!
The handlers that every registry starts with. Each of them reads its config and the variables, and
either replies at once or asks for a rest.
-/

namespace Workflow

inductive Builtin where
  | wait | assign | append | evaluate | log | assert
  deriving Repr, DecidableEq

/-- What a handler of this kind does: it replies, with a line for the log if it has one to write, or
rests for some milliseconds unless the run is cancelled. -/
inductive BuiltinAction where
  | reply (result : HandlerResult) (line : Option (String × Value))
  | rest (ms : Float)

namespace Builtin

/-- The kinds in the order of registration; a delay is a wait by another name. -/
def kinds : List (String × Builtin) := [
  ("wait", wait),
  ("delay", wait),
  ("assign", assign),
  ("append", append),
  ("evaluate", evaluate),
  ("log", log),
  ("assert", assert)]

def typed (type : String) (more : Entries Value) : Value :=
  .obj (("type", .str type) :: more)

def duration : Value :=
  typed "number" [("minimum", .int 0)]

def name : Value :=
  typed "string" [("minLength", .int 1)]

/-- The schema of a config. -/
def schema : Builtin → Value
  | wait =>
    typed "object" [
      ("properties", .obj [
        ("ms", duration),
        ("sleep", duration),
        ("condition", typed "object" [("properties", .obj [("sleep", duration)])])])]
  | assign =>
    typed "object" [
      ("properties", .obj [("values", typed "object" []), ("name", name)]),
      ("anyOf", .list [
        .obj [("required", .strings ["values"])],
        .obj [("required", .strings ["name"])]])]
  | append =>
    typed "object" [
      ("properties", .obj [("listVar", name)]),
      ("required", .strings ["listVar", "value"])]
  | evaluate =>
    typed "object" [
      ("properties", .obj [("expression", typed "string" []), ("saveAs", name)]),
      ("required", .strings ["expression", "saveAs"])]
  | log =>
    typed "object" [
      ("properties", .obj [
        ("message", .obj []),
        ("level", .obj [("enum", .strings ["debug", "info", "warning", "error"])])])]
  | assert =>
    typed "object" [
      ("properties", .obj [("message", typed "string" [])]),
      ("required", .strings ["condition"])]

/-- The milliseconds to wait: those of the condition, or the first that is given. -/
def waitMs (config : Value) : Except ShapeFault Float :=
  let given := [(config.field "condition").field "sleep", config.field "ms", config.field "sleep"]
  match given.find? (!·.isNull) with
  | none => .ok 0.0
  | some v => v.toDouble.map fun x => if x > 0.0 then x else 0.0

def assigned (config : Value) : Except ShapeFault (Entries Value) := do
  let values ← (config.field "values").toFieldsOrNone
  let name := config.field "name"
  return if name.isVacant then values else Entries.insert name.name (config.field "value") values

/-- The name of a variable without `vars.` in front. -/
def bareName (s : String) : String :=
  if s.startsWith "vars." then (s.drop 5).toString else s

def appended (config : Value) (vars : Entries Value) : Except ShapeFault HandlerResult := do
  let name := bareName (← config.require "listVar").name
  let value := config.field "value"
  return match (Entries.find? name vars).getD .null with
    | .null => .success [(name, .list [value])]
    | .list items => .success [(name, .list (items ++ [value]))]
    | _ => .refuse "type_error" ("variable '" ++ name ++ "' is not a list") .null

def evaluated (config : Value) (vars : Entries Value) : Except ShapeFault HandlerResult := do
  let name := (← config.require "saveAs").name
  let expression ← config.require "expression"
  return .success [(name, Expr.evaluate expression (Variables.ofValue (.obj vars)))]

def logLevel (config : Value) : String :=
  ((config.field "level").orElse (.str "info")).name

def asserted (config : Value) (vars : Entries Value) : HandlerResult :=
  let condition := config.field "condition"
  let passed := match condition with
    | .bool b => b
    | c => Expr.evaluateCondition c (Variables.ofValue (.obj vars))
  if passed then .success []
  else
    let message := (config.field "message").orElse
      (.str ("assertion failed: " ++ condition.name))
    .refuse "assertion_failed" message.name (.obj [("condition", condition)])

def act (b : Builtin) (config vars : Entries Value) : Except ShapeFault BuiltinAction :=
  let given := Value.obj config
  match b with
  | wait => (waitMs given).map .rest
  | assign => (assigned given).map fun values => .reply (.success values) none
  | append => (appended given vars).map (.reply · none)
  | evaluate => (evaluated given vars).map (.reply · none)
  | log => .ok (.reply (.success []) (some (logLevel given, given.field "message")))
  | assert => .ok (.reply (asserted given vars) none)

/-- The reply after a rest. -/
def rested (cutShort : Bool) : HandlerResult :=
  if cutShort then .refuse "cancelled" "wait interrupted by cancellation" .null else .success []

end Builtin

end Workflow
