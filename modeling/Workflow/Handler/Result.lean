import Workflow.Value.ErrorInfo
import Workflow.Value.Shape
/-!
What handlers give back: values to write into the scope, or a failure. A handler may also break off
with a fault.
-/

namespace Workflow

inductive HandlerResult where
  | success (values : Entries Value)
  /-- A failure, with its description unless the handler gave none. -/
  | failure (error : Option ErrorInfo)

/-- Why a handler broke off. -/
inductive HandlerFault where
  | raised (type text : String)
  /-- Nobody carries out nodes of this kind any more. -/
  | unknownKind (kind : String)
  deriving Repr, DecidableEq

namespace FaultKind

/-- The name under which a kind of fault is reported. -/
def name : FaultKind → String
  | key => "KeyError"
  | type => "TypeError"
  | member => "AttributeError"
  | value => "ValueError"
  | overflow => "OverflowError"

end FaultKind

namespace ErrorInfo

/-- The failure of a node whose kind nobody carries out. -/
def unknownKind (kind : String) : ErrorInfo :=
  { code := "unknown_node_kind"
    message := "no handler registered for node kind '" ++ kind ++ "'"
    retryable := false
    data := .obj [("kind", .str kind)] }

end ErrorInfo

namespace HandlerFault

def ofShape (f : ShapeFault) : HandlerFault :=
  raised f.kind.name f.message

def ofNumber (f : NumberFault) : HandlerFault :=
  ofShape (.number f)

def text : HandlerFault → String
  | raised _ text => text
  | unknownKind kind => (ErrorInfo.unknownKind kind).message

/-- The failure of the node whose handler broke off. A fault without a text is told by its type. -/
def toErrorInfo : HandlerFault → ErrorInfo
  | raised type text =>
    { code := "handler_error"
      message := if text.isEmpty then type else text
      data := .obj [("type", .str type)] }
  | unknownKind kind => .unknownKind kind

end HandlerFault

namespace HandlerResult

/-- A failure that is not to be retried. -/
def refuse (code message : String) (data : Value) : HandlerResult :=
  failure (some { code, message, retryable := false, data })

/-- Reads what a handler returned: nothing, or an object that says how the handler ended. -/
def ofValue (v : Value) : HandlerResult :=
  let unsupported := refuse "handler_error"
    ("unsupported handler result of type " ++ v.typeName) .null
  match v with
  | .null => success []
  | .obj _ =>
    match v.field "status" with
    | .str "success" =>
      let values := v.field "values"
      if values.isVacant then success []
      else
        match values with
        | .obj fields => success fields
        | _ => refuse "handler_error" "handler values must be a mapping" .null
    | .str "failure" => failure (some (ErrorInfo.ofValue (v.field "error")))
    | _ => unsupported
  | _ => unsupported

def toValue : HandlerResult → Value
  | success values => .obj [
      ("status", .str "success"), ("ok", .bool true), ("values", .obj values), ("error", .null)]
  | failure e => .obj [
      ("status", .str "failure"), ("ok", .bool false), ("values", .obj []),
      ("error", (e.map ErrorInfo.toValue).getD .null)]

end HandlerResult

end Workflow
