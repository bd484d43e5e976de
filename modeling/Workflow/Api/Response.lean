import Workflow.Api.Request
import Workflow.Refusal
/-!
Responses: envelopes of what was asked for or of an error with a stable code.
-/

namespace Workflow.Api

def version : String := "0.1.0"

inductive Content where
  | text (s : String)
  | json (v : Value)

structure Response where
  status : Nat
  content : Content
  /-- Headers under names in lower case. -/
  headers : Entries String := []
  /-- A mistake of the service itself that it answers for. -/
  fault : Option ShapeFault := none

/-- Why a request is not answered with what it asks for. -/
inductive Failure where
  | unknownPath
  | wrongMethod
  | unreadableBody
  | badForm (problems : List FieldProblem)
  | refused (r : Refusal)

namespace Failure

def status : Failure → Nat
  | unknownPath => 404
  | wrongMethod => 405
  | unreadableBody | badForm _ => 400
  | refused r => r.status

def code : Failure → String
  | unknownPath => "not_found"
  | wrongMethod => "server_error"
  | unreadableBody | badForm _ => "validation_error"
  | refused r => r.code

def message : Failure → String
  | unknownPath => "Not Found"
  | wrongMethod => "Method Not Allowed"
  | unreadableBody => "There was an error parsing the body"
  | badForm _ => "request validation failed"
  | refused (.shape _) => "internal server error"
  | refused r => r.message

def details : Failure → Value
  | badForm problems => .list (problems.map FieldProblem.toValue)
  | refused (.shape _) => .null
  | refused r => .obj r.detail
  | _ => .null

/-- The mistake of the service that a failure comes from. -/
def fault? : Failure → Option ShapeFault
  | refused (.shape fault) => some fault
  | _ => none

end Failure

mutual

/-- A value as JSON tells it: what is no finite number is null. -/
def finiteValue : Value → Value
  | .undefined => .null
  | .float x => if (Double.finite? x).isSome then .float x else .null
  | .list items => .list (finiteItems items)
  | .obj fields => .obj (finiteFields fields)
  | v => v

def finiteItems : List Value → List Value
  | [] => []
  | v :: rest => finiteValue v :: finiteItems rest

def finiteFields : List (String × Value) → List (String × Value)
  | [] => []
  | (k, v) :: rest => (k, finiteValue v) :: finiteFields rest

end

namespace Response

def json (status : Nat) (v : Value) : Response where
  status
  content := .json (finiteValue v)
  headers := [("content-type", "application/json")]

def text (status : Nat) (s : String) : Response where
  status
  content := .text s
  headers := [("content-type", "text/plain; charset=utf-8")]

/-- A response without content that names another path. -/
def moved (path : String) : Response where
  status := 307
  content := .text ""
  headers := [("location", path)]

/-- What was asked for, in an envelope with an id of its own. -/
def ofData (id : String) (status : Nat) (data : Value) : Response :=
  json status (.obj [
    ("status", .str "ok"), ("data", data), ("error", .null), ("request_id", .str id)])

/-- An error in an envelope with an id of its own. -/
def ofFailure (id : String) (f : Failure) : Response :=
  { json f.status (.obj [
      ("status", .str "error"), ("data", .null),
      ("error", .obj [
        ("code", .str f.code), ("message", .str f.message), ("details", f.details)]),
      ("request_id", .str id)]) with
    fault := f.fault? }

/-- Adds a header, unless the response has it. -/
def withHeader (r : Response) (name value : String) : Response :=
  if Entries.contains name r.headers then r
  else { r with headers := Entries.insert name value r.headers }

end Response

end Workflow.Api
