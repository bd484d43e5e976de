import Workflow.Form.Problem
import Workflow.Json.Reader
import Workflow.Text.Character
import Workflow.Text.Percent
/-!
Requests as they come over the wire, and their bodies as values.
-/

namespace Workflow.Api

structure Request where
  method : String
  /-- The path of the target, its escapes read. -/
  path : String
  /-- The parameters of the target, in their order. -/
  query : List (String × String) := []
  /-- Headers under names in lower case. -/
  headers : Entries String := []
  body : String := ""

namespace Request

/-- A part of a query, where a plus sign is a blank. -/
def queryText (cs : List Char) : String :=
  Text.percentDecode (String.ofList (cs.map fun c => if c == '+' then ' ' else c))

/-- A parameter, with an empty value if there is no equals sign. -/
def parameter (part : String) : String × String :=
  let name := part.toList.takeWhile (· != '=')
  (queryText name, queryText (part.toList.drop (name.length + 1)))

def parameters (query : String) : List (String × String) :=
  ((query.splitOn "&").filter (!·.isEmpty)).map parameter

/-- A request for a target: a path, and a query after the first question mark. -/
def ofTarget (method target : String) (headers : List (String × String)) (body : String) :
    Request :=
  let path := target.toList.takeWhile (· != '?')
  { method
    path := Text.percentDecode (String.ofList path)
    query := parameters (String.ofList (target.toList.drop (path.length + 1)))
    headers := headers.map fun (name, value) => (name.toLower, value)
    body }

def header? (r : Request) (name : String) : Option String :=
  Entries.find? name r.headers

/-- A parameter; of several with one name the last one counts. -/
def parameter? (r : Request) (name : String) : Option String :=
  Entries.find? name r.query.reverse

/-- Whether a type of content is that of JSON. -/
def isJson (type : String) : Bool :=
  let essence := String.ofList (Text.trim (type.toList.takeWhile (· != ';')))
  match essence.toLower.splitOn "/" with
  | ["application", kind] => kind == "json" || kind.endsWith "+json"
  | _ => false

/-- Why the body of a request is not read. -/
inductive BodyFault where
  | notJson (position : Nat)
  | unreadable

/-- The body of a request, if it has one. One that is not sent as JSON is a text. A mark of the
order of bytes in front is no part of it. -/
def value? (r : Request) : Except BodyFault (Option Value) :=
  if r.body.isEmpty then .ok none
  else if (r.header? "content-type").any fun type => !type.isEmpty && !isJson type then
    .ok (some (.str r.body))
  else
    let body := match r.body.toList with
      | '\ufeff' :: rest => String.ofList rest
      | _ => r.body
    match Json.read body with
    | .ok v => .ok (some v)
    | .error (_, .tooManyDigits _) => .error .unreadable
    | .error (position, _) => .error (.notJson position)

end Request

end Workflow.Api
