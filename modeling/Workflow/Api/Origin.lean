import Workflow.Api.Response
/-!
Requests from pages of other origins: which are allowed, and the answers to questions whether a
request would be.
-/

namespace Workflow.Api.Origin

def methods : List String := ["GET", "POST", "DELETE", "OPTIONS"]

/-- Headers that requests of other origins may carry. -/
def headers : List String := [
  "accept", "accept-language", "content-language", "content-type", "x-request-id"]

/-- For how many seconds an answer holds. -/
def maxAge : Nat := 3600

/-- Whether all headers of a list with commas may be carried. -/
def headersAllowed (list : String) : Bool :=
  (list.splitOn ",").all fun name =>
    headers.contains (String.ofList (Text.trim name.toLower.toList))

/-- The answer to the question whether a request would be allowed; nothing if a request is no such
question. -/
def preflight? (origins : List String) (r : Request) : Option Response := do
  let origin ← r.header? "origin"
  if r.method != "OPTIONS" then none
  let method ← r.header? "access-control-request-method"
  let wrong (what : String) (ok : Bool) : List String := if ok then [] else [what]
  let failures := wrong "origin" (origins.contains origin) ++ wrong "method" (methods.contains method)
    ++ wrong "headers" ((r.header? "access-control-request-headers").all headersAllowed)
  let response := if failures.isEmpty then Response.text 200 "OK"
    else Response.text 400 ("Disallowed CORS " ++ String.intercalate ", " failures)
  let response := (response.withHeader "access-control-allow-methods"
    (String.intercalate ", " methods)).withHeader "access-control-max-age" (toString maxAge)
  return if origins.contains origin then
    response.withHeader "access-control-allow-origin" origin else response

/-- Tells a page of an allowed origin that it may see the response. -/
def allow (origins : List String) (r : Request) (response : Response) : Response :=
  match r.header? "origin" with
  | some origin =>
    if origins.contains origin then response.withHeader "access-control-allow-origin" origin
    else response
  | none => response

end Workflow.Api.Origin
