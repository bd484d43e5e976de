/-!
What requests ask for, by their methods and paths.
-/

namespace Workflow.Api

inductive Route where
  | health
  | createFlow
  | listFlows
  | getFlow (id : String)
  | deleteFlow (id : String)
  | startRun
  | listRuns
  | getRun (id : String)
  | cancelRun (id : String)
  | discardRun (id : String)
  | debug

namespace Route

/-- What can be asked for under the segments of a path, with the methods that ask for it. -/
def ofSegments : List String → List (String × Route)
  | ["healthz"] => [("GET", .health)]
  | ["v1", "flows"] => [("POST", .createFlow), ("GET", .listFlows)]
  | ["v1", "flows", id] => if id.isEmpty then [] else [("GET", .getFlow id), ("DELETE", .deleteFlow id)]
  | ["v1", "runs"] => [("POST", .startRun), ("GET", .listRuns)]
  | ["v1", "runs", id] => if id.isEmpty then [] else [("GET", .getRun id), ("DELETE", .discardRun id)]
  | ["v1", "runs", id, "cancel"] => if id.isEmpty then [] else [("POST", .cancelRun id)]
  | ["v1", "debugger"] => [("POST", .debug)]
  | _ => []

def ofPath (path : String) : List (String × Route) :=
  match path.splitOn "/" with
  | "" :: segments => ofSegments segments
  | _ => []

/-- The path without the slashes at its end, or with one if there is none. -/
def toggleSlash (path : String) : String :=
  let cs := path.toList.reverse
  match cs with
  | '/' :: _ => String.ofList (cs.dropWhile (· == '/')).reverse
  | _ => path ++ "/"

/-- Why there is no route for a request. -/
inductive Miss where
  | unknownPath
  | wrongMethod
  /-- Something can be asked for under a path that differs in its final slash. -/
  | moved (path : String)

def find (method path : String) : Except Miss Route :=
  match ofPath path with
  | [] =>
    let other := toggleSlash path
    if path != "/" && !(ofPath other).isEmpty then .error (.moved other) else .error .unknownPath
  | known =>
    match known.find? (·.1 == method) with
    | some (_, route) => .ok route
    | none => .error .wrongMethod

end Route

end Workflow.Api
