import Workflow.Api.Request
import Workflow.Debug.Backlog
import Workflow.Debug.Command
import Workflow.Json.Reader
/-!
Channels: connections on which a client sends commands of a debugger and is told what the runs do
that a debugger is attached to.
-/

namespace Workflow.Api

structure Channel where
  /-- The run that the channel is about, if it is about one. -/
  run : Option String
  /-- The number of the observer that tells the client of runs. -/
  observer : Nat

namespace Channel

/-- Why a channel is closed at once. -/
inductive Refused where
  | unknownPath
  | unknownRun

/-- The code with which a client is told why. -/
def Refused.code : Refused → Nat
  | unknownPath => 1000
  | unknownRun => 4404

def path : String := "/v1/debugger/events"

/-- Opens a channel for a request. -/
def connect (e : Engine) (r : Request) : Except Refused (Engine × Channel) :=
  let run := r.parameter? "run_id"
  if r.path != path then .error .unknownPath
  else if run.any fun id => !Entries.contains id e.runs then .error .unknownRun
  else
    let (debugger, o) := e.debugger.subscribe "channel" run
    .ok ({ e with debugger }, ⟨run, o.number⟩)

def disconnect (c : Channel) (e : Engine) : Engine :=
  { e with debugger := e.debugger.unsubscribe c.observer }

/-- A command that names no run is about the run of the channel, unless it asks for all runs. -/
def address (c : Channel) (command : Entries Value) : Entries Value :=
  let given := Value.obj command
  match c.run, given.field "type" with
  | _, .str "debug.listRuns" => command
  | some run, _ =>
    if (given.field "runId").isVacant then Entries.insert "runId" (.str run) command else command
  | none, _ => command

def response (fields : Entries Value) : Value :=
  .obj (Entries.update [("type", .str "debug.response")] fields)

def failure (message : String) : Value :=
  response [("ok", .bool false), ("error", .str message)]

/-- Carries out a command that a client sends; the response names the command's id. -/
def receive (c : Channel) (e : Engine) (text : String) : Engine × Value :=
  match Json.read text with
  | .error _ => (e, failure "invalid JSON")
  | .ok (.obj command) =>
    let (e, result) := Debugger.handle e (.obj (c.address command))
    (e, response (Entries.update [("id", (Value.obj command).field "id")] result.fields))
  | .ok _ => (e, failure "command must be an object")

/-- The most messages that are queued for a client. -/
def backlogBound : Nat := 1000

/-- What a client gets of messages that are queued before it takes any of them. -/
def delivered (messages : List Value) : List Value :=
  let start : Backlog := { bound := backlogBound }
  ((messages.foldlM Backlog.enqueue start).map (·.messages)).getD []

/-- The messages to the client that have not been taken yet. It takes all that are queued after each
round. -/
def messages (c : Channel) (e : Engine) : List Value :=
  let mine := e.pushed.reverse.filter (·.2.observer.number == c.observer)
  (mine.splitBy (·.1 == ·.1)).flatMap fun sent => delivered (sent.map (·.2.message))

end Channel

end Workflow.Api
