import Workflow.Flow.Validity
/-!
Why a request is refused.
-/

namespace Workflow

/-- The part of a run's life a run is in. -/
inductive Status where
  | pending | running | paused | completed | failed | cancelled
  deriving Repr, DecidableEq

namespace Status

def text : Status → String
  | pending => "pending"
  | running => "running"
  | paused => "paused"
  | completed => "completed"
  | failed => "failed"
  | cancelled => "cancelled"

def all : List Status := [pending, running, paused, completed, failed, cancelled]

def ofText? (s : String) : Option Status :=
  all.find? (·.text == s)

/-- Whether a run in this state has ended. -/
def isTerminal : Status → Bool
  | completed | failed | cancelled => true
  | _ => false

end Status

inductive Refusal where
  | malformedFlow (fault : ShapeFault)
  | invalidFlow (id : String) (first : Problem) (rest : List Problem)
  | flowExists (id : String) (version : Int)
  | flowNotFound (id : String)
  | runExists (id : String)
  | runNotFound (id : String)
  | runNotPending (id : String) (status : Status)
  | emptyKind
  | controlKind (kind : String)
  | notCallable (kind : String)
  | badSchema (kind message : String)
  | kindTaken (kind : String)
  | unknownKind (kind : String)
  | invalid (message : String) (detail : Entries Value)
  /-- A value of a wrong shape, told by its kind only. -/
  | shape (fault : ShapeFault)

namespace Refusal

def message : Refusal → String
  | malformedFlow fault => "malformed flow: " ++ fault.message
  | invalidFlow id first _ => "flow '" ++ id ++ "' is invalid: " ++ first.message
  | flowExists id _ => "flow '" ++ id ++ "' already exists"
  | flowNotFound id => "flow '" ++ id ++ "' not found"
  | runExists id => "run '" ++ id ++ "' already exists"
  | runNotFound id => "run '" ++ id ++ "' not found"
  | runNotPending id status => "run '" ++ id ++ "' is " ++ status.text
  | emptyKind => "node kind must be a non-empty string"
  | controlKind kind => "'" ++ kind ++ "' is a built-in control kind and cannot be registered"
  | notCallable kind => "handler for '" ++ kind ++ "' is not callable"
  | badSchema kind message => "invalid config schema for '" ++ kind ++ "': " ++ message
  | kindTaken kind => "a handler is already registered for '" ++ kind ++ "'"
  | unknownKind kind => "no handler registered for node kind '" ++ kind ++ "'"
  | invalid message _ => message
  | shape fault => fault.message

/-- The stable code that clients branch on. -/
def code : Refusal → String
  | flowExists _ _ | runExists _ | runNotPending _ _ => "conflict"
  | flowNotFound _ | runNotFound _ | unknownKind _ => "not_found"
  | shape _ => "server_error"
  | _ => "validation_error"

/-- The status of the answer to a request that is refused. -/
def status : Refusal → Nat
  | flowExists _ _ | runExists _ | runNotPending _ _ => 409
  | flowNotFound _ | runNotFound _ | unknownKind _ => 404
  | shape _ => 500
  | _ => 400

def detail : Refusal → Entries Value
  | invalidFlow id first rest =>
    [("flow_id", .str id), ("problems", .strings ((first :: rest).map Problem.message))]
  | flowExists id version => [("flow_id", .str id), ("version", .int version)]
  | flowNotFound id => [("flow_id", .str id)]
  | runExists id | runNotFound id | runNotPending id _ => [("run_id", .str id)]
  | controlKind kind | notCallable kind | badSchema kind _ | kindTaken kind | unknownKind kind =>
    [("kind", .str kind)]
  | invalid _ detail => detail
  | malformedFlow _ | emptyKind | shape _ => []

end Refusal

namespace Flow

/-- Refuses a flow that has problems. -/
def validate (f : Flow) : Except Refusal Unit :=
  match f.unreadableEntry? with
  | some type => .error (.shape (.unhashable type))
  | none =>
    match f.problems with
    | [] => .ok ()
    | first :: rest => .error (.invalidFlow f.id first rest)

end Flow

end Workflow
