import Workflow.Settings.Basic
import Workflow.Value.ErrorInfo
import Workflow.Value.Shape
/-!
How a node reacts to failure: the fields of the flow's and the node's policy, laid over the settings.
-/

namespace Workflow

inductive OnError where
  | stop | continue | retry
  deriving Repr, DecidableEq

/-- How the wait before a retry grows. -/
inductive Growth where
  | none | linear | exp
  deriving Repr, DecidableEq

inductive Fallback where
  | stop | continue
  deriving Repr, DecidableEq

def OnError.text : OnError → String
  | stop => "stop"
  | .continue => "continue"
  | retry => "retry"

def Growth.text : Growth → String
  | none => "none"
  | linear => "linear"
  | exp => "exp"

def Fallback.text : Fallback → String
  | stop => "stop"
  | .continue => "continue"

inductive PolicyFault where
  | onError
  | backoff
  | fallback
  | shape (fault : ShapeFault)

namespace PolicyFault

def message : PolicyFault → String
  | onError => "onError must be one of stop, continue, retry"
  | backoff => "backoff must be one of none, linear, exp"
  | fallback => "fallback must be 'stop' or 'continue'"
  | shape fault => fault.message

def kind : PolicyFault → FaultKind
  | shape fault => fault.kind
  | _ => .value

end PolicyFault

structure Policy where
  onError : OnError := .stop
  retries : Nat := 0
  backoffMs : Nat := 0
  backoff : Growth := .exp
  /-- Zero means no bound. -/
  maxBackoffMs : Nat := 0
  fallback : Fallback := .stop
  /-- The codes that may be retried, or any. -/
  retryOn : Option (List String) := none
  timeoutMs : Nat := 15000

namespace Policy

/-- The first of several spellings of a field that is given and not null. -/
def pick (fields : Entries Value) (spellings : List String) : Option Value :=
  spellings.findSome? fun key => (Entries.find? key fields).filter (!·.isNull)

def onErrorOf (fields : Entries Value) : Except PolicyFault OnError :=
  match ((pick fields ["onError", "on_error"]).map Value.name).getD "stop" with
  | "stop" => .ok .stop
  | "continue" => .ok .continue
  | "retry" => .ok .retry
  | _ => .error .onError

def growthOf (fields : Entries Value) : Except PolicyFault Growth :=
  match ((pick fields ["backoff"]).map Value.name).getD "exp" with
  | "none" => .ok .none
  | "linear" => .ok .linear
  | "exp" => .ok .exp
  | _ => .error .backoff

def fallbackOf (fields : Entries Value) : Except PolicyFault Fallback :=
  match ((pick fields ["fallback"]).map Value.name).getD "stop" with
  | "stop" => .ok .stop
  | "continue" => .ok .continue
  | _ => .error .fallback

/-- A whole number under one of several spellings, or a default. -/
def wholeOf (fields : Entries Value) (spellings : List String) (default : Nat) :
    Except PolicyFault Int :=
  match pick fields spellings with
  | none => .ok default
  | some v =>
    match v.toWhole with
    | .ok n => .ok n
    | .error f => .error (.shape f)

def retryOnOf (fields : Entries Value) : Except PolicyFault (Option (List String)) :=
  match pick fields ["retryOn", "retry_on"] with
  | none => .ok none
  | some v =>
    if v.isVacant then .ok none
    else
      match v.iterate with
      | .ok items => .ok (some (items.map Value.name))
      | .error f => .error (.shape f)

/-- Lays layers over each other, later ones over earlier ones. -/
def merge : List Value → Except PolicyFault (Entries Value)
  | layers => layers.foldlM (fun merged layer =>
      match layer.toFieldsOrNone with
      | .ok fields => .ok (Entries.update merged fields)
      | .error f => .error (.shape f)) []

def ofFields (settings : Settings) (fields : Entries Value) : Except PolicyFault Policy := do
  let onError ← onErrorOf fields
  let backoff ← growthOf fields
  let fallback ← fallbackOf fields
  let retries ← wholeOf fields ["retries", "maxRetries", "max_retries"] settings.defaultNodeRetries
  let timeout ← wholeOf fields ["timeoutMs", "timeout_ms"] settings.defaultNodeTimeoutMs
  let backoffMs ← wholeOf fields ["backoffMs", "backoff_ms"] settings.defaultBackoffMs
  let maxBackoffMs ← wholeOf fields ["maxBackoffMs", "max_backoff_ms"] settings.maxBackoffMs
  let retryOn ← retryOnOf fields
  let timeoutMs := if timeout ≤ 0 then settings.defaultNodeTimeoutMs else timeout.toNat
  return {
    onError, backoff, fallback, retryOn
    retries := min retries.toNat settings.maxRetriesHardCap
    backoffMs := backoffMs.toNat
    maxBackoffMs := maxBackoffMs.toNat
    timeoutMs := min timeoutMs settings.maxNodeTimeoutMs }

/-- The policy that layers make over the settings. -/
def resolve (settings : Settings) (layers : List Value) : Except PolicyFault Policy := do
  ofFields settings (← merge layers)

/-- The milliseconds to wait before the `n`-th retry. -/
def delayMs (p : Policy) (n : Nat) : Nat :=
  let delay := match p.backoff with
    | .none => p.backoffMs
    | .linear => p.backoffMs * n
    | .exp => p.backoffMs * Nat.pow 2 (n - 1)
  if p.maxBackoffMs == 0 then delay else min delay p.maxBackoffMs

/-- Whether a failed attempt may be tried again. -/
def allowsRetry (p : Policy) (e : ErrorInfo) (attempt : Nat) : Bool :=
  p.onError == .retry && e.retryable && (p.retryOn.all (·.contains e.code)) && attempt ≤ p.retries

def toFields (p : Policy) : Entries Value := [
  ("on_error", .str p.onError.text),
  ("retries", .nat p.retries),
  ("backoff_ms", .nat p.backoffMs),
  ("backoff", .str p.backoff.text),
  ("max_backoff_ms", .nat p.maxBackoffMs),
  ("fallback", .str p.fallback.text),
  ("timeout_ms", .nat p.timeoutMs),
  ("retry_on", match p.retryOn with
    | none => .null
    | some codes => .strings (codes.eraseDups.mergeSort fun a b => decide (a ≤ b)))]

/-- Codes of failures that no policy retries, continues past or reroutes. -/
def fatalCodes : List String := ["unknown_node_kind", "loop_limit_exceeded"]

end Policy

end Workflow
