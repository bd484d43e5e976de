import Workflow.Form.Field
import Workflow.Settings.Basic
/-!
Settings from named values and from the environment.
-/

namespace Workflow.Settings

open Form

def positive (v : Value) : Read Nat := do
  let n ← whole v
  if n ≤ 0 then refuse (.rule "must be a positive integer") else return n.toNat

def notNegative (v : Value) : Read Nat := do
  let n ← whole v
  if n < 0 then refuse (.rule "must not be negative") else return n.toNat

/-- The parts of a text between commas, without white space around them and without empty ones. -/
def origins (s : String) : List String :=
  ((s.splitOn ",").map fun part => String.ofList (Text.trim part.toList)).filter (!·.isEmpty)

/-- A list of texts, or one text with commas. -/
def originList (v : Value) : Read (List String) :=
  match v with
  | .str s => .ok (origins s)
  | v => items text v

/-- One setting: its name, and how a value for it changes the settings. -/
structure Entry where
  name : String
  read : Value → Settings → Read Settings

def entry {α : Type} (name : String) (read : Value → Read α) (put : Settings → α → Settings) :
    Entry :=
  ⟨name, fun v s => (read v).map (put s)⟩

def entries : List Entry := [
  entry "default_node_timeout_ms" positive ({ · with defaultNodeTimeoutMs := · }),
  entry "max_node_timeout_ms" positive ({ · with maxNodeTimeoutMs := · }),
  entry "default_node_retries" notNegative ({ · with defaultNodeRetries := · }),
  entry "max_retries_hard_cap" notNegative ({ · with maxRetriesHardCap := · }),
  entry "default_backoff_ms" notNegative ({ · with defaultBackoffMs := · }),
  entry "max_backoff_ms" notNegative ({ · with maxBackoffMs := · }),
  entry "max_loop_iterations" positive ({ · with maxLoopIterations := · }),
  entry "max_call_depth" positive ({ · with maxCallDepth := · }),
  entry "max_steps_per_frame" positive ({ · with maxStepsPerFrame := · }),
  entry "cancel_grace_ms" notNegative ({ · with cancelGraceMs := · }),
  entry "max_concurrent_runs" positive ({ · with maxConcurrentRuns := · }),
  entry "max_runs_retained" positive ({ · with maxRunsRetained := · }),
  entry "cors_allow_origins" originList ({ · with corsAllowOrigins := · }),
  entry "test_mode" flag ({ · with testMode := · })]

/-- Reads one setting into settings and problems so far. -/
def take (given : Entries Value) (state : Settings × List FieldProblem) (e : Entry) :
    Settings × List FieldProblem :=
  match Entries.find? e.name given with
  | none => state
  | some v =>
    match e.read v state.1 with
    | .ok s => (s, state.2)
    | .error ps => (state.1, state.2 ++ ps.map (·.under (.str e.name)))

/-- The settings with the values that are given, or all that is wrong with these. -/
def ofFields (given : Entries Value) : Read Settings :=
  match entries.foldl (take given) ({}, []) with
  | (s, []) => .ok s.clamp
  | (_, ps) => .error ps

/-- What the environment and a file of defaults say of each setting, under its name in capitals. -/
def environmentFields (env : Entries String) (file : Entries Value) : Entries Value :=
  entries.filterMap fun e =>
    let capitals := e.name.toUpper
    match Entries.find? capitals env with
    | some s => some (e.name, .str s)
    | none => (Entries.find? capitals file).map (e.name, ·)

def ofEnvironment (env : Entries String) (file : Entries Value) : Read Settings :=
  ofFields (environmentFields env file)

def toFields (s : Settings) : Entries Value := [
  ("default_node_timeout_ms", .nat s.defaultNodeTimeoutMs),
  ("max_node_timeout_ms", .nat s.maxNodeTimeoutMs),
  ("default_node_retries", .nat s.defaultNodeRetries),
  ("max_retries_hard_cap", .nat s.maxRetriesHardCap),
  ("default_backoff_ms", .nat s.defaultBackoffMs),
  ("max_backoff_ms", .nat s.maxBackoffMs),
  ("max_loop_iterations", .nat s.maxLoopIterations),
  ("max_call_depth", .nat s.maxCallDepth),
  ("max_steps_per_frame", .nat s.maxStepsPerFrame),
  ("cancel_grace_ms", .nat s.cancelGraceMs),
  ("max_concurrent_runs", .nat s.maxConcurrentRuns),
  ("max_runs_retained", .nat s.maxRunsRetained),
  ("cors_allow_origins", .strings s.corsAllowOrigins),
  ("test_mode", .bool s.testMode)]

end Workflow.Settings
