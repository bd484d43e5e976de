import Workflow.Log.Secret
import Workflow.Value.Shown
/-!
Lines of the log: which ones are written, and what they hold.
-/

namespace Workflow.Log

/-- The ranks of levels by their names. -/
def ranks : List (String × Nat) := [
  ("CRITICAL", 50), ("FATAL", 50), ("ERROR", 40), ("WARNING", 30), ("WARN", 30), ("INFO", 20),
  ("DEBUG", 10), ("NOTSET", 0)]

/-- The ways to log, each with its rank and the level that its lines show. -/
def methods : List (String × Nat × String) := [
  ("debug", 10, "debug"), ("info", 20, "info"), ("msg", 20, "info"), ("warning", 30, "warning"),
  ("warn", 30, "warning"), ("error", 40, "error"), ("exception", 40, "error"),
  ("critical", 50, "critical"), ("fatal", 50, "critical")]

structure Config where
  /-- Lines of a lower rank are not written. -/
  rank : Nat
  /-- Lines are written as objects, not for a console. -/
  asJson : Bool

/-- A level, and whether to write objects or for a console, as asked for. -/
structure Request where
  level : Option String := none
  asJson : Option Bool := none
  console : Option Bool := none

/-- Whether a variable is set to one of the words for yes. -/
def saysYes (env : Entries String) (name default : String) : Bool :=
  ["1", "true", "yes", "on"].contains ((Entries.find? name env).getD default).toLower

/-- Fills in from the environment what is not asked for. An unknown level is that of information. -/
def Config.ofRequest (r : Request) (env : Entries String) : Config :=
  let level := (r.level.filter (!·.isEmpty)).getD ((Entries.find? "LOG_LEVEL" env).getD "INFO")
  let asJson := r.asJson.getD (saysYes env "LOG_JSON" "true")
  let console := r.console.getD (saysYes env "LOG_DEV_MODE" "false")
  { rank := ((ranks.find? (·.1 == level.toUpper)).map (·.2)).getD 20
    asJson := asJson && !console }

/-- The fields of a line: those bound before, those of the call, the event, the level, and the id of
the request that is served, unless the call gives one. -/
def lineFields (bound fields : Entries Value) (event : Value) (level : String)
    (correlation : Option String) : Entries Value :=
  let entry := Entries.update bound fields
  let entry := if event.isNull then entry else Entries.insert "event" event entry
  let entry := Entries.insert "level" (.str level) entry
  let entry := match correlation.filter (!·.isEmpty) with
    | some id => if Entries.contains "correlation_id" entry then entry
      else Entries.insert "correlation_id" (.str id) entry
    | none => entry
  redact entry

/-- The line that a call writes, if it writes one. -/
def line? (c : Config) (method : String) (bound fields : Entries Value) (event : Value)
    (correlation : Option String) : Option (Entries Value) := do
  let (_, rank, level) ← methods.find? (·.1 == method)
  if rank < c.rank || !c.asJson then none
  else
    let fields := if method == "exception" then
      Entries.insert "exception" (.str "MISSING") fields else fields
    return lineFields bound fields event level correlation

/-- How often each outcome comes in a trace. -/
def outcomeCounts (trace : List Value) : Entries Value :=
  trace.foldl (fun counts e =>
    let key := (e.field "outcome").name
    let n := match Entries.find? key counts with
      | some (.int n) => n
      | _ => 0
    Entries.insert key (.int (n + 1)) counts) []

/-- The lines about a run that has ended: a summary, and all of its trace for those who look for
faults. -/
def runTrace (run : Value) (trace : List Value) : List (String × String × Entries Value) :=
  let failed := trace.filter fun e => (e.field "outcome").same (.str "failed")
  [("info", "run_trace", [
      ("run_id", run), ("steps", .nat trace.length), ("outcomes", .obj (outcomeCounts trace)),
      ("failed_nodes", .list (failed.map (·.field "nodeId")))]),
    ("debug", "run_trace_detail", [("run_id", run), ("trace", .list trace)])]

end Workflow.Log
