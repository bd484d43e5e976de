/-!
Limits and defaults that runs obey.
-/

namespace Workflow

structure Settings where
  defaultNodeTimeoutMs : Nat := 15000
  maxNodeTimeoutMs : Nat := 60000
  defaultNodeRetries : Nat := 2
  maxRetriesHardCap : Nat := 3
  defaultBackoffMs : Nat := 1000
  maxBackoffMs : Nat := 30000
  /-- The most iterations of any `while` node. -/
  maxLoopIterations : Nat := 10000
  maxCallDepth : Nat := 16
  maxStepsPerFrame : Nat := 10000
  /-- How long a cancelled handler may take before its task is cancelled too. -/
  cancelGraceMs : Nat := 5000
  maxConcurrentRuns : Nat := 8
  /-- Finished runs that are kept before the oldest go. -/
  maxRunsRetained : Nat := 500
  corsAllowOrigins : List String :=
    ["http://localhost", "http://localhost:3000", "http://127.0.0.1:3000"]
  testMode : Bool := false

namespace Settings

/-- Defaults never pass the limits. -/
def clamp (s : Settings) : Settings :=
  { s with
    defaultNodeTimeoutMs := min s.defaultNodeTimeoutMs s.maxNodeTimeoutMs
    defaultNodeRetries := min s.defaultNodeRetries s.maxRetriesHardCap }

end Settings

end Workflow
