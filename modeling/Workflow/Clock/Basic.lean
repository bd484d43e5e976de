import Workflow.Number.Double
/-!
The clock that runs obey. It counts seconds from zero and is told in whole milliseconds.
-/

namespace Workflow

/-- Seconds since the clock was started. -/
abbrev Seconds := Float

namespace Seconds

def ofMillis (ms : Float) : Seconds :=
  ms / 1000.0

/-- The nearest whole number of milliseconds, the even one of two. -/
def toMillis (t : Seconds) : Int :=
  match Double.finite? (t * 1000.0) with
  | none => 0
  | some x =>
    let (up, down) := Double.scale x.exponent
    let n : Int := Double.roundHalfEven (x.mantissa * up) down
    if x.negative then -n else n

end Seconds

end Workflow
