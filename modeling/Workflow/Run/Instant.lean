import Workflow.Number.Arith
/-!
Points in time, in microseconds after the start of the year 2024, and their text.
-/

namespace Workflow

/-- Microseconds after the start of the year 2024. -/
abbrev Instant := Int

namespace Instant

def ofSeconds (n : Number) : Instant :=
  match n with
  | .int n => n * 1000000
  | .float x =>
    match Double.finite? x with
    | none => 0
    | some f =>
      let (up, down) := Double.scale f.exponent
      let n : Int := Double.roundHalfEven (f.mantissa * up * 1000000) down
      if f.negative then -n else n

/-- Year, month and day of a day counted from the start of 2024. Years are taken to start in March,
so that the leap day comes last. -/
def civil (day : Int) : Int × Nat × Nat :=
  let z := day + 19723 + 719468
  let era := Int.fdiv z 146097
  let doe := (z - era * 146097).toNat
  let yoe := (doe - doe / 1460 + doe / 36524 - doe / 146096) / 365
  let doy := doe - (365 * yoe + yoe / 4 - yoe / 100)
  let mp := (5 * doy + 2) / 153
  let month := if mp < 10 then mp + 3 else mp - 9
  let year : Int := yoe + era * 400 + (if month ≤ 2 then 1 else 0)
  (year, month, doy - (153 * mp + 2) / 5 + 1)

def padded (width n : Nat) : String :=
  let s := toString n
  String.ofList (List.replicate (width - s.length) '0') ++ s

/-- Date and time of day, with six places of a second if they are not all zero. -/
def text (t : Instant) : String :=
  let second := Int.fdiv t 1000000
  let micros := (t - second * 1000000).toNat
  let day := Int.fdiv second 86400
  let ofDay := (second - day * 86400).toNat
  let (y, m, d) := civil day
  padded 4 y.toNat ++ "-" ++ padded 2 m ++ "-" ++ padded 2 d ++ "T" ++ padded 2 (ofDay / 3600)
    ++ ":" ++ padded 2 (ofDay / 60 % 60) ++ ":" ++ padded 2 (ofDay % 60)
    ++ (if micros == 0 then "" else "." ++ padded 6 micros) ++ "+00:00"

/-- The whole milliseconds between two points, by way of the double nearest to the seconds. -/
def millisBetween (start finish : Instant) : Int :=
  let micros := finish - start
  let seconds := (Double.ofRatio? (micros < 0) micros.natAbs 1000000).getD 0.0
  match Double.finite? (seconds * 1000.0) with
  | some f => f.truncate
  | none => 0

end Instant

end Workflow
