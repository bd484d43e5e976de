import Workflow.Number.Double
/-!
The shortest decimal text of a double: the fewest digits that read back as the same double, and of
those the nearest.
-/

namespace Workflow.Double

/-- Significant digits, with the decimal exponent of the first one. -/
structure Decimal where
  digits : Nat
  exponent : Int

/-- A double's worth and the ends of the interval that rounds to it, over one denominator. -/
structure Neighbourhood where
  low : Nat
  worth : Nat
  high : Nat
  den : Nat
  closed : Bool

namespace Neighbourhood

def ofFinite (x : Finite) : Neighbourhood :=
  let (up, down) := scale (x.exponent - 2)
  let below := if x.mantissa == mantissaUnit && x.exponent > -1074 then 1 else 2
  ⟨(4 * x.mantissa - below) * up, 4 * x.mantissa * up, (4 * x.mantissa + 2) * up, down,
    x.mantissa % 2 == 0⟩

/-- Whether `num / den` rounds to the double. -/
def contains (i : Neighbourhood) (num den : Nat) : Bool :=
  if i.closed then i.low * den ≤ num * i.den && num * i.den ≤ i.high * den
  else i.low * den < num * i.den && num * i.den < i.high * den

end Neighbourhood

/-- A power of ten as a quotient of naturals. -/
def tenth (e : Int) : Nat × Nat :=
  (Nat.pow 10 e.toNat, Nat.pow 10 (-e).toNat)

/-- Raises a decimal exponent, at most `fuel` times, while its next power of ten fits the worth. -/
def raiseExponent (num den : Nat) : Nat → Int → Int
  | 0, k => k
  | fuel + 1, k =>
    let (up, down) := tenth (k + 1)
    if up * den ≤ num * down then raiseExponent num den fuel (k + 1) else k

/-- The decimal exponent of the first digit of `num / den`. -/
def firstPlace (num den : Nat) : Int :=
  let bits : Int := (num.log2 : Int) - den.log2
  raiseExponent num den 4 (bits * 1233 / 4096 - 2)

/-- The nearer of the worth's two neighbours with `n` digits, if one reads back; a tie goes to the
even digit. -/
def withDigits (i : Neighbourhood) (place : Int) (n : Nat) : Option Decimal :=
  let (up, down) := tenth (place + 1 - n)
  let q := i.worth * down / (i.den * up)
  let below := i.contains (q * up) down
  let above := i.contains ((q + 1) * up) down
  let side := compare (2 * i.worth * down) ((2 * q + 1) * up * i.den)
  if below && (!above || side == .lt || (side == .eq && q % 2 == 0)) then some ⟨q, place⟩
  else if above then
    if q + 1 == Nat.pow 10 n then some ⟨1, place + 1⟩ else some ⟨q + 1, place⟩
  else none

/-- Tries one digit more until the digits read back; seventeen always do. -/
def searchDigits (i : Neighbourhood) (place : Int) : Nat → Nat → Decimal
  | 0, n => (withDigits i place n).getD ⟨0, 0⟩
  | fuel + 1, n =>
    match withDigits i place n with
    | some d => d
    | none => searchDigits i place fuel (n + 1)

def shortest (x : Finite) : Decimal :=
  let i := Neighbourhood.ofFinite x
  searchDigits i (firstPlace i.worth i.den) 17 1

/-- Between `1e-4` and `1e16` the text is positional. -/
def positional (exponent : Int) : Bool :=
  -4 ≤ exponent && exponent < 16

def zeros (n : Nat) : String :=
  String.ofList (List.replicate n '0')

/-- Positional text has a fraction even when it is zero. -/
def positionalText (digits : String) (exponent : Int) : String :=
  let cs := digits.toList
  if exponent < 0 then "0." ++ zeros (-exponent - 1).toNat ++ digits
  else
    let whole := exponent.toNat + 1
    let rest := cs.drop whole
    String.ofList (cs.take whole) ++ zeros (whole - cs.length) ++ "."
      ++ (if rest.isEmpty then "0" else String.ofList rest)

/-- An exponent carries its sign and has at least two digits. -/
def scientificText (digits : String) (exponent : Int) : String :=
  let cs := digits.toList
  let size := toString exponent.natAbs
  String.ofList (cs.take 1) ++ (if cs.length > 1 then "." ++ String.ofList (cs.drop 1) else "")
    ++ "e" ++ (if exponent < 0 then "-" else "+") ++ zeros (2 - size.length) ++ size

def finiteText (x : Finite) : String :=
  let sign := if x.negative then "-" else ""
  if x.mantissa == 0 then sign ++ "0.0"
  else
    let d := shortest x
    let digits := toString d.digits
    sign ++ if positional d.exponent then positionalText digits d.exponent
      else scientificText digits d.exponent

/-- The shortest text that reads back as the same double. -/
def text (x : Float) : String :=
  match finite? x with
  | some f => finiteText f
  | none => if x.isNaN then "nan" else if isNegative x then "-inf" else "inf"

end Workflow.Double
