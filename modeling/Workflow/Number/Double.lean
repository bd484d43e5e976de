/-!
Doubles as exact dyadic numbers: what a double is worth, and the double nearest to a quotient.
-/

namespace Workflow

/-- A finite double is worth `± mantissa * 2 ^ exponent`. -/
structure Finite where
  negative : Bool
  mantissa : Nat
  exponent : Int

namespace Double

def positiveInfinity : Float := Float.ofBits 0x7FF0000000000000
def negativeInfinity : Float := Float.ofBits 0xFFF0000000000000
def notANumber : Float := Float.ofBits 0x7FF8000000000000

/-- What the bit of the sign is worth among the bits of a double. -/
def signUnit : Nat := 0x8000000000000000

/-- What the bits of the exponent count in; those of the fraction are worth less. -/
def mantissaUnit : Nat := 0x10000000000000

/-- Infinities and not-a-number have no finite worth. -/
def finite? (x : Float) : Option Finite :=
  let bits : Nat := x.toBits.toNat
  let negative := bits / signUnit == 1
  let field : Nat := bits / mantissaUnit % 2048
  let fraction : Nat := bits % mantissaUnit
  if field == 2047 then none
  else if field == 0 then some ⟨negative, fraction, -1074⟩
  else some ⟨negative, mantissaUnit + fraction, (field : Int) - 1075⟩

def isInfinite (x : Float) : Bool :=
  x == positiveInfinity || x == negativeInfinity

def isNegative (x : Float) : Bool :=
  x.toBits.toNat / signUnit == 1 && !x.isNaN

/-- A power of two as a quotient of naturals. -/
def scale (e : Int) : Nat × Nat :=
  (Nat.pow 2 e.toNat, Nat.pow 2 (-e).toNat)

/-- The nearest natural to `num / den`, a half going to the even neighbour. -/
def roundHalfEven (num den : Nat) : Nat :=
  let q := num / den
  let r := num % den
  if 2 * r < den then q
  else if den < 2 * r then q + 1
  else if q % 2 == 0 then q else q + 1

/-- The binary exponent of the last place of the double nearest to `num / den`. -/
def lastPlace (num den : Nat) : Int :=
  let guess : Int := (num.log2 : Int) - den.log2 - 53
  let (up, down) := scale guess
  let e := if num * down < den * up * (2 * mantissaUnit) then guess else guess + 1
  max e (-1074)

/-- The double nearest to `num / den`, a half going to the even neighbour; nothing past the
greatest double. -/
def ofRatio? (negative : Bool) (num den : Nat) : Option Float :=
  let sign := if negative then signUnit else 0
  if num == 0 || den == 0 then some (Float.ofBits (UInt64.ofNat sign))
  else
    let e := lastPlace num den
    let (up, down) := scale e
    let bits := (e + 1074).toNat * mantissaUnit + roundHalfEven (num * down) (den * up)
    if bits < 2047 * mantissaUnit then some (Float.ofBits (UInt64.ofNat (sign + bits))) else none

/-- The double nearest to a whole number, if there is one. -/
def ofInt? (n : Int) : Option Float :=
  ofRatio? (n < 0) n.natAbs 1

/-- The number of decimal digits of a natural. -/
def decimalDigits (n : Nat) : Nat :=
  (Nat.toDigits 10 n).length

/-- The double nearest to `± digits * 10 ^ exponent`, infinite past the greatest double. -/
def ofDecimal (negative : Bool) (digits : Nat) (exponent : Int) : Float :=
  let infinite := if negative then negativeInfinity else positiveInfinity
  let zero := if negative then Float.ofBits (UInt64.ofNat signUnit) else 0.0
  let size := exponent + decimalDigits digits
  if digits == 0 || size < -330 then zero
  else if size > 320 then infinite
  else (ofRatio? negative (digits * Nat.pow 10 exponent.toNat)
      (Nat.pow 10 (-exponent).toNat)).getD infinite

end Double

namespace Finite

def isWhole (x : Finite) : Bool :=
  x.exponent ≥ 0 || x.mantissa % Nat.pow 2 (-x.exponent).toNat == 0

/-- The whole part, the fraction being cut off. -/
def truncate (x : Finite) : Int :=
  let (up, down) := Double.scale x.exponent
  let magnitude : Int := (x.mantissa * up / down : Nat)
  if x.negative then -magnitude else magnitude

/-- The order of a whole number against a finite double, exact at any size. -/
def compareInt (n : Int) (x : Finite) : Ordering :=
  let (up, down) := Double.scale x.exponent
  let m : Int := if x.negative then -x.mantissa else x.mantissa
  compare (n * down) (m * up)

end Finite

end Workflow
