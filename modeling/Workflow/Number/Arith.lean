import Workflow.Number.Numeral
import Workflow.Value.Basic
/-!
Arithmetic on numbers: whole numbers stay exact, and where a double takes part the other operand
becomes one.
-/

namespace Workflow.Number

def toFloat : Number → Except NumberFault Float
  | int n =>
    match Double.ofInt? n with
    | some x => .ok x
    | none => .error .pastDoubles
  | float x => .ok x

def neg : Number → Number
  | int n => int (-n)
  | float x => float (-x)

/-- Joins two numbers by an operation on whole numbers and its counterpart on doubles. -/
def combine (whole : Int → Int → Int) (double : Float → Float → Float) :
    Number → Number → Except NumberFault Number
  | int a, int b => .ok (int (whole a b))
  | a, b => do
    let x ← a.toFloat
    let y ← b.toFloat
    return float (double x y)

def add : Number → Number → Except NumberFault Number :=
  combine (· + ·) (· + ·)

def sub : Number → Number → Except NumberFault Number :=
  combine (· - ·) (· - ·)

def mul : Number → Number → Except NumberFault Number :=
  combine (· * ·) (· * ·)

/-- Whether a number is below zero or is the negative zero. -/
def hasMinus : Number → Bool
  | int n => n < 0
  | float x => Double.isNegative x

/-- The quotient as a double. Over zero it is infinite with the sign of both, and not-a-number if
the dividend is zero too. -/
def div (a b : Number) : Except NumberFault Number :=
  if b.isZero then
    if a.isZero || a.isNaN then .ok (float Double.notANumber)
    else do
      let _ ← a.toFloat
      return float (if a.hasMinus != b.hasMinus then Double.negativeInfinity
        else Double.positiveInfinity)
  else
    match a, b with
    | int m, int n =>
      match Double.ofRatio? ((m < 0) != (n < 0)) m.natAbs n.natAbs with
      | some x => .ok (float x)
      | none => .error .quotientPastDoubles
    | a, b => do
      let x ← a.toFloat
      let y ← b.toFloat
      return float (x / y)

/-- The whole part of a number. -/
def truncate : Number → Except NumberFault Int
  | int n => .ok n
  | float x =>
    match Double.finite? x with
    | some f => .ok f.truncate
    | none => .error (if x.isNaN then .nanToWhole else .infiniteToWhole)

end Workflow.Number
