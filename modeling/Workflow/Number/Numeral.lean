import Workflow.Number.Double
import Workflow.Text.Character
import Workflow.Text.Quoted
/-!
Reading numbers from text, and writing whole numbers. Digits of any script count; single underscores
may stand between digits; white space around the numeral is dropped.
-/

namespace Workflow

/-- Why a number has no value of the wanted kind. -/
inductive NumberFault where
  /-- The text is no whole number. -/
  | notWhole (text : String)
  /-- The text is no decimal number. -/
  | notDecimal (text : String)
  /-- The text has more digits than are read. -/
  | tooManyDigits (count : Nat)
  /-- The number has more digits than are written. -/
  | tooLongToWrite
  /-- The whole number lies past the greatest double. -/
  | pastDoubles
  /-- The quotient lies past the greatest double. -/
  | quotientPastDoubles
  /-- An infinity has no whole part. -/
  | infiniteToWhole
  /-- Not-a-number has no whole part. -/
  | nanToWhole
  deriving Repr, DecidableEq

namespace NumberFault

/-- Whether the fault is one of size and not of form. -/
def isOverflow : NumberFault → Bool
  | pastDoubles | quotientPastDoubles | infiniteToWhole => true
  | _ => false

/-- A quoted text in a message about whole numbers is cut to 200 characters. -/
def message : NumberFault → String
  | notWhole text =>
    "invalid literal for int() with base 10: " ++ ((Text.quoted text).take 200).toString
  | notDecimal text => "could not convert string to float: " ++ Text.quoted text
  | tooManyDigits count =>
    "Exceeds the limit (4300 digits) for integer string conversion: value has " ++ toString count
      ++ " digits; use sys.set_int_max_str_digits() to increase the limit"
  | tooLongToWrite =>
    "Exceeds the limit (4300 digits) for integer string conversion; "
      ++ "use sys.set_int_max_str_digits() to increase the limit"
  | pastDoubles => "int too large to convert to float"
  | quotientPastDoubles => "integer division result too large for a float"
  | infiniteToWhole => "cannot convert float infinity to integer"
  | nanToWhole => "cannot convert float NaN to integer"

end NumberFault

namespace Numeral

/-- Longer whole numbers are neither read nor written. -/
def digitLimit : Nat := 4300

def asciiBlanks : List Char := ['\t', '\n', '\x0b', '\x0c', '\r', ' ']

/-- The white space around a numeral: that of any script, without the four separators of ASCII. -/
def isMargin (c : Char) : Bool :=
  if c.toNat < 128 then asciiBlanks.contains c else Text.isBlank c

def trimMargin (cs : List Char) : List Char :=
  ((cs.dropWhile isMargin).reverse.dropWhile isMargin).reverse

/-- Removes underscores that stand between two digits; any other underscore spoils the numeral. -/
def dropUnderscores? (afterDigit : Bool) : List Char → Option (List Char)
  | [] => some []
  | '_' :: c :: rest =>
    if afterDigit && Text.isDigit c then (dropUnderscores? true rest).map (c :: ·) else none
  | '_' :: [] => none
  | c :: rest => (dropUnderscores? (Text.isDigit c) rest).map (c :: ·)

/-- Splits off a sign; true means negative. -/
def sign : List Char → Bool × List Char
  | '-' :: cs => (true, cs)
  | '+' :: cs => (false, cs)
  | cs => (false, cs)

/-- The digits a text starts with, and the rest. -/
def digitRun (cs : List Char) : List Nat × List Char :=
  let (ds, rest) := cs.span Text.isDigit
  (ds.filterMap Text.digit?, rest)

def readInt (s : String) : Except NumberFault Int := do
  let cs := trimMargin s.toList
  let some plain := dropUnderscores? false cs | throw (.notWhole s)
  let (negative, body) := sign plain
  let (ds, rest) := digitRun body
  if ds.isEmpty || !rest.isEmpty then throw (.notWhole s)
  if ds.length > digitLimit then throw (.tooManyDigits ds.length)
  let n : Int := Text.ofDigits ds
  return if negative then -n else n

/-- A fraction part: a point and digits. -/
def fraction : List Char → List Nat × List Char
  | '.' :: cs => digitRun cs
  | cs => ([], cs)

/-- An exponent part, nothing if the mark is not followed by digits. -/
def exponent? (cs : List Char) : Option (Int × List Char) :=
  match cs with
  | c :: rest =>
    if c == 'e' || c == 'E' then
      let (negative, body) := sign rest
      let (ds, tail) := digitRun body
      if ds.isEmpty then none
      else
        let n : Int := Text.ofDigits ds
        some (if negative then -n else n, tail)
    else some (0, cs)
  | [] => some (0, [])

def asciiLower (cs : List Char) : String :=
  String.ofList (cs.map Char.toLower)

/-- The double a decimal text names, its blanks already dropped. -/
def decimal? (cs : List Char) : Option Float := do
  let plain ← dropUnderscores? false cs
  let (negative, body) := sign plain
  let word := asciiLower body
  if word == "inf" || word == "infinity" then
    return if negative then Double.negativeInfinity else Double.positiveInfinity
  if word == "nan" then return Double.notANumber
  let (whole, rest) := digitRun body
  let (part, rest) := fraction rest
  if whole.isEmpty && part.isEmpty then none
  let (e, rest) ← exponent? rest
  if !rest.isEmpty then none
  return Double.ofDecimal negative (Text.ofDigits (whole ++ part)) (e - part.length)

def readFloat (s : String) : Except NumberFault Float :=
  match decimal? (trimMargin s.toList) with
  | some x => .ok x
  | none => .error (.notDecimal s)

/-- The decimal text of a whole number that is not too long to write. -/
def writeInt (n : Int) : Except NumberFault String :=
  if n.natAbs.log2 < 14000 || n.natAbs < Nat.pow 10 digitLimit then .ok (toString n)
  else .error .tooLongToWrite

end Numeral

end Workflow
