import Workflow.Value.Basic
/-!
What is wrong with a form that is filled in: the place in it and the fault there.
-/

namespace Workflow

inductive FieldFault where
  | missing
  | wholeType
  | wholeText
  | wholeSize
  | fraction
  | notFinite
  | flagType
  | flagText
  | textType
  | listType
  | objectType
  | formType
  | tooShort (least : Nat)
  | tooLong (most : Nat)
  | below (least : Int)
  | above (most : Int)
  | mismatch (pattern : String)
  | notJson
  /-- A rule of the form itself is broken. -/
  | rule (message : String)
  deriving Repr, DecidableEq

namespace FieldFault

/-- A number of characters. -/
def characters (n : Nat) : String :=
  toString n ++ (if n == 1 then " character" else " characters")

def message : FieldFault → String
  | missing => "Field required"
  | wholeType => "Input should be a valid integer"
  | wholeText => "Input should be a valid integer, unable to parse string as an integer"
  | wholeSize => "Unable to parse input string as an integer, exceeded maximum size"
  | fraction => "Input should be a valid integer, got a number with a fractional part"
  | notFinite => "Input should be a finite number"
  | flagType => "Input should be a valid boolean"
  | flagText => "Input should be a valid boolean, unable to interpret input"
  | textType => "Input should be a valid string"
  | listType => "Input should be a valid list"
  | objectType => "Input should be a valid dictionary"
  | formType => "Input should be a valid dictionary or object to extract fields from"
  | tooShort least => "String should have at least " ++ characters least
  | tooLong most => "String should have at most " ++ characters most
  | below least => "Input should be greater than or equal to " ++ toString least
  | above most => "Input should be less than or equal to " ++ toString most
  | mismatch pattern => "String should match pattern '" ++ pattern ++ "'"
  | notJson => "JSON decode error"
  | rule message => "Value error, " ++ message

end FieldFault

/-- A fault with the way to it: names of fields and places in lists. -/
structure FieldProblem where
  place : List Value
  fault : FieldFault

namespace FieldProblem

/-- A problem one step further in. -/
def under (step : Value) (p : FieldProblem) : FieldProblem :=
  { p with place := step :: p.place }

def toValue (p : FieldProblem) : Value :=
  .obj [("loc", .list p.place), ("msg", .str p.fault.message)]

end FieldProblem

end Workflow
