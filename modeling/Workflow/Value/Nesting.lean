import Workflow.Value.Basic
/-!
Bounds on how deep values nest and on how long the lists in them are.
-/

namespace Workflow

structure Bounds where
  depth : Nat
  items : Nat

/-- How a value goes beyond its bounds. -/
inductive Excess where
  | depth (most : Nat)
  | items (count most : Nat)
  deriving Repr, DecidableEq

namespace Excess

def message : Excess → String
  | depth most => "JSON nesting depth exceeds maximum of " ++ toString most
  | items count most =>
    "Array length " ++ toString count ++ " exceeds maximum of " ++ toString most

end Excess

namespace Value

mutual

/-- The first place, in the order of reading, where a value that lies at some depth goes beyond its
bounds. -/
def excess? (b : Bounds) (depth : Nat) : Value → Option Excess
  | .list items =>
    if depth > b.depth then some (.depth b.depth)
    else if items.length > b.items then some (.items items.length b.items)
    else itemsExcess? b (depth + 1) items
  | .obj fields =>
    if depth > b.depth then some (.depth b.depth) else fieldsExcess? b (depth + 1) fields
  | _ => if depth > b.depth then some (.depth b.depth) else none

def itemsExcess? (b : Bounds) (depth : Nat) : List Value → Option Excess
  | [] => none
  | v :: rest => (excess? b depth v).or (itemsExcess? b depth rest)

def fieldsExcess? (b : Bounds) (depth : Nat) : List (String × Value) → Option Excess
  | [] => none
  | (_, v) :: rest => (excess? b depth v).or (fieldsExcess? b depth rest)

end

end Value

end Workflow
