import Workflow.Number.Numeral
import Workflow.Number.Shortest
import Workflow.Value.Basic
/-!
The text of a value inside a flow's own texts and comparisons, and its truth as a condition.
-/

namespace Workflow.Value

/-- Whether a condition with this value holds. -/
def isTruthy : Value → Bool
  | undefined | null => false
  | bool b => b
  | num n => !(n.isZero || n.isNaN)
  | str s => s != ""
  | list _ | obj _ => true

/-- A whole double is written without its fraction. -/
def numberText : Number → Except NumberFault String
  | .int n => Numeral.writeInt n
  | .float x =>
    match Double.finite? x with
    | some f => if f.isWhole then Numeral.writeInt f.truncate else .ok (Double.text x)
    | none =>
      .ok (if x.isNaN then "NaN" else if Double.isNegative x then "-Infinity" else "Infinity")

mutual

/-- The text of a value: strings as they are, lists as their items with commas between. -/
def text : Value → Except NumberFault String
  | undefined => .ok "undefined"
  | null => .ok "null"
  | bool b => .ok (if b then "true" else "false")
  | num n => numberText n
  | str s => .ok s
  | list items => (itemTexts items).map (String.intercalate ",")
  | obj _ => .ok "[object Object]"

/-- Items that are null or undefined have no text. -/
def itemTexts : List Value → Except NumberFault (List String)
  | [] => .ok []
  | v :: rest => do
    let t ← match v with
      | undefined | null => pure ""
      | v => text v
    return t :: (← itemTexts rest)

end

end Workflow.Value
