import Workflow.Number.Shortest
import Workflow.Text.Quoted
import Workflow.Value.Basic
/-!
The text of a value inside a message.
-/

namespace Workflow.Value

mutual

/-- The text of a value inside a message, strings being quoted. -/
def shown : Value → String
  | undefined => "undefined"
  | null => "None"
  | bool b => if b then "True" else "False"
  | int n => toString n
  | float x => Double.text x
  | str s => Text.quoted s
  | list items => "[" ++ String.intercalate ", " (shownItems items) ++ "]"
  | obj fields => "\x7b" ++ String.intercalate ", " (shownFields fields) ++ "\x7d"

def shownItems : List Value → List String
  | [] => []
  | v :: rest => shown v :: shownItems rest

def shownFields : List (String × Value) → List String
  | [] => []
  | (k, v) :: rest => (Text.quoted k ++ ": " ++ shown v) :: shownFields rest

end

/-- The text of a value where a name is wanted: a string stands for itself. -/
def name : Value → String
  | str s => s
  | v => shown v

/-- What a value is, in messages. -/
def typeName : Value → String
  | undefined => "_Undefined"
  | null => "NoneType"
  | bool _ => "bool"
  | int _ => "int"
  | float _ => "float"
  | str _ => "str"
  | list _ => "list"
  | obj _ => "dict"

end Workflow.Value
