import Workflow.Number.Shortest
import Workflow.Text.Quoted
import Workflow.Value.Basic
/-!
Writing JSON text, with ASCII characters only.
-/

namespace Workflow.Json

def unitEscape (n : Nat) : String :=
  "\\u" ++ Text.hexDigits 4 n

/-- A character beyond the basic plane takes two escapes. -/
def escapeChar (c : Char) : String :=
  let n := c.toNat
  if c == '"' then "\\\""
  else if c == '\\' then "\\\\"
  else if c == '\n' then "\\n"
  else if c == '\r' then "\\r"
  else if c == '\t' then "\\t"
  else if c == '\x08' then "\\b"
  else if c == '\x0c' then "\\f"
  else if 0x20 ≤ n && n < 0x7f then String.singleton c
  else if n < 0x10000 then unitEscape n
  else
    let k := n - 0x10000
    unitEscape (0xD800 + k / 0x400) ++ unitEscape (0xDC00 + k % 0x400)

def writeString (s : String) : String :=
  "\"" ++ s.foldl (fun out c => out ++ escapeChar c) "" ++ "\""

def writeFloat (x : Float) : String :=
  if x.isNaN then "NaN"
  else if x == Double.positiveInfinity then "Infinity"
  else if x == Double.negativeInfinity then "-Infinity"
  else Double.text x

mutual

/-- Compact JSON text of a value; `undefined` is written as null. -/
def write : Value → String
  | .undefined | .null => "null"
  | .bool b => if b then "true" else "false"
  | .int n => toString n
  | .float x => writeFloat x
  | .str s => writeString s
  | .list items => "[" ++ String.intercalate "," (writeItems items) ++ "]"
  | .obj fields => "\x7b" ++ String.intercalate "," (writeFields fields) ++ "\x7d"

def writeItems : List Value → List String
  | [] => []
  | v :: rest => write v :: writeItems rest

def writeFields : List (String × Value) → List String
  | [] => []
  | (k, v) :: rest => (writeString k ++ ":" ++ write v) :: writeFields rest

end

end Workflow.Json
