import Workflow.Text.Printable
/-!
Quoted text in messages: single quotes unless the text holds one and no double quote, and escapes
for what is not shown as itself.
-/

namespace Workflow.Text

def hexDigits (width n : Nat) : String :=
  let digits := Nat.toDigits 16 n
  String.ofList (List.replicate (width - digits.length) '0' ++ digits)

/-- The mark that opens and closes the quoted form of a text. -/
def quoteMark (cs : List Char) : Char :=
  if cs.contains '\'' && !cs.contains '"' then '"' else '\''

def escapeHidden (c : Char) : String :=
  let n := c.toNat
  if n < 0x100 then "\\x" ++ hexDigits 2 n
  else if n < 0x10000 then "\\u" ++ hexDigits 4 n
  else "\\U" ++ hexDigits 8 n

def quoteChar (mark c : Char) : String :=
  if c == mark || c == '\\' then String.ofList ['\\', c]
  else if c == '\n' then "\\n"
  else if c == '\r' then "\\r"
  else if c == '\t' then "\\t"
  else if isPrintable c then String.singleton c
  else escapeHidden c

/-- A text as it is shown inside a message. -/
def quoted (s : String) : String :=
  let cs := s.toList
  let mark := quoteMark cs
  String.singleton mark ++ String.join (cs.map (quoteChar mark)) ++ String.singleton mark

end Workflow.Text
