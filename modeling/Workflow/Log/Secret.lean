import Workflow.Text.Character
import Workflow.Value.Basic
/-!
Log entries without secrets: what stands under a key that looks like that of a secret is masked.
-/

namespace Workflow.Log

def mask : Value := .str "***"

/-- How deep an entry is searched. -/
def depthLimit : Nat := 8

def secretWords : List String :=
  ["password", "passwd", "secret", "token", "authorization", "cookie", "otp"]

/-- Whether a text starts with the key of an interface, written in one word or two. -/
def startsInterfaceKey (cs : List Char) : Bool :=
  match Text.afterWord? "api".toList cs with
  | none => false
  | some ('-' :: rest) | some ('_' :: rest) | some rest => (Text.afterWord? "key".toList rest).isSome

/-- Whether a word that tells of a secret stands somewhere in a text. -/
def looksSecret : List Char → Bool
  | [] => false
  | c :: cs =>
    (Text.afterSomeWord? secretWords (c :: cs)).isSome || startsInterfaceKey (c :: cs)
      || looksSecret cs

mutual

/-- Masks secrets inside a value that lies at some depth. -/
def redactValue (depth : Nat) : Value → Value
  | .obj fields => if depth > depthLimit then .obj fields else .obj (redactFields depth fields)
  | .list items => if depth > depthLimit then .list items else .list (redactItems depth items)
  | v => v

def redactItems (depth : Nat) : List Value → List Value
  | [] => []
  | v :: rest => redactValue (depth + 1) v :: redactItems depth rest

def redactFields (depth : Nat) : List (String × Value) → List (String × Value)
  | [] => []
  | (k, v) :: rest =>
    (k, if looksSecret k.toList then mask else redactValue (depth + 1) v)
      :: redactFields depth rest

end

/-- Masks secrets in all fields of an entry but the one that names its event. -/
def redact (entry : Entries Value) : Entries Value :=
  entry.map fun (k, v) =>
    if k == "event" then (k, v)
    else (k, if looksSecret k.toList then mask else redactValue 0 v)

end Workflow.Log
