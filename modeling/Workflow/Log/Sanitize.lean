import Workflow.Text.Character
import Workflow.Value.Shown
/-!
Error messages and traces as clients may see them: without paths of files, credentials and the
traces of programs.
-/

namespace Workflow.Log

def replacement : String := "[redacted]"

/-- The longest message that is shown, in characters. -/
def messageLimit : Nat := 500

def folders : List String := ["home", "root", "var", "etc", "usr", "opt", "tmp", "srv"]

def credentials : List String := ["password", "secret", "token", "key", "credential"]

/-- What follows a run of at least one character that is no white space. -/
def afterSolid? : List Char → Option (List Char)
  | c :: cs => if Text.isBlank c then none else some (cs.dropWhile (!Text.isBlank ·))
  | [] => none

/-- A path below one of the well-known folders. -/
def afterPath? : List Char → Option (List Char)
  | '/' :: cs => do
    match ← Text.afterSomeWord? folders cs with
    | '/' :: cs => afterSolid? cs
    | _ => none
  | _ => none

/-- A path on a drive with a letter. -/
def afterDrive? : List Char → Option (List Char)
  | c :: ':' :: '\\' :: cs => if Text.isAsciiLetter c then afterSolid? cs else none
  | _ => none

/-- The value that is given to a credential. -/
def afterGiven? (cs : List Char) : Option (List Char) :=
  match Text.trimStart cs with
  | c :: cs => if c == ':' || c == '=' then afterSolid? (Text.trimStart cs) else none
  | [] => none

/-- The key of an interface, with any character between its two words. -/
def afterInterfaceKey? (cs : List Char) : Option (List Char) := do
  let rest ← Text.afterWord? "api".toList cs
  let joined := Text.afterWord? "key".toList rest
  match rest with
  | c :: more => ((if c == '\n' then none else Text.afterWord? "key".toList more).bind
      afterGiven?).or (joined.bind afterGiven?)
  | [] => none

/-- A credential with its value. -/
def afterCredential? (cs : List Char) : Option (List Char) :=
  (credentials.findSome? fun w => (Text.afterWord? w.toList cs).bind afterGiven?).or
    (afterInterfaceKey? cs)

/-- The heading of a program's trace. -/
def afterTraceHeading? (cs : List Char) : Option (List Char) :=
  (Text.afterWord? "traceback (most recent call last)".toList cs).map fun
    | ':' :: rest => rest
    | rest => rest

/-- The place of a line in a program. -/
def afterSourceLine? (cs : List Char) : Option (List Char) := do
  let cs ← Text.afterWord? "file \"".toList cs
  let name := cs.takeWhile (· != '"')
  if name.isEmpty then none
  let cs ← Text.afterWord? "\", line ".toList (cs.drop name.length)
  match cs with
  | c :: cs => if Text.isDigit c then some (cs.dropWhile Text.isDigit) else none
  | [] => none

/-- What follows something at the start of a text that is not for clients. -/
def afterSensitive? (cs : List Char) : Option (List Char) :=
  (afterPath? cs).or ((afterDrive? cs).or ((afterCredential? cs).or
    ((afterTraceHeading? cs).or (afterSourceLine? cs))))

/-- Replaces all that is not for clients, from left to right. -/
def scrub : Nat → List Char → List Char
  | 0, cs => cs
  | _, [] => []
  | fuel + 1, c :: cs =>
    match afterSensitive? (c :: cs) with
    | some rest => replacement.toList ++ scrub fuel rest
    | none => c :: scrub fuel cs

/-- Shortens a message that is too long. -/
def shorten (cs : List Char) : List Char :=
  if cs.length > messageLimit then cs.take (messageLimit - 3) ++ "...".toList else cs

/-- A message for clients. What is no text, or an empty one, says only that there was an error. -/
def sanitize (message : Value) : String :=
  match message with
  | .str s =>
    if s.isEmpty then "An error occurred"
    else String.ofList (shorten (scrub (s.length + 1) s.toList))
  | _ => "An error occurred"

def publicError (e : Value) : Value :=
  match e with
  | .obj _ => .obj [
      ("code", e.field "code"),
      ("message", .str (sanitize ((e.field? "message").getD (.str ""))))]
  | e => .obj [("code", .null), ("message", .str (sanitize (.str e.name)))]

/-- An entry of a trace for clients. -/
def publicEntry (e : Value) : Value :=
  let label := e.field "label"
  let error := e.field "error"
  .ofFields [
    ("nodeId", some (e.field "nodeId")),
    ("outcome", some (e.field "outcome")),
    ("timestamp", some (e.field "timestamp")),
    ("depth", some ((e.field? "depth").getD (.int 0))),
    ("label", if label.isNull then none else some label),
    ("error", if error.isVacant then none else some (publicError error))]

/-- A trace for clients; what is no entry is left out. -/
def publicTrace (entries : List Value) : List Value :=
  (entries.filter Value.isObject).map publicEntry

end Workflow.Log
