import Workflow.Text.Character
import Workflow.Value.Basic
/-!
Files of variables: lines of the form `NAME=value`, with comments behind `#`, quotes around values and
references of the form `$` + `{NAME}` or `$` + `{NAME:-default}` inside values.
-/

namespace Workflow.EnvFile

/-- White space within a line. -/
def isGap (c : Char) : Bool :=
  Text.isBlank c && c != '\n' && c != '\r'

def skipGap (cs : List Char) : List Char :=
  cs.dropWhile isGap

def restOfLine (cs : List Char) : List Char :=
  (cs.dropWhile (· != '\n')).drop 1

/-- Skips the word `export` in front of a name. -/
def skipExport (cs : List Char) : List Char :=
  match cs with
  | 'e' :: 'x' :: 'p' :: 'o' :: 'r' :: 't' :: c :: rest => if isGap c then skipGap rest else cs
  | cs => cs

/-- What stands up to the closing quote. A quote behind a backslash closes nothing, unless no other
one is left to do so. -/
def quotedRun (quote : Char) : List Char → Option (List Char × List Char)
  | [] => none
  | '\\' :: c :: rest =>
    if c == quote then
      match quotedRun quote rest with
      | some (run, rest) => some ('\\' :: c :: run, rest)
      | none => some (['\\'], rest)
    else (quotedRun quote (c :: rest)).map fun (run, rest) => ('\\' :: run, rest)
  | c :: rest =>
    if c == quote then some ([], rest)
    else (quotedRun quote rest).map fun (run, rest) => (c :: run, rest)

/-- Undoes the escapes that a kind of quotes knows. -/
def unescape (escape? : Char → Option Char) : List Char → List Char
  | '\\' :: c :: rest =>
    match escape? c with
    | some d => d :: unescape escape? rest
    | none => '\\' :: unescape escape? (c :: rest)
  | c :: rest => c :: unescape escape? rest
  | [] => []

def singleEscape? (c : Char) : Option Char :=
  if c == '\\' || c == '\'' then some c else none

def doubleEscape? : Char → Option Char
  | '\\' => some '\\'
  | '\'' => some '\''
  | '"' => some '"'
  | 'a' => some '\x07'
  | 'b' => some '\x08'
  | 'f' => some '\x0c'
  | 'n' => some '\n'
  | 'r' => some '\r'
  | 't' => some '\t'
  | 'v' => some '\x0b'
  | _ => none

/-- A value without quotes ends where white space and a `#` follow. -/
def plainRun (afterGap : Bool) : List Char → List Char
  | [] => []
  | '#' :: rest => if afterGap then [] else '#' :: plainRun false rest
  | c :: rest => c :: plainRun (Text.isBlank c) rest

/-- What is read at the start of a text, with the rest; or the rest of the text from where it makes no
sense. -/
abbrev Taken (α : Type) := Except (List Char) (α × List Char)

/-- A name, in quotes or not; a comment has none. -/
def takeName (cs : List Char) : Taken (Option (List Char)) :=
  match cs with
  | '#' :: _ => .ok (none, cs)
  | '\'' :: quoted =>
    let key := quoted.takeWhile (· != '\'')
    match quoted.drop key.length with
    | _ :: rest => if key.isEmpty then .error cs else .ok (some key, rest)
    | [] => .error cs
  | cs =>
    let key := cs.takeWhile fun c => c != '=' && c != '#' && !Text.isBlank c
    if key.isEmpty then .error cs else .ok (some key, cs.drop key.length)

/-- A value in quotes, without the escapes that these know. -/
def takeQuoted (quote : Char) (escape? : Char → Option Char) (cs : List Char) : Taken (List Char) :=
  match quotedRun quote (cs.drop 1) with
  | some (run, rest) => .ok (unescape escape? run, rest)
  | none => .error cs

def takeValue (cs : List Char) : Taken (List Char) :=
  match cs.head? with
  | some '\'' => takeQuoted '\'' singleEscape? cs
  | some '"' => takeQuoted '"' doubleEscape? cs
  | _ =>
    let line := cs.takeWhile (· != '\n')
    .ok (Text.trimEnd (plainRun false line), cs.drop line.length)

/-- Nothing but a comment may follow on a line. -/
def takeLineEnd (cs : List Char) : Taken Unit :=
  let cs := match skipGap cs with
    | '#' :: rest => rest.dropWhile (· != '\n')
    | _ => cs
  match skipGap cs with
  | [] => .ok ((), [])
  | '\n' :: rest => .ok ((), rest)
  | _ => .error cs

/-- A line's name, if it has one, with its value, if it has one. -/
def takeBinding (cs : List Char) :
    Except (List Char) (Option (String × Option String) × List Char) := do
  let (key, cs) ← takeName (skipExport cs)
  let (value, cs) ← match skipGap cs with
    | '=' :: rest => (takeValue (skipGap rest)).map fun (v, rest) => (some (String.ofList v), rest)
    | rest => .ok (none, rest)
  let (_, cs) ← takeLineEnd cs
  return (key.map fun k => (String.ofList k, value), cs)

/-- The bindings of all lines; what makes no sense is left out up to the end of its line. -/
def bindings : Nat → List Char → List (String × Option String)
  | 0, _ => []
  | fuel + 1, cs =>
    let start := cs.dropWhile Text.isBlank
    if start.isEmpty then []
    else
      match takeBinding start with
      | .ok (b, rest) => b.toList ++ bindings fuel rest
      | .error rest => bindings fuel (restOfLine rest)

/-- A reference at the start of a text: its name, its default and what follows. -/
def reference? : List Char → Option (List Char × List Char × List Char)
  | '$' :: '{' :: cs =>
    let key := cs.takeWhile fun c => c != '}' && c != ':'
    match cs.drop key.length with
    | '}' :: rest => some (key, [], rest)
    | ':' :: '-' :: rest =>
      let default := rest.takeWhile (· != '}')
      match rest.drop default.length with
      | _ :: rest => some (key, default, rest)
      | [] => none
    | _ => none
  | _ => none

/-- Puts what variables are bound to in the place of references to them. -/
def substitute (find? : String → Option String) : Nat → List Char → List Char
  | 0, _ => []
  | _, [] => []
  | fuel + 1, c :: cs =>
    match reference? (c :: cs) with
    | some (key, default, rest) =>
      let s := ((find? (String.ofList key)).map String.toList).getD default
      s ++ substitute find? fuel rest
    | none => c :: substitute find? fuel cs

/-- Resolves references to the bindings before and to the environment. -/
def resolve (env : Entries String) (bound : Entries (Option String))
    (b : String × Option String) : Entries (Option String) :=
  let find? (key : String) : Option String :=
    match Entries.find? key bound with
    | some s => some (s.getD "")
    | none => Entries.find? key env
  Entries.insert b.1 (b.2.map fun s =>
    String.ofList (substitute find? (s.length + 1) s.toList)) bound

/-- All line ends as line feeds. -/
def unixLines : List Char → List Char
  | '\r' :: '\n' :: rest => '\n' :: unixLines rest
  | '\r' :: rest => '\n' :: unixLines rest
  | c :: rest => c :: unixLines rest
  | [] => []

/-- What a file binds, null where a line names a variable without a value. -/
def read (env : Entries String) (text : String) : Entries Value :=
  let cs := unixLines text.toList
  let bound := (bindings (cs.length + 1) cs).foldl (resolve env) []
  Entries.mapValues .ofText? bound

end Workflow.EnvFile
