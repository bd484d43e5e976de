import Workflow.Number.Double
import Workflow.Value.Basic
/-!
Reading JSON text. Whole numbers and doubles stay apart, the keys of an object keep their order, and
a key given twice keeps its first place and its last value. `NaN` and the infinities are read too.
-/

namespace Workflow.Json

/-- Why a text is not read. -/
inductive Cause where
  | expectedValue
  | expectedName
  | expectedColon
  | expectedComma
  | unterminatedString
  | controlCharacter
  | badEscape
  | badUnicodeEscape
  | extraData
  | tooManyDigits (count : Nat)
  deriving Repr, DecidableEq

/-- A cause and the text that was left where it arose. -/
structure Fault where
  rest : List Char
  cause : Cause

abbrev Read (α : Type) := Except Fault (α × List Char)

def fail {α : Type} (rest : List Char) (cause : Cause) : Except Fault α :=
  .error ⟨rest, cause⟩

def isSpace (c : Char) : Bool :=
  c == ' ' || c == '\t' || c == '\n' || c == '\r'

def skipSpace (cs : List Char) : List Char :=
  cs.dropWhile isSpace

def hexDigit? (c : Char) : Option Nat :=
  let n := c.toNat
  if '0' ≤ c && c ≤ '9' then some (n - 48)
  else if 'a' ≤ c && c ≤ 'f' then some (n - 87)
  else if 'A' ≤ c && c ≤ 'F' then some (n - 55)
  else none

def hexUnit? : List Char → Option (Nat × List Char)
  | a :: b :: c :: d :: rest => do
    let a ← hexDigit? a
    let b ← hexDigit? b
    let c ← hexDigit? c
    let d ← hexDigit? d
    return (((a * 16 + b) * 16 + c) * 16 + d, rest)
  | _ => none

/-- A unit that is half of a pair and stands alone is no character. -/
def unitChar (n : Nat) : Char :=
  if 0xD800 ≤ n && n < 0xE000 then '\ufffd' else Char.ofNat n

/-- The character a `\u` escape names, two escapes naming one beyond the basic plane. -/
def unicodeEscape? (cs : List Char) : Option (Char × List Char) := do
  let (high, rest) ← hexUnit? cs
  match rest with
  | '\\' :: 'u' :: more =>
    if 0xD800 ≤ high && high < 0xDC00 then
      match hexUnit? more with
      | some (low, rest') =>
        if 0xDC00 ≤ low && low < 0xE000 && !rest'.isEmpty then
          return (Char.ofNat (0x10000 + (high - 0xD800) * 0x400 + (low - 0xDC00)), rest')
        else return (unitChar high, rest)
      | none => return (unitChar high, rest)
    else return (unitChar high, rest)
  | _ => return (unitChar high, rest)

def simpleEscape? : Char → Option Char
  | '"' => some '"'
  | '\\' => some '\\'
  | '/' => some '/'
  | 'b' => some '\x08'
  | 'f' => some '\x0c'
  | 'n' => some '\n'
  | 'r' => some '\r'
  | 't' => some '\t'
  | _ => none

/-- Reads the characters of a string up to its closing quote. -/
def readString (start : List Char) : Nat → List Char → List Char → Read String
  | 0, _, rest => fail rest .unterminatedString
  | fuel + 1, done, cs =>
    match cs with
    | [] => fail start .unterminatedString
    | '"' :: rest => .ok (String.ofList done.reverse, rest)
    | '\\' :: rest =>
      match rest with
      | [] => fail start .unterminatedString
      | 'u' :: more =>
        match if more.length < 5 then none else unicodeEscape? more with
        | some (c, rest) => readString start fuel (c :: done) rest
        | none => fail rest .badUnicodeEscape
      | e :: more =>
        match simpleEscape? e with
        | some c => readString start fuel (c :: done) more
        | none => fail cs .badEscape
    | c :: rest =>
      if c.toNat < 0x20 then fail cs .controlCharacter else readString start fuel (c :: done) rest

def digitsOf (cs : List Char) : Nat :=
  cs.foldl (fun n c => 10 * n + (c.toNat - 48)) 0

/-- The whole part of a number: a lone zero, or digits that do not start with one. -/
def wholePart? : List Char → Option (List Char × List Char)
  | '0' :: rest => some (['0'], rest)
  | c :: rest => if c.isDigit then some ((c :: rest).span Char.isDigit) else none
  | [] => none

def fractionPart : List Char → List Char × List Char
  | '.' :: rest =>
    let (ds, more) := rest.span Char.isDigit
    if ds.isEmpty then ([], '.' :: rest) else (ds, more)
  | cs => ([], cs)

def exponentPart (cs : List Char) : Option Int × List Char :=
  match cs with
  | c :: rest =>
    if c == 'e' || c == 'E' then
      let (negative, body) := match rest with
        | '-' :: r => (true, r)
        | '+' :: r => (false, r)
        | r => (false, r)
      let (ds, more) := body.span Char.isDigit
      if ds.isEmpty then (none, cs)
      else (some (if negative then -(digitsOf ds : Int) else digitsOf ds), more)
    else (none, cs)
  | [] => (none, [])

/-- Longer whole numbers are refused. -/
def digitLimit : Nat := 4300

def readNumber (start : List Char) : Read Value :=
  let (negative, body) := match start with
    | '-' :: r => (true, r)
    | r => (false, r)
  match wholePart? body with
  | none => fail start .expectedValue
  | some (whole, rest) =>
    let (part, rest) := fractionPart rest
    let (exponent, rest) := exponentPart rest
    if part.isEmpty && exponent.isNone then
      if whole.length > digitLimit then fail start (.tooManyDigits whole.length)
      else
        let n : Int := digitsOf whole
        .ok (.int (if negative then -n else n), rest)
    else
      let e := exponent.getD 0 - part.length
      .ok (.float (Double.ofDecimal negative (digitsOf (whole ++ part)) e), rest)

def literals : List (List Char × Value) := [
  ("null".toList, .null),
  ("true".toList, .bool true),
  ("false".toList, .bool false),
  ("NaN".toList, .float Double.notANumber),
  ("Infinity".toList, .float Double.positiveInfinity),
  ("-Infinity".toList, .float Double.negativeInfinity)]

def readLiteral? (cs : List Char) : Option (Value × List Char) :=
  literals.findSome? fun (word, v) =>
    if word.isPrefixOf cs then some (v, cs.drop word.length) else none

mutual

def readValue : Nat → List Char → Read Value
  | 0, cs => fail cs .expectedValue
  | fuel + 1, cs =>
    match cs with
    | '"' :: body =>
      match readString cs (body.length + 1) [] body with
      | .error e => .error e
      | .ok (s, rest) => .ok (.str s, rest)
    | '{' :: rest =>
      match skipSpace rest with
      | '}' :: rest => .ok (.obj [], rest)
      | rest => readFields fuel [] rest
    | '[' :: rest =>
      match skipSpace rest with
      | ']' :: rest => .ok (.list [], rest)
      | rest => readItems fuel [] rest
    | _ =>
      match readLiteral? cs with
      | some (v, rest) => .ok (v, rest)
      | none => readNumber cs

def readItems : Nat → List Value → List Char → Read Value
  | 0, _, cs => fail cs .expectedValue
  | fuel + 1, done, cs =>
    match readValue fuel cs with
    | .error e => .error e
    | .ok (v, rest) =>
      match skipSpace rest with
      | ']' :: rest => .ok (.list (v :: done).reverse, rest)
      | ',' :: rest => readItems fuel (v :: done) (skipSpace rest)
      | rest => fail rest .expectedComma

def readFields : Nat → List (String × Value) → List Char → Read Value
  | 0, _, cs => fail cs .expectedName
  | fuel + 1, done, cs =>
    match cs with
    | '"' :: body =>
      match readString cs (body.length + 1) [] body with
      | .error e => .error e
      | .ok (key, rest) =>
        match skipSpace rest with
        | ':' :: rest =>
          match readValue fuel (skipSpace rest) with
          | .error e => .error e
          | .ok (v, rest) =>
            match skipSpace rest with
            | '}' :: rest => .ok (.obj (Entries.ofList ((key, v) :: done).reverse), rest)
            | ',' :: rest => readFields fuel ((key, v) :: done) (skipSpace rest)
            | rest => fail rest .expectedComma
        | rest => fail rest .expectedColon
    | _ => fail cs .expectedName

end

/-- Reads a whole text, white space around the value allowed. -/
def readAll (cs : List Char) : Except Fault Value := do
  let (v, rest) ← readValue (cs.length + 1) (skipSpace cs)
  match skipSpace rest with
  | [] => return v
  | rest => fail rest .extraData

/-- Reads a text; a fault carries its position. -/
def read (text : String) : Except (Nat × Cause) Value :=
  let cs := text.toList
  match readAll cs with
  | .ok v => .ok v
  | .error f => .error (cs.length - f.rest.length, f.cause)

end Workflow.Json
