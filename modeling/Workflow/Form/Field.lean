import Workflow.Form.Problem
import Workflow.Number.Double
import Workflow.Text.Character
/-!
Reading the fields of a form. Whole numbers may be written as text or as doubles without a fraction,
flags as words; texts are taken from texts only.
-/

namespace Workflow.Form

/-- A field as read, or what is wrong with it and where inside it. -/
abbrev Read (α : Type) := Except (List FieldProblem) α

def refuse {α : Type} (fault : FieldFault) : Read α :=
  .error [⟨[], fault⟩]

/-- Characters that surround a numeral: all white space but the separators of records. -/
def isSpacing (c : Char) : Bool :=
  Text.isBlank c && !(0x1c ≤ c.toNat && c.toNat ≤ 0x1f)

def trimSpacing (cs : List Char) : List Char :=
  ((cs.dropWhile isSpacing).reverse.dropWhile isSpacing).reverse

def asciiDigit? (c : Char) : Option Nat :=
  if c.isDigit then some (c.toNat - '0'.toNat) else none

/-- Digits with single underscores between them. -/
def digitsOf? : List Char → Option (List Nat)
  | [] => none
  | [c] => (asciiDigit? c).map ([·])
  | c :: '_' :: rest => do
    let d ← asciiDigit? c
    return d :: (← digitsOf? rest)
  | c :: rest => do
    let d ← asciiDigit? c
    return d :: (← digitsOf? rest)

/-- A numeral without a point, or with zeros only behind it. -/
def withoutZeros (cs : List Char) : List Char :=
  let whole := cs.takeWhile (· != '.')
  if (cs.drop (whole.length + 1)).all (· == '0') then whole else cs

/-- The longest numeral that is read. -/
def numeralLimit : Nat := 4300

def wholeOfText (s : String) : Read Int :=
  let cs := trimSpacing s.toList
  if cs.length > numeralLimit then refuse .wholeSize
  else
    let (negative, body) := match cs with
      | '-' :: rest => (true, rest)
      | '+' :: rest => (false, rest)
      | cs => (false, cs)
    match digitsOf? (withoutZeros body) with
    | some ds => .ok (if negative then -(Text.ofDigits ds : Int) else Text.ofDigits ds)
    | none => refuse .wholeText

/-- Doubles are read as whole numbers of a smaller size than this. -/
def wordLimit : Nat := 0x8000000000000000

def wholeOfDouble (x : Float) : Read Int :=
  match Double.finite? x with
  | none => refuse .notFinite
  | some f =>
    if !f.isWhole then refuse .fraction
    else if f.truncate.natAbs < wordLimit then .ok f.truncate
    else refuse .wholeSize

def whole : Value → Read Int
  | .bool b => .ok b.toInt
  | .int n => .ok n
  | .float x => wholeOfDouble x
  | .str s => wholeOfText s
  | _ => refuse .wholeType

def flagWords : List (String × Bool) := [
  ("0", false), ("off", false), ("f", false), ("false", false), ("n", false), ("no", false),
  ("1", true), ("on", true), ("t", true), ("true", true), ("y", true), ("yes", true)]

def flagOfWhole (n : Int) : Read Bool :=
  if n == 0 then .ok false else if n == 1 then .ok true else refuse .flagText

def flag : Value → Read Bool
  | .bool b => .ok b
  | .int n => if n.natAbs < wordLimit then flagOfWhole n else refuse .flagType
  | .float x =>
    match wholeOfDouble x with
    | .ok n => flagOfWhole n
    | .error _ => refuse .flagType
  | .str s =>
    match flagWords.find? (·.1 == s.toLower) with
    | some (_, b) => .ok b
    | none => refuse .flagText
  | _ => refuse .flagType

def text : Value → Read String
  | .str s => .ok s
  | _ => refuse .textType

/-- A text within bounds on its length. -/
def boundedText (least most : Nat) (v : Value) : Read String := do
  let s ← text v
  if s.length < least then refuse (.tooShort least)
  else if s.length > most then refuse (.tooLong most)
  else return s

/-- A text that is not empty. -/
def filledText (v : Value) : Read String := do
  let s ← text v
  if s.isEmpty then refuse (.tooShort 1) else return s

def object : Value → Read (Entries Value)
  | .obj fields => .ok fields
  | _ => refuse .objectType

def itemsFrom {α : Type} (read : Value → Read α) : Nat → List Value → Read (List α)
  | _, [] => .ok []
  | index, v :: rest =>
    match read v, itemsFrom read (index + 1) rest with
    | .ok a, .ok as => .ok (a :: as)
    | .ok _, .error ps => .error ps
    | .error ps, .ok _ => .error (ps.map (·.under (.nat index)))
    | .error ps, .error qs => .error (ps.map (·.under (.nat index)) ++ qs)

/-- A list of items, each read on its own. -/
def items {α : Type} (read : Value → Read α) : Value → Read (List α)
  | .list vs => itemsFrom read 0 vs
  | _ => refuse .listType

def membersFrom {α : Type} (read : Value → Read α) : List (String × Value) → Read (Entries α)
  | [] => .ok []
  | (key, v) :: rest =>
    match read v, membersFrom read rest with
    | .ok a, .ok as => .ok ((key, a) :: as)
    | .ok _, .error ps => .error ps
    | .error ps, .ok _ => .error (ps.map (·.under (.str key)))
    | .error ps, .error qs => .error (ps.map (·.under (.str key)) ++ qs)

/-- An object of members, each read on its own. -/
def members {α : Type} (read : Value → Read α) : Value → Read (Entries α)
  | .obj fields => membersFrom read fields
  | _ => refuse .objectType

/-- Null, or what is read otherwise. -/
def optional {α : Type} (read : Value → Read α) : Value → Read (Option α)
  | .null => .ok none
  | v => (read v).map some

/-- Says that problems are those of a field. -/
def within {α : Type} (name : String) : Read α → Read α
  | .ok a => .ok a
  | .error ps => .error (ps.map (·.under (.str name)))

/-- A field under the first of its names that is given. Where none is, something stands for it, and
a problem with that is one of the first name. -/
def field {α : Type} (fields : Entries Value) (name : String) (others : List String)
    (read : Value → Read α) (absent : Read α) : Read α :=
  match (name :: others).find? (Entries.contains · fields) with
  | some given => within given (read ((Entries.find? given fields).getD .null))
  | none => within name absent

/-- The problems of a field that is read. -/
def problems {α : Type} : Read α → List FieldProblem
  | .ok _ => []
  | .error ps => ps

end Workflow.Form
