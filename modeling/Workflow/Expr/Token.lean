import Workflow.Number.Numeral
import Workflow.Number.Shortest
import Workflow.Value.Basic
/-!
The tokens of an expression text: numbers, quoted texts, dotted words and marks, with white space
anywhere between them, and why an expression text is refused.
-/

namespace Workflow

inductive ExprFault where
  | notText
  | tooLong
  | empty
  | unterminatedText (position : Nat)
  | unexpectedCharacter (c : Char) (position : Nat)
  | unexpectedToken (shown : String) (position : Nat)
  | unexpectedEnd
  | missingClose (position : Nat)
  | tooDeep
  | number (fault : NumberFault)
  deriving Repr, DecidableEq

namespace ExprFault

def message : ExprFault → String
  | notText => "expression must be a string"
  | tooLong => "expression too long"
  | empty => "empty expression"
  | unterminatedText position => "unterminated string at " ++ toString position
  | unexpectedCharacter c position =>
    "unexpected character " ++ Text.quoted (String.singleton c) ++ " at " ++ toString position
  | unexpectedToken shown position => "unexpected token " ++ shown ++ " at " ++ toString position
  | unexpectedEnd => "unexpected end of expression"
  | missingClose position => "missing ')' for '(' at " ++ toString position
  | tooDeep => "expression too deeply nested"
  | number fault => fault.message

end ExprFault

namespace Expr

/-- Operators and parentheses. -/
inductive Mark where
  | and | or | eq | ne | ge | le
  | bang | plus | minus | star | slash | opening | closing | lt | gt
  deriving Repr, DecidableEq

def Mark.text : Mark → String
  | and => "&&"
  | or => "||"
  | eq => "=="
  | ne => "!="
  | ge => ">="
  | le => "<="
  | bang => "!"
  | plus => "+"
  | minus => "-"
  | star => "*"
  | slash => "/"
  | opening => "("
  | closing => ")"
  | lt => "<"
  | gt => ">"

inductive Lexeme where
  | num (n : Number)
  | text (s : String)
  /-- Letters, digits and underscores, with dots between parts. -/
  | word (s : String)
  | mark (m : Mark)

/-- A lexeme and the number of characters before it. -/
structure Token where
  lexeme : Lexeme
  position : Nat

def Lexeme.shown : Lexeme → String
  | num (.int n) => toString n
  | num (.float x) => Double.text x
  | text s => Text.quoted s
  | word s => Text.quoted s
  | mark m => Text.quoted m.text

namespace Token

/-- A token as a list of its kind, its content and its position. -/
def toValue (t : Token) : Value :=
  let (kind, content) : String × Value := match t.lexeme with
    | .num n => ("num", .num n)
    | .text s => ("str", .str s)
    | .word s => ("ident", .str s)
    | .mark m => ("op", .str m.text)
  .list [.str kind, content, .nat t.position]

/-- A mark of two characters, preferred to one of a single character. -/
def mark₂? : Char → Char → Option Mark
  | '&', '&' => some .and
  | '|', '|' => some .or
  | '=', '=' => some .eq
  | '!', '=' => some .ne
  | '>', '=' => some .ge
  | '<', '=' => some .le
  | _, _ => none

def mark₁? : Char → Option Mark
  | '!' => some .bang
  | '+' => some .plus
  | '-' => some .minus
  | '*' => some .star
  | '/' => some .slash
  | '(' => some .opening
  | ')' => some .closing
  | '<' => some .lt
  | '>' => some .gt
  | _ => none

def isWordStart (c : Char) : Bool :=
  c.isAlpha || c == '_'

def isWordPart (c : Char) : Bool :=
  c.isAlphanum || c == '_'

/-- Digits with at most one point among them or at either end. -/
def numberRun (pointSeen : Bool) : List Char → List Char × List Char
  | [] => ([], [])
  | c :: cs =>
    if c.isDigit then
      let (run, rest) := numberRun pointSeen cs
      (c :: run, rest)
    else if c == '.' && !pointSeen then
      let (run, rest) := numberRun true cs
      (c :: run, rest)
    else ([], c :: cs)

def digitsOf (cs : List Char) : List Nat :=
  cs.map (·.toNat - 48)

/-- The number a run of digits stands for: a double if it has a point. -/
def numberOf (run : List Char) : Except ExprFault Number :=
  let whole := run.takeWhile Char.isDigit
  match run.dropWhile Char.isDigit with
  | [] =>
    if whole.length > Numeral.digitLimit then .error (.number (.tooManyDigits whole.length))
    else .ok (.int (Text.ofDigits (digitsOf whole)))
  | _ :: part =>
    .ok (.float (Double.ofDecimal false (Text.ofDigits (digitsOf (whole ++ part))) (-part.length)))

/-- The characters up to the closing quote, a backslash keeping the character after it. -/
def textRun (quote : Char) : List Char → Option (List Char × List Char)
  | [] => none
  | '\\' :: c :: cs => (textRun quote cs).map fun (run, rest) => (c :: run, rest)
  | c :: cs =>
    if c == quote then some ([], cs)
    else (textRun quote cs).map fun (run, rest) => (c :: run, rest)

/-- The characters of a word; a point belongs to it if a new part starts behind it. -/
def wordRun : List Char → List Char × List Char
  | [] => ([], [])
  | '.' :: c :: cs =>
    if isWordStart c then
      let (run, rest) := wordRun cs
      ('.' :: c :: run, rest)
    else ([], '.' :: c :: cs)
  | c :: cs =>
    if isWordPart c then
      let (run, rest) := wordRun cs
      (c :: run, rest)
    else ([], c :: cs)

def startsNumber (c : Char) (cs : List Char) : Bool :=
  c.isDigit || (c == '.' && (cs.head?.any Char.isDigit))

/-- The lexeme that starts with `c`, and the text behind it. -/
def nextLexeme (position : Nat) (c : Char) (cs : List Char) :
    Except ExprFault (Lexeme × List Char) :=
  match cs.head?.bind (mark₂? c) with
  | some m => .ok (.mark m, cs.drop 1)
  | none =>
    match mark₁? c with
    | some m => .ok (.mark m, cs)
    | none =>
      if startsNumber c cs then
        let (run, rest) := numberRun false (c :: cs)
        (numberOf run).map fun n => (.num n, rest)
      else if c == '\'' || c == '"' then
        match textRun c cs with
        | some (run, rest) => .ok (.text (String.ofList run), rest)
        | none => .error (.unterminatedText position)
      else if isWordStart c then
        let (run, rest) := wordRun cs
        .ok (.word (String.ofList (c :: run)), rest)
      else .error (.unexpectedCharacter c position)

/-- Scans at most `fuel` characters and lexemes of a text that starts at `position`. -/
def scan : Nat → Nat → List Char → Except ExprFault (List Token)
  | _, _, [] => .ok []
  | 0, _, _ :: _ => .ok []
  | fuel + 1, position, c :: cs =>
    if Text.isBlank c then scan fuel (position + 1) cs
    else
      match nextLexeme position c cs with
      | .error e => .error e
      | .ok (l, rest) =>
        match scan fuel (position + (cs.length + 1 - rest.length)) rest with
        | .error e => .error e
        | .ok ts => .ok (⟨l, position⟩ :: ts)

/-- The tokens of a text. -/
def tokens (cs : List Char) : Except ExprFault (List Token) :=
  scan cs.length 0 cs

end Token

end Expr

end Workflow
