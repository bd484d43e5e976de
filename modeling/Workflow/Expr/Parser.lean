import Workflow.Expr.Token
import Workflow.Expr.Tree
import Workflow.Text.Dotted
/-!
Reading an expression tree from tokens. The binary levels, weakest first, are `||`, `&&`, equality,
order, sums and products, each reading left to right; `!`, `-` and parentheses bind tighter.
-/

namespace Workflow.Expr

abbrev Reading := Except ExprFault (Tree × List Token)

/-- The operators of one level. -/
abbrev Level := Mark → Option BinaryOp

def disjunction : Level
  | .or => some .or
  | _ => none

def conjunction : Level
  | .and => some .and
  | _ => none

def equality : Level
  | .eq => some .eq
  | .ne => some .ne
  | _ => none

def relation : Level
  | .gt => some .gt
  | .ge => some .ge
  | .lt => some .lt
  | .le => some .le
  | _ => none

def sum : Level
  | .plus => some .add
  | .minus => some .sub
  | _ => none

def product : Level
  | .star => some .mul
  | .slash => some .div
  | _ => none

def prefixOp? : Mark → Option UnaryOp
  | .bang => some .not
  | .minus => some .neg
  | _ => none

/-- Reads further operands of a level, each joined to all that was read before. -/
def chainRest (operand : List Token → Reading) (level : Level) :
    Nat → Tree → List Token → Reading
  | 0, left, ts => .ok (left, ts)
  | fuel + 1, left, ts =>
    match ts with
    | ⟨.mark m, _⟩ :: rest =>
      match level m with
      | some op =>
        match operand rest with
        | .error e => .error e
        | .ok (right, rest) => chainRest operand level fuel (.binary op left right) rest
      | none => .ok (left, ts)
    | _ => .ok (left, ts)

/-- Reads operands with operators of one level between them. -/
def chain (operand : List Token → Reading) (level : Level) (ts : List Token) : Reading :=
  match operand ts with
  | .error e => .error e
  | .ok (left, rest) => chainRest operand level rest.length left rest

/-- Reads all binary levels above the given operands. -/
def expression (operand : List Token → Reading) : List Token → Reading :=
  [product, sum, relation, equality, conjunction, disjunction].foldl chain operand

/-- A word that is neither a truth value nor rooted at `vars` stands for nothing. -/
def wordTree (s : String) : Tree :=
  if s == "true" then .lit (.bool true)
  else if s == "false" then .lit (.bool false)
  else
    match Text.parts s with
    | "vars" :: parts => .path parts
    | _ => .lit .undefined

/-- Reads an operand under at most the given number of further signs and parentheses. -/
def operand : Nat → List Token → Reading
  | 0, _ => .error .tooDeep
  | _ + 1, [] => .error .unexpectedEnd
  | depth + 1, ⟨l, position⟩ :: rest =>
    match l with
    | .num n => .ok (.lit (.num n), rest)
    | .text s => .ok (.lit (.str s), rest)
    | .word s => .ok (wordTree s, rest)
    | .mark m =>
      match prefixOp? m with
      | some op => (operand depth rest).map fun (t, rest) => (.unary op t, rest)
      | none =>
        if m == .opening then
          match expression (operand depth) rest with
          | .error e => .error e
          | .ok (inner, ⟨.mark .closing, _⟩ :: rest) => .ok (inner, rest)
          | .ok _ => .error (.missingClose position)
        else .error (.unexpectedToken l.shown position)

/-- An operand stands under at most 99 signs and parentheses. -/
def depthLimit : Nat := 100

/-- Reads a whole token list. -/
def ofTokens (ts : List Token) : Except ExprFault Tree :=
  if ts.isEmpty then .error .empty
  else
    match expression (operand depthLimit) ts with
    | .error e => .error e
    | .ok (t, []) => .ok t
    | .ok (_, ⟨l, position⟩ :: _) => .error (.unexpectedToken l.shown position)

/-- Longer texts are refused. -/
def lengthLimit : Nat := 4096

def parse (text : String) : Except ExprFault Tree :=
  let cs := text.toList
  if cs.length > lengthLimit then .error .tooLong
  else
    match Token.tokens cs with
    | .error e => .error e
    | .ok ts => ofTokens ts

/-- Reads an expression from any value: only text is one. -/
def parseValue : Value → Except ExprFault Tree
  | .str s => parse s
  | _ => .error .notText

end Workflow.Expr
