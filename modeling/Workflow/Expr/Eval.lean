import Workflow.Expr.Parser
import Workflow.Number.Arith
import Workflow.Value.Text
/-!
Evaluation of expressions over named variables. Whatever goes wrong, in the text or in the
arithmetic, makes the expression false.
-/

namespace Workflow

/-- What an expression sees under `vars`: all of it as one value, and each name in it. -/
structure Variables where
  whole : Value
  find? : String → Option Value

namespace Variables

/-- Only an object has names in it. -/
def ofValue (v : Value) : Variables :=
  ⟨v, fun name => v.field? name⟩

/-- The value at a path of keys below a value, undefined where a step is missing. -/
def follow (v : Value) : List String → Value
  | [] => v
  | key :: rest =>
    match v.field? key with
    | some w => follow w rest
    | none => .undefined

/-- The value at a path below `vars`. -/
def lookup (vars : Variables) : List String → Value
  | [] => vars.whole
  | name :: rest =>
    match vars.find? name with
    | some v => follow v rest
    | none => .undefined

end Variables

namespace Expr

/-- The number a text reads as: zero without any digits, not-a-number if it is no numeral. -/
def textNumber (s : String) : Number :=
  let cs := Text.trim s.toList
  if cs.isEmpty then .int 0
  else .float ((Numeral.decimal? cs).getD Double.notANumber)

/-- The number a value stands for in a comparison. -/
def toNumber : Value → Number
  | .bool b => .int b.toInt
  | .num n => n
  | .str s => textNumber s
  | _ => .float Double.notANumber

/-- The number a value stands for in arithmetic: zero if it has no numeric reading. -/
def arithOperand (v : Value) : Number :=
  let n := toNumber v
  if n.isNaN then .int 0 else n

/-- Values other than texts, truth values and numbers are compared by their text. -/
def comparable (v : Value) : Except NumberFault Value :=
  match v with
  | .str _ | .bool _ | .num _ => .ok v
  | _ => v.text.map .str

def strictEqual : Value → Value → Bool
  | .bool a, .bool b => a == b
  | .num a, .num b => Number.same a b
  | .str a, .str b => a == b
  | _, _ => false

/-- Whether an order relation holds; none does where not-a-number takes part. -/
def holdsFor (op : BinaryOp) (order : Option Ordering) : Bool :=
  match order, op with
  | some .lt, .lt | some .lt, .le | some .eq, .le | some .eq, .ge | some .gt, .gt | some .gt, .ge =>
    true
  | _, _ => false

/-- Two texts are ordered by their characters, anything else as numbers. -/
def order? : Value → Value → Option Ordering
  | .str a, .str b => some (if a < b then .lt else if a == b then .eq else .gt)
  | a, b => Number.compare? (toNumber a) (toNumber b)

def arithmetic (op : BinaryOp) (a b : Number) : Except NumberFault Number :=
  match op with
  | .sub => Number.sub a b
  | .mul => Number.mul a b
  | .div => Number.div a b
  | _ => Number.add a b

/-- The value of an operator that needs both operands. -/
def applyBinary (op : BinaryOp) (left right : Value) : Except NumberFault Value :=
  match op with
  | .or => .ok (.bool (left.isTruthy || right.isTruthy))
  | .and => .ok (.bool (left.isTruthy && right.isTruthy))
  | .eq => return .bool (strictEqual (← comparable left) (← comparable right))
  | .ne => return .bool !(strictEqual (← comparable left) (← comparable right))
  | .gt | .ge | .lt | .le =>
    return .bool (holdsFor op (order? (← comparable left) (← comparable right)))
  | .add | .sub | .mul | .div =>
    return .num (← arithmetic op (arithOperand left) (arithOperand right))

def applyUnary (op : UnaryOp) (v : Value) : Value :=
  match op with
  | .not => .bool !v.isTruthy
  | .neg => .num (arithOperand v).neg

/-- The value of a tree. `||` and `&&` leave their right operand alone once they are decided. -/
def Tree.eval (vars : Variables) : Tree → Except NumberFault Value
  | .lit v => .ok v
  | .path parts => .ok (vars.lookup parts)
  | .unary op t => (t.eval vars).map (applyUnary op)
  | .binary op l r => do
    let left ← l.eval vars
    match op, left.isTruthy with
    | .or, true => return .bool true
    | .and, false => return .bool false
    | _, _ =>
      let right ← r.eval vars
      applyBinary op left right

/-- The value of an expression, null in place of undefined and false in place of any fault. -/
def evaluate (expression : Value) (vars : Variables) : Value :=
  match parseValue expression with
  | .error _ => .bool false
  | .ok t =>
    match t.eval vars with
    | .error _ => .bool false
    | .ok .undefined => .null
    | .ok v => v

def evaluateCondition (expression : Value) (vars : Variables) : Bool :=
  (evaluate expression vars).isTruthy

end Expr

end Workflow
