import Workflow.Value.Basic
/-!
Expression trees.
-/

namespace Workflow.Expr

inductive UnaryOp where
  | not | neg
  deriving Repr, DecidableEq

inductive BinaryOp where
  | or | and | eq | ne | gt | ge | lt | le | add | sub | mul | div
  deriving Repr, DecidableEq

inductive Tree where
  | lit (v : Value)
  /-- A dotted path below `vars`. -/
  | path (parts : List String)
  | unary (op : UnaryOp) (operand : Tree)
  | binary (op : BinaryOp) (left right : Tree)

def UnaryOp.text : UnaryOp → String
  | not => "!"
  | neg => "-"

def BinaryOp.text : BinaryOp → String
  | or => "||"
  | and => "&&"
  | eq => "=="
  | ne => "!="
  | gt => ">"
  | ge => ">="
  | lt => "<"
  | le => "<="
  | add => "+"
  | sub => "-"
  | mul => "*"
  | div => "/"

/-- A tree as lists, each with the kind of the tree in front. -/
def Tree.toValue : Tree → Value
  | lit v => .list [.str "lit", v]
  | path parts => .list [.str "path", .strings parts]
  | unary op t => .list [.str "unary", .str op.text, t.toValue]
  | binary op l r => .list [.str "binary", .str op.text, l.toValue, r.toValue]

end Workflow.Expr
