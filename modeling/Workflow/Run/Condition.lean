import Workflow.Flow.Basic
import Workflow.Run.Scope
import Workflow.Value.Shown
/-!
Conditions of `if` and `while` nodes, and the branch that an `if` node takes.
-/

namespace Workflow

/-- The path that a dotted name stands for; `vars` in front of it says nothing. -/
def namePath (name : String) : List String :=
  match Text.parts name with
  | "vars" :: part :: rest => part :: rest
  | parts => parts

namespace Condition

/-- Whether a variable has a value, or is true if no value is asked for. -/
def variableHolds (vars : Variables) (fields : Entries Value) (name : Value) : Bool :=
  let v := vars.lookup (namePath name.name)
  match Entries.find? "equals" fields, v with
  | some _, .undefined => false
  | some w, v => v.same w
  | none, v => v.isTruthy

/-- Whether a condition holds: a truth value, an expression, or an object that gives an expression or
names a variable. Nothing else holds. -/
def holds (vars : Variables) : Value → Bool
  | .bool b => b
  | .str s => Expr.evaluateCondition (.str s) vars
  | .obj fields =>
    match Entries.find? "expression" fields, Entries.find? "var" fields with
    | some e, _ => Expr.evaluateCondition e vars
    | none, some name => variableHolds vars fields name
    | none, none => false
  | _ => false

/-- The condition of a branch under either of its names. -/
def ofBranch (branch : Value) : Value :=
  (branch.field? "condition").getD (branch.field "expr")

def branchLabel (branch : Value) : String :=
  (((branch.field "label").orElse (branch.field "id")).orElse (.str Label.holds)).name

/-- The label under which an `if` node is left. -/
def chosenLabel (vars : Variables) (config : Entries Value) : String :=
  let given := Value.obj config
  match given.field "branches" with
  | .list (b :: bs) =>
    match (b :: bs).find? fun branch => branch.isObject && holds vars (ofBranch branch) with
    | some branch => branchLabel branch
    | none => ((given.field "else").orElse (.str Label.fails)).name
  | _ => if holds vars (given.field "condition") then Label.holds else Label.fails

end Condition

end Workflow
