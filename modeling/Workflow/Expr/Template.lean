import Workflow.Expr.Eval
/-!
References of the form `$` + `{vars.a.b}` inside texts. A text that is one reference becomes the
value it names; references inside a longer text are replaced by the text of their values, once.
-/

namespace Workflow.Template

/-- Drops the white space around what stands between the braces. Of white space alone its last
character is left. -/
def innerPath (body : List Char) : List Char :=
  match Text.trim body with
  | [] => body.drop (body.length - 1)
  | cs => cs

def isBrace (c : Char) : Bool :=
  c == '{' || c == '}'

/-- The reference a text starts with, behind its opening `$` and brace: the path in it and the text
that follows. -/
def reference? : List Char → Option (List Char × List Char)
  | '$' :: '{' :: cs =>
    let (body, rest) := cs.span (fun c => !isBrace c)
    match rest with
    | '}' :: rest => if body.isEmpty then none else some (innerPath body, rest)
    | _ => none
  | _ => none

/-- The value a path names, undefined unless it is rooted at `vars`. -/
def pathValue (vars : Variables) (path : List Char) : Value :=
  match Text.parts (String.ofList path) with
  | "vars" :: parts => vars.lookup parts
  | _ => .undefined

/-- The path of a text that is one reference, perhaps with a line end behind it. -/
def wholeReference? (cs : List Char) : Option (List Char) :=
  match reference? cs with
  | some (path, []) | some (path, ['\n']) => some path
  | _ => none

/-- Replaces the references in a text, going on behind each one; `fuel` is the text's length. -/
def substitute (vars : Variables) : Nat → List Char → Except NumberFault (List Char)
  | 0, cs => .ok cs
  | _, [] => .ok []
  | fuel + 1, c :: cs =>
    match reference? (c :: cs) with
    | some (path, rest) => do
      let shown ← match pathValue vars path with
        | .undefined | .null => pure ""
        | v => v.text
      return shown.toList ++ (← substitute vars fuel rest)
    | none => do
      return c :: (← substitute vars fuel cs)

def resolveText (vars : Variables) (s : String) : Except NumberFault Value :=
  let cs := s.toList
  match wholeReference? cs with
  | some path =>
    .ok (match pathValue vars path with
      | .undefined => .null
      | v => v)
  | none => (substitute vars cs.length cs).map fun out => .str (String.ofList out)

mutual

/-- Replaces the references in all texts of a value; keys stay as they are. -/
def resolve (vars : Variables) : Value → Except NumberFault Value
  | .str s => resolveText vars s
  | .list items => (resolveItems vars items).map .list
  | .obj fields => (resolveFields vars fields).map .obj
  | v => .ok v

def resolveItems (vars : Variables) : List Value → Except NumberFault (List Value)
  | [] => .ok []
  | v :: rest => do
    let v ← resolve vars v
    return v :: (← resolveItems vars rest)

def resolveFields (vars : Variables) :
    List (String × Value) → Except NumberFault (List (String × Value))
  | [] => .ok []
  | (k, v) :: rest => do
    let v ← resolve vars v
    return (k, v) :: (← resolveFields vars rest)

end

end Workflow.Template
