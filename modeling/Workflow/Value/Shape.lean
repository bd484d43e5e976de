import Workflow.Number.Arith
import Workflow.Value.Shown
/-!
Reading values as the shapes that a flow's description needs: whole numbers, doubles, fields, items.
-/

namespace Workflow

/-- Why a value does not have the wanted shape. -/
inductive ShapeFault where
  | missingKey (key : String)
  | notIterable (type : String)
  | notSubscriptable (type : String)
  | textIndex
  | listIndex
  | noAttribute (type name : String)
  | notMapping (type : String)
  | pairLength (index length : Nat)
  | pairShape (index : Nat)
  | unhashable (type : String)
  | notWholeLike (type : String)
  | notDoubleLike (type : String)
  | number (fault : NumberFault)
  deriving Repr, DecidableEq

/-- What kind of mistake a fault is. -/
inductive FaultKind where
  | key | type | member | value | overflow
  deriving Repr, DecidableEq

namespace ShapeFault

def kind : ShapeFault → FaultKind
  | missingKey _ => .key
  | noAttribute _ _ => .member
  | pairLength _ _ => .value
  | number f => if f.isOverflow then .overflow else .value
  | _ => .type

def message : ShapeFault → String
  | missingKey key => Text.quoted key
  | notIterable type => "'" ++ type ++ "' object is not iterable"
  | notSubscriptable type => "'" ++ type ++ "' object is not subscriptable"
  | textIndex => "string indices must be integers, not 'str'"
  | listIndex => "list indices must be integers or slices, not str"
  | noAttribute type name => "'" ++ type ++ "' object has no attribute '" ++ name ++ "'"
  | notMapping type => "'" ++ type ++ "' object is not a mapping"
  | pairLength index length =>
    "dictionary update sequence element #" ++ toString index ++ " has length " ++ toString length
      ++ "; 2 is required"
  | pairShape index =>
    "cannot convert dictionary update sequence element #" ++ toString index ++ " to a sequence"
  | unhashable type => "unhashable type: '" ++ type ++ "'"
  | notWholeLike type =>
    "int() argument must be a string, a bytes-like object or a real number, not '" ++ type ++ "'"
  | notDoubleLike type => "float() argument must be a string or a real number, not '" ++ type ++ "'"
  | number f => f.message

end ShapeFault

namespace Value

/-- The items of a list, the characters of a text or the keys of an object. -/
def iterate? : Value → Option (List Value)
  | list items => some items
  | str s => some (s.toList.map fun c => str (String.singleton c))
  | obj fields => some (fields.map fun f => str f.1)
  | _ => none

def iterate (v : Value) : Except ShapeFault (List Value) :=
  match v.iterate? with
  | some items => .ok items
  | none => .error (.notIterable v.typeName)

/-- Whether a value can be a key. -/
def isHashable : Value → Bool
  | list _ | obj _ => false
  | _ => true

/-- A pair of a key and a value, as the item at a place of a list of pairs. -/
def pair (index : Nat) (v : Value) : Except ShapeFault (String × Value) :=
  match v.iterate? with
  | none => .error (.pairShape index)
  | some [k, w] => if k.isHashable then .ok (k.name, w) else .error (.unhashable k.typeName)
  | some items => .error (.pairLength index items.length)

def pairs : Nat → List Value → Except ShapeFault (Entries Value)
  | _, [] => .ok []
  | index, v :: rest => do
    let e ← pair index v
    return e :: (← pairs (index + 1) rest)

/-- The fields of an object or of a list of pairs. -/
def toFields : Value → Except ShapeFault (Entries Value)
  | obj fields => .ok fields
  | v => do
    let items ← v.iterate
    return Entries.ofList (← pairs 0 items)

/-- The fields of a value, none if it is vacant. -/
def toFieldsOrNone (v : Value) : Except ShapeFault (Entries Value) :=
  if v.isVacant then .ok [] else v.toFields

/-- The whole number a value stands for, the fraction of a double being cut off. -/
def toWhole : Value → Except ShapeFault Int
  | bool b => .ok b.toInt
  | num n =>
    match n.truncate with
    | .ok n => .ok n
    | .error f => .error (.number f)
  | str s =>
    match Numeral.readInt s with
    | .ok n => .ok n
    | .error f => .error (.number f)
  | v => .error (.notWholeLike v.typeName)

/-- The double a value stands for. -/
def toDouble : Value → Except ShapeFault Float
  | bool b => .ok (if b then 1.0 else 0.0)
  | num n =>
    match n.toFloat with
    | .ok x => .ok x
    | .error f => .error (.number f)
  | str s =>
    match Numeral.readFloat s with
    | .ok x => .ok x
    | .error f => .error (.number f)
  | v => .error (.notDoubleLike v.typeName)

/-- A length of time in milliseconds, zero for what is none. -/
def millis (v : Value) : Float :=
  match v.toDouble with
  | .ok x => x
  | .error _ => 0.0

/-- The items of a list, none in a value that is no list. -/
def items : Value → List Value
  | list xs => xs
  | _ => []

def text? : Value → Option String
  | str s => some s
  | _ => none

/-- A field that is neither absent nor null. -/
def given? (key : String) (v : Value) : Option Value :=
  (v.field? key).filter (!·.isNull)

/-- Whether a field is true, where it is absent a default. -/
def isSet (key : String) (v : Value) (default : Bool := false) : Bool :=
  match v.field? key with
  | some (bool b) => b
  | some _ => false
  | none => default

/-- The text of a field, where it is absent a default, and empty where it is no text. -/
def textField (key : String) (v : Value) (default : String := "") : String :=
  ((v.field? key).map fun w => (text? w).getD "").getD default

def textField? (key : String) (v : Value) : Option String :=
  (v.field? key).bind text?

/-- The field of a value that must have it. -/
def require (key : String) (v : Value) : Except ShapeFault Value :=
  match v with
  | obj fields =>
    match Entries.find? key fields with
    | some w => .ok w
    | none => .error (.missingKey key)
  | str _ => .error .textIndex
  | list _ => .error .listIndex
  | _ => .error (.notSubscriptable v.typeName)

end Value

end Workflow
