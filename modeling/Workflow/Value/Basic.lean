import Workflow.Number.Double
import Workflow.Value.Entries
/-!
The values that flows compute with: JSON values with whole numbers and doubles told apart, and
`undefined`, which a read of nothing gives.
-/

namespace Workflow

/-- A whole number of any size or a double. -/
inductive Number where
  | int (n : Int)
  | float (x : Float)

inductive Value where
  | undefined
  | null
  | bool (b : Bool)
  | num (n : Number)
  | str (s : String)
  | list (items : List Value)
  | obj (fields : List (String × Value))

instance : Inhabited Value := ⟨.null⟩

namespace Number

def isZero : Number → Bool
  | int n => n == 0
  | float x => x == 0.0

def isNaN : Number → Bool
  | int _ => false
  | float x => x.isNaN

/-- The order of two numbers, exact at any size; nothing where not-a-number takes part. -/
def compare? : Number → Number → Option Ordering
  | int a, int b => some (compare a b)
  | float x, float y =>
    if x < y then some .lt else if x == y then some .eq else if y < x then some .gt else none
  | int a, float y => order a y
  | float x, int b => (order b x).map Ordering.swap
where
  order (n : Int) (x : Float) : Option Ordering :=
    match Double.finite? x with
    | some f => some (Finite.compareInt n f)
    | none => if x.isNaN then none else some (if Double.isNegative x then .gt else .lt)

def same (a b : Number) : Bool :=
  compare? a b == some .eq

end Number

namespace Value

@[match_pattern] abbrev int (n : Int) : Value := .num (.int n)

@[match_pattern] abbrev float (x : Float) : Value := .num (.float x)

abbrev nat (n : Nat) : Value := .int n

/-- Whether a value counts as not given: undefined, null, false, zero or empty. -/
def isVacant : Value → Bool
  | undefined | null => true
  | bool b => !b
  | num n => n.isZero
  | str s => s.isEmpty
  | list items => items.isEmpty
  | obj fields => fields.isEmpty

/-- The value itself, or another in place of a vacant one. -/
def orElse (v : Value) (other : Value) : Value :=
  if v.isVacant then other else v

def isNull : Value → Bool
  | null => true
  | _ => false

/-- A field of an object; nothing in a value that is no object. -/
def field? (key : String) : Value → Option Value
  | obj fields => Entries.find? key fields
  | _ => none

/-- A field of an object, null where there is none. -/
def field (key : String) (v : Value) : Value :=
  (v.field? key).getD null

/-- The fields of an object, none in a value that is no object. -/
def fields : Value → Entries Value
  | obj fields => fields
  | _ => []

def isObject : Value → Bool
  | obj _ => true
  | _ => false

/-- The object with the given fields, those that are absent left out. -/
def ofFields (fields : List (String × Option Value)) : Value :=
  obj (fields.filterMap fun f => f.2.map (f.1, ·))

def strings (xs : List String) : Value :=
  list (xs.map str)

/-- Text or null. -/
def ofText? : Option String → Value
  | some s => str s
  | none => null

mutual

/-- Equality of content: numbers by worth, with true and false as one and zero, and objects in any
order of their keys. -/
def same : Value → Value → Bool
  | undefined, undefined => true
  | null, null => true
  | bool a, bool b => a == b
  | bool a, num n => Number.same (.int a.toInt) n
  | num n, bool b => Number.same n (.int b.toInt)
  | num a, num b => Number.same a b
  | str a, str b => a == b
  | list as, list bs => sameItems as bs
  | obj as, obj bs => as.length == bs.length && sameFields as bs
  | _, _ => false

def sameItems : List Value → List Value → Bool
  | [], [] => true
  | a :: as, b :: bs => same a b && sameItems as bs
  | _, _ => false

/-- Every field of the first object is in the second one with the same content. -/
def sameFields : List (String × Value) → Entries Value → Bool
  | [], _ => true
  | (k, a) :: rest, bs =>
    (match Entries.find? k bs with
      | some b => same a b
      | none => false) && sameFields rest bs

end

end Value

end Workflow
