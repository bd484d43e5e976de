import Workflow.Value.Shape
/-!
Schemas for configs: keywords that a value may break, in the order in which they are written.
-/

namespace Workflow

mutual

inductive Schema where
  /-- Accepts every value or none. -/
  | constant (accepts : Bool)
  | keywords (ks : List Keyword)

inductive Keyword where
  | type (names : List String)
  | properties (ps : List (String × Schema))
  /-- What holds for the properties that are not named. -/
  | otherProperties (names : List String) (s : Schema)
  | required (keys : List String)
  | minimum (n : Number)
  | exclusiveMinimum (n : Number)
  | minLength (n : Number)
  | enum (choices : List Value)
  | anyOf (ss : List Schema)
  | allOf (ss : List Schema)
  | items (s : Schema)
  | minItems (n : Number)
  | uniqueItems
  /-- A value that is itself a schema. -/
  | schema

end

/-- A step from a value to a part of it. -/
inductive PathStep where
  | key (k : String)
  | index (i : Nat)
  deriving DecidableEq

structure SchemaError where
  path : List PathStep
  message : String

namespace PathStep

def before : PathStep → PathStep → Bool
  | key a, key b => a < b
  | index i, index j => i < j
  | index _, key _ => true
  | key _, index _ => false

/-- A path comes before its continuations, and otherwise the first difference decides. -/
def notAfter : List PathStep → List PathStep → Bool
  | [], _ => true
  | _ :: _, [] => false
  | a :: as, b :: bs => a.before b || (a == b && notAfter as bs)

end PathStep

namespace Value

/-- Whether a value has a schema type; a double without a fraction counts as a whole number. -/
def hasType (v : Value) : String → Bool
  | "object" => v.isObject
  | "array" => match v with
    | list _ => true
    | _ => false
  | "string" => match v with
    | str _ => true
    | _ => false
  | "number" => match v with
    | num _ => true
    | _ => false
  | "integer" => match v with
    | int _ => true
    | float x => (Double.finite? x).any Finite.isWhole
    | _ => false
  | "boolean" => match v with
    | bool _ => true
    | _ => false
  | "null" => v.isNull
  | _ => false

mutual

/-- Equality of content in which truth values are no numbers. -/
def sameStrict : Value → Value → Bool
  | bool a, bool b => a == b
  | bool _, num _ | num _, bool _ => false
  | list as, list bs => sameStrictItems as bs
  | obj as, obj bs => as.length == bs.length && sameStrictFields as bs
  | a, b => same a b

def sameStrictItems : List Value → List Value → Bool
  | [], [] => true
  | a :: as, b :: bs => sameStrict a b && sameStrictItems as bs
  | _, _ => false

def sameStrictFields : List (String × Value) → Entries Value → Bool
  | [], _ => true
  | (k, a) :: rest, bs =>
    (match Entries.find? k bs with
      | some b => sameStrict a b
      | none => false) && sameStrictFields rest bs

end

end Value

namespace Schema

def broken (v : Value) (what : String) : List SchemaError :=
  [⟨[], v.shown ++ " " ++ what⟩]

def within (step : PathStep) (es : List SchemaError) : List SchemaError :=
  es.map fun e => { e with path := step :: e.path }

/-- Too few characters or items, told apart from none at all. -/
def tooShort (v : Value) (size : Nat) (n : Number) : List SchemaError :=
  if Number.compare? (.int size) n == some .lt then
    broken v (if n.same (.int 1) then "should be non-empty" else "is too short")
  else []

def hasRepeated : List Value → Bool
  | [] => false
  | v :: rest => rest.any (Value.sameStrict v) || hasRepeated rest

mutual

/-- What a value breaks; `self` judges the parts that have to be schemas. -/
def errors (self : Value → List SchemaError) : Schema → Value → List SchemaError
  | .constant true, _ => []
  | .constant false, v => [⟨[], "False schema does not allow " ++ v.shown⟩]
  | .keywords ks, v => keywordErrors self ks v

def keywordErrors (self : Value → List SchemaError) : List Keyword → Value → List SchemaError
  | [], _ => []
  | k :: rest, v => keywordError self k v ++ keywordErrors self rest v

def keywordError (self : Value → List SchemaError) : Keyword → Value → List SchemaError
  | .type names, v =>
    if names.any v.hasType then []
    else broken v ("is not of type " ++ String.intercalate ", " (names.map Text.quoted))
  | .properties ps, v =>
    match v with
    | .obj fields => propertyErrors self ps fields
    | _ => []
  | .otherProperties names s, v =>
    match v with
    | .obj fields =>
      (fields.filter fun f => !names.contains f.1).flatMap fun (k, w) =>
        within (.key k) (errors self s w)
    | _ => []
  | .required keys, v =>
    match v with
    | .obj fields =>
      (keys.filter fun k => !Entries.contains k fields).map fun k =>
        ⟨[], Text.quoted k ++ " is a required property"⟩
    | _ => []
  | .minimum n, v =>
    match v with
    | .num m =>
      if Number.compare? m n == some .lt then
        broken v ("is less than the minimum of " ++ (Value.num n).shown)
      else []
    | _ => []
  | .exclusiveMinimum n, v =>
    match v with
    | .num m =>
      if Number.compare? m n == some .lt || m.same n then
        broken v ("is less than or equal to the minimum of " ++ (Value.num n).shown)
      else []
    | _ => []
  | .minLength n, v =>
    match v with
    | .str s => tooShort v s.length n
    | _ => []
  | .enum choices, v =>
    if choices.any (Value.sameStrict v) then []
    else broken v ("is not one of " ++ (Value.list choices).shown)
  | .anyOf ss, v =>
    if anyAccepts self ss v then []
    else broken v "is not valid under any of the given schemas"
  | .allOf ss, v => allErrors self ss v
  | .items s, v =>
    match v with
    | .list items => (items.zipIdx).flatMap fun (w, i) => within (.index i) (errors self s w)
    | _ => []
  | .minItems n, v =>
    match v with
    | .list items => tooShort v items.length n
    | _ => []
  | .uniqueItems, v =>
    match v with
    | .list items => if hasRepeated items then broken v "has non-unique elements" else []
    | _ => []
  | .schema, v => self v

def propertyErrors (self : Value → List SchemaError) :
    List (String × Schema) → Entries Value → List SchemaError
  | [], _ => []
  | (k, s) :: rest, fields =>
    (match Entries.find? k fields with
      | some v => within (.key k) (errors self s v)
      | none => []) ++ propertyErrors self rest fields

def anyAccepts (self : Value → List SchemaError) : List Schema → Value → Bool
  | [], _ => false
  | s :: rest, v => (errors self s v).isEmpty || anyAccepts self rest v

def allErrors (self : Value → List SchemaError) : List Schema → Value → List SchemaError
  | [], _ => []
  | s :: rest, v => errors self s v ++ allErrors self rest v

end

/-- What a value breaks, by the place of the broken part. -/
def violations (s : Schema) (v : Value) : List String :=
  ((errors (fun _ => []) s v).mergeSort fun a b => PathStep.notAfter a.path b.path).map (·.message)

end Schema

end Workflow
