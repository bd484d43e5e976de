import Workflow.Schema.Basic
/-!
The schema of schemas, and reading schemas from values that conform to it.
-/

namespace Workflow.Schema

def ofType (name : String) : Schema :=
  .keywords [.type [name]]

def schemaType : Keyword :=
  .type ["object", "boolean"]

def anySchema : Schema :=
  .keywords [.schema]

def schemaArray : Schema :=
  .keywords [.type ["array"], .minItems (.int 1), .items anySchema]

def schemaObject : Schema :=
  .keywords [.type ["object"], .otherProperties [] anySchema]

def natural : Schema :=
  .keywords [.type ["integer"], .minimum (.int 0)]

def textArray : Schema :=
  .keywords [.type ["array"], .items (ofType "string"), .uniqueItems]

def typeName : Schema :=
  .keywords [.enum (["array", "boolean", "integer", "null", "number", "object", "string"].map .str)]

/-- Identifiers, references and definitions. -/
def coreVocabulary : Schema :=
  .keywords [schemaType, .properties [
    ("$id", ofType "string"), ("$schema", ofType "string"), ("$ref", ofType "string"),
    ("$anchor", ofType "string"), ("$dynamicRef", ofType "string"),
    ("$dynamicAnchor", ofType "string"),
    ("$vocabulary", .keywords [.type ["object"], .otherProperties [] (ofType "boolean")]),
    ("$comment", ofType "string"), ("$defs", schemaObject)]]

/-- Keywords that apply schemas to a value or to its parts. -/
def applicatorVocabulary : Schema :=
  .keywords [schemaType, .properties [
    ("prefixItems", schemaArray), ("items", anySchema), ("contains", anySchema),
    ("additionalProperties", anySchema), ("properties", schemaObject),
    ("patternProperties", schemaObject), ("dependentSchemas", schemaObject),
    ("propertyNames", anySchema), ("if", anySchema), ("then", anySchema), ("else", anySchema),
    ("allOf", schemaArray), ("anyOf", schemaArray), ("oneOf", schemaArray), ("not", anySchema)]]

def unevaluatedVocabulary : Schema :=
  .keywords [schemaType, .properties [
    ("unevaluatedItems", anySchema), ("unevaluatedProperties", anySchema)]]

/-- Keywords that judge a value by itself. -/
def validationVocabulary : Schema :=
  .keywords [schemaType, .properties [
    ("type", .keywords [.anyOf [typeName,
      .keywords [.type ["array"], .items typeName, .minItems (.int 1), .uniqueItems]]]),
    ("const", .constant true),
    ("enum", ofType "array"),
    ("multipleOf", .keywords [.type ["number"], .exclusiveMinimum (.int 0)]),
    ("maximum", ofType "number"), ("exclusiveMaximum", ofType "number"),
    ("minimum", ofType "number"), ("exclusiveMinimum", ofType "number"),
    ("maxLength", natural), ("minLength", natural), ("pattern", ofType "string"),
    ("maxItems", natural), ("minItems", natural), ("uniqueItems", ofType "boolean"),
    ("maxContains", natural), ("minContains", natural), ("maxProperties", natural),
    ("minProperties", natural), ("required", textArray),
    ("dependentRequired", .keywords [.type ["object"], .otherProperties [] textArray])]]

def metadataVocabulary : Schema :=
  .keywords [schemaType, .properties [
    ("title", ofType "string"), ("description", ofType "string"), ("default", .constant true),
    ("deprecated", ofType "boolean"), ("readOnly", ofType "boolean"),
    ("writeOnly", ofType "boolean"), ("examples", ofType "array")]]

def contentVocabulary : Schema :=
  .keywords [schemaType, .properties [
    ("contentEncoding", ofType "string"), ("contentMediaType", ofType "string"),
    ("contentSchema", anySchema)]]

/-- What every schema conforms to. -/
def ofSchemas : Schema :=
  .keywords [
    .allOf [coreVocabulary, applicatorVocabulary, unevaluatedVocabulary, validationVocabulary,
      metadataVocabulary, .keywords [schemaType, .properties [("format", ofType "string")]],
      contentVocabulary],
    schemaType,
    .properties [
      ("definitions", schemaObject),
      ("dependencies", .keywords [.type ["object"],
        .otherProperties [] (.keywords [.anyOf [anySchema, textArray]])]),
      ("$recursiveAnchor", ofType "string"), ("$recursiveRef", ofType "string")]]

mutual

/-- The number of levels of a value. -/
def depth : Value → Nat
  | .list items => depthItems items + 1
  | .obj fields => depthFields fields + 1
  | _ => 1

def depthItems : List Value → Nat
  | [] => 0
  | v :: rest => max (depth v) (depthItems rest)

def depthFields : List (String × Value) → Nat
  | [] => 0
  | (_, v) :: rest => max (depth v) (depthFields rest)

end

/-- What is wrong with a value as a schema, looking at most `fuel` schemas deep. -/
def metaErrors : Nat → Value → List SchemaError
  | 0, _ => []
  | fuel + 1, v => errors (metaErrors fuel) ofSchemas v

def textItems : Value → List String
  | .list items => items.filterMap fun
    | .str s => some s
    | _ => none
  | .str s => [s]
  | _ => []

/-- A keyword whose value is no schema. -/
def plainKeyword? (key : String) (v : Value) : Option Keyword :=
  match key, v with
  | "type", v => some (.type (textItems v))
  | "required", v => some (.required (textItems v))
  | "minimum", .num n => some (.minimum n)
  | "exclusiveMinimum", .num n => some (.exclusiveMinimum n)
  | "minLength", .num n => some (.minLength n)
  | "minItems", .num n => some (.minItems n)
  | "enum", .list choices => some (.enum choices)
  | "uniqueItems", .bool true => some .uniqueItems
  | _, _ => none

mutual

/-- Reads a schema from a value that conforms to the schema of schemas. -/
def ofValue : Value → Schema
  | .bool b => .constant b
  | .obj fields => .keywords (keywordsOf fields fields)
  | _ => .constant true

/-- The keywords of a schema that are known, in order. -/
def keywordsOf (all : Entries Value) : List (String × Value) → List Keyword
  | [] => []
  | (key, v) :: rest =>
    let here : List Keyword := match key with
      | "properties" => [.properties (propertiesOf v)]
      | "additionalProperties" =>
        [.otherProperties (((Entries.find? "properties" all).getD .null).fields.map (·.1)) (ofValue v)]
      | "items" => [.items (ofValue v)]
      | "anyOf" => [.anyOf (listOf v)]
      | "allOf" => [.allOf (listOf v)]
      | key => (plainKeyword? key v).toList
    here ++ keywordsOf all rest

def propertiesOf : Value → List (String × Schema)
  | .obj fields => fieldSchemas fields
  | _ => []

def fieldSchemas : List (String × Value) → List (String × Schema)
  | [] => []
  | (k, v) :: rest => (k, ofValue v) :: fieldSchemas rest

def listOf : Value → List Schema
  | .list items => itemSchemas items
  | _ => []

def itemSchemas : List Value → List Schema
  | [] => []
  | v :: rest => ofValue v :: itemSchemas rest

end

/-- Reads a schema; the error says what is wrong with it first. -/
def read (v : Value) : Except String Schema :=
  match metaErrors (depth v) v with
  | [] => .ok (ofValue v)
  | e :: _ => .error e.message

end Workflow.Schema
