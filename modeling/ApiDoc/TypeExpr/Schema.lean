import ApiDoc.Text.Lower
import ApiDoc.Text.Split
import ApiDoc.TypeExpr.Basic
import ApiDoc.Value.Basic

/-!
# Schemas of type expressions

A type expression becomes a bare type, a schema, or the schema of list items. `Pet.model` refers to
the definition `Pet`; an applied type is a list of its arguments, and several arguments or the
members of a union are alternatives.
-/

namespace ApiDoc

/-- A schema. -/
inductive Schema where
  /-- A reference to a definition. -/
  | ref (name : String)
  /-- A bare type. -/
  | plain (type : String)
  /-- A container and the schema of its items. -/
  | container (type : String) (items : Schema)
  /-- Alternatives. -/
  | oneOf (alternatives : List Schema)
  deriving Inhabited, Repr

/-- An object that refers to a definition. -/
def definitionRef (name : String) : Value := .record [("$ref", .text ("#/definitions/" ++ name))]

namespace Schema

mutual

/-- A schema as a value. -/
def toValue : Schema → Value
  | .ref name => definitionRef name
  | .plain type => .record [("type", .text type)]
  | .container type items => .record [("type", .text type), ("items", toValue items)]
  | .oneOf alternatives => .record [("oneOf", .array (toValues alternatives))]

/-- Schemas as values. -/
def toValues : List Schema → List Value
  | [] => []
  | s :: rest => toValue s :: toValues rest

end

end Schema

/-- A name that is there and not empty. -/
def nonempty? (name : Option String) : Option String := name.filter (!·.isEmpty)

/-- The definition that a name with the suffix `model` behind its first dot refers to. -/
def modelName? (name : String) : Option String :=
  match Text.splitAll '.' name.toList with
  | first :: second :: _ => if second == "model".toList then some (String.ofList first) else none
  | _ => none

/-- The definition that a name refers to, if that definition has a name. -/
def model? (name : String) : Option String := nonempty? (modelName? name)

/-- The type keywords, in lower case. -/
def typeKeywords : List String :=
  ["string", "number", "integer", "boolean", "array", "object", "file"]

/-- The type keywords that stay inline in lists, in lower case. -/
def inlineTypes : List String := ["object", "string", "integer", "boolean"]

namespace TypeExpr

/-- The bare type of a name: the definition it refers to, a type keyword in lower case, or the name
itself. -/
def namedType (name : String) : String :=
  (model? name).getD (if typeKeywords.contains (Text.lower name) then Text.lower name else name)

/-- The bare type of an expression with these parts. -/
def typeOfParts (name : Option String) (container : Option TypeExpr) : String :=
  match nonempty? name with
  | some n => namedType n
  | none =>
    match nonempty? (container.bind TypeExpr.name) with
    | some c => Text.lower c
    | none => "string"

/-- The bare type of an expression. -/
def bareType (e : TypeExpr) : String := typeOfParts e.name e.container

/-- The schema of an expression with these parts, given the schemas of its arguments. -/
def schemaOfParts (name : Option String) (type : String) (items : List Schema) : Option Schema :=
  match name with
  | some n => (model? n).map .ref
  | none =>
    match items with
    | [] => none
    | [item] => some (.container type item)
    | _ => some (.container type (.oneOf items))

/-- The schema of an item that is neither a union nor applied. -/
def leafSchema (name : String) : Schema :=
  if inlineTypes.contains (Text.lower name) then .plain (Text.lower name)
  else .ref ((model? name).getD name)

mutual

/-- The schema of an item of a list. -/
def itemSchema : TypeExpr → Schema
  | mk name container arguments members =>
    match members with
    | some (m :: ms) => .oneOf (itemSchema m :: itemSchemas ms)
    | _ =>
      let type := typeOfParts name container
      let nested :=
        match arguments with
        | some as => schemaOfParts name type (itemSchemas as)
        | none => none
      nested.getD (leafSchema ((nonempty? name).getD type))

/-- The schemas of items. -/
def itemSchemas : List TypeExpr → List Schema
  | [] => []
  | e :: es => itemSchema e :: itemSchemas es

end

/-- The schema of an expression, if it needs more than a bare type. -/
def schema? (e : TypeExpr) : Option Schema :=
  schemaOfParts e.name e.bareType (itemSchemas (e.arguments.getD []))

/-- The schema of the first argument, if that is a named type. -/
def firstItem? (e : TypeExpr) : Option Schema :=
  match e.arguments with
  | some (first :: _) => (nonempty? first.name).map fun _ => itemSchema first
  | _ => none

end TypeExpr

/-- The bare type of an expression that may be absent. -/
def bareTypeOf (e : Option TypeExpr) : String := e.elim "string" TypeExpr.bareType

/-- The schema of an expression that may be absent. -/
def schemaOf? (e : Option TypeExpr) : Option Schema := e.bind TypeExpr.schema?

/-- The schema of the first argument of an expression that may be absent. -/
def firstItemOf? (e : Option TypeExpr) : Option Schema := e.bind TypeExpr.firstItem?

end ApiDoc
