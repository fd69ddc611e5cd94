import ApiDoc.Notice
import ApiDoc.Tag.Enumeration
import ApiDoc.Tag.Kind
import ApiDoc.TypeExpr.Schema

/-!
# Parameters

A parameter tag names the parameter, its location and whether it is required, as in
`id.path.required`. It has a schema or a bare type; a bare `enum` is read from the description.
-/

namespace ApiDoc

/-- The location of a parameter that names none. -/
def defaultLocation : String := "get"

/-- The parts of a parameter's name. -/
structure FieldName where
  name : String
  location : String
  required : Bool
  deriving DecidableEq, Repr

/-- The parts of a text with dots. -/
def FieldName.ofText (s : List Char) : FieldName :=
  match Text.splitAll '.' s with
  | [] => ⟨"", defaultLocation, false⟩
  | name :: rest =>
    { name := String.ofList name
      location :=
        match rest with
        | [] => defaultLocation
        | location :: _ =>
          if location.isEmpty then defaultLocation else String.ofList location
      required :=
        match rest with
        | _ :: flag :: _ => flag == "required".toList
        | _ => false }

/-- The parts of the name of a tag. -/
def FieldName.ofTag (tag : Tag) : FieldName := .ofText (tag.name.getD "").toList

/-- What a parameter may hold. -/
inductive ParameterShape where
  | schema (s : Schema)
  | bare (e : Enumeration)

/-- A parameter of an operation. -/
structure Parameter where
  field : FieldName
  description : Option String
  shape : ParameterShape

/-- What a tag says about what its parameter may hold. -/
def ParameterShape.ofTag (tag : Tag) : ParameterShape :=
  match schemaOf? tag.type with
  | some s => .schema s
  | none =>
    if bareTypeOf tag.type == "enum" then .bare (.ofText tag.text)
    else .bare ⟨bareTypeOf tag.type, none⟩

/-- The parameter that a tag declares. -/
def Parameter.ofTag (tag : Tag) : Parameter :=
  ⟨.ofTag tag, tag.description, .ofTag tag⟩

/-- What the reading of a parameter reports. -/
def Parameter.notices (tag : Tag) : List Notice :=
  let field := FieldName.ofTag tag
  if field.location == defaultLocation then [.missingLocation field.name defaultLocation] else []

/-- A list of texts as a value. -/
def textsValue (texts : List String) : Value := .array (texts.map .text)

/-- A type and its enumerated values, as fields. -/
def Enumeration.fields (e : Enumeration) : List (String × Value) :=
  ("type", .text e.type) :: (e.values.elim [] fun vs => [("enum", textsValue vs)])

/-- What a parameter may hold, as fields. -/
def ParameterShape.fields : ParameterShape → List (String × Value)
  | .schema s => [("schema", s.toValue)]
  | .bare e => e.fields

/-- A parameter as a value. -/
def Parameter.toValue (p : Parameter) : Value :=
  .record ([("name", .text p.field.name), ("in", .text p.field.location)] ++
    (p.description.elim [] fun d => [("description", .text d)]) ++
    ("required", .bool p.field.required) :: p.shape.fields)

end ApiDoc
