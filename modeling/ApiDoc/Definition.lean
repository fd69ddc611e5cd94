import ApiDoc.Notice
import ApiDoc.Number.Numeral
import ApiDoc.Tag.Enumeration
import ApiDoc.Tag.Kind
import ApiDoc.Tag.Parameter
import ApiDoc.TypeExpr.Schema

/-!
# Definitions

A definition is a typedef tag followed by property tags. A property has a name with modifiers, as
in `id.required`, and a schema, or a bare type with a description and perhaps an example.
-/

namespace ApiDoc

/-- What a property shows besides its type: values to choose from, or an example. -/
inductive PropertyHint where
  | enum (values : List String)
  | example (value : Value)

/-- A property of a definition. -/
inductive Property where
  | schema (s : Schema)
  | bare (type description : String) (items : Option Schema) (readOnly : Bool)
      (hint : Option PropertyHint)

/-- The value of an example for a type: a truth value, a number if it can be read as one, or the
text itself. -/
def exampleValue (type : String) (text : List Char) : Value :=
  if type == "boolean" then .bool (text == "true".toList)
  else if type == "integer" then
    match Numeral.integer? text with
    | some i => .int i
    | none =>
      match Numeral.float? text with
      | some x => .float x
      | none => .text (String.ofList text)
  else .text (String.ofList text)

/-- The property that a tag declares. -/
def Property.ofTag (readOnly : Bool) (tag : Tag) : Property :=
  match schemaOf? tag.type with
  | some s => .schema s
  | none =>
    let type := bareTypeOf tag.type
    let (before, tail) := splitExample tag.text
    let description := String.ofList (Text.trim before)
    let example? := (tail.map Text.trim).filter (!·.isEmpty)
    let items := firstItemOf? tag.type
    if type == "enum" then
      let e := example?.elim ⟨"string", none⟩ fun t => Enumeration.ofText ("-eg:".toList ++ t)
      .bare e.type description items readOnly (e.values.map .enum)
    else
      .bare type description items readOnly (example?.map fun t => .example (exampleValue type t))

/-- A hint as a field. -/
def PropertyHint.field : PropertyHint → String × Value
  | .enum values => ("enum", textsValue values)
  | .example value => ("example", value)

/-- A property as a value. -/
def Property.toValue : Property → Value
  | .schema s => s.toValue
  | .bare type description items readOnly hint =>
    .record ([("type", .text type), ("description", .text description)] ++
      (items.elim [] fun s => [("items", s.toValue)]) ++
      (if readOnly then [("readOnly", .bool true)] else []) ++
      hint.elim [] fun h => [h.field])

/-- A definition. -/
structure Definition where
  base : Option String
  required : List String
  properties : Assoc String Property

/-- The definition that a definition builds on: a named type that is not kept inline. -/
def baseOf (head : Tag) : Option String :=
  match head.type with
  | none => none
  | some e =>
    match nonempty? e.name with
    | none => none
    | some _ =>
      if inlineTypes.contains (Text.lower e.bareType) then none else nonempty? e.bareType

/-- The name of a property and its modifiers. -/
def propertyName (name : String) : String × List String :=
  match Text.splitAll '.' name.toList with
  | [] => ("", [])
  | first :: rest => (String.ofList first, rest.map String.ofList)

/-- The definition with the property that a tag declares. -/
def Definition.add (d : Definition) (name : String) (tag : Tag) : Definition :=
  let (property, modifiers) := propertyName name
  { d with
    required :=
      if modifiers.contains "required" then d.required ++ [property] else d.required
    properties :=
      Assoc.insert property (.ofTag (modifiers.contains "readOnly") tag) d.properties }

/-- The definition with the properties that tags declare; other tags are passed over. -/
def Definition.addTags (typedef : String) (d : Definition) :
    List Tag → Except FormatFault Definition
  | [] => .ok d
  | tag :: rest =>
    if tag.kind? == some .property then
      match nonempty? tag.name with
      | none => .error (.propertyUnnamed typedef)
      | some name => (d.add name tag).addTags typedef rest
    else d.addTags typedef rest

/-- The name and the definition that a typedef tag and the tags behind it declare. -/
def Definition.ofTags (head : Tag) (rest : List Tag) : Except FormatFault (String × Definition) :=
  match nonempty? head.name with
  | none => .error .typedefUnnamed
  | some name => do
    let d ← Definition.addTags name ⟨baseOf head, [], []⟩ rest
    return (name, d)

/-- What the reading of the tags behind a typedef tag reports, up to the first property that has no
name. -/
def Definition.tagNotices (typedef : String) : List Tag → List Notice
  | [] => []
  | tag :: rest =>
    if tag.kind? == some .property then
      match nonempty? tag.name with
      | none => []
      | some _ => tagNotices typedef rest
    else .skippedInTypedef tag.title typedef :: tagNotices typedef rest

/-- What the reading of a definition reports. -/
def Definition.notices (head : Tag) (rest : List Tag) : List Notice :=
  (nonempty? head.name).elim [] fun name => tagNotices name rest

/-- A definition as a value. -/
def Definition.toValue (d : Definition) : Value :=
  .record ([("required", textsValue d.required),
      ("properties", .map (d.properties.map fun (name, p) => (.text name, p.toValue)))] ++
    d.base.elim [] fun b => [("allOf", .array [definitionRef b])])

end ApiDoc
