import ApiDoc.Tag.Parameter
import ApiDoc.Tag.Response
import ApiDoc.Tag.Route
import ApiDoc.Tag.Security

/-!
# Operations

An operation collects what the tags behind its route say. A tag of a kind that has been seen
already replaces what the earlier one said, in its place; parameters are collected, and so are the
responses of different status codes. A tag that cannot be attached leaves the operation as it is.
-/

namespace ApiDoc

/-- What an operation says besides parameters, responses, description and group. -/
inductive Attribute where
  | summary (text : Option String)
  | operationId (text : Option String)
  | produces (types : List String)
  | consumes (types : List String)
  | security (requirements : Value)
  | deprecated

namespace Attribute

/-- The key of an attribute. -/
def key : Attribute → String
  | summary _ => "summary"
  | operationId _ => "operationId"
  | produces _ => "produces"
  | consumes _ => "consumes"
  | security _ => "security"
  | deprecated => "deprecated"

/-- The content of an attribute. -/
def toValue : Attribute → Value
  | summary text => .textOrNull text
  | operationId text => .textOrNull text
  | produces types => textsValue types
  | consumes types => textsValue types
  | security requirements => requirements
  | deprecated => .bool true

end Attribute

/-- An operation. -/
structure Operation where
  route : Route
  group : String
  description : String
  parameters : List Parameter := []
  attributes : Assoc String Attribute := []
  responses : Assoc String Response := []

namespace Operation

/-- The operation with an attribute. -/
def set (op : Operation) (a : Attribute) : Operation :=
  { op with attributes := Assoc.insert a.key a op.attributes }

/-- The operation with what a tag says, given the headers of each status code. -/
def add (headers : List (Atom × Value)) (op : Operation) (tag : Tag) :
    Except FormatFault Operation :=
  match tag.kind? with
  | some .param => .ok { op with parameters := op.parameters ++ [.ofTag tag] }
  | some .returns | some .return =>
    let (code, response) := Response.ofTag headers tag
    .ok { op with responses := Assoc.insert code response op.responses }
  | some .summary => .ok (op.set (.summary tag.description))
  | some .operationId => .ok (op.set (.operationId tag.description))
  | some .produces => .ok (op.set (.produces (mediaTypes tag.text)))
  | some .consumes => .ok (op.set (.consumes (mediaTypes tag.text)))
  | some .security => (securityOf tag.text).map fun v => op.set (.security v)
  | some .deprecated => .ok (op.set .deprecated)
  | _ => .error (.notForOperation tag.title)

/-- What the attaching of a tag reports. -/
def notices (tag : Tag) : List Notice :=
  if tag.kind? == some .param then Parameter.notices tag else []

/-- The operation with what tags say, one after another. -/
def addAll (headers : List (Atom × Value)) (op : Operation) :
    List Tag → Except FormatFault Operation
  | [] => .ok op
  | tag :: rest =>
    match op.add headers tag with
    | .ok op => op.addAll headers rest
    | .error fault => .error fault

/-- The fields of an operation. -/
def fields (op : Operation) : List (Atom × Value) :=
  [(.text "parameters", .array (op.parameters.map Parameter.toValue))] ++
    (if op.description.isEmpty then [] else [(.text "description", .text op.description)]) ++
    [(.text "tags", .array [.text op.group])] ++
    (op.attributes.map fun (key, a) => (.text key, a.toValue)) ++
    [(.text "responses",
      .map (op.responses.map fun (code, r) => (.text code, r.toValue)))]

end Operation

end ApiDoc
