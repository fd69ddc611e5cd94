import ApiDoc.Comment.Basic

/-!
# Kinds of tags

The titles that have a meaning, and what they have a meaning for: a definition, a block as a whole,
or one operation.
-/

namespace ApiDoc

/-- A title that has a meaning. -/
inductive TagKind where
  | route
  | group
  | param
  | returns
  | «return»
  | headers
  | header
  | security
  | produces
  | consumes
  | deprecated
  | summary
  | operationId
  | typedef
  | property
  deriving DecidableEq, Repr

namespace TagKind

/-- The kinds, in the order of their declaration. -/
def all : List TagKind :=
  [.route, .group, .param, .returns, .return, .headers, .header, .security, .produces, .consumes,
    .deprecated, .summary, .operationId, .typedef, .property]

/-- The title of a kind. -/
def title : TagKind → String
  | route => "route"
  | group => "group"
  | param => "param"
  | returns => "returns"
  | «return» => "return"
  | headers => "headers"
  | header => "header"
  | security => "security"
  | produces => "produces"
  | consumes => "consumes"
  | deprecated => "deprecated"
  | summary => "summary"
  | operationId => "operationId"
  | typedef => "typedef"
  | property => "property"

/-- The kind of a title. -/
def ofTitle? (t : String) : Option TagKind := all.find? (·.title == t)

/-- A tag that is read once for the whole block. -/
def isBlockLevel : TagKind → Bool
  | group | headers | header => true
  | _ => false

/-- A tag that declares a response header. -/
def isHeader : TagKind → Bool
  | headers | header => true
  | _ => false

/-- A tag that belongs to a definition. -/
def isDefinition : TagKind → Bool
  | typedef | property => true
  | _ => false

end TagKind

/-- The kind of a tag. -/
def Tag.kind? (t : Tag) : Option TagKind := TagKind.ofTitle? t.title

/-- The description of a tag, empty if there is none. -/
def Tag.text (t : Tag) : List Char := (t.description.getD "").toList

end ApiDoc
