import ApiDoc.Tag.Kind
import ApiDoc.Text.Lower
import ApiDoc.Text.Split

/-!
# Routes and groups

A route is a method and a path, as in `GET /pets`. A group is a name and a description, as in
`pets - Operations about pets`; it belongs to all operations of its block.
-/

namespace ApiDoc

/-- A method in lower case and the path it is for. -/
structure Route where
  method : String
  uri : String
  deriving DecidableEq, Repr

/-- The route of a text: its first word and its second one. Without a word the method is `get`. -/
def Route.ofText (s : List Char) : Route :=
  match Text.words s with
  | [] => ⟨"get", ""⟩
  | [method] => ⟨Text.lower (String.ofList method), ""⟩
  | method :: uri :: _ => ⟨Text.lower (String.ofList method), String.ofList uri⟩

/-- The group that the operations of a block belong to. -/
structure Group where
  name : String
  description : String
  deriving DecidableEq, Repr

/-- The parts of a text on both sides of its first hyphen, trimmed. -/
def hyphenParts (s : List Char) : List Char × List Char :=
  match Text.splitFirst '-' s with
  | (before, after) => (Text.trim before, Text.trim (after.getD []))

/-- The group of a text. Without a name it is called `default`. -/
def Group.ofText (s : List Char) : Group :=
  let (name, description) := hyphenParts s
  ⟨if name.isEmpty then "default" else String.ofList name, String.ofList description⟩

/-- The group that the first group tag declares. -/
def Group.ofTags (tags : List Tag) : Group :=
  match tags.find? (·.kind? == some .group) with
  | some tag => .ofText tag.text
  | none => ⟨"default", ""⟩

/-- The words of a text, each of them a media type. -/
def mediaTypes (s : List Char) : List String := (Text.words s).map String.ofList

end ApiDoc
