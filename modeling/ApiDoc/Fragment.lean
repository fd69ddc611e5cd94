import ApiDoc.Definition
import ApiDoc.Operation

/-!
# Fragments

What one comment block adds to a document. A block that starts with a typedef tag adds a
definition. Any other block adds the operations of its routes: each route opens an operation, and
the tags up to the next route belong to it, but for those that are read once for the whole block.

Main definitions: `Fragment.ofBlock` and `Fragment.notices`.
-/

namespace ApiDoc

/-- What a comment block adds to a document: fields by path and method, groups and definitions. -/
structure Fragment where
  paths : Assoc String (Assoc String (List (Atom × Value))) := []
  groups : List Group := []
  definitions : Assoc String Definition := []

namespace Fragment

/-- Whether a tag of an operation block belongs to the operation in front of it. -/
def isAttached (tag : Tag) : Bool :=
  match tag.kind? with
  | none => false
  | some kind => kind != .route && !kind.isBlockLevel && !kind.isDefinition

/-- The tags in front of the first route, and the routes with the tags behind each. -/
def segments : List Tag → List Tag × List (Tag × List Tag)
  | [] => ([], [])
  | tag :: rest =>
    let (front, routes) := segments rest
    if tag.kind? == some .route then ([], (tag, front) :: routes) else (tag :: front, routes)

/-- The operations of routes and the tags behind each. -/
def operations (group description : String) (headers : List (Atom × Value)) :
    List (Tag × List Tag) → Except FormatFault (List Operation)
  | [] => .ok []
  | (route, tags) :: rest => do
    let start : Operation :=
      { route := Route.ofText route.text, group := group, description := description }
    let op ← start.addAll headers (tags.filter isAttached)
    let ops ← operations group description headers rest
    return op :: ops

/-- Paths with an operation; fields that an earlier operation of the same route has and this one
has not are kept. -/
def addOperation (paths : Assoc String (Assoc String (List (Atom × Value)))) (op : Operation) :
    Assoc String (Assoc String (List (Atom × Value))) :=
  let methods := (Assoc.get? op.route.uri paths).getD []
  let fields := (Assoc.get? op.route.method methods).getD []
  Assoc.insert op.route.uri (Assoc.insert op.route.method (Assoc.update fields op.fields) methods)
    paths

/-- A text without the opening marks of comments in it. -/
def dropOpenings : List Char → List Char
  | [] => []
  | '/' :: '*' :: '*' :: rest => dropOpenings rest
  | c :: rest => c :: dropOpenings rest

/-- The description that the operations of a block have. -/
def descriptionOf (b : Block) : String :=
  String.ofList (Text.trim (dropOpenings b.description.toList))

/-- The fragment of the operations of a block. `markOf` gives the mark of the headers of a status
code, which all responses of the block with that code share. -/
def ofOperations (markOf : String → Option Mark) (b : Block) : Except FormatFault Fragment := do
  let group := Group.ofTags b.tags
  let headers := (HeaderTable.ofTags b.tags).toEntries markOf
  let ops ← operations group.name (descriptionOf b) headers (segments b.tags).2
  return { paths := ops.foldl addOperation [], groups := ops.map fun _ => group }

/-- The fragment of a block. -/
def ofBlock (markOf : String → Option Mark) (b : Block) : Except FormatFault Fragment :=
  match b.tags with
  | [] => .ok {}
  | head :: rest =>
    if head.kind? == some .typedef then do
      let (name, d) ← Definition.ofTags head rest
      return { definitions := [(name, d)] }
    else ofOperations markOf b

/-- What a tag of an operation block reports, given whether a route stands in front of it. -/
def tagNotices (opened : Bool) (tag : Tag) : List Notice :=
  match tag.kind? with
  | none => [.unknownTag tag.title]
  | some kind =>
    if kind == .route || kind.isBlockLevel then []
    else if kind.isDefinition then [.misplacedDefinition tag.title]
    else if opened then Operation.notices tag
    else [.beforeRoute tag.title]

/-- Whether a tag of an operation block cannot be read. -/
def isFaulty (opened : Bool) (tag : Tag) : Bool :=
  opened && tag.kind? == some .security && !(securityOf tag.text).isOk

/-- What the tags of an operation block report, up to the first one that cannot be read. -/
def walkNotices (opened : Bool) : List Tag → List Notice
  | [] => []
  | tag :: rest =>
    tagNotices opened tag ++
      if isFaulty opened tag then []
      else walkNotices (opened || tag.kind? == some .route) rest

/-- What the reading of a block reports. -/
def notices (b : Block) : List Notice :=
  match b.tags with
  | [] => []
  | head :: rest =>
    if head.kind? == some .typedef then Definition.notices head rest
    else walkNotices false b.tags

/-- A group as a value. -/
def groupValue (g : Group) : Value :=
  .record [("name", .text g.name), ("description", .text g.description)]

/-- The paths of a fragment as a value. -/
def pathsValue (f : Fragment) : Value :=
  .map (f.paths.map fun (uri, methods) =>
    (.text uri, .map (methods.map fun (method, fields) => (.text method, .map fields))))

/-- The definitions of a fragment as a value. -/
def definitionsValue (f : Fragment) : Value :=
  .map (f.definitions.map fun (name, d) => (.text name, d.toValue))

/-- A fragment as a value. -/
def toValue (f : Fragment) : Value :=
  .record [("paths", f.pathsValue), ("tags", .array (f.groups.map groupValue)),
    ("definitions", f.definitionsValue)]

end Fragment

end ApiDoc
