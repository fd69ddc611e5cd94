import ApiDoc.Tag.Kind
import ApiDoc.Tag.Route
import ApiDoc.Text.Digit
import ApiDoc.Text.Word
import ApiDoc.TypeExpr.Schema

/-!
# Responses and their headers

A header tag reads `{type} code.Name - description` and adds a header to the responses with that
status code in the whole block. The reading of headers stops at the first header tag that is
malformed. A response tag reads `code - description`.
-/

namespace ApiDoc

/-- A response header. -/
structure Header where
  type : String
  description : Option String
  deriving DecidableEq, Repr

/-- A header as a value. -/
def Header.toValue (h : Header) : Value :=
  .record (("type", .text h.type) ::
    (h.description.elim [] fun d => [("description", .text d)]))

/-- The text behind blanks, a hyphen and blanks, if the text starts with them. -/
def afterHyphen? (s : List Char) : Option (List Char) :=
  match s with
  | c :: _ =>
    if Text.isBlank c then
      match Text.trimStart s with
      | '-' :: d :: rest => if Text.isBlank d then some (Text.trimStart rest) else none
      | _ => none
    else none
  | [] => none

/-- The text in front of the first hyphen between blanks, and the text behind it. -/
def splitHyphen : List Char → List Char × Option (List Char)
  | [] => ([], none)
  | c :: rest =>
    (afterHyphen? (c :: rest)).elim ((splitHyphen rest).map (c :: ·) id) fun tail =>
      ([], some tail)

/-- The first run of characters of a class. -/
def firstRun (p : Char → Bool) (s : List Char) : List Char :=
  (s.dropWhile (!p ·)).takeWhile p

/-- The status code, the name and the content of the header that a text declares, or none if the
text is malformed: if it has no dot, or no digit in front of the dot. -/
def Header.ofText? (s : List Char) : Option (String × String × Header) :=
  let (target, rest) := splitHyphen s
  match Text.splitAll '.' target with
  | front :: name :: _ =>
    let type := firstRun Text.isWord front
    let code := firstRun Text.isDecimal front
    if type.isEmpty || code.isEmpty then none
    else
      some (String.ofList code, String.ofList name,
        ⟨String.ofList type, rest.map fun r => String.ofList (splitHyphen r).1⟩)
  | _ => none

/-- Headers by status code and name. -/
abbrev HeaderTable := Assoc String (Assoc String Header)

/-- The table with one header more. -/
def HeaderTable.add (table : HeaderTable) (code name : String) (header : Header) : HeaderTable :=
  Assoc.insert code (Assoc.insert name header ((Assoc.get? code table).getD [])) table

/-- The headers that tags declare up to the first malformed one, on top of a table. -/
def HeaderTable.addTags (table : HeaderTable) : List Tag → HeaderTable
  | [] => table
  | tag :: rest =>
    if tag.kind?.any (·.isHeader) then
      match Header.ofText? tag.text with
      | some (code, name, header) => (table.add code name header).addTags rest
      | none => table
    else table.addTags rest

/-- The headers of a block. -/
def HeaderTable.ofTags (tags : List Tag) : HeaderTable := HeaderTable.addTags [] tags

/-- The headers of one status code as a value. -/
def headersValue (mark : Option Mark) (headers : Assoc String Header) : Value :=
  .object mark (headers.map fun (name, h) => (.text name, h.toValue))

/-- The headers of each status code as values. -/
def HeaderTable.toEntries (markOf : String → Option Mark) (table : HeaderTable) :
    List (Atom × Value) :=
  table.map fun (code, headers) => (.text code, headersValue (markOf code) headers)

/-- A response of an operation. -/
structure Response where
  description : String
  headers : Option Value
  schema : Option Schema

/-- The status code and the response that a tag declares, given the headers of each status code. -/
def Response.ofTag (headers : List (Atom × Value)) (tag : Tag) : String × Response :=
  let (code, description) := hyphenParts tag.text
  (String.ofList code,
    { description := String.ofList description
      headers := Assoc.get? (.text (String.ofList code)) headers
      schema := schemaOf? tag.type })

/-- A response as a value. -/
def Response.toValue (r : Response) : Value :=
  .record (("description", .text r.description) ::
    ((r.headers.elim [] fun h => [("headers", h)]) ++
      r.schema.elim [] fun s => [("schema", s.toValue)]))

end ApiDoc
