import ApiDoc.Comment.Basic
import ApiDoc.Comment.Extract
import ApiDoc.Notice
import ApiDoc.TypeExpr.Parser

/-!
# Reading comments

The text of a comment is a description and sections. A line whose first character is `@` opens a
section, and the lines up to the next one belong to it. A section reads
`@title {type} name - description`; which titles have a type and a name is fixed. Reading is
lenient: a type that cannot be read is left out and reported, and a section without a title is
dropped.

Main definitions: `blocks` for the comments of a text, `notices` for what their reading reports.
-/

namespace ApiDoc.Comment

/-- The titles whose text may start with a type in braces. -/
def typedTitles : List String :=
  ["param", "arg", "argument", "returns", "return", "property", "prop", "typedef", "type"]

/-- The titles whose text has a name behind the type. -/
def namedTitles : List String := ["param", "arg", "argument", "property", "prop", "typedef"]

/-- The title that a title stands for. -/
def canonicalTitle : String → String
  | "arg" => "param"
  | "argument" => "param"
  | "prop" => "property"
  | title => title

/-- Whether a line opens a section. -/
def opensSection (line : List Char) : Bool := (Text.trimStart line).head? == some '@'

/-- The lines in front of the first section, and the sections. -/
def sections : List (List Char) → List (List Char) × List (List Char)
  | [] => ([], [])
  | line :: rest =>
    if opensSection line then
      let (more, following) := sections rest
      ([], Text.unlines (Text.trimStart line :: more) :: following)
    else
      let (more, following) := sections rest
      (line :: more, following)

/-- The text in front of the brace that closes `depth` open ones, and the text behind it. -/
def toClosingBrace : Nat → List Char → Option (List Char × List Char)
  | _, [] => none
  | depth, c :: rest =>
    if c == '\x7b' then
      (toClosingBrace (depth + 1) rest).map fun (inner, tail) => (c :: inner, tail)
    else if c == '\x7d' then
      if depth ≤ 1 then some ([], rest)
      else (toClosingBrace (depth - 1) rest).map fun (inner, tail) => (c :: inner, tail)
    else (toClosingBrace depth rest).map fun (inner, tail) => (c :: inner, tail)

/-- The text in the braces that a text starts with, and the text behind them, both trimmed. Braces
inside are matched; without the closing brace there is no such text. -/
def takeBraced : List Char → Option (List Char) × List Char
  | [] => (none, [])
  | c :: rest =>
    if c == '\x7b' then
      match toClosingBrace 1 rest with
      | some (inner, tail) => (some (Text.trim inner), Text.trim tail)
      | none => (none, c :: rest)
    else (none, c :: rest)

/-- A section whose title has been read: the title, and the trimmed text behind it. -/
structure Section where
  title : String
  body : List Char

/-- The title of a section and the text behind it. A section without a title is none. -/
def Section.ofText? (s : List Char) : Option Section :=
  match Text.trim s with
  | '@' :: rest =>
    match rest.takeWhile Text.isWord with
    | [] => none
    | title =>
      some ⟨canonicalTitle (String.ofList title), Text.trim (rest.dropWhile Text.isWord)⟩
  | _ => none

/-- The text of the type, and the text behind it. -/
def Section.typeText (s : Section) : Option (List Char) × List Char :=
  if typedTitles.contains s.title then takeBraced s.body else (none, s.body)

/-- A name in front of a text: in brackets, or up to the first blank; and the text behind it. -/
def takeName (s : List Char) : List Char × List Char :=
  match s with
  | '[' :: rest =>
    match Text.splitFirst ']' rest with
    | (inner, some tail) => ('[' :: (inner ++ [']']), Text.trimStart tail)
    | (_, none) =>
      (s.takeWhile (!Text.isBlank ·), Text.trimStart (s.dropWhile (!Text.isBlank ·)))
  | _ => (s.takeWhile (!Text.isBlank ·), Text.trimStart (s.dropWhile (!Text.isBlank ·)))

/-- A name without the brackets around it and without its default. -/
def plainName (name : List Char) : List Char :=
  (Text.splitFirst '=' (Text.trimBy (fun c => c == '[' || c == ']') name)).1

/-- A text without the hyphen and the blanks behind it that it may start with. -/
def stripHyphen : List Char → List Char
  | '-' :: c :: rest => if Text.isBlank c then Text.trimStart rest else '-' :: c :: rest
  | s => s

/-- A text, or none if it is empty. -/
def textOrNone (s : List Char) : Option String :=
  if s.isEmpty then none else some (String.ofList s)

/-- The tag of a section. -/
def Section.tag (s : Section) : Tag :=
  let (typeText, rest) := s.typeText
  let (name, rest) :=
    if namedTitles.contains s.title then
      let (name, rest) := takeName rest
      (textOrNone (plainName name), rest)
    else (none, rest)
  { title := s.title
    name := name
    description := textOrNone (stripHyphen (Text.trim rest))
    type := typeText.bind fun t => (TypeExpr.parse t).toOption }

/-- What the reading of a section reports. -/
def Section.notices (s : Section) : List Notice :=
  match s.typeText.1 with
  | none => []
  | some t =>
    match TypeExpr.parse t with
    | .ok _ => []
    | .error fault => [.malformedType (String.ofList t) fault]

/-- The sections of a comment that have a title. -/
def titledSections (content : List Char) : List Section :=
  (sections (Text.lines (unwrap content))).2.filterMap Section.ofText?

/-- The block of a comment with that content. -/
def block (content : List Char) : Block :=
  { description :=
      String.ofList (Text.trim (Text.unlines (sections (Text.lines (unwrap content))).1))
    tags := (titledSections content).map Section.tag
    source := String.ofList (['/', '*', '*'] ++ content ++ ['*', '/']) }

/-- The documentation comments of a text. -/
def blocks (s : List Char) : List Block := (contents s).map block

/-- What the reading of the comments of a text reports. -/
def notices (s : List Char) : List Notice :=
  (contents s).flatMap fun content => (titledSections content).flatMap Section.notices

end ApiDoc.Comment
