import ApiDoc.Text.Split

/-!
# Enumerations and examples

A description may end with a marker and an example: a hyphen, `eg:` and a text. For an enumeration
that text lists the values, perhaps with their type in front, as in `- eg: integer:1,2`.
-/

namespace ApiDoc

/-- The text behind an example marker that a text starts with, without the blanks behind it. -/
def afterMarker? : List Char → Option (List Char)
  | '-' :: rest =>
    match Text.trimStart rest with
    | 'e' :: 'g' :: ':' :: tail => some (Text.trimStart tail)
    | _ => none
  | _ => none

/-- The text in front of the first example marker, and the text behind it. -/
def splitExample : List Char → List Char × Option (List Char)
  | [] => ([], none)
  | c :: rest =>
    match afterMarker? (c :: rest) with
    | some tail => ([], some tail)
    | none =>
      let (before, tail) := splitExample rest
      (c :: before, tail)

/-- A type whose values may be enumerated. -/
structure Enumeration where
  type : String
  values : Option (List String)
  deriving DecidableEq, Repr

/-- The enumeration of a list of values, perhaps with their type in front. -/
def Enumeration.ofList (spec : List Char) : Enumeration :=
  let (type, values) :=
    match Text.splitFirst ':' spec with
    | (type, some values) => (Text.trim type, values)
    | (_, none) => ("string".toList, spec)
  ⟨if type.isEmpty then "string" else String.ofList type,
    some ((Text.splitAll ',' values).map fun v => String.ofList (Text.trim v))⟩

/-- The enumeration at the end of a description. Without a marker, or with nothing behind it, there
are no values and the type is `string`. -/
def Enumeration.ofText (s : List Char) : Enumeration :=
  match splitExample s with
  | (_, none) => ⟨"string", none⟩
  | (_, some tail) =>
    match Text.trim tail with
    | [] => ⟨"string", none⟩
    | spec => .ofList spec

end ApiDoc
