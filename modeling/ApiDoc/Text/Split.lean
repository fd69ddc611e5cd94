import ApiDoc.Text.Blank

/-!
# Splitting

Cuts of a text at separators. A cut at every separator has one part more than there are
separators; a cut at the first one has the text before it and, if there is one, the text after.
-/

namespace ApiDoc.Text

/-- The parts between the characters of a class. There is always at least one part. -/
def splitWhere (p : Char → Bool) : List Char → List (List Char)
  | [] => [[]]
  | c :: rest =>
    if p c then [] :: splitWhere p rest
    else
      match splitWhere p rest with
      | [] => [[c]]
      | part :: parts => (c :: part) :: parts

/-- The parts between the occurrences of one character. -/
def splitAll (sep : Char) (s : List Char) : List (List Char) := splitWhere (· == sep) s

/-- The text before the first occurrence of a character, and the text after it. -/
def splitFirst (sep : Char) : List Char → List Char × Option (List Char)
  | [] => ([], none)
  | c :: rest =>
    if c == sep then ([], some rest)
    else
      let (before, after) := splitFirst sep rest
      (c :: before, after)

/-- The maximal runs of characters that are not blank. -/
def words (s : List Char) : List (List Char) := (splitWhere isBlank s).filter (!·.isEmpty)

/-- What follows an opening text, if the text starts with it. -/
def after? : List Char → List Char → Option (List Char)
  | [], s => some s
  | _ :: _, [] => none
  | n :: needle, c :: rest => if n == c then after? needle rest else none

/-- The text before the first occurrence of a needle, and the text after it. -/
def cut? (needle : List Char) : List Char → Option (List Char × List Char)
  | [] => if needle.isEmpty then some ([], []) else none
  | c :: rest =>
    match after? needle (c :: rest) with
    | some tail => some ([], tail)
    | none => (cut? needle rest).map fun (before, tail) => (c :: before, tail)

/-- Whether a text occurs in another one. -/
def occursIn (needle s : List Char) : Bool := (cut? needle s).isSome

end ApiDoc.Text
