/-!
# Wildcards

A pattern for one name: `*` stands for any characters, `?` for one, and brackets for one of a
class. In brackets a hyphen between two characters makes a range, and `!` in front takes all
characters but those of the class. A bracket that is never closed stands for itself.
-/

namespace ApiDoc

/-- A class of characters. -/
structure CharClass where
  negated : Bool
  singles : List Char
  ranges : List (Char × Char)
  deriving DecidableEq, Repr

/-- Whether a class has a character. -/
def CharClass.has (k : CharClass) (c : Char) : Bool :=
  (k.singles.contains c || k.ranges.any fun (low, high) => low ≤ c && c ≤ high) != k.negated

/-- A part of a pattern. -/
inductive Wildcard where
  | star
  | any
  | oneOf (k : CharClass)
  | char (c : Char)
  deriving DecidableEq, Repr

namespace Wildcard

/-- The text in front of the first hyphen behind at least `skip` characters, and the text behind
it. -/
def cutHyphen : Nat → List Char → Option (List Char × List Char)
  | _, [] => none
  | 0, c :: rest =>
    if c == '-' then some ([], rest) else (cutHyphen 0 rest).map fun (a, b) => (c :: a, b)
  | skip + 1, c :: rest => (cutHyphen skip rest).map fun (a, b) => (c :: a, b)

/-- The chunks of a class between the hyphens that make ranges: such a hyphen has at least one
character in front of it, and two since the last one. The first argument bounds the chunks. -/
def chunks : Nat → Nat → List Char → List (List Char)
  | 0, _, s => [s]
  | n + 1, skip, s =>
    match cutHyphen skip s with
    | some (chunk, rest) => chunk :: chunks n 2 rest
    | none => [s]

/-- The chunks where a hyphen at the end belongs to the chunk in front of it. -/
def closeLast : List (List Char) → List (List Char)
  | [] => []
  | [chunk, []] => [chunk ++ ['-']]
  | chunk :: rest => chunk :: closeLast rest

/-- A chunk in front of others; a range that would be empty is taken out with both its ends. -/
def consChunk (chunk : List Char) : List (List Char) → List (List Char)
  | [] => [chunk]
  | next :: rest =>
    match chunk.getLast?, next with
    | some low, high :: tail =>
      if high < low then (chunk.dropLast ++ tail) :: rest else chunk :: next :: rest
    | _, _ => chunk :: next :: rest

/-- The ranges between neighbouring chunks. -/
def rangesOf : List (List Char) → List (Char × Char)
  | chunk :: next :: rest =>
    match chunk.getLast?, next with
    | some low, high :: _ => (low, high) :: rangesOf (next :: rest)
    | _, _ => rangesOf (next :: rest)
  | _ => []

/-- The class of chunks. The sign of negation stands in front of what is left when empty ranges
have been taken out; a hyphen right behind it stands for itself. -/
def classOfChunks : List (List Char) → CharClass
  | ['!'] :: next :: rest => ⟨true, '-' :: (next :: rest).flatten, rangesOf (next :: rest)⟩
  | ('!' :: chunk) :: rest => ⟨true, (chunk :: rest).flatten, rangesOf (chunk :: rest)⟩
  | parts => ⟨false, parts.flatten, rangesOf parts⟩

/-- The class of the text between brackets. A hyphen right at the start, or right behind `!`, makes
no range. -/
def classOf (s : List Char) : CharClass :=
  let skip := if s.head? == some '!' then 2 else 1
  classOfChunks ((closeLast (chunks s.length skip s)).foldr consChunk [])

/-- The text up to the bracket that closes a class, and the text behind it. A bracket right at the
start, or right behind `!`, belongs to the class. -/
def toBracket (s : List Char) : Option (List Char × List Char) :=
  let (front, rest) :=
    match s with
    | '!' :: ']' :: rest => (['!', ']'], rest)
    | '!' :: rest => (['!'], rest)
    | ']' :: rest => ([']'], rest)
    | _ => ([], s)
  match rest.dropWhile (· != ']') with
  | [] => none
  | _ :: tail => some (front ++ rest.takeWhile (· != ']'), tail)

/-- The parts of a pattern. The first argument bounds them. -/
def parseWithin : Nat → List Char → List Wildcard
  | _, [] => []
  | 0, _ => []
  | n + 1, c :: rest =>
    if c == '*' then .star :: parseWithin n rest
    else if c == '?' then .any :: parseWithin n rest
    else if c == '[' then
      match toBracket rest with
      | some (inside, tail) => .oneOf (classOf inside) :: parseWithin n tail
      | none => .char c :: parseWithin n rest
    else .char c :: parseWithin n rest

/-- The parts of a pattern. -/
def parse (s : List Char) : List Wildcard := parseWithin s.length s

/-- Whether a part that stands for one character stands for this one. -/
def hasChar : Wildcard → Char → Bool
  | .star, _ => false
  | .any, _ => true
  | .oneOf k, c => k.has c
  | .char d, c => d == c

/-- Which places of a pattern are reached before any character, from a place on that is reached or
not. A star may stand for nothing. -/
def reachedAtStart (reached : Bool) : List Wildcard → List Bool
  | [] => [reached]
  | p :: ps => reached :: reachedAtStart (reached && p == .star) ps

/-- Which places of a pattern are reached behind a character, given those that were reached before
it. A star stays in its place or is left behind; any other part takes the character. -/
def reachedBehind (c : Char) (reached : Bool) : List Wildcard → List Bool → List Bool
  | p :: ps, before :: rest =>
    let next := if p == .star then reached || rest.headD false else before && hasChar p c
    reached :: reachedBehind c next ps rest
  | _, _ => [reached]

/-- Whether a pattern stands for a text: the text leads to the last place of the pattern. -/
def accepts (ps : List Wildcard) (s : List Char) : Bool :=
  (s.foldl (fun row c => reachedBehind c false ps row) (reachedAtStart true ps)).getLastD false

/-- Whether a text has a character with a meaning in patterns. -/
def isPattern (s : List Char) : Bool := s.any fun c => c == '*' || c == '?' || c == '['

end Wildcard

end ApiDoc
