import ApiDoc.Json.Reader
import ApiDoc.Yaml.Token

/-!
# Scalars of YAML texts

The five ways to write a scalar: plain, in apostrophes, in quotation marks, literal and folded. Each
function takes the text from the start of the scalar on and gives the content of the scalar and the
rest of the text. Line breaks inside a scalar are folded: one becomes a space, and of several the
first is dropped.
-/

namespace ApiDoc.Yaml

/-- The content of a scalar and the text behind it. -/
abbrev Scanned := Except Fault (List Char × List Char)

/-- Characters in front of the content of a scalar. -/
def prepend (front : List Char) : Scanned → Scanned
  | .ok (content, rest) => .ok (front ++ content, rest)
  | .error e => .error e

/-! ## Quoted scalars -/

/-- The line breaks in front of a text, with the spaces and tabs between and behind them, and the
rest. The start of a line must not be a mark of a document. The first argument bounds the lines. -/
def quotedBreaks : Nat → List Char → Scanned
  | 0, s => .ok ([], s)
  | n + 1, s =>
    if isDocumentMark s then .error .malformed
    else
      let s := s.dropWhile fun c => c == ' ' || c == '\t'
      match takeBreak? s with
      | some (b, rest) => prepend [b] (quotedBreaks n rest)
      | none => .ok ([], s)

/-- What a line break in a scalar stands for, given the breaks behind it. -/
def foldBreak (b : Char) (breaks : List Char) : List Char :=
  if b != '\n' then b :: breaks else if breaks.isEmpty then [' '] else breaks

/-- Spaces and tabs in a quoted scalar, or the line breaks that they surround. -/
def quotedSpace (s : List Char) : Scanned :=
  let blanks := s.takeWhile fun c => c == ' ' || c == '\t'
  let rest := s.dropWhile fun c => c == ' ' || c == '\t'
  match takeBreak? rest with
  | some (b, rest) =>
    match quotedBreaks (rest.length + 1) rest with
    | .ok (breaks, rest) => .ok (foldBreak b breaks, rest)
    | .error e => .error e
  | none => if rest.isEmpty then .error .malformed else .ok (blanks, rest)

/-- The character of an escape of one letter. -/
def shortEscape? (c : Char) : Option Char :=
  match c with
  | '0' => some (Char.ofNat 0)
  | 'a' => some (Char.ofNat 7)
  | 'b' => some (Char.ofNat 8)
  | 't' => some '\t'
  | '\t' => some '\t'
  | 'n' => some '\n'
  | 'v' => some (Char.ofNat 11)
  | 'f' => some (Char.ofNat 12)
  | 'r' => some '\r'
  | 'e' => some (Char.ofNat 27)
  | ' ' => some ' '
  | '"' => some '"'
  | '\\' => some '\\'
  | '/' => some '/'
  | 'N' => some (Char.ofNat 0x85)
  | '_' => some (Char.ofNat 0xA0)
  | 'L' => some (Char.ofNat 0x2028)
  | 'P' => some (Char.ofNat 0x2029)
  | _ => none

/-- How many digits an escape by code point has. -/
def escapeDigits? : Char → Option Nat
  | 'x' => some 2
  | 'u' => some 4
  | 'U' => some 8
  | _ => none

/-- The second half of a character beyond the basic plane, as an escape in front of a text, and the
rest. -/
def lowHalf? : List Char → Option (Nat × List Char)
  | '\\' :: 'u' :: a :: b :: c :: d :: rest =>
    match Json.hex4? a b c d with
    | some n => if 0xDC00 ≤ n ∧ n < 0xE000 then some (n, rest) else none
    | none => none
  | _ => none

/-- The character of a code point, and the text behind it. Two halves of a character, each by its
code, give that character, and a half alone gives U+FFFD. -/
def codePoint (n : Nat) (rest : List Char) : List Char × List Char :=
  if 0xD800 ≤ n ∧ n < 0xDC00 then
    match lowHalf? rest with
    | some (m, rest) => ([Char.ofNat (0x10000 + (n - 0xD800) * 1024 + (m - 0xDC00))], rest)
    | none => ([Char.ofNat 0xFFFD], rest)
  else if 0xDC00 ≤ n ∧ n < 0xE000 then ([Char.ofNat 0xFFFD], rest)
  else ([Char.ofNat n], rest)

/-- The character of an escape by code point. There is none beyond the last code point. -/
def codeEscape (digits : Nat) (s : List Char) : Scanned :=
  match (s.take digits).mapM Json.hexValue? with
  | none => .error .malformed
  | some ds =>
    if ds.length < digits then .error .malformed
    else
      let n := ds.foldl (fun n d => 16 * n + d) 0
      if 0x80000000 ≤ n then .error .tooLarge
      else if 0x110000 ≤ n then .error .noSuchValue
      else .ok (codePoint n (s.drop digits))

/-- An escape, from behind its backslash on. A line break is dropped together with the blanks at
the start of the next line. -/
def escape (s : List Char) : Scanned :=
  match s with
  | [] => .error .malformed
  | c :: rest =>
    match shortEscape? c with
    | some d => .ok ([d], rest)
    | none =>
      match escapeDigits? c with
      | some digits => codeEscape digits rest
      | none =>
        match takeBreak? s with
        | some (_, rest) => quotedBreaks (rest.length + 1) rest
        | none => .error .malformed

/-- A scalar in quotation marks, from behind the opening mark on. The first argument bounds the
pieces. -/
def doubleQuoted : Nat → List Char → Scanned
  | 0, _ => .error .malformed
  | _ + 1, [] => .error .malformed
  | n + 1, c :: rest =>
    if c == '"' then .ok ([], rest)
    else if c == '\\' then
      match escape rest with
      | .ok (piece, rest) => prepend piece (doubleQuoted n rest)
      | .error e => .error e
    else if c == ' ' || c == '\t' || isBreak c then
      match quotedSpace (c :: rest) with
      | .ok (piece, rest) => prepend piece (doubleQuoted n rest)
      | .error e => .error e
    else prepend [c] (doubleQuoted n rest)

/-- A scalar in apostrophes, from behind the opening one on. Two apostrophes stand for one. The
first argument bounds the pieces. -/
def singleQuoted : Nat → List Char → Scanned
  | 0, _ => .error .malformed
  | _ + 1, [] => .error .malformed
  | n + 1, c :: rest =>
    if c == '\'' then
      match rest with
      | '\'' :: rest => prepend ['\''] (singleQuoted n rest)
      | _ => .ok ([], rest)
    else if c == ' ' || c == '\t' || isBreak c then
      match quotedSpace (c :: rest) with
      | .ok (piece, rest) => prepend piece (singleQuoted n rest)
      | .error e => .error e
    else prepend [c] (singleQuoted n rest)

/-! ## Plain scalars -/

/-- A character that ends a plain scalar inside brackets or braces. -/
def isFlowMark (c : Char) : Bool :=
  c == ',' || c == '[' || c == ']' || c == '\x7b' || c == '\x7d'

/-- Whether a plain scalar ends in front of a text. -/
def endsPlain (inFlow : Bool) (s : List Char) : Bool :=
  endsToken s ||
    match s with
    | ':' :: rest =>
      endsToken rest || (inFlow && (match rest with | d :: _ => isFlowMark d | [] => false))
    | c :: _ => inFlow && (isFlowMark c || c == '?')
    | [] => true

/-- The longest piece of a plain scalar without blanks, and the rest. -/
def plainPiece (inFlow : Bool) : List Char → List Char × List Char
  | [] => ([], [])
  | c :: rest =>
    if endsPlain inFlow (c :: rest) then ([], c :: rest)
    else
      let (piece, tail) := plainPiece inFlow rest
      (c :: piece, tail)

/-- The line breaks in front of a text, with the spaces between and behind them, the column where
the text goes on, and the rest. There are no breaks if a mark of a document stands at the start of a
line; then the text goes on from that mark. -/
def plainBreaks (column : Nat) : List Char → Option (List Char) × Nat × List Char
  | [] => (some [], column, [])
  | c :: rest =>
    if c == ' ' then plainBreaks (column + 1) rest
    else
      match takeBreak? (c :: rest) with
      | none => (some [], column, c :: rest)
      | some (b, _) =>
        -- Of two characters that end a line together the second one is the break.
        if c == '\r' && rest.head? == some '\n' then plainBreaks column rest
        else if isDocumentMark rest then (none, 0, rest)
        else
          match plainBreaks 0 rest with
          | (some bs, tail) => (some (b :: bs), tail)
          | (none, tail) => (none, tail)

/-- What stands between two pieces of a plain scalar: the content if the scalar may go on, the
column where it would go on if a line ended, and the rest. -/
structure PlainSpace where
  content : List Char
  newLine : Option Nat
  rest : List Char

/-- The space behind a piece of a plain scalar. -/
def plainSpace (s : List Char) : PlainSpace :=
  let spaces := s.takeWhile (· == ' ')
  let tail := s.dropWhile (· == ' ')
  match takeBreak? tail with
  | none => ⟨spaces, none, tail⟩
  | some (b, rest) =>
    if isDocumentMark rest then ⟨[], some 0, rest⟩
    else
      match plainBreaks 0 rest with
      | (some breaks, column, rest) => ⟨foldBreak b breaks, some column, rest⟩
      | (none, column, rest) => ⟨[], some column, rest⟩

/-- The column behind a piece of a plain scalar and spaces. A byte order mark takes no column. -/
def columnAfter (column : Nat) (piece spaces : List Char) : Nat :=
  column + piece.countP (·.toNat != 0xFEFF) + spaces.length

/-- A plain scalar: its content, whether a line ended behind its last piece, and the rest. The
second argument is the least column of the lines behind the first one, the third the column where
the text starts. The first argument bounds the pieces. -/
def plain (inFlow : Bool) : Nat → Int → Nat → List Char → List Char × Bool × List Char
  | 0, _, _, s => ([], false, s)
  | n + 1, indent, column, s =>
    match plainPiece inFlow s with
    | ([], _) => ([], false, s)
    | (piece, tail) =>
      let space := plainSpace tail
      let newLine := space.newLine.isSome
      let column := space.newLine.getD (columnAfter column piece space.content)
      let stops := space.content.isEmpty || space.rest.head? == some '#' ||
        (!inFlow && (column : Int) < indent)
      if stops then (piece, newLine, space.rest)
      else
        match plain inFlow n indent column space.rest with
        | ([], _, _) => (piece, newLine, space.rest)
        | (more, newLine, rest) => (piece ++ space.content ++ more, newLine, rest)

/-! ## Literal and folded scalars -/

/-- What happens to the line breaks at the end of a block scalar. -/
inductive Chomping where
  | clip
  | strip
  | keep
  deriving DecidableEq

/-- The indicators behind the mark of a block scalar: the treatment of its end and its indentation,
and the rest. -/
def blockHeader (s : List Char) : Except Fault (Chomping × Option Nat × List Char) :=
  let chomping? (c : Char) : Option Chomping :=
    if c == '+' then some .keep else if c == '-' then some .strip else none
  let digit? (c : Char) : Option Nat := if c.isDigit then some (c.toNat - 48) else none
  let (chomping, indentation, rest) :=
    match s with
    | a :: rest =>
      match chomping? a with
      | some k =>
        match rest with
        | b :: tail =>
          match digit? b with
          | some d => (k, some d, tail)
          | none => (k, none, rest)
        | [] => (k, none, rest)
      | none =>
        match digit? a with
        | some d =>
          match rest with
          | b :: tail =>
            match chomping? b with
            | some k => (k, some d, tail)
            | none => (.clip, some d, rest)
          | [] => (.clip, some d, rest)
        | none => (.clip, none, s)
    | [] => (.clip, none, s)
  if indentation == some 0 || !endsWord rest then .error .malformed
  else .ok (chomping, indentation, rest)

/-- The text behind the rest of a line that holds spaces and a comment only. -/
def skipLine (s : List Char) : Except Fault (List Char) :=
  let s := s.dropWhile (· == ' ')
  let s := if s.head? == some '#' then s.dropWhile (!isBreak ·) else s
  match takeBreak? s with
  | some (_, rest) => .ok rest
  | none => if s.isEmpty then .ok [] else .error .malformed

/-- The empty lines in front of a block scalar: their line breaks, the greatest column that spaces
lead to, the column where the text goes on, and the rest. The first argument bounds the
characters. -/
def leadingBreaks : Nat → Nat → Nat → List Char → List Char × Nat × Nat × List Char
  | 0, column, greatest, s => ([], greatest, column, s)
  | n + 1, column, greatest, s =>
    match s with
    | ' ' :: rest => leadingBreaks n (column + 1) (max greatest (column + 1)) rest
    | _ =>
      match takeBreak? s with
      | some (b, rest) =>
        let (bs, found) := leadingBreaks n 0 greatest rest
        (b :: bs, found)
      | none => ([], greatest, column, s)

/-- The empty lines inside a block scalar of an indentation: their line breaks, the column where
the text goes on, and the rest. The first argument bounds the characters. -/
def innerBreaks (indent : Nat) : Nat → Nat → List Char → List Char × Nat × List Char
  | 0, column, s => ([], column, s)
  | n + 1, column, s =>
    match s with
    | ' ' :: rest =>
      if column < indent then innerBreaks indent n (column + 1) rest else ([], column, s)
    | _ =>
      match takeBreak? s with
      | some (b, rest) =>
        let (bs, found) := innerBreaks indent n 0 rest
        (b :: bs, found)
      | none => ([], column, s)

/-- The line break at the end of a block scalar and the breaks behind it, as far as they are
kept. -/
def chomp (chomping : Chomping) (lineBreak breaks : List Char) : List Char :=
  match chomping with
  | .strip => []
  | .clip => lineBreak
  | .keep => lineBreak ++ breaks

/-- The lines of a block scalar, from the empty lines in front of the first one on. The first
argument bounds the lines. -/
def blockLines (folded : Bool) (chomping : Chomping) (indent : Nat) :
    Nat → List Char → List Char → Nat → List Char → List Char × Nat × List Char
  | 0, lineBreak, breaks, column, s => (chomp chomping lineBreak breaks, column, s)
  | n + 1, lineBreak, breaks, column, s =>
    if column != indent || s.isEmpty then (chomp chomping lineBreak breaks, column, s)
    else
      let content := s.takeWhile (!isBreak ·)
      let tail := s.dropWhile (!isBreak ·)
      let startsBlank (t : List Char) : Bool := t.head? == some ' ' || t.head? == some '\t'
      let (newBreak, tail, column) :=
        match takeBreak? tail with
        | some (b, rest) => ([b], rest, 0)
        | none => ([], tail, column + content.length)
      let (newBreaks, column, tail) := innerBreaks indent (tail.length + 1) column tail
      let goesOn := column == indent && !tail.isEmpty
      let joint :=
        if !goesOn then []
        else if folded && newBreak == ['\n'] && !startsBlank s && !startsBlank tail then
          (if newBreaks.isEmpty then [' '] else [])
        else newBreak
      let (more, found) := blockLines folded chomping indent n newBreak newBreaks column tail
      (breaks ++ content ++ joint ++ more, found)

/-- A literal or folded scalar, from behind its mark on: its content and the rest. The second
argument is the indentation of the block around it. -/
def blockScalar (folded : Bool) (around : Int) (s : List Char) : Scanned := do
  let (chomping, indentation, s) ← blockHeader s
  let s ← skipLine s
  let least : Nat := (max (around + 1) 1).toNat
  let limit := s.length + 1
  let (breaks, indent, column, s) :=
    match indentation with
    | none =>
      let (breaks, greatest, column, s) := leadingBreaks limit 0 0 s
      (breaks, max least greatest, column, s)
    | some d =>
      let indent := least + d - 1
      let (breaks, column, s) := innerBreaks indent limit 0 s
      (breaks, indent, column, s)
  let (content, _, s) := blockLines folded chomping indent limit [] breaks column s
  return (content, s)

end ApiDoc.Yaml
