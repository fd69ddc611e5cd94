import ApiDoc.Text.Utf8
import ApiDoc.Yaml.Scalar

/-!
# From YAML text to tokens

The scanner keeps the position, the columns of the open blocks and, for each level of brackets, the
place where a key may have started. A colon behind such a place makes it a key; that is known only
later, so the place gets a number of its own among the tokens, and the numbers that turned out to be
keys are put in at the end.

A text may stop making sense in the middle. What stands in front of that is read all the same, since
a fault there comes first; the tokens then end with the fault. But no token is read as long as it is
open whether it starts a key, so the fault stands in front of the first such token.

Main definition: `scan`.
-/

namespace ApiDoc.Yaml

/-- A place where a key may have started. -/
structure KeyStart where
  id : Nat
  required : Bool
  index : Nat
  line : Nat
  column : Nat

/-- The state of the scanner. Tokens come last first; `keys` has one place for each level of
brackets, innermost first; `found` holds the places that turned out to be keys, each with whether a
mapping starts there. -/
structure Scanner where
  rest : List Char
  index : Nat := 0
  line : Nat := 0
  column : Nat := 0
  flow : Nat := 0
  indent : Int := -1
  indents : List Int := []
  allowKey : Bool := true
  keys : List (Option KeyStart) := [none]
  nextId : Nat := 0
  found : List (Nat × Bool) := []
  tokens : List Token := []

namespace Scanner

/-! ## Moving -/

/-- The scanner behind one character. -/
def forward (s : Scanner) : Scanner :=
  match s.rest with
  | [] => s
  | c :: rest =>
    if isBreak c && !(c == '\r' && rest.head? == some '\n') then
      { s with rest := rest, index := s.index + 1, line := s.line + 1, column := 0 }
    else
      { s with
        rest := rest
        index := s.index + 1
        column := if c.toNat == 0xFEFF then s.column else s.column + 1 }

/-- The scanner behind a number of characters. -/
def skip : Nat → Scanner → Scanner
  | 0, s => s
  | n + 1, s => skip n s.forward

/-- The scanner in front of a rest of its text. -/
def moveTo (s : Scanner) (rest : List Char) : Scanner := skip (s.rest.length - rest.length) s

/-- The scanner behind the characters in front of it that satisfy a test. -/
def skipWhile (p : Char → Bool) (s : Scanner) : Scanner := skip (s.rest.takeWhile p).length s

/-- The scanner with one token more. -/
def emit (s : Scanner) (t : Token) : Scanner := { s with tokens := t :: s.tokens }

/-- The scanner in front of the next token: behind spaces, comments and line breaks. A line break
outside of brackets lets a key start. The first argument bounds the lines. -/
def toToken : Nat → Scanner → Scanner
  | 0, s => s
  | n + 1, s =>
    let s := s.skipWhile (· == ' ')
    let s := if s.rest.head? == some '#' then s.skipWhile (!isBreak ·) else s
    if s.rest.head?.any isBreak then
      let s := s.forward
      toToken n (if s.flow == 0 then { s with allowKey := true } else s)
    else s

/-! ## Keys -/

/-- The place on the current level where a key may have started. -/
def currentKey (s : Scanner) : Option KeyStart := s.keys.head?.join

/-- The scanner with another place on the current level. -/
def setKey (s : Scanner) (k : Option KeyStart) : Scanner :=
  { s with keys := k :: s.keys.tail }

/-- The scanner without the place on the current level, which must not need a key. -/
def dropKey (s : Scanner) : Except Fault Scanner :=
  match s.currentKey with
  | some k => if k.required then .error .malformed else .ok (s.setKey none)
  | none => .ok s

/-- The scanner without the places that are too far back for a key: on another line, or more than
1024 characters away. -/
def dropStale (s : Scanner) : Except Fault Scanner := do
  let keys ← s.keys.mapM fun (k : Option KeyStart) =>
    match k with
    | none => pure none
    | some k =>
      if k.line != s.line || s.index > k.index + 1024 then
        if k.required then throw Fault.malformed else pure none
      else pure (some k)
  return { s with keys := keys }

/-- The scanner with a place here, if a key may start here. -/
def saveKey (s : Scanner) : Except Fault Scanner :=
  if s.allowKey then do
    let required := s.flow == 0 && s.indent == (s.column : Int)
    let s ← s.dropKey
    let s := s.setKey (some ⟨s.nextId, required, s.index, s.line, s.column⟩)
    return { s.emit (.candidate s.nextId) with nextId := s.nextId + 1 }
  else .ok s

/-! ## Blocks -/

/-- The end of the blocks that start behind a column. -/
def closeBlocks (column : Int) : List Int → Scanner → Scanner
  | [], s => s
  | outer :: rest, s =>
    if column < s.indent then
      closeBlocks column rest { s.emit .blockEnd with indent := outer, indents := rest }
    else s

/-- The end of the blocks that start behind a column, outside of brackets. -/
def unwind (s : Scanner) (column : Int) : Scanner :=
  if s.flow == 0 then closeBlocks column s.indents s else s

/-- Whether a block at a column is a new one, and the scanner with it. -/
def openBlock (s : Scanner) (column : Int) : Bool × Scanner :=
  if s.indent < column then
    (true, { s with indents := s.indent :: s.indents, indent := column })
  else (false, s)

/-- The scanner inside a block at its column, with a token if the block is a new one. -/
def enterBlock (s : Scanner) (start : Token) : Except Fault Scanner :=
  if s.flow == 0 then
    if !s.allowKey then .error .malformed
    else
      match s.openBlock s.column with
      | (true, s) => .ok (s.emit start)
      | (false, s) => .ok s
  else .ok s

/-! ## Tokens -/

/-- A mark of a document. -/
def documentMark (s : Scanner) (t : Token) : Except Fault Scanner := do
  let s ← (s.unwind (-1)).dropKey
  return (skip 3 { s with allowKey := false }).emit t

/-- The start of a list or mapping in brackets. -/
def flowStart (s : Scanner) (t : Token) : Except Fault Scanner := do
  let s ← s.saveKey
  return ({ s with flow := s.flow + 1, keys := none :: s.keys, allowKey := true }).forward.emit t

/-- The end of a list or mapping in brackets. -/
def flowEnd (s : Scanner) (t : Token) : Except Fault Scanner := do
  let s ← s.dropKey
  if s.flow == 0 then throw .malformed
  return ({ s with flow := s.flow - 1, keys := s.keys.tail, allowKey := false }).forward.emit t

/-- A comma. -/
def flowEntry (s : Scanner) : Except Fault Scanner := do
  let s ← s.dropKey
  return ({ s with allowKey := true }).forward.emit .flowEntry

/-- A hyphen in front of an item. -/
def blockEntry (s : Scanner) : Except Fault Scanner := do
  let s ← s.enterBlock .blockSequenceStart
  let s ← s.dropKey
  return ({ s with allowKey := true }).forward.emit .blockEntry

/-- A question mark in front of a key. -/
def keyMark (s : Scanner) : Except Fault Scanner := do
  let s ← s.enterBlock .blockMappingStart
  let s ← s.dropKey
  return ({ s with allowKey := s.flow == 0 }).forward.emit .key

/-- A colon in front of a value. -/
def valueMark (s : Scanner) : Except Fault Scanner :=
  match s.currentKey with
  | some k =>
    let s := s.setKey none
    let (starts, s) := if s.flow == 0 then s.openBlock k.column else (false, s)
    .ok (({ s with found := (k.id, starts) :: s.found, allowKey := false }).forward.emit .value)
  | none => do
    let s ← s.enterBlock .blockMappingStart
    let s ← s.dropKey
    return ({ s with allowKey := s.flow == 0 }).forward.emit .value

/-- Whether the name of an anchor or alias may end in front of a text. -/
def endsName (s : List Char) : Bool :=
  endsToken s ||
    match s with
    | c :: _ => "?:,]\x7d%@`".toList.contains c
    | [] => true

/-- The name behind the mark of an anchor or alias. -/
def named (s : Scanner) (t : String → Token) : Except Fault Scanner := do
  let s ← s.saveKey
  let s := { s with allowKey := false }.forward
  let name := s.rest.takeWhile isNameChar
  let s := s.skipWhile isNameChar
  if name.isEmpty || !endsName s.rest then throw .malformed
  return s.emit (t (String.ofList name))

/-- A character of the name of a tag, escapes apart. -/
def isUriChar (c : Char) : Bool := c.isAlphanum || "-;/?:@&=+$,_.!~*'()[]".toList.contains c

/-- The bytes of escapes in front of a text, and the rest. -/
def uriEscapes : List Char → Except Fault (List Nat × List Char)
  | '%' :: a :: b :: rest =>
    match Json.hexValue? a, Json.hexValue? b with
    | some x, some y => do
      let (bytes, rest) ← uriEscapes rest
      return ((16 * x + y) :: bytes, rest)
    | _, _ => .error .malformed
  | '%' :: _ => .error .malformed
  | s => .ok ([], s)

/-- The name of a tag in front of a text, and the rest. The first argument bounds the pieces. -/
def uri : Nat → List Char → Scanned
  | 0, s => .ok ([], s)
  | n + 1, s =>
    match s with
    | '%' :: _ => do
      let (bytes, rest) ← uriEscapes s
      match (Text.utf8Pieces 0 bytes).mapM id with
      | some cs => prepend cs (uri n rest)
      | none => throw .malformed
    | c :: rest => if isUriChar c then prepend [c] (uri n rest) else .ok ([], s)
    | [] => .ok ([], s)

/-- The name of a tag, which must not be empty. -/
def someUri (s : List Char) : Scanned := do
  let (name, rest) ← uri (s.length + 1) s
  if name.isEmpty then throw .malformed
  return (name, rest)

/-- The handle of a tag in front of a text, and the rest. -/
def handle (s : List Char) : Scanned :=
  match s with
  | '!' :: rest =>
    match rest with
    | ' ' :: _ => .ok (['!'], rest)
    | _ =>
      let name := rest.takeWhile isNameChar
      match rest.dropWhile isNameChar with
      | '!' :: tail => .ok ('!' :: (name ++ ['!']), tail)
      | _ => .error .malformed
  | _ => .error .malformed

/-- The handle and the name of a tag in front of a text, and the rest. -/
def tagParts (s : List Char) : Except Fault (Option String × String × List Char) :=
  match s with
  | '!' :: '<' :: rest => do
    let (name, rest) ← someUri rest
    match rest with
    | '>' :: rest => return (none, String.ofList name, rest)
    | _ => throw .malformed
  | '!' :: rest =>
    if endsToken rest then .ok (none, "!", rest)
    else do
      let word := rest.takeWhile fun c => !(c == ' ' || isBreak c)
      let (h, tail) ← if word.contains '!' then handle s else .ok (['!'], rest)
      let (name, tail) ← someUri tail
      return (some (String.ofList h), String.ofList name, tail)
  | _ => .error .malformed

/-- A tag. -/
def tag (s : Scanner) : Except Fault Scanner := do
  let s ← s.saveKey
  let (h, name, rest) ← tagParts s.rest
  if !endsWord rest then throw .malformed
  return (({ s with allowKey := false }).moveTo rest).emit (.tag h name)

/-- A number of a version in front of a text, and the rest. -/
def versionNumber (s : List Char) : Except Fault (Nat × List Char) :=
  let digits := s.takeWhile Char.isDigit
  if digits.isEmpty then .error .malformed
  else if Numeral.maxDigits < digits.length then .error .noSuchValue
  else .ok (Numeral.ofDigits (Json.digitValues digits), s.dropWhile Char.isDigit)

/-- A directive, from behind its mark on, and the rest of its line. -/
def directiveParts (s : List Char) : Except Fault (Token × List Char) := do
  let name := s.takeWhile isNameChar
  let rest := s.dropWhile isNameChar
  if name.isEmpty || !endsWord rest then throw .malformed
  if name == "YAML".toList then
    let rest := rest.dropWhile (· == ' ')
    let (major, rest) ← versionNumber rest
    match rest with
    | '.' :: rest =>
      let (_, rest) ← versionNumber rest
      if !endsWord rest then throw .malformed
      return (.version major, rest)
    | _ => throw .malformed
  else if name == "TAG".toList then
    let (h, rest) ← handle (rest.dropWhile (· == ' '))
    if rest.head? != some ' ' then throw .malformed
    let (expansion, rest) ← someUri (rest.dropWhile (· == ' '))
    if !endsWord rest then throw .malformed
    return (.tagHandle (String.ofList h) (String.ofList expansion), rest)
  else return (.otherDirective, rest.dropWhile (!isBreak ·))

/-- A directive. -/
def directive (s : Scanner) : Except Fault Scanner := do
  let s ← (s.unwind (-1)).dropKey
  let (t, rest) ← directiveParts s.rest.tail
  let rest ← skipLine rest
  return (({ s with allowKey := false }).moveTo rest).emit t

/-- A literal or folded scalar. -/
def blockText (s : Scanner) (folded : Bool) : Except Fault Scanner := do
  let s ← s.dropKey
  let (content, rest) ← blockScalar folded s.indent s.rest.tail
  return (({ s with allowKey := true }).moveTo rest).emit (.scalar (String.ofList content) false)

/-- A scalar in apostrophes or quotation marks, of which `read` knows the bound. -/
def quotedText (s : Scanner) (read : List Char → Scanned) : Except Fault Scanner := do
  let s ← s.saveKey
  let (content, rest) ← read s.rest.tail
  return (({ s with allowKey := false }).moveTo rest).emit (.scalar (String.ofList content) false)

/-- A plain scalar. The first argument bounds its pieces. -/
def plainText (limit : Nat) (s : Scanner) : Except Fault Scanner := do
  let s ← s.saveKey
  let (content, newLine, rest) := plain (s.flow != 0) limit (s.indent + 1) s.column s.rest
  return (({ s with allowKey := newLine }).moveTo rest).emit (.scalar (String.ofList content) true)

/-- Whether a plain scalar may start with a text. -/
def startsPlain (inFlow : Bool) (s : List Char) : Bool :=
  match s with
  | [] => false
  | c :: rest =>
    !(endsToken s || "-?:,[]\x7b\x7d#&*!|>'\"%@`".toList.contains c) ||
      (!endsToken rest && (c == '-' || (!inFlow && (c == '?' || c == ':'))))

/-- The scanner behind the next token, whose first character is here. The first argument bounds the
characters of the token. -/
def step (limit : Nat) (s : Scanner) : Except Fault Scanner :=
  match s.rest with
  | [] => .ok s
  | c :: rest =>
    if c == '%' && s.column == 0 then s.directive
    else if c == '-' && s.column == 0 && isDocumentMark s.rest then s.documentMark .documentStart
    else if c == '.' && s.column == 0 && isDocumentMark s.rest then s.documentMark .documentEnd
    else if c == '[' then s.flowStart .flowSequenceStart
    else if c == '\x7b' then s.flowStart .flowMappingStart
    else if c == ']' then s.flowEnd .flowSequenceEnd
    else if c == '\x7d' then s.flowEnd .flowMappingEnd
    else if c == ',' then s.flowEntry
    else if c == '-' && endsToken rest then s.blockEntry
    else if c == '?' && (s.flow != 0 || endsToken rest) then s.keyMark
    else if c == ':' && (s.flow != 0 || endsToken rest) then s.valueMark
    else if c == '*' then s.named .alias
    else if c == '&' then s.named .anchor
    else if c == '!' then s.tag
    else if c == '|' && s.flow == 0 then s.blockText false
    else if c == '>' && s.flow == 0 then s.blockText true
    else if c == '\'' then s.quotedText (singleQuoted limit)
    else if c == '"' then s.quotedText (doubleQuoted limit)
    else if startsPlain (s.flow != 0) s.rest then s.plainText limit
    else .error .malformed

/-- The tokens, last one first, that stand in front of a place for a key. -/
def beforeKey (id : Nat) : List Token → List Token
  | [] => []
  | t :: rest => if t == .candidate id then rest else beforeKey id rest

/-- The scanner with a fault in place of all that is not yet read: what is open comes after it. -/
def stopAt (s : Scanner) (fault : Fault) : Scanner :=
  match s.keys.reverse.findSome? id with
  | some k => { s with tokens := .fault fault :: beforeKey k.id s.tokens }
  | none => s.emit (.fault fault)

/-- The scanner behind all tokens. The first argument bounds the characters that are left, and so
the tokens, of which each has one. -/
def run : Nat → Scanner → Except Fault Scanner
  | 0, _ => .error .malformed
  | n + 1, s => do
    let s ← s.dropStale
    let next ← (toToken (n + 1) s).dropStale
    let next := next.unwind next.column
    if next.rest.isEmpty then (next.unwind (-1)).dropKey
    else
      match next.step (n + 1) with
      | .ok next => run n next
      | .error .malformed => .error .malformed
      | .error fault => .ok (s.stopAt fault)

/-- The tokens, first one first, where a place that turned out to be a key has become one. -/
def result (s : Scanner) : List Token :=
  s.tokens.reverse.flatMap fun t =>
    match t with
    | .candidate id =>
      match s.found.find? (·.1 == id) with
      | some (_, true) => [.blockMappingStart, .key]
      | some (_, false) => [.key]
      | none => []
    | t => [t]

end Scanner

/-- The tokens of a text. A byte order mark in front of it is passed over. -/
def scan (text : List Char) : Except Fault (List Token) := do
  if text.any (!isAllowed ·) then throw .malformed
  let s : Scanner := { rest := text }
  let s := if text.head?.any (·.toNat == 0xFEFF) then s.forward else s
  return (← Scanner.run (text.length + 2) s).result

end ApiDoc.Yaml
