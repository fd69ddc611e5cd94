import ApiDoc.Value.Display

/-!
# Writing JSON

Values as JSON text with one entry a line, indented by two spaces a level. Characters beyond ASCII
are written as themselves. Numbers and truth values as keys become texts; a moment is written as a
text, but is no key, and so are bytes and sets. A pair is a list.
-/

namespace ApiDoc.Json

/-- Why a value cannot be written. -/
inductive WriteFault where
  /-- A key that has no text. -/
  | badKey
  /-- An integer with more digits than may be written. -/
  | longInteger
  deriving DecidableEq, Repr

/-- How a character stands in a text. -/
def escapeChar (c : Char) : List Char :=
  if c == '"' then ['\\', '"']
  else if c == '\\' then ['\\', '\\']
  else if c == '\n' then ['\\', 'n']
  else if c == '\r' then ['\\', 'r']
  else if c == '\t' then ['\\', 't']
  else if c.toNat = 12 then ['\\', 'f']
  else if c.toNat = 8 then ['\\', 'b']
  else if c.toNat < 32 then '\\' :: 'u' :: Text.hex 4 c.toNat
  else [c]

/-- A text in quotation marks. -/
def stringText (s : String) : List Char := '"' :: (s.toList.flatMap escapeChar ++ ['"'])

/-- A floating-point number. -/
def floatText : Binary64 → List Char
  | .nan => "NaN".toList
  | .infinite negative => if negative then "-Infinity".toList else "Infinity".toList
  | x => x.text.toList

/-- An integer, unless it has too many digits. -/
def intText (i : Int) : Except WriteFault (List Char) :=
  match Numeral.text? i with
  | some t => .ok t
  | none => .error .longInteger

/-- A truth value. -/
def boolText (b : Bool) : List Char := if b then "true".toList else "false".toList

/-- An atom. -/
def atomText : Atom → Except WriteFault (List Char)
  | .null => .ok "null".toList
  | .bool b => .ok (boolText b)
  | .int i => intText i
  | .float x => .ok (floatText x)
  | .text s => .ok (stringText s)
  | .bytes bs => .ok (stringText (bytesText bs))
  | .moment m _ => .ok (stringText m.text)

/-- A key, which is always a text. -/
def keyText : Atom → Except WriteFault (List Char)
  | .null => .ok (stringText "null")
  | .bool b => .ok ('"' :: (boolText b ++ ['"']))
  | .int i => (intText i).map fun t => '"' :: (t ++ ['"'])
  | .float x => .ok ('"' :: (floatText x ++ ['"']))
  | .text s => .ok (stringText s)
  | .bytes _ | .moment _ _ => .error .badKey

/-- The start of a line at a depth. -/
def newline (depth : Nat) : List Char := '\n' :: List.replicate (2 * depth) ' '

mutual

/-- A value at a depth. -/
def valueText (depth : Nat) : Value → Except WriteFault (List Char)
  | .atom a => atomText a
  | .list _ [] => .ok ['[', ']']
  | .list _ (v :: vs) => do
    let first ← valueText (depth + 1) v
    let rest ← itemsText (depth + 1) vs
    return '[' :: (newline (depth + 1) ++ first ++ rest ++ newline depth ++ [']'])
  | .object _ [] => .ok ['\x7b', '\x7d']
  | .object _ ((k, v) :: es) => do
    let key ← keyText k
    let first ← valueText (depth + 1) v
    let rest ← entriesText (depth + 1) es
    return '\x7b' :: (newline (depth + 1) ++ key ++ [':', ' '] ++ first ++ rest ++
      newline depth ++ ['\x7d'])
  | .pair a b => do
    let first ← valueText (depth + 1) a
    let second ← valueText (depth + 1) b
    return '[' :: (newline (depth + 1) ++ first ++ ',' :: (newline (depth + 1) ++ second) ++
      newline depth ++ [']'])
  | .set _ items =>
    match setText? items with
    | some t => .ok (stringText t)
    | none => .error .longInteger

/-- The items behind the first one. -/
def itemsText (depth : Nat) : List Value → Except WriteFault (List Char)
  | [] => .ok []
  | v :: vs => do
    let first ← valueText depth v
    let rest ← itemsText depth vs
    return ',' :: (newline depth ++ first ++ rest)

/-- The entries behind the first one. -/
def entriesText (depth : Nat) : List (Atom × Value) → Except WriteFault (List Char)
  | [] => .ok []
  | (k, v) :: es => do
    let key ← keyText k
    let first ← valueText depth v
    let rest ← entriesText depth es
    return ',' :: (newline depth ++ key ++ [':', ' '] ++ first ++ rest)

end

/-- A value as JSON text that ends with a line feed. -/
def write (v : Value) : Except WriteFault (List Char) := do
  return (← valueText 0 v) ++ ['\n']

end ApiDoc.Json
