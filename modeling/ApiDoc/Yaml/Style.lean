import ApiDoc.Yaml.Resolve

/-!
# How a text is written in YAML

A text is written as it stands if it then reads back as that text. Otherwise it stands in single
quotes, where nothing but the quote itself needs a mark, and if that is not possible in double
quotes, where every character can be written. Lines of bytes stand below a sign, each as it is.

Main definition: `styleOf`.
-/

namespace ApiDoc.Yaml

/-- How a text is written. -/
inductive Style where
  | plain
  | single
  | double
  | literal
  deriving DecidableEq, Repr

/-- A character that ends a line of a quoted text. -/
def isTextBreak (c : Char) : Bool :=
  c == '\n' || c.toNat == 0x85 || c.toNat == 0x2028 || c.toNat == 0x2029

/-- A character that sets off indicators. -/
def setsOff (c : Char) : Bool := c.toNat == 0 || c == ' ' || c == '\t' || c == '\r' || isTextBreak c

/-- Whether a text ends or a character that sets off indicators comes next. -/
def isSetOff : List Char → Bool
  | [] => true
  | c :: _ => setsOff c

/-- Whether a text goes over several lines. -/
def isMultiline (s : List Char) : Bool := s.any isTextBreak

/-- A character that only double quotes can hold. -/
def isSpecial (c : Char) : Bool :=
  let n := c.toNat
  !(c == '\n' || (0x20 ≤ n && n ≤ 0x7E) || n == 0x85 ||
    (0xA0 ≤ n && n ≤ 0xD7FF) || (0xE000 ≤ n && n ≤ 0xFFFD && n != 0xFEFF) ||
    (0x10000 ≤ n && n < 0x10FFFF))

/-- Whether a text has two neighbours of two classes. -/
def hasNeighbours (p q : Char → Bool) (s : List Char) : Bool :=
  (s.zip s.tail).any fun (a, b) => p a && q b

/-- Whether a colon stands at the end of a word, or a number sign in front of one, in the rest of a
text. `blank` tells whether the character in front sets off indicators. -/
def hasInnerIndicator (blank : Bool) : List Char → Bool
  | [] => false
  | c :: rest =>
    (c == ':' && isSetOff rest) || (c == '#' && blank) || hasInnerIndicator (setsOff c) rest

/-- Whether a text starts like something else than a plain text. -/
def startsWithIndicator : List Char → Bool
  | [] => false
  | c :: rest =>
    "#,[]\x7b\x7d&*!|>'\"%@\x60".toList.contains c ||
      ((c == '?' || c == ':' || c == '-') && isSetOff rest) ||
      ["---".toList, "...".toList].contains ((c :: rest).take 3)

/-- Whether a text would be taken for something else if it stood without quotes. -/
def hasIndicator (s : List Char) : Bool :=
  startsWithIndicator s ||
    match s with
    | [] => false
    | c :: rest => hasInnerIndicator (setsOff c) rest

/-- Whether a text starts or ends with a space or the end of a line. -/
def hasLooseEnd (s : List Char) : Bool :=
  let loose (c : Char) : Bool := c == ' ' || isTextBreak c
  s.head?.any loose || s.getLast?.any loose

/-- Whether a text can stand in single quotes: lines are not indented and do not end with a space,
and no character is special. -/
def allowsSingle (s : List Char) : Bool :=
  !hasNeighbours isTextBreak (· == ' ') s && !hasNeighbours (· == ' ') isTextBreak s &&
    !s.any isSpecial

/-- Whether a text can stand without quotes. -/
def allowsPlain (s : List Char) : Bool :=
  allowsSingle s && !isMultiline s && !hasIndicator s && !hasLooseEnd s &&
    typeOf (String.ofList s) == .text

/-- How a text is written. `key` tells whether it is a key on one line with its value. -/
def styleOf (key : Bool) (s : List Char) : Style :=
  if allowsPlain s then .plain
  else if allowsSingle s && !(key && isMultiline s) then .single
  else .double

end ApiDoc.Yaml
