/-!
# Tokens of YAML texts

A YAML text is read in two steps: into tokens, where indentation has become marks for the start and
the end of blocks, and from tokens into a tree.
-/

namespace ApiDoc.Yaml

/-- Why a text cannot be read. -/
inductive Fault where
  /-- The text is not of the form of a YAML document, or refers to what is not there. -/
  | malformed
  /-- A scalar looks like a value of a type that has no such value. -/
  | noSuchValue
  /-- A number is too large for what it is a number of. -/
  | tooLarge
  /-- A scalar tagged as a truth value is not a word for one. -/
  | unknownWord
  /-- A scalar tagged as a number holds nothing but a sign. -/
  | noDigits
  /-- A scalar tagged as a moment does not look like one. -/
  | unlikeMoment
  /-- What is tagged as a moment is no scalar. -/
  | notScalar
  deriving DecidableEq, Repr

/-- A token. -/
inductive Token where
  | version (major : Nat)
  | tagHandle (handle expansion : String)
  | otherDirective
  | documentStart
  | documentEnd
  | blockSequenceStart
  | blockMappingStart
  | blockEnd
  | flowSequenceStart
  | flowSequenceEnd
  | flowMappingStart
  | flowMappingEnd
  | blockEntry
  | flowEntry
  | key
  | value
  | alias (name : String)
  | anchor (name : String)
  | tag (handle : Option String) (suffix : String)
  | scalar (text : String) (plain : Bool)
  /-- The place in front of a token that turns out to be a key, or not. -/
  | candidate (id : Nat)
  /-- The text cannot be read from here on. -/
  | fault (fault : Fault)
  deriving DecidableEq, Repr

/-- Why tokens are not what was expected. -/
def unexpected : List Token → Fault
  | .fault f :: _ => f
  | _ => .malformed

/-! ## Classes of characters -/

/-- A character that ends a line. -/
def isBreak (c : Char) : Bool :=
  c == '\n' || c == '\r' || c.toNat == 0x85 || c.toNat == 0x2028 || c.toNat == 0x2029

/-- A character that may stand in a text. -/
def isAllowed (c : Char) : Bool :=
  let n := c.toNat
  n == 9 || n == 10 || n == 13 || (32 ≤ n && n ≤ 126) || n == 0x85 ||
    (0xA0 ≤ n && n ≤ 0xD7FF) || (0xE000 ≤ n && n ≤ 0xFFFD) || 0x10000 ≤ n

/-- Whether a text ends here, or a space or the end of a line stands here. -/
def endsWord : List Char → Bool
  | [] => true
  | c :: _ => c == ' ' || isBreak c

/-- Whether a text ends here, or a space, a tab or the end of a line stands here. -/
def endsToken : List Char → Bool
  | [] => true
  | c :: _ => c == ' ' || c == '\t' || isBreak c

/-- A character of an anchor, a handle or the name of a directive. -/
def isNameChar (c : Char) : Bool := c.isAlphanum || c == '-' || c == '_'

/-- The line break in front of a text, as one character, and the text behind it. The marks for the
end of a line and of a paragraph stay what they are; any other break is a line feed. -/
def takeBreak? : List Char → Option (Char × List Char)
  | '\r' :: '\n' :: rest => some ('\n', rest)
  | c :: rest =>
    if isBreak c then
      some (if c.toNat == 0x2028 || c.toNat == 0x2029 then c else '\n', rest)
    else none
  | [] => none

/-- Whether a line is the mark for the start or the end of a document. -/
def isDocumentMark (s : List Char) : Bool :=
  match s with
  | '-' :: '-' :: '-' :: rest => endsToken rest
  | '.' :: '.' :: '.' :: rest => endsToken rest
  | _ => false

end ApiDoc.Yaml
