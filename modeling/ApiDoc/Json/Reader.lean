import ApiDoc.Number.Numeral
import ApiDoc.Text.Split
import ApiDoc.Value.Basic

/-!
# Reading JSON

A reader for JSON texts. Beyond the standard it takes the words `NaN`, `Infinity` and `-Infinity`
for numbers. Among entries with one key the last value wins, in the place of the first. An integer
with more than 4300 digits is not a fault of form but one of its own.
-/

namespace ApiDoc.Json

/-- Why a text cannot be read. -/
inductive Fault where
  /-- The text is not of the form of a JSON text. -/
  | malformed
  /-- An integer has more digits than an integer may have. -/
  | longInteger
  deriving DecidableEq, Repr

/-- A part that was read and the rest of the text. -/
abbrev Parsed (α : Type) := Except Fault (α × List Char)

/-- A space between the parts of a JSON text. -/
def isSpace (c : Char) : Bool := c == ' ' || c == '\t' || c == '\n' || c == '\r'

/-- The text without the spaces in front of it. -/
def skipSpace (s : List Char) : List Char := s.dropWhile isSpace

/-- What a hexadecimal digit is worth. -/
def hexValue? (c : Char) : Option Nat :=
  if c.isDigit then some (c.toNat - 48)
  else if 'a' ≤ c ∧ c ≤ 'f' then some (c.toNat - 87)
  else if 'A' ≤ c ∧ c ≤ 'F' then some (c.toNat - 55)
  else none

/-- What four hexadecimal digits are worth. -/
def hex4? (a b c d : Char) : Option Nat := do
  let a ← hexValue? a
  let b ← hexValue? b
  let c ← hexValue? c
  let d ← hexValue? d
  return ((a * 16 + b) * 16 + c) * 16 + d

/-- The character of an escape of one letter. -/
def shortEscape? : Char → Option Nat
  | '"' => some 34
  | '\\' => some 92
  | '/' => some 47
  | 'b' => some 8
  | 'f' => some 12
  | 'n' => some 10
  | 'r' => some 13
  | 't' => some 9
  | _ => none

/-- A code put in front of the codes of the rest. -/
def consCode (n : Nat) : Parsed (List Nat) → Parsed (List Nat)
  | .ok (ns, rest) => .ok (n :: ns, rest)
  | .error e => .error e

/-- The codes of a text in quotation marks, from behind the opening mark on. An escape of four
digits gives the code of its digits, so a pair of surrogates is still two codes. -/
def stringCodes : List Char → Parsed (List Nat)
  | [] => .error .malformed
  | '"' :: rest => .ok ([], rest)
  | '\\' :: 'u' :: a :: b :: c :: d :: rest =>
    match hex4? a b c d with
    | some n => consCode n (stringCodes rest)
    | none => .error .malformed
  | '\\' :: c :: rest =>
    match shortEscape? c with
    | some n => consCode n (stringCodes rest)
    | none => .error .malformed
  | c :: rest =>
    if c.toNat < 32 || c == '\\' then .error .malformed else consCode c.toNat (stringCodes rest)

/-- The characters of codes, where a pair of surrogates is one character. A surrogate without its
partner becomes U+FFFD. -/
def charsOfCodes : List Nat → List Char
  | [] => []
  | [n] => [if 0xD800 ≤ n ∧ n < 0xE000 then Char.ofNat 0xFFFD else Char.ofNat n]
  | n :: m :: rest =>
    if 0xD800 ≤ n ∧ n < 0xDC00 ∧ 0xDC00 ≤ m ∧ m < 0xE000 then
      Char.ofNat (0x10000 + (n - 0xD800) * 1024 + (m - 0xDC00)) :: charsOfCodes rest
    else
      (if 0xD800 ≤ n ∧ n < 0xE000 then Char.ofNat 0xFFFD else Char.ofNat n) ::
        charsOfCodes (m :: rest)

/-- A text in quotation marks, from behind the opening mark on. -/
def string (s : List Char) : Parsed String :=
  match stringCodes s with
  | .ok (codes, rest) => .ok (String.ofList (charsOfCodes codes), rest)
  | .error e => .error e

/-- The whole part of a number: a zero, or digits that do not start with one. -/
def wholePart? : List Char → Option (List Char × List Char)
  | '0' :: rest => some (['0'], rest)
  | c :: rest =>
    if c.isDigit then some ((c :: rest).takeWhile Char.isDigit, rest.dropWhile Char.isDigit)
    else none
  | [] => none

/-- The digits behind the point of a number, if there is a point with a digit behind it. -/
def fractionPart : List Char → Option (List Char) × List Char
  | '.' :: rest =>
    match rest.takeWhile Char.isDigit with
    | [] => (none, '.' :: rest)
    | digits => (some digits, rest.dropWhile Char.isDigit)
  | s => (none, s)

/-- The values of ASCII digits. -/
def digitValues (digits : List Char) : List Nat := digits.map fun d => d.toNat - 48

/-- The exponent of a number, if there is one with a digit. -/
def exponentPart : List Char → Option Int × List Char
  | [] => (none, [])
  | e :: rest =>
    if e == 'e' || e == 'E' then
      let (negative, body) := Numeral.takeSign rest
      match body.takeWhile Char.isDigit with
      | [] => (none, e :: rest)
      | digits =>
        let n : Int := Numeral.ofDigits (digitValues digits)
        (some (if negative then -n else n), body.dropWhile Char.isDigit)
    else (none, e :: rest)

/-- A number whose sign has been read. -/
def unsignedNumber (negative : Bool) (s : List Char) : Parsed Value :=
  match wholePart? s with
  | none => .error .malformed
  | some (whole, rest) =>
    match fractionPart rest with
    | (fraction, rest) =>
      match exponentPart rest with
      | (exponent, rest) =>
        if fraction.isNone && exponent.isNone then
          if Numeral.maxDigits < whole.length then .error .longInteger
          else
            let n : Int := Numeral.ofDigits (digitValues whole)
            .ok (.int (if negative then -n else n), rest)
        else
          let digits := whole ++ fraction.getD []
          let e := exponent.getD 0 - (fraction.getD []).length
          .ok (.float (.ofDecimal negative (Numeral.ofDigits (digitValues digits)) e), rest)

/-- The words that stand for a value. -/
def namedValues : List (List Char × Value) :=
  [("null".toList, .null), ("true".toList, .bool true), ("false".toList, .bool false),
    ("NaN".toList, .float .nan), ("Infinity".toList, .float (.infinite false)),
    ("-Infinity".toList, .float (.infinite true))]

/-- The value of the word in front of the text, and the rest. -/
def namedValue? (s : List Char) : Option (Value × List Char) :=
  namedValues.findSome? fun (word, v) => (Text.after? word s).map fun rest => (v, rest)

/-- A value that is neither a list nor an object nor a text. -/
def plainValue (s : List Char) : Parsed Value :=
  match namedValue? s with
  | some found => .ok found
  | none =>
    match s with
    | '-' :: rest => unsignedNumber true rest
    | _ => unsignedNumber false s

mutual

/-- The value in front of the text. The first argument bounds the parts that are still to come. -/
def value : Nat → List Char → Parsed Value
  | 0, _ => .error .malformed
  | n + 1, s =>
    match s with
    | '"' :: rest =>
      match string rest with
      | .ok (t, rest) => .ok (.text t, rest)
      | .error e => .error e
    | '[' :: rest =>
      match skipSpace rest with
      | ']' :: rest => .ok (.array [], rest)
      | rest =>
        match items n rest with
        | .ok (vs, rest) => .ok (.array vs, rest)
        | .error e => .error e
    | '{' :: rest =>
      match skipSpace rest with
      | '}' :: rest => .ok (.map [], rest)
      | rest =>
        match entries n rest with
        | .ok (es, rest) => .ok (.map (Assoc.ofList es), rest)
        | .error e => .error e
    | s => plainValue s

/-- The items of a list up to its end, of which there is at least one. -/
def items : Nat → List Char → Parsed (List Value)
  | 0, _ => .error .malformed
  | n + 1, s =>
    match value n s with
    | .error e => .error e
    | .ok (v, rest) =>
      match skipSpace rest with
      | ']' :: rest => .ok ([v], rest)
      | ',' :: rest =>
        match items n (skipSpace rest) with
        | .ok (vs, rest) => .ok (v :: vs, rest)
        | .error e => .error e
      | _ => .error .malformed

/-- The entries of an object up to its end, of which there is at least one. -/
def entries : Nat → List Char → Parsed (List (Atom × Value))
  | 0, _ => .error .malformed
  | n + 1, s =>
    match s with
    | '"' :: rest =>
      match string rest with
      | .error e => .error e
      | .ok (key, rest) =>
        match skipSpace rest with
        | ':' :: rest =>
          match value n (skipSpace rest) with
          | .error e => .error e
          | .ok (v, rest) =>
            match skipSpace rest with
            | '}' :: rest => .ok ([(.text key, v)], rest)
            | ',' :: rest =>
              match entries n (skipSpace rest) with
              | .ok (es, rest) => .ok ((.text key, v) :: es, rest)
              | .error e => .error e
            | _ => .error .malformed
        | _ => .error .malformed
    | _ => .error .malformed

end

/-- The value of a JSON text. Every part takes at least one character, so the length of the text
bounds the parts. -/
def read (s : List Char) : Except Fault Value :=
  match value (s.length + 1) (skipSpace s) with
  | .error e => .error e
  | .ok (v, rest) => if (skipSpace rest).isEmpty then .ok v else .error .malformed

end ApiDoc.Json
