import ApiDoc.Json.Reader
import ApiDoc.Text.Base64
import ApiDoc.Text.Lower
import ApiDoc.Value.Basic
import ApiDoc.Yaml.Token

/-!
# Types of plain scalars

A plain scalar is a text unless it has the form of a truth value, a number, nothing, a date, or one
of a few marks: `<<` in place of a key merges a mapping into another one, `=` in place of a key
holds the scalar that a mapping stands for, and the signs in front of tags, anchors and aliases have
no meaning of their own. A line feed at the end does not change the form.

Main definitions: `typeOf` for the type of a scalar by its form, and `atomOf` for the value of a
scalar of a type. A form of a type may have no value, as `2024-02-30` has none.
-/

namespace ApiDoc.Yaml

/-- The type of a scalar. -/
inductive ScalarType where
  | null
  | bool
  | int
  | float
  | moment
  | text
  | bytes
  | merge
  | default
  | sign
  deriving DecidableEq, Repr

/-! ## Forms -/

/-- A text without its sign. -/
def unsigned : List Char → List Char
  | '-' :: rest => rest
  | '+' :: rest => rest
  | s => s

/-- A digit or an underscore. -/
def isDigitMark (c : Char) : Bool := c.isDigit || c == '_'

/-- Whether a text is not empty and of characters of a class. -/
def allOf (p : Char → Bool) (s : List Char) : Bool := !s.isEmpty && s.all p

/-- The digits up to sixty behind a colon, once and more often, up to the end or a point: what
stands behind them. -/
def afterSixties? : List Char → Option (List Char)
  | ':' :: a :: b :: rest =>
    if b.isDigit then
      if '0' ≤ a && a ≤ '5' then
        match rest with
        | ':' :: _ => afterSixties? rest
        | _ => some rest
      else none
    else if a.isDigit then
      match b with
      | ':' => afterSixties? (b :: rest)
      | _ => some (b :: rest)
    else none
  | [':', a] => if a.isDigit then some [] else none
  | _ => none

/-- Whether a text is a whole number to the base ten without leading zeros, apart from its sign. -/
def isDecimalForm : List Char → Bool
  | ['0'] => true
  | c :: rest => '1' ≤ c && c ≤ '9' && rest.all isDigitMark
  | [] => false

/-- Whether a text has the form of an integer, apart from its sign. -/
def isIntForm (s : List Char) : Bool :=
  (match s with
    | '0' :: 'b' :: rest => allOf (fun c => c == '0' || c == '1' || c == '_') rest
    | '0' :: 'x' :: rest => allOf (fun c => (Json.hexValue? c).isSome || c == '_') rest
    | '0' :: rest => allOf (fun c => ('0' ≤ c && c ≤ '7') || c == '_') rest
    | _ => false) ||
    isDecimalForm s ||
    match s with
    | c :: rest =>
      '1' ≤ c && c ≤ '9' && afterSixties? (rest.dropWhile isDigitMark) == some []
    | [] => false

/-- Whether a text is the exponent of a number, or empty. An exponent has a sign. -/
def isExponentForm : List Char → Bool
  | [] => true
  | e :: sign :: digits =>
    (e == 'e' || e == 'E') && (sign == '-' || sign == '+') && allOf Char.isDigit digits
  | _ => false

/-- Whether a text is a number with a point, apart from its sign. -/
def isPointForm (s : List Char) : Bool :=
  match s with
  | c :: rest =>
    c.isDigit &&
      match rest.dropWhile isDigitMark with
      | '.' :: tail => isExponentForm (tail.dropWhile isDigitMark)
      | tail =>
        match afterSixties? tail with
        | some ('.' :: fraction) => fraction.all isDigitMark
        | _ => false
  | [] => false

/-- Whether a text has the form of a floating-point number. -/
def isFloatForm (s : List Char) : Bool :=
  isPointForm (unsigned s) ||
    (match s with
      | '.' :: c :: rest => c.isDigit && isExponentForm (rest.dropWhile isDigitMark)
      | _ => false) ||
    [".inf".toList, ".Inf".toList, ".INF".toList].contains (unsigned s) ||
    [".nan".toList, ".NaN".toList, ".NAN".toList].contains s

/-- One or two digits in front of a text, what they are worth, and the rest. -/
def oneOrTwoDigits? : List Char → Option (Nat × List Char)
  | a :: b :: rest =>
    if a.isDigit then
      if b.isDigit then some ((a.toNat - 48) * 10 + (b.toNat - 48), rest)
      else some (a.toNat - 48, b :: rest)
    else none
  | [a] => if a.isDigit then some (a.toNat - 48, []) else none
  | [] => none

/-- Two digits in front of a text, what they are worth, and the rest. -/
def twoDigits? : List Char → Option (Nat × List Char)
  | a :: b :: rest =>
    if a.isDigit && b.isDigit then some ((a.toNat - 48) * 10 + (b.toNat - 48), rest) else none
  | _ => none

/-- What stands behind a character, if a text starts with it. -/
def behind? (c : Char) : List Char → Option (List Char)
  | d :: rest => if c == d then some rest else none
  | [] => none

/-- An offset from universal time up to the end of a text, in minutes; none within if there is no
offset. -/
def offset? (s : List Char) : Option (Option Int) :=
  match s.dropWhile fun c => c == ' ' || c == '\t' with
  | [] => if s.isEmpty then some none else none
  | ['Z'] => some (some 0)
  | sign :: rest =>
    if sign == '-' || sign == '+' then do
      let (hours, rest) ← oneOrTwoDigits? rest
      let minutes ←
        match rest with
        | [] => some 0
        | ':' :: tail =>
          match twoDigits? tail with
          | some (m, []) => some m
          | _ => none
        | _ => none
      let total : Int := hours * 60 + minutes
      return some (if sign == '-' then -total else total)
    else none

/-- Six digits of a fraction of a second. -/
def microseconds (digits : List Char) : Nat :=
  let six := digits.take 6
  Numeral.ofDigits (Json.digitValues (six ++ List.replicate (6 - six.length) '0'))

/-- A time of day up to the end of a text. -/
def clock? (s : List Char) : Option Clock := do
  let (hour, rest) ← oneOrTwoDigits? s
  let (minute, rest) ← twoDigits? (← behind? ':' rest)
  let (second, rest) ← twoDigits? (← behind? ':' rest)
  let (fraction, rest) :=
    match rest with
    | '.' :: tail => (tail.takeWhile Char.isDigit, tail.dropWhile Char.isDigit)
    | _ => ([], rest)
  let offset ← offset? rest
  return ⟨hour, minute, second, microseconds fraction, offset⟩

/-- The moment that a text has the form of, be it in the calendar or not. A day alone has two digits
for month and day unless `loose`. -/
def moment? (loose : Bool) (s : List Char) : Option Moment := do
  let (century, rest) ← twoDigits? s
  let (years, rest) ← twoDigits? rest
  let rest ← behind? '-' rest
  let (month, afterMonth) ← oneOrTwoDigits? rest
  let (day, afterDay) ← oneOrTwoDigits? (← behind? '-' afterMonth)
  let year := century * 100 + years
  match afterDay with
  | [] => if loose || rest.length == 5 then some ⟨year, month, day, none⟩ else none
  | c :: tail =>
    let time ←
      if c == 'T' || c == 't' then some tail
      else if c == ' ' || c == '\t' then some (tail.dropWhile fun d => d == ' ' || d == '\t')
      else none
    let clock ← clock? time
    return ⟨year, month, day, some clock⟩

/-- The words for truth values. -/
def boolWords : List (String × Bool) :=
  [("yes", true), ("Yes", true), ("YES", true), ("no", false), ("No", false), ("NO", false),
    ("true", true), ("True", true), ("TRUE", true), ("false", false), ("False", false),
    ("FALSE", false), ("on", true), ("On", true), ("ON", true), ("off", false), ("Off", false),
    ("OFF", false)]

/-- The words for nothing. -/
def nullWords : List String := ["", "~", "null", "Null", "NULL"]

/-- A text without a line feed at its end. A line feed alone stays. -/
def withoutLineFeed (s : List Char) : List Char :=
  if s.getLast? == some '\n' && s.length != 1 then s.dropLast else s

/-- The type of a plain scalar, by its form. -/
def typeOf (text : String) : ScalarType :=
  let s := withoutLineFeed text.toList
  let text := String.ofList s
  if boolWords.any (·.1 == text) then .bool
  else if isFloatForm s then .float
  else if isIntForm (unsigned s) then .int
  else if text == "<<" then .merge
  else if nullWords.contains text then .null
  else if (moment? false s).isSome then .moment
  else if text == "=" then .default
  else if ["!", "&", "*"].contains text then .sign
  else .text

/-! ## Values -/

/-- A number that a text must be. -/
def given {α : Type} : Option α → Except Fault α
  | some a => .ok a
  | none => .error .noSuchValue

/-- The worth of digits to the base sixty, last one first. -/
def sixties : List Int → Int
  | [] => 0
  | d :: rest => d + 60 * sixties rest

/-- The value of an integer without underscores and its first sign. -/
def intOf (s : List Char) : Except Fault Int :=
  match s with
  | ['0'] => .ok 0
  | '0' :: 'b' :: rest => given (Numeral.integerIn? 2 'b' rest)
  | '0' :: 'x' :: rest => given (Numeral.integerIn? 16 'x' rest)
  | '0' :: _ => given (Numeral.integerIn? 8 'o' s)
  | _ =>
    if s.contains ':' then do
      let parts ← (Text.splitAll ':' s).mapM fun part => given (Numeral.integer? part)
      return sixties parts.reverse
    else given (Numeral.integer? s)

/-- The sum of digits to the base sixty, last one first, as a floating-point number. -/
def floatSixties (sum : Binary64) (base : Nat) : List Binary64 → Except Fault Binary64
  | [] => .ok sum
  | d :: rest =>
    match d.mulNat? base with
    | some x => floatSixties (sum.add x) (base * 60) rest
    | none => .error .tooLarge

/-- The value of a floating-point number without underscores and its first sign, in lower case. -/
def floatOf (s : List Char) : Except Fault Binary64 :=
  if s == ".inf".toList then .ok (.infinite false)
  else if s == ".nan".toList then .ok .nan
  else if s.contains ':' then do
    let digits ← (Text.splitAll ':' s).mapM fun part => given (Numeral.float? part)
    floatSixties (.ofInt 0) 1 digits.reverse
  else given (Numeral.float? s)

/-- The text of a floating-point number without underscores and its first sign, in lower case. -/
def floatBody (s : List Char) : List Char :=
  (Text.lower (String.ofList (unsigned (s.filter (· != '_'))))).toList

/-- Whether a text is the word for what is not a number. All such words stand for one thing. -/
def isNaNWord (text : String) : Bool := floatBody text.toList == ".nan".toList

/-- The value of a scalar of a type. `mark` is the mark of its node. -/
def atomOf (mark : Option Mark) (type : ScalarType) (text : String) : Except Fault Atom :=
  let s := text.toList
  let bare := s.filter (· != '_')
  let negative := bare.head? == some '-'
  match type with
  | .null => .ok .null
  | .bool =>
    match boolWords.find? (·.1 == Text.lower text) with
    | some (_, b) => .ok (.bool b)
    | none => .error .unknownWord
  | .int =>
    if (unsigned bare).isEmpty then .error .noDigits
    else (intOf (unsigned bare)).map fun n => .int (if negative then -n else n)
  | .float =>
    if bare.isEmpty then .error .noDigits
    else (floatOf (floatBody s)).map fun x => .float (if negative then x.neg else x)
  | .moment =>
    match moment? true (withoutLineFeed s) with
    | some m => if m.isValid then .ok (.moment m mark) else .error .noSuchValue
    | none => .error .unlikeMoment
  | .text => .ok (.text text)
  | .bytes =>
    match Text.decodeBase64? s with
    | some bs => .ok (.bytes bs)
    | none => .error .malformed
  | .merge | .default | .sign => .error .malformed

end ApiDoc.Yaml
