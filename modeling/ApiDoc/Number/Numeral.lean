import ApiDoc.Number.Binary64
import ApiDoc.Text.Blank
import ApiDoc.Text.Digit

/-!
# Numerals

How a number is read from a text. The digits are those of any script, an underscore may stand
between two digits, a sign may stand in front and blanks around. An integer has at most 4300
decimal digits, read or written; to a base that is a power of two it may have any number.
-/

namespace ApiDoc.Numeral

/-- The most digits that an integer numeral may have. -/
def maxDigits : Nat := 4300

/-- The number that decimal digits stand for. -/
def ofDigits (digits : List Nat) : Nat := digits.foldl (fun n d => 10 * n + d) 0

/-- The values of the decimal digits in front of a text, and the rest. An underscore between two
digits is passed over; the flag tells whether a digit stands in front. -/
def takeDigits : Bool → List Char → List Nat × List Char
  | _, [] => ([], [])
  | afterDigit, c :: rest =>
    match Text.digitValue? c with
    | some d =>
      let (ds, tail) := takeDigits true rest
      (d :: ds, tail)
    | none =>
      match c, rest with
      | '_', next :: _ =>
        if afterDigit && Text.isDecimal next then takeDigits false rest else ([], c :: rest)
      | _, _ => ([], c :: rest)

/-- The sign in front of a text (whether it is a minus) and the rest. -/
def takeSign : List Char → Bool × List Char
  | '-' :: rest => (true, rest)
  | '+' :: rest => (false, rest)
  | s => (false, s)

/-- A numeral without the blanks around it. The information separators are no blanks here. -/
def bare (s : List Char) : List Char :=
  Text.trimBy (fun c => Text.isBlank c && !(28 ≤ c.toNat && c.toNat ≤ 31)) s

/-- An integer numeral. -/
def integer? (s : List Char) : Option Int :=
  let (negative, body) := takeSign (bare s)
  match takeDigits false body with
  | ([], _) => none
  | (ds, []) =>
    if maxDigits < ds.length then none
    else some (if negative then -(ofDigits ds : Int) else ofDigits ds)
  | _ => none

/-- The value of a digit up to fifteen: a decimal digit of any script or a letter. -/
def hexDigit? (c : Char) : Option Nat :=
  match Text.digitValue? c with
  | some d => some d
  | none =>
    let n := c.toLower.toNat
    if 97 ≤ n ∧ n ≤ 102 then some (n - 87) else none

/-- A text without the mark of a base: a zero and a letter, small or capital. -/
def unmarked (letter : Char) : List Char → List Char
  | zero :: c :: rest =>
    if Text.digitValue? zero == some 0 && c.toLower == letter then rest else zero :: c :: rest
  | s => s

/-- An integer numeral to a base up to sixteen, perhaps with the mark of the base in front. -/
def integerIn? (base : Nat) (letter : Char) (s : List Char) : Option Int :=
  let (negative, body) := takeSign (bare s)
  match (unmarked letter body).mapM hexDigit? with
  | none | some [] => none
  | some ds =>
    if ds.all (· < base) then
      let n := ds.foldl (fun n d => base * n + d) 0
      some (if negative then -(n : Int) else n)
    else none

/-- An integer as a numeral, unless it has too many digits. -/
def text? (i : Int) : Option (List Char) :=
  let digits := Nat.toDigits 10 i.natAbs
  if maxDigits < digits.length then none
  else some (if i < 0 then '-' :: digits else digits)

/-- The exponent of a decimal numeral, which may be absent, as the last part of it. -/
def exponent? : List Char → Option Int
  | [] => some 0
  | c :: rest =>
    if c == 'e' || c == 'E' then
      let (negative, body) := takeSign rest
      match takeDigits false body with
      | ([], _) => none
      | (ds, []) => some (if negative then -(ofDigits ds : Int) else ofDigits ds)
      | _ => none
    else none

/-- A decimal numeral without sign. -/
def unsigned? (negative : Bool) (s : List Char) : Option Binary64 :=
  let (whole, rest) := takeDigits false s
  let (fraction, rest) :=
    match rest with
    | '.' :: tail => takeDigits false tail
    | _ => ([], rest)
  if whole.isEmpty && fraction.isEmpty then none
  else
    (exponent? rest).map fun e =>
      Binary64.ofDecimal negative (ofDigits (whole ++ fraction)) (e - fraction.length)

/-- The names of the numbers that have no digits. -/
def named? (negative : Bool) (s : List Char) : Option Binary64 :=
  match String.ofList (s.map Char.toLower) with
  | "inf" | "infinity" => some (.infinite negative)
  | "nan" => some .nan
  | _ => none

/-- A decimal numeral, or the name of an infinity or of NaN. -/
def float? (s : List Char) : Option Binary64 :=
  let (negative, body) := takeSign (bare s)
  (unsigned? negative body).or (named? negative body)

end ApiDoc.Numeral
