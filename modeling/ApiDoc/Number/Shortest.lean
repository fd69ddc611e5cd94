import ApiDoc.Number.Binary64

/-!
# The shortest decimal text of a number

A number is written with the fewest decimal digits that read back as the same number; among those
the nearest to it is taken. `shortest` finds the digits in exact arithmetic: for one digit, two
digits, and so on, it looks at the two neighbours of the number on that decimal grid. `text` lays
them out: positional notation for decimal exponents from -4 to 15 and a power of ten with at least
two digits otherwise.
-/

namespace ApiDoc.Binary64

/-- A decimal number `digits * 10 ^ exponent`. -/
structure Decimal where
  digits : Nat
  exponent : Int
  deriving DecidableEq, Repr

/-- `10 ^ k` as a quotient. -/
def powerOfTen (k : Int) : Nat × Nat :=
  if 0 ≤ k then (Nat.pow 10 k.toNat, 1) else (1, Nat.pow 10 (-k).toNat)

/-- Whether `10 ^ k ≤ num / den`. -/
def tenPowerLe (k : Int) (num den : Nat) : Bool :=
  let (p, q) := powerOfTen k
  p * den ≤ num * q

/-- The decimal exponent of a positive quotient: the greatest `k` with `10 ^ k ≤ num / den`. -/
def decimalExponent (num den : Nat) : Int :=
  let guess : Int := ((num.log2 : Int) - den.log2 - 1) * 30103 / 100000
  let guess := if tenPowerLe guess num den then guess else guess - 1
  let guess := if tenPowerLe (guess + 1) num den then guess + 1 else guess
  if tenPowerLe (guess + 1) num den then guess + 1 else guess

/-- The decimals that read back as `significand * 2 ^ exponent` lie between two bounds, here in
units of `2 ^ (exponent - 2)`; they may be the bounds themselves when the significand is even. -/
def bounds (significand : Nat) (exponent : Int) : Nat × Nat :=
  let below :=
    if significand = minSignificand ∧ minExponent < exponent then 4 * significand - 1
    else 4 * significand - 2
  (below, 4 * significand + 2)

/-- Whether `digits * 10 ^ k` reads back as `significand * 2 ^ exponent`. -/
def readsBack (significand : Nat) (exponent : Int) (digits : Nat) (k : Int) : Bool :=
  let (low, high) := bounds significand exponent
  let (p, q) := powerOfTen k
  let (a, b) := ratio 1 (exponent - 2)
  let left := digits * p * b
  let atLow := low * a * q
  let atHigh := high * a * q
  if significand % 2 = 0 then atLow ≤ left && left ≤ atHigh else atLow < left && left < atHigh

/-- The nearer of the two neighbours on a decimal grid that read back, if one does. -/
def onGrid (significand : Nat) (exponent : Int) (k : Int) : Option Decimal :=
  let (num, den) := ratio significand exponent
  let (p, q) := powerOfTen k
  let n := num * q
  let d := den * p
  let lower := n / d
  let lowerOk := readsBack significand exponent lower k
  let upperOk := readsBack significand exponent (lower + 1) k
  let lowerNearer := 2 * (n % d) < d ∨ (2 * (n % d) = d ∧ lower % 2 = 0)
  if lowerOk ∧ (lowerNearer ∨ ¬ upperOk) then some ⟨lower, k⟩
  else if upperOk then some ⟨lower + 1, k⟩
  else none

/-- The first grid with a hit, from the coarsest one on. The first argument counts the grids that
are left. -/
def firstGrid (significand : Nat) (exponent : Int) : Nat → Int → Decimal
  | 0, k => ⟨(onGrid significand exponent k).elim 0 (·.digits), k⟩
  | left + 1, k =>
    match onGrid significand exponent k with
    | some d => d
    | none => firstGrid significand exponent left (k - 1)

/-- The shortest decimal that reads back as a positive finite number. -/
def shortest (significand : Nat) (exponent : Int) : Decimal :=
  let (num, den) := ratio significand exponent
  firstGrid significand exponent 17 (decimalExponent num den)

/-- Digits with a point behind the first `n` of them, with zeros where there are no digits. -/
def positional (digits : List Char) (n : Int) : List Char :=
  if n ≤ 0 then '0' :: '.' :: (List.replicate (-n).toNat '0' ++ digits)
  else
    let whole := digits.take n.toNat
    let rest := digits.drop n.toNat
    whole ++ List.replicate (n.toNat - whole.length) '0' ++
      '.' :: (if rest.isEmpty then ['0'] else rest)

/-- Digits with a point behind the first of them and a power of ten. -/
def scientific (digits : List Char) (exponent : Int) : List Char :=
  let mantissa :=
    match digits with
    | [] => []
    | [d] => [d]
    | d :: rest => d :: '.' :: rest
  let power := Nat.toDigits 10 exponent.natAbs
  mantissa ++ 'e' :: (if exponent < 0 then '-' else '+') ::
    (if power.length < 2 then '0' :: power else power)

/-- The digits of a decimal without zeros at the end. -/
def significantDigits (d : Decimal) : List Char :=
  ((Nat.toDigits 10 d.digits).reverse.dropWhile (· == '0')).reverse

/-- The text of a positive finite number. -/
def magnitudeText (significand : Nat) (exponent : Int) : List Char :=
  let d := shortest significand exponent
  let size : Int := (Nat.toDigits 10 d.digits).length
  let point := size + d.exponent
  let digits := significantDigits d
  if -4 < point ∧ point ≤ 16 then positional digits point else scientific digits (point - 1)

/-- The text of a number. -/
def text : Binary64 → String
  | .nan => "nan"
  | .infinite negative => if negative then "-inf" else "inf"
  | .finite negative m e =>
    String.ofList ((if negative then ['-'] else []) ++
      (if m = 0 then ['0', '.', '0'] else magnitudeText m e))

end ApiDoc.Binary64
