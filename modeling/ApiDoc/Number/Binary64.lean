/-!
# Binary floating-point numbers

Numbers of 53 binary digits, as data: a significand and a power of two. Every number of the library
comes from `Binary64.ofRatio`, which rounds a quotient of natural numbers to the nearest number and
a half to the even neighbour, so equal numbers are equal data.
-/

namespace ApiDoc

/-- A binary floating-point number. The finite number is `significand * 2 ^ exponent`, negated if
`negative`; zero has a sign too. -/
inductive Binary64 where
  | nan
  | infinite (negative : Bool)
  | finite (negative : Bool) (significand : Nat) (exponent : Int)
  deriving DecidableEq, Repr, Inhabited

namespace Binary64

/-- The least exponent. -/
def minExponent : Int := -1074

/-- The greatest exponent of a finite number. -/
def maxExponent : Int := 971

/-- The least significand above the numbers with the least exponent, `2 ^ 52`. -/
def minSignificand : Nat := 1 <<< 52

/-- The quotient rounded to a natural number, a half to the even neighbour. -/
def roundQuotient (num den : Nat) : Nat :=
  let q := num / den
  let r := num % den
  if den < 2 * r ∨ (den = 2 * r ∧ q % 2 = 1) then q + 1 else q

/-- The quotient `num / den` in units of `2 ^ exponent`, as a quotient again. -/
def inUnits (num den : Nat) (exponent : Int) : Nat × Nat :=
  if 0 ≤ exponent then (num, den <<< exponent.toNat) else (num <<< (-exponent).toNat, den)

/-- The number nearest to a quotient. -/
def ofRatio (negative : Bool) (num den : Nat) : Binary64 :=
  if num = 0 ∨ den = 0 then .finite negative 0 minExponent
  else
    let guess : Int := (num.log2 : Int) - den.log2 - 52
    let (n, d) := inUnits num den guess
    let e := max minExponent (if n / d < minSignificand then guess - 1 else guess)
    let (n, d) := inUnits num den e
    let m := roundQuotient n d
    let (m, e) := if m = 2 * minSignificand then (minSignificand, e + 1) else (m, e)
    if maxExponent < e then .infinite negative else .finite negative m e

/-- The number nearest to `digits * 10 ^ exponent`. Exponents far outside the range are settled
without computing the power. -/
def ofDecimal (negative : Bool) (digits : Nat) (exponent : Int) : Binary64 :=
  if digits = 0 then .finite negative 0 minExponent
  else
    let size : Int := exponent + digits.log2 * 30103 / 100000
    if 400 < size then .infinite negative
    else if size < -400 then .finite negative 0 minExponent
    else if 0 ≤ exponent then ofRatio negative (digits * Nat.pow 10 exponent.toNat) 1
    else ofRatio negative digits (Nat.pow 10 (-exponent).toNat)

/-- The absolute value of a finite number as a quotient. -/
def ratio (significand : Nat) (exponent : Int) : Nat × Nat :=
  if 0 ≤ exponent then (significand <<< exponent.toNat, 1)
  else (significand, 1 <<< (-exponent).toNat)

/-- The number nearest to an integer. -/
def ofInt (i : Int) : Binary64 := ofRatio (i < 0) i.natAbs 1

/-- A finite number as an exact quotient of an integer and a natural number. -/
def toQuotient? : Binary64 → Option (Int × Nat)
  | .finite negative m e =>
    let (num, den) := ratio m e
    some (if negative then -(num : Int) else num, den)
  | _ => none

/-- The number with the other sign. -/
def neg : Binary64 → Binary64
  | .nan => .nan
  | .infinite s => .infinite !s
  | .finite s m e => .finite (!s) m e

/-- The number nearest to a quotient of an integer and a natural number. -/
def ofQuotient (num : Int) (den : Nat) : Binary64 := ofRatio (num < 0) num.natAbs den

/-- The rounded sum. Infinities of both signs have none. -/
def add : Binary64 → Binary64 → Binary64
  | .nan, _ => .nan
  | _, .nan => .nan
  | .infinite s, .infinite t => if s == t then .infinite s else .nan
  | .infinite s, _ => .infinite s
  | _, .infinite t => .infinite t
  | .finite s m e, .finite t n f =>
    if m = 0 ∧ n = 0 then .finite (s && t) 0 minExponent
    else
      let (a, b) := ratio m e
      let (c, d) := ratio n f
      let signed (negative : Bool) (k : Nat) : Int := if negative then -(k : Int) else k
      ofQuotient (signed s (a * d) + signed t (c * b)) (b * d)

/-- The rounded product of a number and a positive integer, which is rounded first. None if the
integer is too large for a number. -/
def mulNat? (x : Binary64) (n : Nat) : Option Binary64 :=
  match ofInt n with
  | .finite _ k f =>
    some (match x with
      | .finite s m e =>
        let (a, b) := ratio m e
        let (c, d) := ratio k f
        ofRatio s (a * c) (b * d)
      | x => x)
  | _ => none

/-- Whether two numbers are equal: finite numbers by what they are worth, so zero with either sign
is one number. NaN equals nothing. -/
def sameNumber : Binary64 → Binary64 → Bool
  | .infinite s, .infinite t => s == t
  | x, y =>
    match x.toQuotient?, y.toQuotient? with
    | some (a, b), some (c, d) => a * d == c * b
    | _, _ => false

/-- Whether a number equals an integer exactly. -/
def sameInt (x : Binary64) (i : Int) : Bool :=
  match x.toQuotient? with
  | some (num, den) => num == i * den
  | none => false

/-- Whether a number is zero. -/
def isZero : Binary64 → Bool
  | .finite _ 0 _ => true
  | _ => false

end Binary64

end ApiDoc
