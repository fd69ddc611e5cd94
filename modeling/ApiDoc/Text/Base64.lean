/-!
# Bytes as text

Bytes are written with 64 characters, four for three bytes. A last group of one or two bytes is
filled up with equals signs.

Reading is generous: a character that is none of the 64 is passed over, and what stands behind the
equals signs that fill up a group is not looked at. A group that is neither full nor filled up
cannot be read.

Main definitions: `encodeBase64` and `decodeBase64?`.
-/

namespace ApiDoc.Text

/-- The character of six bits. -/
def base64Char (n : Nat) : Char :=
  if n < 26 then Char.ofNat (n + 65)
  else if n < 52 then Char.ofNat (n + 71)
  else if n < 62 then Char.ofNat (n - 4)
  else if n = 62 then '+'
  else '/'

/-- The six bits of a character. -/
def base64Value? (c : Char) : Option Nat :=
  let n := c.toNat
  if 65 ≤ n ∧ n ≤ 90 then some (n - 65)
  else if 97 ≤ n ∧ n ≤ 122 then some (n - 71)
  else if 48 ≤ n ∧ n ≤ 57 then some (n + 4)
  else if c == '+' then some 62
  else if c == '/' then some 63
  else none

/-- The characters of bytes. -/
def base64Chars : List UInt8 → List Char
  | [] => []
  | [a] =>
    let n := a.toNat * 16
    [base64Char (n / 64), base64Char (n % 64), '=', '=']
  | [a, b] =>
    let n := (a.toNat * 256 + b.toNat) * 4
    [base64Char (n / 4096), base64Char (n / 64 % 64), base64Char (n % 64), '=']
  | a :: b :: c :: rest =>
    let n := (a.toNat * 256 + b.toNat) * 256 + c.toNat
    base64Char (n / 262144) :: base64Char (n / 4096 % 64) :: base64Char (n / 64 % 64) ::
      base64Char (n % 64) :: base64Chars rest

/-- Characters in lines of 76, each with a line feed at its end. The first argument bounds the
lines. -/
def base64Lines : Nat → List Char → List Char
  | _, [] => []
  | 0, _ => []
  | n + 1, s => s.take 76 ++ '\n' :: base64Lines n (s.drop 76)

/-- Bytes as lines of text. -/
def encodeBase64 (bytes : List UInt8) : List Char :=
  let s := base64Chars bytes
  base64Lines s.length s

/-- The byte that is complete with six more bits, if there is one, given how many groups of six bits
came before in its group of four and the bits that are left of them. -/
def completeByte (place left bits : Nat) : List UInt8 :=
  match place with
  | 1 => [(left % 64 * 4 + bits / 16).toUInt8]
  | 2 => [(left % 16 * 16 + bits / 4).toUInt8]
  | 3 => [(left % 4 * 64 + bits).toUInt8]
  | _ => []

/-- The bytes of a text, given the place in the group of four, the last six bits, and the number of
equals signs behind them. -/
def decodeFrom (place left fills : Nat) : List Char → Option (List UInt8)
  | [] => if place = 0 then some [] else none
  | c :: rest =>
    if c == '=' then
      if place < 2 then decodeFrom place left fills rest
      else if 4 ≤ place + fills + 1 then some []
      else decodeFrom place left (fills + 1) rest
    else
      match base64Value? c with
      | none => decodeFrom place left fills rest
      | some bits =>
        (decodeFrom ((place + 1) % 4) bits 0 rest).map (completeByte place left bits ++ ·)

/-- The bytes of a text. Characters beyond ASCII are not passed over. -/
def decodeBase64? (s : List Char) : Option (List UInt8) :=
  if s.all (·.toNat < 128) then decodeFrom 0 0 0 s else none

end ApiDoc.Text
