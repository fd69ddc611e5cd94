import ApiDoc.Text.Printable

/-!
# Quoted texts in messages

A text in a message stands between apostrophes, or between quotation marks when it holds an
apostrophe and no quotation mark. Inside, the backslash and the mark itself are escaped, line feed,
carriage return and tab have short escapes, and other characters that are not printable are written
by their code point.
-/

namespace ApiDoc.Text

/-- A number in lower-case hexadecimal with at least `width` digits. -/
def hex (width n : Nat) : List Char :=
  let digits := Nat.toDigits 16 n
  List.replicate (width - digits.length) '0' ++ digits

/-- How one character stands inside a quoted text whose mark is `mark`. -/
def quoteChar (mark c : Char) : List Char :=
  if c == '\\' then ['\\', '\\']
  else if c == mark then ['\\', c]
  else if c == '\n' then ['\\', 'n']
  else if c == '\r' then ['\\', 'r']
  else if c == '\t' then ['\\', 't']
  else if isPrintable c then [c]
  else if c.toNat < 0x100 then '\\' :: 'x' :: hex 2 c.toNat
  else if c.toNat < 0x10000 then '\\' :: 'u' :: hex 4 c.toNat
  else '\\' :: 'U' :: hex 8 c.toNat

/-- A text in quotation marks. -/
def quoted (s : String) : String :=
  let cs := s.toList
  let mark := if cs.contains '\'' && !cs.contains '"' then '"' else '\''
  String.ofList (mark :: (cs.flatMap (quoteChar mark) ++ [mark]))

end ApiDoc.Text
