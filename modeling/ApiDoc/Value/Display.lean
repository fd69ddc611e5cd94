import ApiDoc.Number.Numeral
import ApiDoc.Number.Shortest
import ApiDoc.Text.Quoted
import ApiDoc.Value.Basic

/-!
# Values that are written as texts

Some formats have neither bytes nor sets. Such a value becomes a text there that tells what it is:
bytes in quotation marks behind the letter `b`, and a set by its items between braces, each in a
form that tells its kind.

Main definitions: `bytesText` and `setText?`.
-/

namespace ApiDoc

/-- How a byte stands between quotation marks. -/
def byteText (mark : Char) (b : UInt8) : List Char :=
  let n := b.toNat
  if 32 ≤ n ∧ n < 127 then
    let c := Char.ofNat n
    if c == '\\' || c == mark then ['\\', c] else [c]
  else if n = 9 then ['\\', 't']
  else if n = 10 then ['\\', 'n']
  else if n = 13 then ['\\', 'r']
  else '\\' :: 'x' :: Text.hex 2 n

/-- Bytes as a text. -/
def bytesText (bs : List UInt8) : String :=
  let mark := if bs.contains 39 && !bs.contains 34 then '"' else '\''
  String.ofList ('b' :: mark :: (bs.flatMap (byteText mark) ++ [mark]))

namespace Moment

/-- Numbers with commas between them. -/
def commas (ns : List Nat) : String := ", ".intercalate (ns.map toString)

/-- An offset from universal time. An offset to the west is a day less and the rest of a day. -/
def zoneText (offset : Int) : String :=
  if offset = 0 then "datetime.timezone.utc"
  else
    let delta :=
      if offset < 0 then "days=-1, seconds=" ++ toString (86400 + 60 * offset)
      else "seconds=" ++ toString (60 * offset)
    "datetime.timezone(datetime.timedelta(" ++ delta ++ "))"

/-- A moment by its parts. Seconds and their fractions are left out if they are zero, fractions
first. -/
def parts (m : Moment) : String :=
  let day := [m.year, m.month, m.day]
  match m.clock with
  | none => "datetime.date(" ++ commas day ++ ")"
  | some c =>
    let fine :=
      if c.microsecond != 0 then [c.second, c.microsecond]
      else if c.second != 0 then [c.second]
      else []
    "datetime.datetime(" ++ commas (day ++ [c.hour, c.minute] ++ fine) ++
      c.offset.elim "" (fun o => ", tzinfo=" ++ zoneText o) ++ ")"

end Moment

/-- An atom as an item of a set, unless it is an integer with too many digits. -/
def Atom.itemText? : Atom → Option String
  | .null => some "None"
  | .bool b => some (if b then "True" else "False")
  | .int i => (Numeral.text? i).map String.ofList
  | .float x => some x.text
  | .text s => some (Text.quoted s)
  | .bytes bs => some (bytesText bs)
  | .moment m _ => some m.parts

/-- A set as a text, unless an integer in it has too many digits. -/
def setText? (items : List Atom) : Option String := do
  if items.isEmpty then return "set()"
  let texts ← items.mapM Atom.itemText?
  return "\x7b" ++ ", ".intercalate texts ++ "\x7d"

end ApiDoc
