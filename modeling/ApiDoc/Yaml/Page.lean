import ApiDoc.Text.Quoted
import ApiDoc.Yaml.Style

/-!
# The page that YAML is written on

What has been written so far, and what the next part of a document has to know of it: the column,
whether a blank stands in front, and whether the line holds nothing yet but the signs that open
blocks. Lines are about 80 characters wide: a text is broken at the first place behind that where
this can be done.

Main definitions: `Page.sign` for indicators, `Page.startLine`, and `Page.scalar` for texts in all
styles.
-/

namespace ApiDoc.Yaml

/-- The width behind which texts are broken. -/
def pageWidth : Nat := 80

/-- What is known of the page while it is written. -/
structure Page where
  /-- What has been written, last character first. -/
  written : List Char := []
  column : Nat := 0
  /-- Whether the next sign needs no blank in front of it. -/
  blank : Bool := true
  /-- Whether a block may be opened on this line. -/
  fresh : Bool := true

namespace Page

/-- The text of a page. -/
def text (p : Page) : List Char := p.written.reverse

/-- The page with more text on its line. -/
def put (p : Page) (s : List Char) : Page :=
  { p with written := s.reverse ++ p.written, column := p.column + s.length }

/-- The page with its line ended by a character. -/
def endLine (p : Page) (c : Char) : Page := ⟨c :: p.written, 0, true, true⟩

/-- The page at an indentation, on a new line unless the line holds nothing but opened blocks and
does not reach beyond. -/
def startLine (p : Page) (indent : Nat) : Page :=
  let p :=
    if !p.fresh || indent < p.column || (p.column == indent && !p.blank) then p.endLine '\n' else p
  if p.column < indent then
    { p.put (List.replicate (indent - p.column) ' ') with blank := true }
  else p

/-- The page with a sign on it. `apart` asks for a blank in front of the sign, and `opens` tells
that a block may be opened behind it. -/
def sign (p : Page) (s : String) (apart opens : Bool) : Page :=
  let p := if apart && !p.blank then p.put [' '] else p
  { p.put s.toList with blank := false, fresh := p.fresh && opens }

/-- The page inside a text: what comes next is part of it. -/
def inside (p : Page) : Page := { p with blank := false, fresh := false }

/-- The classes of the characters of a text: spaces, ends of lines, and the rest. -/
def runClass (c : Char) : Nat := if c == ' ' then 0 else if isTextBreak c then 1 else 2

/-- A text in runs of spaces, of ends of lines, and of other characters. -/
def runs (s : List Char) : List (List Char) := s.splitBy fun a b => runClass a == runClass b

/-- The page with the runs of a text that has no quotes. A single space behind the width becomes
the end of a line, if the text may be `split`. -/
def plainRuns (split : Bool) (indent : Nat) (p : Page) : List (List Char) → Page
  | [] => p
  | run :: rest =>
    let p :=
      if split && run == [' '] && pageWidth < p.column then (p.startLine indent).inside
      else p.put run
    plainRuns split indent p rest

/-- The page with a text that has no quotes. -/
def plainText (split : Bool) (indent : Nat) (p : Page) (s : List Char) : Page :=
  let p := if p.blank then p else p.put [' ']
  plainRuns split indent p.inside (runs s)

/-- The ends of lines in single quotes: a line feed is written twice, since once stands for a
space. -/
def lineEnds (p : Page) (run : List Char) : Page :=
  let p := if run.head? == some '\n' then p.endLine '\n' else p
  run.foldl endLine p

/-- The page with the runs of a text in single quotes. A single space behind the width becomes the
end of a line, unless the text starts or ends with it. -/
def singleRuns (split : Bool) (indent : Nat) (first : Bool) (p : Page) : List (List Char) → Page
  | [] => p
  | run :: rest =>
    let p :=
      match run.head?.map runClass with
      | some 0 =>
        if split && run == [' '] && pageWidth < p.column && !first && !rest.isEmpty then
          p.startLine indent
        else p.put run
      | some 1 => (lineEnds p run).startLine indent
      | _ => p.put (run.flatMap fun c => if c == '\'' then ['\'', '\''] else [c])
    singleRuns split indent false p rest

/-- The page with a text in single quotes. -/
def singleText (split : Bool) (indent : Nat) (p : Page) (s : List Char) : Page :=
  (singleRuns split indent true (p.sign "'" true false) (runs s)).sign "'" false false

/-- Whether a character stands for itself in double quotes. -/
def standsForItself (c : Char) : Bool :=
  let n := c.toNat
  c != '"' && c != '\\' && n != 0x2028 && n != 0x2029 && n != 0xFEFF &&
    ((0x20 ≤ n && n ≤ 0x7E) || (0xA0 ≤ n && n ≤ 0xD7FF) || (0xE000 ≤ n && n ≤ 0xFFFD))

/-- The letter of a character that has one. -/
def escapeLetter? (c : Char) : Option Char :=
  match c.toNat with
  | 0x00 => some '0'
  | 0x07 => some 'a'
  | 0x08 => some 'b'
  | 0x09 => some 't'
  | 0x0A => some 'n'
  | 0x0B => some 'v'
  | 0x0C => some 'f'
  | 0x0D => some 'r'
  | 0x1B => some 'e'
  | 0x22 => some '"'
  | 0x5C => some '\\'
  | 0x85 => some 'N'
  | 0x2028 => some 'L'
  | 0x2029 => some 'P'
  | _ => none

/-- A character by its letter or its code. -/
def escape (c : Char) : List Char :=
  let code (width : Nat) : List Char := (Text.hex width c.toNat).map Char.toUpper
  match escapeLetter? c with
  | some letter => ['\\', letter]
  | none =>
    if c.toNat ≤ 0xFF then '\\' :: 'x' :: code 2
    else if c.toNat ≤ 0xFFFF then '\\' :: 'u' :: code 4
    else '\\' :: 'U' :: code 8

/-- The page with its line broken by a backslash inside double quotes. A space that comes `next`
is kept by one more backslash. -/
def breakLine (indent : Nat) (p : Page) (next : Option Char) : Page :=
  let p := ((p.put ['\\']).startLine indent).inside
  if next == some ' ' then p.put ['\\'] else p

/-- The page with the characters of a text in double quotes. A line is broken behind the width, at a
space or next to a character that is written otherwise than as itself, but not in front of the first
character and not at the last. -/
def doubleChars (split : Bool) (indent : Nat) (first afterEscape : Bool) (p : Page) :
    List Char → Page
  | [] => p
  | c :: rest =>
    let mayBreak := split && !first && !rest.isEmpty
    if standsForItself c then
      let p :=
        if mayBreak && (c == ' ' || afterEscape) && pageWidth < p.column then
          breakLine indent p (some c)
        else p
      doubleChars split indent false false (p.put [c]) rest
    else
      let p := p.put (escape c)
      let p := if mayBreak && pageWidth + 1 < p.column then breakLine indent p rest.head? else p
      doubleChars split indent false true p rest

/-- The page with a text in double quotes. -/
def doubleText (split : Bool) (indent : Nat) (p : Page) (s : List Char) : Page :=
  (doubleChars split indent true false (p.sign "\"" true false) s).sign "\"" false false

/-- The page with the lines of a text below a sign. Every line of the text ends with a line feed. -/
def literalText (indent : Nat) (p : Page) (s : List Char) : Page :=
  let step (p : Page) (c : Char) : Page :=
    if c == '\n' then p.endLine '\n'
    else (if p.column < indent then p.startLine indent else p).put [c]
  s.foldl step ((p.sign "|" true false).endLine '\n')

/-- The page with a text in a style. The lines of the text but the first are at an indentation. -/
def scalar (style : Style) (split : Bool) (indent : Nat) (p : Page) (s : List Char) : Page :=
  match style with
  | .plain => p.plainText split indent s
  | .single => p.singleText split indent s
  | .double => p.doubleText split indent s
  | .literal => p.literalText indent s

end Page

end ApiDoc.Yaml
