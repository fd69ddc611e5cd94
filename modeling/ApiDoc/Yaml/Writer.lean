import ApiDoc.Number.Shortest
import ApiDoc.Yaml.Page

/-!
# Writing YAML

Values as YAML text in block style: an entry or an item a line, blocks indented by two, and the
items of a list in an object no deeper than their key. A node that occurs more than once gets an
anchor where it stands first and is an alias everywhere else. Anchors are numbered in the order in
which nodes turn out to occur again.

A key stands on one line with its value if it is short, not empty and has one line; otherwise key
and value have a sign each.

Bytes and sets have a tag. A set is written as a mapping without values, and a pair as a list.

Main definition: `write`.
-/

namespace ApiDoc.Yaml

/-! ## Anchors -/

/-- The nodes met so far, and those met again, in the order in which this was noticed. -/
structure Encounters where
  seen : List Mark := []
  again : List Mark := []

namespace Encounters

/-- One more encounter, and whether it is the first one. A node without a mark is always new. -/
def meet (e : Encounters) : Option Mark → Encounters × Bool
  | none => (e, true)
  | some m =>
    if e.seen.contains m then
      (if e.again.contains m then e else { e with again := e.again ++ [m] }, false)
    else ({ e with seen := m :: e.seen }, true)

/-- The encounters with an atom. -/
def atom (e : Encounters) (a : Atom) : Encounters := (e.meet (Value.mark? (.atom a))).1

mutual

/-- The encounters with a value and its parts. The parts of a node that is met again are the same
as before, and are not met again with it. -/
def value (e : Encounters) : Value → Encounters
  | .atom a => e.atom a
  | .list mark items =>
    let (e, new) := e.meet mark
    if new then valuesOf e items else e
  | .object mark entries =>
    let (e, new) := e.meet mark
    if new then entriesOf e entries else e
  | .pair a b => value (value e a) b
  | .set mark items =>
    let (e, new) := e.meet mark
    if new then items.foldl atom e else e

/-- The encounters with the items of a list. -/
def valuesOf (e : Encounters) : List Value → Encounters
  | [] => e
  | v :: rest => valuesOf (value e v) rest

/-- The encounters with the entries of an object. -/
def entriesOf (e : Encounters) : List (Atom × Value) → Encounters
  | [] => e
  | (k, v) :: rest => entriesOf (value (e.atom k) v) rest

end

end Encounters

/-- The name of an anchor by its number. -/
def anchorName (n : Nat) : String :=
  let digits := toString n
  "id" ++ "".pushn '0' (3 - digits.length) ++ digits

/-- How a node is referred to. -/
inductive Reference where
  /-- The node stands here. -/
  | none
  /-- The node stands here and elsewhere again. -/
  | anchor (name : String)
  /-- The node has been written before. -/
  | alias (name : String)

/-- The page, the nodes that need an anchor, and those of them that have been written. -/
structure Sheet where
  page : Page := {}
  shared : List Mark
  named : List Mark := []

namespace Sheet

/-- How a node with a mark is referred to at this point. -/
def reference (s : Sheet) (mark : Option Mark) : Reference :=
  match mark with
  | .none => .none
  | some m =>
    match s.shared.findIdx? (· == m) with
    | .none => .none
    | some i =>
      if s.named.contains m then .alias (anchorName (i + 1)) else .anchor (anchorName (i + 1))

/-- The sheet with its page changed. -/
def onPage (s : Sheet) (f : Page → Page) : Sheet := { s with page := f s.page }

/-- The sheet with the reference of a node on it, and whether the node itself is still to be
written. -/
def refer (s : Sheet) (mark : Option Mark) : Sheet × Bool :=
  match s.reference mark with
  | .none => (s, true)
  | .anchor name =>
    ({ s.onPage (·.sign ("&" ++ name) true false) with named := mark.toList ++ s.named }, true)
  | .alias name => (s.onPage (·.sign ("*" ++ name) true false), false)

end Sheet

/-! ## Atoms -/

/-- A floating-point number, always with a point. -/
def floatText : Binary64 → List Char
  | .nan => ".nan".toList
  | .infinite negative => if negative then "-.inf".toList else ".inf".toList
  | x =>
    let digits := x.text.toList
    if digits.contains '.' then digits
    else digits.takeWhile (· != 'e') ++ ".0".toList ++ digits.dropWhile (· != 'e')

/-- The text of an atom, unless it is an integer with too many digits. -/
def atomText? : Atom → Option (List Char)
  | .null => some "null".toList
  | .bool b => some (if b then "true".toList else "false".toList)
  | .int i => Numeral.text? i
  | .float x => some (floatText x)
  | .text s => some s.toList
  | .bytes bs => some (Text.encodeBase64 bs)
  | .moment m _ => some m.text.toList

/-- The style of an atom. All but texts and bytes read back as they stand. -/
def atomStyle (key : Bool) : Atom → Style
  | .text s => styleOf key s.toList
  | .bytes bs => if bs.isEmpty then .double else .literal
  | _ => .plain

/-- The tag of an atom that has to be written with one. -/
def atomTag? : Atom → Option String
  | .bytes _ => some "!!binary"
  | _ => none

/-- The number of characters in the name of an atom's type, as a tag. -/
def tagLength : Atom → Nat
  | .null => 6
  | .bool _ => 6
  | .int _ => 5
  | .float _ => 7
  | .text _ => 5
  | .bytes _ => 8
  | .moment _ _ => 11

/-- The most characters that a key on one line with its value may have, its anchor and its tag
counted with it. -/
def maxKeyLength : Nat := 127

/-- Whether a key stands on one line with its value. -/
def isShortKey (reference : Reference) (a : Atom) (text : List Char) : Bool :=
  match reference with
  | .alias _ => true
  | .anchor name =>
    name.length + tagLength a + text.length ≤ maxKeyLength && !text.isEmpty && !isMultiline text
  | .none => tagLength a + text.length ≤ maxKeyLength && !text.isEmpty && !isMultiline text

/-- The sheet with an atom. `key` tells whether it is a key on one line with its value; its lines
but the first are at an indentation. -/
def Sheet.atom (s : Sheet) (key : Bool) (indent : Nat) (a : Atom) : Option Sheet := do
  let text ← atomText? a
  let (s, here) := s.refer (Value.mark? (.atom a))
  let s := (atomTag? a).elim s fun tag => s.onPage (·.sign tag true false)
  return if here then s.onPage (·.scalar (atomStyle key a) (!key) indent text) else s

/-- The sheet with a key of an object and the sign behind it. The entries of the object are at an
indentation. -/
def Sheet.key (s : Sheet) (indent : Nat) (k : Atom) : Option Sheet := do
  let s := s.onPage (·.startLine indent)
  let text ← atomText? k
  if isShortKey (s.reference (Value.mark? (.atom k))) k text then
    (s.atom true (indent + 2) k).map (·.onPage (·.sign ":" false false))
  else
    ((s.onPage (·.sign "?" true true)).atom false (indent + 2) k).map
      (·.onPage fun p => (p.startLine indent).sign ":" true true)

/-- The sheet with the items of a set as keys at an indentation. -/
def Sheet.members (s : Sheet) (indent : Nat) : List Atom → Option Sheet
  | [] => some s
  | k :: rest => do ((← s.key indent k).atom false (indent + 2) .null).bind (·.members indent rest)

/-- The sheet with the sign in front of an item of a list at an indentation. -/
def Sheet.dash (s : Sheet) (indent : Nat) : Sheet :=
  s.onPage fun p => (p.startLine indent).sign "-" true true

/-! ## Values -/

/-- Where a value stands. -/
inductive Place where
  | root
  /-- In a list whose items are at an indentation. -/
  | item (indent : Nat)
  /-- In an object whose entries are at an indentation. -/
  | entry (indent : Nat)

namespace Place

/-- The indentation of the parts of a value, and of the further lines of a text. -/
def deeper : Place → Nat
  | .root => 0
  | .item indent => indent + 2
  | .entry indent => indent + 2

/-- The indentation of the further lines of a text. -/
def textIndent : Place → Nat
  | .root => 2
  | place => place.deeper

/-- The indentation of the items of a list. In an object, and on the line of their key, they are no
deeper than the key. -/
def itemIndent (p : Page) : Place → Nat
  | .entry indent => if p.fresh then indent + 2 else indent
  | place => place.deeper

end Place

mutual

/-- The sheet with a value. None if an integer in it has too many digits. -/
def Sheet.value (s : Sheet) (place : Place) : Value → Option Sheet
  | .atom a => s.atom false place.textIndent a
  | .list mark items =>
    match s.refer mark with
    | (s, false) => some s
    | (s, true) =>
      if items.isEmpty then some (s.onPage (·.sign "[]" true false))
      else s.items (place.itemIndent s.page) items
  | .object mark entries =>
    match s.refer mark with
    | (s, false) => some s
    | (s, true) =>
      if entries.isEmpty then some (s.onPage (·.sign "\x7b\x7d" true false))
      else s.entries place.deeper entries
  | .pair a b => do
    let indent := place.itemIndent s.page
    let s ← (s.dash indent).value (.item indent) a
    (s.dash indent).value (.item indent) b
  | .set mark items =>
    match s.refer mark with
    | (s, false) => some s
    | (s, true) =>
      let s := s.onPage (·.sign "!!set" true false)
      if items.isEmpty then some (s.onPage (·.sign "\x7b\x7d" true false))
      else s.members place.deeper items

/-- The sheet with items of a list at an indentation. -/
def Sheet.items (s : Sheet) (indent : Nat) : List Value → Option Sheet
  | [] => some s
  | v :: rest => do
    let s ← (s.dash indent).value (.item indent) v
    s.items indent rest

/-- The sheet with entries of an object at an indentation. -/
def Sheet.entries (s : Sheet) (indent : Nat) : List (Atom × Value) → Option Sheet
  | [] => some s
  | (k, v) :: rest => do
    let s ← s.key indent k
    let s ← s.value (.entry indent) v
    s.entries indent rest

end

/-- Whether a document ends with a mark: a text without quotes might go on. -/
def endsOpen : Value → Bool
  | .atom a => atomStyle false a == .plain
  | _ => false

/-- A value as YAML text. None if an integer in it has too many digits. -/
def write (v : Value) : Option (List Char) := do
  let s ← Sheet.value { shared := (Encounters.value {} v).again } .root v
  let page := s.page.startLine 0
  let page := if endsOpen v then (page.sign "..." true false).startLine 0 else page
  return page.text

end ApiDoc.Yaml
