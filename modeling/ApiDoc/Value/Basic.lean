import ApiDoc.Number.Binary64
import ApiDoc.Value.Assoc
import ApiDoc.Value.Moment

/-!
# Values

The data of documents and options: atoms, lists and objects whose entries are ordered. Keys are
atoms, most often texts. Besides there are pairs, the items of an ordered map, and sets of atoms;
only documents that were read have them.

A node may have a mark. Two nodes with one mark are one object that occurs in two places; a writer
that knows references writes it once. Marks play no part in what a value is equal to.

Numbers are compared by what they are worth, whatever their kind, and objects without regard to
order. NaN equals nothing, but all of them are one object: NaN is found where a key, or an item of a
list, is looked for.

Main definitions: `Atom`, `Value`, the equality `Atom.same` and `Value.same`, and what is found as a
key or an item, `Atom.alike` and `Value.alike`.
-/

namespace ApiDoc

/-- Which object a node is. -/
inductive Mark where
  /-- A node of a text that was read, by its number. -/
  | node (index : Nat)
  /-- The headers that a comment block declares for one status code. -/
  | headers (block : Nat) (code : String)
  /-- Another part of what is made of a comment block, by its number. -/
  | part (block : Nat) (index : Nat)
  deriving DecidableEq, Repr

/-- A value without parts. -/
inductive Atom where
  | null
  | bool (b : Bool)
  | int (i : Int)
  | float (x : Binary64)
  | text (s : String)
  | bytes (bs : List UInt8)
  | moment (m : Moment) (mark : Option Mark)
  deriving DecidableEq, Repr, Inhabited

/-- A value. -/
inductive Value where
  | atom (a : Atom)
  | list (mark : Option Mark) (items : List Value)
  | object (mark : Option Mark) (entries : List (Atom × Value))
  | pair (first second : Value)
  | set (mark : Option Mark) (items : List Atom)
  deriving Inhabited

namespace Atom

/-- An atom that is a number, as an integer or a floating-point number; the truth values are 0
and 1. -/
def number? : Atom → Option (Int ⊕ Binary64)
  | .bool b => some (.inl (if b then 1 else 0))
  | .int i => some (.inl i)
  | .float x => some (.inr x)
  | _ => none

/-- Whether two numbers are equal in worth. -/
def sameNumber : Int ⊕ Binary64 → Int ⊕ Binary64 → Bool
  | .inl i, .inl j => i == j
  | .inl i, .inr y => y.sameInt i
  | .inr x, .inl j => x.sameInt j
  | .inr x, .inr y => x.sameNumber y

/-- Whether two atoms are equal. -/
def same (a b : Atom) : Bool :=
  match a.number?, b.number? with
  | some x, some y => sameNumber x y
  | none, none =>
    match a, b with
    | .null, .null => true
    | .text s, .text t => s == t
    | .bytes bs, .bytes cs => bs == cs
    | .moment m _, .moment n _ => m.same n
    | _, _ => false
  | _, _ => false

/-- Whether an atom is NaN. -/
def isNaN : Atom → Bool
  | .float .nan => true
  | _ => false

/-- Whether two atoms are one key: equal, or both NaN. -/
def alike (a b : Atom) : Bool := a.isNaN && b.isNaN || a.same b

instance : BEq Atom := ⟨alike⟩

end Atom

namespace Value

/-- The empty value. -/
@[match_pattern] abbrev null : Value := .atom .null

/-- A truth value. -/
@[match_pattern] abbrev bool (b : Bool) : Value := .atom (.bool b)

/-- An integer. -/
@[match_pattern] abbrev int (i : Int) : Value := .atom (.int i)

/-- A floating-point number. -/
@[match_pattern] abbrev float (x : Binary64) : Value := .atom (.float x)

/-- A text. -/
@[match_pattern] abbrev text (s : String) : Value := .atom (.text s)

/-- A list of its own. -/
@[match_pattern] abbrev array (items : List Value) : Value := .list none items

/-- An object of its own. -/
@[match_pattern] abbrev map (entries : List (Atom × Value)) : Value := .object none entries

/-- An object of its own with texts as keys. -/
def record (fields : List (String × Value)) : Value :=
  .object none (fields.map fun (k, v) => (.text k, v))

/-- A text, or the empty value in place of none. -/
def textOrNull (s : Option String) : Value := s.elim .null .text

/-- The mark of a node. -/
def mark? : Value → Option Mark
  | .atom (.moment _ m) => m
  | .atom _ => none
  | .list m _ => m
  | .object m _ => m
  | .pair _ _ => none
  | .set m _ => m

/-- Whether a value is the empty value. -/
def isNull : Value → Bool
  | .atom .null => true
  | _ => false

/-- Whether a value counts as something: not empty, not zero and not false. -/
def isTruthy : Value → Bool
  | .atom a =>
    match a with
    | .null => false
    | .bool b => b
    | .int i => i != 0
    | .float x => !x.isZero
    | .text s => !s.isEmpty
    | .bytes bs => !bs.isEmpty
    | .moment _ _ => true
  | .list _ items => !items.isEmpty
  | .object _ entries => !entries.isEmpty
  | .pair _ _ => true
  | .set _ items => !items.isEmpty

/-- The value under a textual key of an object. -/
def field? (key : String) : Value → Option Value
  | .object _ entries => Assoc.get? (.text key) entries
  | _ => none

/-- Whether a value is NaN. -/
def isNaN : Value → Bool
  | .atom a => a.isNaN
  | _ => false

mutual

/-- Whether two values are equal: atoms by `Atom.same`, lists and pairs item by item, objects and
sets in any order. Items are alike if they are equal or both NaN. -/
def same : Value → Value → Bool
  | .atom a, .atom b => a.same b
  | .list _ xs, .list _ ys => sameItems xs ys
  | .object _ es, .object _ fs => es.length == fs.length && sameEntries es fs
  | .pair a b, .pair c d => (a.isNaN && c.isNaN || same a c) && (b.isNaN && d.isNaN || same b d)
  | .set _ as, .set _ bs => as.length == bs.length && as.all fun a => bs.any (· == a)
  | _, _ => false

/-- Whether two lists are alike item by item. -/
def sameItems : List Value → List Value → Bool
  | [], [] => true
  | x :: xs, y :: ys => (x.isNaN && y.isNaN || same x y) && sameItems xs ys
  | _, _ => false

/-- Whether every entry of the first map has one like it in the second. -/
def sameEntries : List (Atom × Value) → List (Atom × Value) → Bool
  | [], _ => true
  | (k, v) :: es, fs =>
    (match Assoc.get? k fs with
      | some w => v.isNaN && w.isNaN || same v w
      | none => false) && sameEntries es fs

end

/-- Whether two values are one item: equal, or both NaN. -/
def alike (v w : Value) : Bool := v.isNaN && w.isNaN || v.same w

/-- The values inside a value, itself included, outermost first, give the size of a value. -/
def size : Value → Nat
  | .atom _ => 1
  | .list _ items => 1 + sizeItems items
  | .object _ entries => 1 + sizeEntries entries
  | .pair a b => 1 + a.size + b.size
  | .set _ _ => 1
where
  /-- The size of all items. -/
  sizeItems : List Value → Nat
    | [] => 0
    | v :: rest => v.size + sizeItems rest
  /-- The size of all values of entries. -/
  sizeEntries : List (Atom × Value) → Nat
    | [] => 0
    | (_, v) :: rest => v.size + sizeEntries rest

end Value

end ApiDoc
