/-!
# Close words

How much two words have in common, for suggestions. Two words share their longest common piece and,
on either side of it, what the remaining parts share. They are close if the shared characters,
counted in both words, make up three fifths of all their characters.
-/

namespace ApiDoc.Text

/-- The number of characters that two texts have in common in front. -/
def commonLength : List Char → List Char → Nat
  | a :: as, b :: bs => if a == b then commonLength as bs + 1 else 0
  | _, _ => 0

/-- A piece that two texts share: where it starts in each of them, and its length. -/
structure Piece where
  left : Nat := 0
  right : Nat := 0
  length : Nat := 0

/-- The longer of a piece and those that start in front of a text and somewhere in another one. -/
def longestFrom (left : Nat) (a : List Char) (best : Piece) : Nat → List Char → Piece
  | _, [] => best
  | right, b :: bs =>
    let length := commonLength a (b :: bs)
    let best := if best.length < length then ⟨left, right, length⟩ else best
    longestFrom left a best (right + 1) bs

/-- The longer of a piece and those that start somewhere in both texts. -/
def longestPiece (b : List Char) (best : Piece) : Nat → List Char → Piece
  | _, [] => best
  | left, a :: as => longestPiece b (longestFrom left (a :: as) best 0 b) (left + 1) as

/-- The number of characters that two texts share. The first argument bounds the depth of the
calls. -/
def sharedWithin : Nat → List Char → List Char → Nat
  | 0, _, _ => 0
  | n + 1, a, b =>
    let p := longestPiece b {} 0 a
    if p.length = 0 then 0
    else
      p.length + sharedWithin n (a.take p.left) (b.take p.right) +
        sharedWithin n (a.drop (p.left + p.length)) (b.drop (p.right + p.length))

/-- Whether two words are close. -/
def isClose (a b : String) : Bool :=
  let shared := sharedWithin a.length a.toList b.toList
  6 * (a.length + b.length) ≤ 20 * shared

end ApiDoc.Text
