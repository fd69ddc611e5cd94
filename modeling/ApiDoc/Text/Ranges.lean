/-!
# Ranges of code points

A character class beyond ASCII is a sorted list of closed ranges of code points. Membership walks
the list and stops at the first range above the point, so the order of the list matters.
-/

namespace ApiDoc.Text

/-- A sorted list of closed, disjoint ranges of code points. -/
abbrev Ranges := List (Nat × Nat)

/-- Whether a code point lies in one of the ranges. The walk ends at the first range that starts
above the point, which is right because the ranges are sorted. -/
def Ranges.covers : Ranges → Nat → Bool
  | [], _ => false
  | (low, high) :: rest, n =>
    if n < low then false else if n ≤ high then true else Ranges.covers rest n

end ApiDoc.Text
