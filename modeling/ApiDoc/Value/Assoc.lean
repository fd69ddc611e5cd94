/-!
# Ordered maps

An ordered map is a list of entries. Keys keep the place of their first insertion, and a later
insertion under an equal key changes the value in that place.
-/

namespace ApiDoc

/-- Entries in the order of their insertion. -/
abbrev Assoc (κ : Type) (β : Type) := List (κ × β)

namespace Assoc

variable {κ β : Type} [BEq κ]

/-- The value under a key. -/
def get? (key : κ) : Assoc κ β → Option β
  | [] => none
  | (k, v) :: rest => if k == key then some v else get? key rest

/-- Whether there is an entry under a key. -/
def has (key : κ) (m : Assoc κ β) : Bool := (get? key m).isSome

/-- The map with a value under a key: in the place of the old one, else at the end. -/
def insert (key : κ) (value : β) : Assoc κ β → Assoc κ β
  | [] => [(key, value)]
  | (k, v) :: rest => if k == key then (k, value) :: rest else (k, v) :: insert key value rest

/-- The map with a value under a key, unless the key has one already. -/
def insertNew (key : κ) (value : β) (m : Assoc κ β) : Assoc κ β :=
  if has key m then m else m ++ [(key, value)]

/-- The entries of a second map inserted one after another. -/
def update (m : Assoc κ β) : Assoc κ β → Assoc κ β
  | [] => m
  | (k, v) :: rest => update (insert k v m) rest

/-- The map of a list of entries, of which later ones win. -/
def ofList (entries : List (κ × β)) : Assoc κ β := update [] entries

end Assoc

end ApiDoc
