import ApiDoc.Value.Basic

/-!
# Deprecated keys

The singular spellings of the properties of a document are deprecated. The search visits a document
from the outside in and from left to right and reports every key that is on a list of wrong keys.
A key right under a key `properties` is a name that the document chooses and is never reported;
with `allowFlags` a key with a truth value is not reported either.
-/

namespace ApiDoc.Document

/-- The keys that are wrong by default. -/
def wrongProperties : List Value :=
  ["consume", "produce", "path", "tag", "definition", "securityDefinition", "scheme", "response",
    "parameter", "deprecated"].map .text

/-- A node that is still to be visited, with its key and the key of the node that holds it. An item
of a list has its index for a key. -/
structure Visit where
  node : Value
  key : Option Atom := none
  parent : Option Atom := none

/-- Whether a node is a truth value. -/
def isFlag : Value → Bool
  | .bool _ => true
  | _ => false

/-- The key of a visit, if it is to be reported. -/
def report (wrong : List Value) (allowFlags : Bool) (v : Visit) : List Atom :=
  match v.key with
  | none => []
  | some key =>
    if wrong.any (·.same (.atom key)) && !(v.parent.any (·.same (.text "properties"))) &&
        !(allowFlags && isFlag v.node) then [key]
    else []

/-- The visits of the items of a list, counted from an index on. -/
def visitItems (parent : Option Atom) : Nat → List Value → List Visit
  | _, [] => []
  | i, v :: rest => ⟨v, some (.int i), parent⟩ :: visitItems parent (i + 1) rest

/-- The visits of the entries of an object. -/
def visitEntries (parent : Option Atom) : List (Atom × Value) → List Visit
  | [] => []
  | (k, v) :: rest => ⟨v, some k, parent⟩ :: visitEntries parent rest

/-- The visits that a visit leads to. -/
def children (v : Visit) : List Visit :=
  match v.node with
  | .object _ entries => visitEntries v.key entries
  | .list _ items => visitItems v.key 0 items
  | _ => []

/-- The number of nodes below a list of visits. -/
def work : List Visit → Nat
  | [] => 0
  | v :: rest => v.node.size + work rest

@[simp]
theorem work_append (xs ys : List Visit) : work (xs ++ ys) = work xs + work ys := by
  induction xs with
  | nil => simp [work]
  | cons x xs ih => simp only [List.cons_append, work, ih]; omega

theorem work_visitItems (parent : Option Atom) (i : Nat) (items : List Value) :
    work (visitItems parent i items) = Value.size.sizeItems items := by
  induction items generalizing i with
  | nil => rfl
  | cons v rest ih => simp only [visitItems, work, ih, Value.size.sizeItems]

theorem work_visitEntries (parent : Option Atom) (entries : List (Atom × Value)) :
    work (visitEntries parent entries) = Value.size.sizeEntries entries := by
  induction entries with
  | nil => rfl
  | cons e rest ih => simp only [visitEntries, work, ih, Value.size.sizeEntries]

/-- A visit leads to fewer nodes than it has. -/
theorem work_children_lt (v : Visit) : work (children v) < v.node.size := by
  unfold children
  split
  · rename_i h; rw [work_visitEntries, h, Value.size]; omega
  · rename_i h; rw [work_visitItems, h, Value.size]; omega
  · cases v.node <;> simp only [work, Value.size] <;> omega

/-- The keys to be reported of a list of visits and all that they lead to. What a visit leads to
comes before the visits behind it. -/
def seekAll (wrong : List Value) (allowFlags : Bool) (agenda : List Visit) : List Atom :=
  match agenda with
  | [] => []
  | v :: rest => report wrong allowFlags v ++ seekAll wrong allowFlags (children v ++ rest)
termination_by work agenda
decreasing_by
  have := work_children_lt v
  simp only [work_append, work]
  omega

/-- The keys of a document that are on a list of wrong keys, in document order. -/
def seek (wrong : List Value) (allowFlags : Bool) (source : Value) : List Atom :=
  seekAll wrong allowFlags [⟨source, none, none⟩]

/-- The deprecated keys of several documents. -/
def deprecatedKeys (allowFlags : Bool) (sources : List Value) : List Atom :=
  sources.flatMap (seek wrongProperties allowFlags)

end ApiDoc.Document
