import ApiDoc.Proofs.Document.Scan

/-!
# Outlines of documents

What the search for deprecated keys sees of a document: its lists and objects with their keys, and
which atoms are truth values. Documents with one outline have the same deprecated keys, in the same
order: `deprecatedNames_eq_of_outline`.
-/

namespace ApiDoc

namespace Value

mutual

/-- A value without its marks, with one truth value for both and nothing for other atoms. -/
def outline : Value → Value
  | .atom (.bool _) => .bool true
  | .list _ items => .list none (outlineItems items)
  | .object _ entries => .object none (outlineEntries entries)
  | _ => .null

/-- The outlines of items. -/
def outlineItems : List Value → List Value
  | [] => []
  | v :: rest => outline v :: outlineItems rest

/-- The outlines of entries. -/
def outlineEntries : List (Atom × Value) → List (Atom × Value)
  | [] => []
  | (k, v) :: rest => (k, outline v) :: outlineEntries rest

end

/-- The outline of a list is the list of the outlines. -/
theorem outline_list (m : Option Mark) (items : List Value) :
    outline (.list m items) = .list none (items.map outline) := by
  rw [outline]
  congr 1
  induction items with
  | nil => rfl
  | cons v items ih => rw [outlineItems, ih, List.map_cons]

/-- The outline of an object has the keys of the object. -/
theorem outline_object (m : Option Mark) (entries : List (Atom × Value)) :
    outline (.object m entries) = .object none (entries.map fun e => (e.1, e.2.outline)) := by
  rw [outline]
  congr 1
  induction entries with
  | nil => rfl
  | cons e entries ih => rw [outlineEntries, ih, List.map_cons]

/-- The outline of an atom tells whether it is a truth value. -/
theorem outline_atom_congr {a c : Atom} (h : ∀ b, c = .bool b ↔ a = .bool b) :
    outline (.atom c) = outline (.atom a) := by
  cases c with
  | bool b => rw [(h b).1 rfl]
  | _ =>
    cases a with
    | bool b => cases (h b).2 rfl
    | _ => rfl

end Value

namespace Document

open Value

/-- A visit of the outline of a node. -/
def Visit.outline (v : Visit) : Visit := { v with node := v.node.outline }

variable {wrong : List Value} {allowFlags : Bool}

/-- An outline shows whether a value is a flag. -/
theorem isFlag_outline (v : Value) : isFlag v.outline = isFlag v := by
  cases v with
  | atom a => cases a <;> rfl
  | list m items => rw [outline_list]; rfl
  | object m entries => rw [outline_object]; rfl
  | pair a b => rfl
  | set m items => rfl

/-- An outline shows what is reported of a visit. -/
theorem report_outline (v : Visit) :
    report wrong allowFlags v.outline = report wrong allowFlags v := by
  simp only [report, Visit.outline, isFlag_outline]

/-- The visits inside an outline are the outlines of those inside a value. -/
theorem children_outline (v : Visit) : children v.outline = (children v).map Visit.outline := by
  obtain ⟨node, key, parent⟩ := v
  cases node with
  | atom a => cases a <;> rfl
  | list m items =>
    simp only [children, Visit.outline, outline_list, visitItems_eq_map, List.zipIdx_map,
      List.map_map, Function.comp_def, Prod.map]
    rfl
  | object m entries =>
    simp only [children, Visit.outline, outline_object, visitEntries_eq_map, List.map_map,
      Function.comp_def]
  | pair a b => rfl
  | set m items => rfl

/-- The search sees no more of its visits than their outlines. -/
theorem seekAll_outline (agenda : List Visit) :
    seekAll wrong allowFlags (agenda.map Visit.outline) = seekAll wrong allowFlags agenda := by
  induction agenda using seekAll.induct with
  | case1 => rfl
  | case2 v rest ih =>
    rw [List.map_cons, seekAll, report_outline, children_outline, ← List.map_append, ih, ← seekAll]

/-- The search finds in an outline what it finds in the value. -/
theorem seek_outline (v : Value) : seek wrong allowFlags v.outline = seek wrong allowFlags v :=
  seekAll_outline [⟨v, none, none⟩]

/-- Documents with one outline have the same deprecated keys. -/
theorem deprecatedNames_eq_of_outline {v w : Value} (h : v.outline = w.outline) :
    deprecatedNames allowFlags v = deprecatedNames allowFlags w := by
  simp only [deprecatedNames, deprecatedKeys, List.flatMap_singleton]
  rw [← seek_outline v, h, seek_outline]

end Document

end ApiDoc
