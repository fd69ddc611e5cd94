import ApiDoc.Document.Deprecated
import ApiDoc.Proofs.Value.Plain

/-!
# Places in a value

A place is the list of keys and indices that lead from a value to one of its nodes. When an object
is changed wherever it stands, a node is in its old place, or it is in a place below the object:
`At.of_refresh`. Values with the same content have nodes in the same places: `At.of_plain`.
-/

namespace ApiDoc.Value

variable {u v w x : Value} {place rest : List Atom} {key : Atom}

/-- The values right inside an object or a list, each with its key or index. -/
def keyed : Value → List (Atom × Value)
  | .object _ entries => entries
  | .list _ items => items.zipIdx.map fun e => (.int e.2, e.1)
  | _ => []

/-- What is right inside a list are its items, by their indices. -/
theorem mem_keyed_list_iff {m : Option Mark} {items : List Value} :
    (key, w) ∈ (list m items).keyed ↔ ∃ i : Nat, key = .int i ∧ items[i]? = some w := by
  simp only [keyed, List.mem_map, Prod.exists, Prod.mk.injEq, List.mk_mem_zipIdx_iff_getElem?]
  constructor
  · rintro ⟨_, i, hw, rfl, rfl⟩
    exact ⟨i, rfl, hw⟩
  · rintro ⟨i, rfl, hw⟩
    exact ⟨w, i, hw, rfl, rfl⟩

/-- What is right inside a value is a part of it. -/
theorem mem_parts_of_mem_keyed {e : Atom × Value} (h : e ∈ v.keyed) : e.2 ∈ v.parts := by
  cases v with
  | object m es => exact snd_mem_parts h
  | list m items =>
    obtain ⟨i, -, hi⟩ := mem_keyed_list_iff.1 h
    exact List.mem_of_getElem? hi
  | _ => exact absurd h List.not_mem_nil

/-- A function on the parts of a value leaves the keys. -/
theorem keyed_mapParts (f : Value → Value) (v : Value) :
    (v.mapParts f).keyed = Assoc.mapValues f v.keyed := by
  cases v with
  | list m items =>
    simp only [mapParts, keyed, Assoc.mapValues, List.zipIdx_map, List.map_map, Function.comp_def,
      Prod.map, id]
  | _ => rfl

/-- What is right inside a value without its marks. -/
theorem keyed_plain (v : Value) : v.plain.keyed = Assoc.mapValues plain v.keyed := by
  cases v with
  | list m items =>
    simp only [plain_list, keyed, Assoc.mapValues, List.zipIdx_map, List.map_map, Function.comp_def,
      Prod.map, id]
  | object m es => rw [plain_object, keyed, keyed]
  | _ => simp [plain, keyed, Assoc.mapValues]

/-- The node of a value in a place. Members of pairs and of sets have no places. -/
inductive At : Value → List Atom → Value → Prop where
  | here (v : Value) : At v [] v
  | step {v w x : Value} {key : Atom} {place : List Atom} :
      (key, w) ∈ v.keyed → At w place x → At v (key :: place) x

/-- In the empty place is the value itself. -/
@[simp] theorem at_nil_iff : v.At [] x ↔ x = v := by
  constructor
  · intro h
    cases h
    rfl
  · rintro rfl
    exact .here x

/-- A place behind a key is one in what is under the key. -/
theorem at_cons_iff : v.At (key :: place) x ↔ ∃ w, (key, w) ∈ v.keyed ∧ w.At place x := by
  constructor
  · intro h
    cases h with
    | step hw hx => exact ⟨_, hw, hx⟩
  · rintro ⟨w, hw, hx⟩
    exact .step hw hx

/-- A place in a node is a place in the value, behind that of the node. -/
theorem At.append (h : v.At place w) (hw : w.At rest x) : v.At (place ++ rest) x := by
  induction h with
  | here v => exact hw
  | step hmem _ ih => exact .step hmem (ih hw)

/-- What is in a place is a node of the value. -/
theorem At.node (h : v.At place x) : Node x v := by
  induction h with
  | here v => exact .self
  | step hmem _ ih => exact .part (mem_parts_of_mem_keyed hmem) ih

/-- A value with the same content has a node with the same content in the same place. -/
theorem At.of_plain (h : u.At place x) (heq : u.plain = v.plain) :
    ∃ x', v.At place x' ∧ x'.plain = x.plain := by
  induction h generalizing v with
  | here u => exact ⟨v, .here v, heq.symm⟩
  | step hmem _ ih =>
    have hkeyed := congrArg keyed heq
    rw [keyed_plain, keyed_plain] at hkeyed
    obtain ⟨⟨_, w'⟩, hmem', rfl, hw⟩ := exists_mem_of_plain hkeyed hmem
    obtain ⟨x', hx', hplain⟩ := ih hw
    exact ⟨x', .step hmem' hx', hplain⟩

/-! ## Changing an object in all its places -/

/-- A node and what has become of it, as far as a search for keys and a change of an object can
tell: it is a truth value if it was one, and a number that it has is its old number. -/
structure Akin (x y : Value) : Prop where
  isFlag_eq : Document.isFlag y = Document.isFlag x
  number : ∀ i, y.mark? = some (.node i) → x.mark? = some (.node i)

/-- A node that nothing has become of. -/
theorem Akin.refl (x : Value) : Akin x x := ⟨rfl, fun _ h => h⟩

/-- What becomes of a node in two steps. -/
theorem Akin.trans (h : Akin u v) (h' : Akin v w) : Akin u w :=
  ⟨h'.isFlag_eq.trans h.isFlag_eq, fun i hi => h.number i (h'.number i hi)⟩

/-- A function on the parts of a node leaves what a search can tell of it. -/
theorem akin_mapParts (f : Value → Value) (v : Value) : Akin v (v.mapParts f) := by
  refine ⟨?_, fun i hi => ?_⟩
  · cases v <;> rfl
  · rwa [mark?_mapParts] at hi

/-- Marks are no part of what makes a flag. -/
theorem isFlag_eq_of_plain (h : u.plain = v.plain) : Document.isFlag u = Document.isFlag v := by
  have hplain : ∀ w : Value, Document.isFlag w.plain = Document.isFlag w := by
    intro w
    cases w <;> simp [plain, Document.isFlag]
  rw [← hplain u, h, hplain v]

/-- A node after a change of an object is in its old place, or it is in a place of the new object
below one where the old object stands. -/
theorem At.of_refresh {mark : Mark} {new : Value} (h : (refresh mark new v).At place x) :
    (∃ x₀, v.At place x₀ ∧ Akin x₀ x) ∨
      ∃ above below y, place = above ++ below ∧ v.At above y ∧ y.mark? = some mark ∧
        new.At below x := by
  induction v using induction generalizing place with
  | step v ih =>
    rw [refresh_eq] at h
    split at h
    · rename_i hm
      exact .inr ⟨[], place, v, rfl, .here v, hm.2, h⟩
    · cases place with
      | nil =>
        rw [at_nil_iff.1 h]
        exact .inl ⟨v, .here v, akin_mapParts _ v⟩
      | cons key place =>
        obtain ⟨w', hw', hx⟩ := at_cons_iff.1 h
        rw [keyed_mapParts] at hw'
        obtain ⟨⟨_, w⟩, hw, heq⟩ := List.mem_map.1 hw'
        obtain ⟨rfl, rfl⟩ := Prod.mk.inj heq
        rcases ih w (mem_parts_of_mem_keyed hw) hx with
          ⟨x₀, hx₀, hakin⟩ | ⟨above, below, y, rfl, hy, hmark, hnew⟩
        · exact .inl ⟨x₀, .step hw hx₀, hakin⟩
        · exact .inr ⟨_ :: above, below, y, rfl, .step hw hy, hmark, hnew⟩

end ApiDoc.Value
