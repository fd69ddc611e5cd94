import ApiDoc.Document.Generate
import ApiDoc.Proofs.Value.Sharing

/-!
# Content of values

The content of a value is the value without the marks of its nodes. What a comment block adds to a
document gets marks on all its nodes before it is merged; this changes no content
(`plain_numbered`) and gives no node a number of a node that was read (`IsNew.numbered`).
-/

namespace ApiDoc.Value

mutual

/-- The value with no mark on any list, object or set of it. -/
def plain : Value → Value
  | .atom a => .atom a
  | .list _ items => .list none (plainItems items)
  | .object _ entries => .object none (plainEntries entries)
  | .pair a b => .pair (plain a) (plain b)
  | .set _ items => .set none items

/-- The items with no marks. -/
def plainItems : List Value → List Value
  | [] => []
  | v :: rest => plain v :: plainItems rest

/-- The entries with no marks. -/
def plainEntries : List (Atom × Value) → List (Atom × Value)
  | [] => []
  | (k, v) :: rest => (k, plain v) :: plainEntries rest

end

theorem plainItems_eq_map (items : List Value) : plainItems items = items.map plain := by
  induction items with
  | nil => rfl
  | cons v items ih => rw [plainItems, ih, List.map_cons]

theorem plainEntries_eq_mapValues (entries : List (Atom × Value)) :
    plainEntries entries = Assoc.mapValues plain entries := by
  induction entries with
  | nil => rfl
  | cons e entries ih =>
    obtain ⟨k, v⟩ := e
    rw [plainEntries, ih]
    rfl

@[simp] theorem plain_atom (a : Atom) : plain (.atom a) = .atom a := by
  rw [plain]

/-- A list without marks is one of items without marks. -/
@[simp] theorem plain_list (m : Option Mark) (items : List Value) :
    plain (.list m items) = .list none (items.map plain) := by
  rw [plain, plainItems_eq_map]

/-- An object without marks is one of values without marks. -/
@[simp] theorem plain_object (m : Option Mark) (entries : List (Atom × Value)) :
    plain (.object m entries) = .object none (Assoc.mapValues plain entries) := by
  rw [plain, plainEntries_eq_mapValues]

/-- The parts of a value without marks. -/
theorem parts_plain (v : Value) : v.plain.parts = v.parts.map plain := by
  cases v with
  | atom a => rw [plain_atom]; rfl
  | list m items => rw [plain_list]; rfl
  | object m entries =>
    simp only [plain_object, parts, Assoc.mapValues, List.flatMap_map, List.map_flatMap,
      List.map_cons, List.map_nil, plain_atom]
  | pair a b => rw [plain]; rfl
  | set m items =>
    simp only [plain, parts, List.map_map, Function.comp_def]

/-- The nodes of the content of a value are the contents of its nodes. -/
theorem every_plain_iff {P : Value → Prop} {v : Value} :
    v.plain.Every P ↔ v.Every fun x => P x.plain := by
  induction v using induction with
  | step v ih =>
    rw [every_iff, every_iff, parts_plain, List.forall_mem_map]
    exact and_congr_right fun _ => forall₂_congr ih

/-- What has the content of an object is an object. -/
theorem eq_object_of_plain {v : Value} {m : Option Mark} {entries : List (Atom × Value)}
    (h : v.plain = plain (.object m entries)) :
    ∃ m' entries', v = .object m' entries' ∧
      Assoc.mapValues plain entries' = Assoc.mapValues plain entries := by
  rw [plain_object] at h
  cases v with
  | object m' entries' =>
    rw [plain_object, object.injEq] at h
    exact ⟨m', entries', rfl, h.2⟩
  | _ => simp [plain] at h

/-- What has the content of a list is a list. -/
theorem eq_list_of_plain {v : Value} {m : Option Mark} {items : List Value}
    (h : v.plain = plain (.list m items)) :
    ∃ m' items', v = .list m' items' ∧ items'.map plain = items.map plain := by
  rw [plain_list] at h
  cases v with
  | list m' items' =>
    rw [plain_list, list.injEq] at h
    exact ⟨m', items', rfl, h.2⟩
  | _ => simp [plain] at h

/-- Only an atom is an atom without its marks. -/
theorem plain_eq_atom_iff {v : Value} {a : Atom} : v.plain = .atom a ↔ v = .atom a := by
  cases v with
  | atom b => rw [plain_atom]
  | _ => simp [plain]

/-! ## Parts of values with the same content -/

/-- Entries with the same content have the same keys. -/
theorem map_fst_of_plain {es es' : List (Atom × Value)}
    (h : Assoc.mapValues plain es' = Assoc.mapValues plain es) :
    es'.map Prod.fst = es.map Prod.fst := by
  have hkeys := congrArg (List.map Prod.fst) h
  simpa only [Assoc.mapValues, List.map_map, Function.comp_def] using hkeys

/-- Entries that differ in marks only have, one by one, the same keys and content. -/
theorem exists_mem_of_plain {es es' : List (Atom × Value)}
    (h : Assoc.mapValues plain es' = Assoc.mapValues plain es) {e : Atom × Value} (he : e ∈ es') :
    ∃ e' ∈ es, e'.1 = e.1 ∧ e.2.plain = e'.2.plain := by
  have hmem : (e.1, e.2.plain) ∈ Assoc.mapValues plain es := h ▸ List.mem_map_of_mem he
  obtain ⟨e', he', heq⟩ := List.mem_map.1 hmem
  obtain ⟨hkey, hvalue⟩ := Prod.mk.inj heq
  exact ⟨e', he', hkey, hvalue.symm⟩

/-- The field of a value without marks. -/
theorem field?_plain (key : String) (v : Value) :
    v.plain.field? key = (v.field? key).map plain := by
  cases v with
  | object m es => rw [plain_object, field?, field?, Assoc.get?_mapValues]
  | _ => simp [plain, field?]

section Content

variable {u v w : Value} {key : String}

/-- A field of a value with the same content. -/
theorem exists_field?_of_plain (h : u.plain = v.plain) (hw : v.field? key = some w) :
    ∃ w', u.field? key = some w' ∧ w'.plain = w.plain := by
  have hmap : (u.field? key).map plain = some w.plain := by
    rw [← field?_plain, h, field?_plain, hw, Option.map_some]
  exact Option.map_eq_some_iff.1 hmap

/-- Values that differ in marks only lack a field together. -/
theorem field?_eq_none_of_plain (h : u.plain = v.plain) (hv : v.field? key = none) :
    u.field? key = none := by
  have hmap : (u.field? key).map plain = none := by
    rw [← field?_plain, h, field?_plain, hv, Option.map_none]
  exact Option.map_eq_none_iff.1 hmap

/-- Values that differ in marks only have an atom for a field together. -/
theorem field?_atom_of_plain (h : u.plain = v.plain) {a : Atom}
    (hw : v.field? key = some (.atom a)) : u.field? key = some (.atom a) := by
  obtain ⟨w', hw', heq⟩ := exists_field?_of_plain h hw
  rw [plain_atom] at heq
  rw [hw', plain_eq_atom_iff.1 heq]

/-- A part of a value with the same content. -/
theorem exists_part_of_plain (h : u.plain = v.plain) (hw : w ∈ u.parts) :
    ∃ w' ∈ v.parts, w'.plain = w.plain := by
  have hmem : w.plain ∈ v.parts.map plain := by
    rw [← parts_plain, ← h, parts_plain]
    exact List.mem_map_of_mem hw
  exact List.mem_map.1 hmem

end Content

/-- Changing an object in its places changes no content if it changes none in them. -/
theorem plain_refresh {mark : Mark} {object v : Value}
    (h : v.Marked fun m x => m = mark → x.plain = object.plain) :
    (refresh mark object v).plain = v.plain := by
  induction v using induction with
  | step v ih =>
    rw [refresh_eq]
    split
    · rename_i hm
      exact (h.root hm.2 rfl).symm
    · have hparts : ∀ w ∈ v.parts, (refresh mark object w).plain = w.plain :=
        fun w hw => ih w hw (h.part hw)
      cases v with
      | atom a => rfl
      | list m items =>
        rw [mapParts, plain_list, plain_list, List.map_map]
        exact congrArg _ (List.map_congr_left hparts)
      | object m entries =>
        rw [mapParts, plain_object, plain_object, Assoc.mapValues_mapValues]
        exact congrArg _ (Assoc.mapValues_congr fun e he => hparts e.2 (snd_mem_parts he))
      | pair a b =>
        rw [mapParts, plain, plain, hparts a (List.mem_pair.2 (.inl rfl)),
          hparts b (List.mem_pair.2 (.inr rfl))]
      | set m items => rfl

/-! ## Marking what a block adds -/

/-- What does not show numbers does not show those of items. -/
theorem numberedItems_eq_map {block : Nat} {φ : Value → Value} {items : List Value}
    (h : ∀ v ∈ items, ∀ next, φ (numbered block next v).1 = φ v) (next : Nat) :
    (numberedItems block next items).1.map φ = items.map φ := by
  induction items generalizing next with
  | nil => rfl
  | cons v items ih =>
    simp only [numberedItems, List.map_cons]
    rw [h v List.mem_cons_self, ih fun w hw => h w (List.mem_cons_of_mem v hw)]

/-- What does not show numbers does not show those of entries. -/
theorem numberedEntries_eq_mapValues {block : Nat} {φ : Value → Value}
    {entries : List (Atom × Value)}
    (h : ∀ e ∈ entries, ∀ next, φ (numbered block next e.2).1 = φ e.2) (next : Nat) :
    Assoc.mapValues φ (numberedEntries block next entries).1 = Assoc.mapValues φ entries := by
  induction entries generalizing next with
  | nil => rfl
  | cons e entries ih =>
    obtain ⟨k, v⟩ := e
    simp only [numberedEntries, Assoc.mapValues, List.map_cons]
    rw [h (k, v) List.mem_cons_self]
    exact congrArg _ (ih (fun e he => h e (List.mem_cons_of_mem (k, v) he)) _)

/-- Numbers are marks, so they do not show without marks. -/
theorem plain_numbered (block next : Nat) (v : Value) :
    (numbered block next v).1.plain = v.plain := by
  induction v using induction generalizing next with
  | step v ih =>
    unfold numbered
    split
    · rename_i items
      have hitems : ∀ w ∈ items, ∀ n, (numbered block n w).1.plain = w.plain := ih
      simp only [plain_list]
      rw [numberedItems_eq_map hitems]
    · rename_i entries
      simp only [plain_object]
      rw [numberedEntries_eq_mapValues fun e he n => ih e.2 (snd_mem_parts he) n]
    · rfl

/-- What holds of a value with any numbers holds of all items with numbers. -/
theorem forall_numberedItems {block : Nat} {P : Value → Prop} {items : List Value}
    (h : ∀ v ∈ items, ∀ next, P (numbered block next v).1) (next : Nat) :
    ∀ w ∈ (numberedItems block next items).1, P w := by
  induction items generalizing next with
  | nil => exact fun w hw => absurd hw List.not_mem_nil
  | cons v items ih =>
    simp only [numberedItems, List.forall_mem_cons]
    exact ⟨h v List.mem_cons_self next, ih (fun w hw => h w (List.mem_cons_of_mem v hw)) _⟩

/-- What holds of a value with any numbers holds of all entries with numbers. -/
theorem forall_numberedEntries {block : Nat} {P : Atom × Value → Prop}
    {entries : List (Atom × Value)}
    (h : ∀ e ∈ entries, ∀ next, P (e.1, (numbered block next e.2).1)) (next : Nat) :
    ∀ e ∈ (numberedEntries block next entries).1, P e := by
  induction entries generalizing next with
  | nil => exact fun e he => absurd he List.not_mem_nil
  | cons e entries ih =>
    obtain ⟨k, v⟩ := e
    simp only [numberedEntries, List.forall_mem_cons]
    exact ⟨h (k, v) List.mem_cons_self next, ih (fun e he => h e (List.mem_cons_of_mem _ he)) _⟩

/-- The marks that are given to a value are those of parts of a block, not numbers. -/
theorem IsNew.numbered {v : Value} (h : v.IsNew) (block next : Nat) :
    (numbered block next v).1.IsNew := by
  induction v using induction generalizing next with
  | step v ih =>
    unfold Value.numbered
    split
    · rename_i items
      refine marked_iff.2 ⟨?_, forall_numberedItems (fun w hw n => ih w hw (h.part hw) n) _⟩
      rintro mark hmark i rfl
      cases hmark
    · rename_i entries
      have hentries : MarkedEntries _ entries := h.entries
      refine marked_iff.2 ⟨?_, markedEntries_iff.1 ⟨?_, ?_⟩⟩
      · rintro mark hmark i rfl
        cases hmark
      · exact forall_numberedEntries (P := fun e => (atom e.1).IsNew)
          (fun e he n => hentries.keys e he) _
      · exact forall_numberedEntries (P := fun e => e.2.IsNew)
          (fun e he n => ih e.2 (snd_mem_parts he) (hentries.values e he) n) _
    · exact h

end ApiDoc.Value
