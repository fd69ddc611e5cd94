import ApiDoc.Value.Assoc
import Mathlib.Data.List.Nodup

/-!
# Laws of ordered maps

Reading, inserting and merging of ordered maps. Keys are compared by an equality that need not be
lawful: for the atoms of documents `1`, `true` and `1.0` are one key. So the laws are stated for
*exact* keys, those that equal themselves and nothing else; texts are such keys.

`mergeWith` is the common form of all merges of maps: one entry after another is combined with what
the map has under its key. `mergeWith_alter` says that a change of one entry of the map that is
merged in may be made on the merged map instead, and `mapValues_mergeWith_eq_iff` says when a merge
shows no change.
-/

namespace ApiDoc.Assoc

variable {κ β γ δ : Type} [BEq κ]

/-! ## Exact keys -/

/-- A key that equals itself and no other key. -/
def IsExact (key : κ) : Prop := ∀ k : κ, (k == key) = true ↔ k = key

/-- Entries under exact keys, no two of which are the same. -/
structure Distinct (m : Assoc κ β) : Prop where
  exactKey : ∀ e ∈ m, IsExact e.1
  nodup : (m.map Prod.fst).Nodup

omit [BEq κ] in
/-- Where equality is lawful every key is exact. -/
theorem isExact_of_lawfulBEq [BEq κ] [LawfulBEq κ] (key : κ) : IsExact key :=
  fun _ => beq_iff_eq

/-- An exact key equals itself. -/
theorem IsExact.beq_self {key : κ} (h : IsExact key) : (key == key) = true :=
  (h key).2 rfl

/-- An exact key differs from every other key. -/
theorem IsExact.beq_eq_false {key k : κ} (h : IsExact key) (hne : k ≠ key) :
    (k == key) = false := by
  rw [← Bool.not_eq_true, h k]
  exact hne

/-- A map keeps its keys different when its first entry is dropped. -/
theorem Distinct.tail {e : κ × β} {m : Assoc κ β} (h : Distinct (e :: m)) : Distinct m :=
  ⟨fun e' he' => h.exactKey e' (List.mem_cons_of_mem e he'), (List.nodup_cons.1 h.nodup).2⟩

/-- The key of the first entry does not come again. -/
theorem Distinct.head_not_mem {e : κ × β} {m : Assoc κ β} (h : Distinct (e :: m)) :
    ∀ e' ∈ m, e'.1 ≠ e.1 := by
  intro e' he' heq
  exact (List.nodup_cons.1 h.nodup).1 (heq ▸ List.mem_map_of_mem he')

/-- A map without entries. -/
theorem distinct_nil : Distinct ([] : Assoc κ β) :=
  ⟨fun _ h => absurd h List.not_mem_nil, List.nodup_nil⟩

/-- A map of one entry under an exact key. -/
theorem distinct_singleton {key : κ} (h : IsExact key) (v : β) : Distinct [(key, v)] :=
  ⟨List.forall_mem_singleton.2 h, List.nodup_singleton key⟩

/-- Maps under the same keys. -/
theorem Distinct.of_keys {m : Assoc κ β} (h : Distinct m) {m' : Assoc κ γ}
    (hkeys : m'.map Prod.fst = m.map Prod.fst) : Distinct m' := by
  refine ⟨fun e he => ?_, hkeys ▸ h.nodup⟩
  have hmem : e.1 ∈ m.map Prod.fst := hkeys ▸ List.mem_map_of_mem he
  obtain ⟨e', he', heq⟩ := List.mem_map.1 hmem
  exact heq ▸ h.exactKey e' he'

/-- A map keeps its keys different when entries are dropped. -/
theorem Distinct.sublist {m m' : Assoc κ β} (h : Distinct m) (hsub : m'.Sublist m) : Distinct m' :=
  ⟨fun e he => h.exactKey e (hsub.subset he), h.nodup.sublist (hsub.map Prod.fst)⟩

/-! ## Reading after inserting -/

/-- What was inserted under an exact key is found there. -/
theorem get?_insert_self {key : κ} (h : IsExact key) (v : β) (m : Assoc κ β) :
    get? key (insert key v m) = some v := by
  induction m with
  | nil => simp only [insert, get?, h.beq_self, if_true]
  | cons e m ih =>
    obtain ⟨k, w⟩ := e
    by_cases hk : (k == key) = true
    · simp only [insert, hk, if_true, get?]
    · simp only [insert, hk, get?, ih, Bool.false_eq_true, if_false]

/-- An insertion leaves what is under any other exact key. -/
theorem get?_insert_of_ne {key key' : κ} (h : IsExact key) (h' : IsExact key')
    (hne : key ≠ key') (v : β) (m : Assoc κ β) :
    get? key' (insert key v m) = get? key' m := by
  induction m with
  | nil => simp only [insert, get?, h'.beq_eq_false hne, Bool.false_eq_true, if_false]
  | cons e m ih =>
    obtain ⟨k, w⟩ := e
    by_cases hk : (k == key) = true
    · have hk' : (k == key') = false := h'.beq_eq_false (by rw [(h k).1 hk]; exact hne)
      simp only [insert, hk, if_true, get?, hk', Bool.false_eq_true, if_false]
    · simp only [insert, hk, get?, ih, Bool.false_eq_true, if_false]

/-- Of two insertions under one exact key only the last one shows. -/
theorem insert_insert_self {key : κ} (h : IsExact key) (v w : β) (m : Assoc κ β) :
    insert key v (insert key w m) = insert key v m := by
  induction m with
  | nil => simp only [insert, h.beq_self, if_true]
  | cons e m ih =>
    obtain ⟨k, u⟩ := e
    by_cases hk : (k == key) = true
    · simp only [insert, hk, if_true]
    · simp only [insert, hk, ih, Bool.false_eq_true, if_false]

/-- Two insertions commute if the key of one of them is there already: no entry is added by it, so
the order of the entries does not depend on which comes first. -/
theorem insert_comm {key key' : κ} (h : IsExact key) (h' : IsExact key') (hne : key ≠ key')
    (v v' : β) {m : Assoc κ β} (hmem : (get? key m).isSome) :
    insert key v (insert key' v' m) = insert key' v' (insert key v m) := by
  induction m with
  | nil => simp only [get?, Option.isSome_none, Bool.false_eq_true] at hmem
  | cons e m ih =>
    obtain ⟨k, u⟩ := e
    by_cases hk : (k == key) = true
    · have hk' : (k == key') = false := h'.beq_eq_false (by rw [(h k).1 hk]; exact hne)
      simp only [insert, hk, hk', if_true, Bool.false_eq_true, if_false]
    · have hrest : (get? key m).isSome := by
        simpa only [get?, hk, Bool.false_eq_true, if_false] using hmem
      by_cases hk' : (k == key') = true
      · simp only [insert, hk, hk', if_true, Bool.false_eq_true, if_false]
      · simp only [insert, hk, hk', ih hrest, Bool.false_eq_true, if_false]

/-- What is there already is not changed by being inserted again. -/
theorem insert_eq_self {key : κ} {v : β} {m : Assoc κ β} (h : get? key m = some v) :
    insert key v m = m := by
  induction m with
  | nil => simp only [get?, reduceCtorEq] at h
  | cons e m ih =>
    obtain ⟨k, u⟩ := e
    by_cases hk : (k == key) = true
    · simp only [get?, hk, if_true, Option.some.injEq] at h
      simp only [insert, hk, if_true, h]
    · simp only [get?, hk, Bool.false_eq_true, if_false] at h
      simp only [insert, hk, Bool.false_eq_true, if_false, ih h]

/-- What is found in a map is a value of one of its entries. -/
theorem mem_of_get? {key : κ} {v : β} {m : Assoc κ β} (h : get? key m = some v) :
    ∃ k, (k, v) ∈ m := by
  induction m with
  | nil => simp only [get?, reduceCtorEq] at h
  | cons e m ih =>
    obtain ⟨k, u⟩ := e
    by_cases hk : (k == key) = true
    · simp only [get?, hk, if_true, Option.some.injEq] at h
      exact ⟨k, by rw [h]; exact List.mem_cons_self⟩
    · simp only [get?, hk, Bool.false_eq_true, if_false] at h
      obtain ⟨k', hk'⟩ := ih h
      exact ⟨k', List.mem_cons_of_mem _ hk'⟩

/-- What is found under an exact key is an entry under that very key. -/
theorem mem_of_get?_of_isExact {key : κ} (hkey : IsExact key) {v : β} {m : Assoc κ β}
    (h : get? key m = some v) : (key, v) ∈ m := by
  induction m with
  | nil => cases h
  | cons e m ih =>
    obtain ⟨k, u⟩ := e
    rw [get?] at h
    split at h
    · rename_i hk
      cases h
      rw [(hkey k).1 hk]
      exact List.mem_cons_self
    · exact List.mem_cons_of_mem _ (ih h)

/-- Where keys are different every entry is found under its key. -/
theorem get?_of_mem {m : Assoc κ β} (h : Distinct m) {key : κ} {v : β} (hmem : (key, v) ∈ m) :
    get? key m = some v := by
  induction m with
  | nil => exact absurd hmem List.not_mem_nil
  | cons e m ih =>
    obtain ⟨k, u⟩ := e
    rcases List.mem_cons.1 hmem with heq | hin
    · cases heq
      simp only [get?, (h.exactKey _ List.mem_cons_self).beq_self, if_true]
    · have hne : k ≠ key := fun heq => h.head_not_mem _ hin heq.symm
      have hexact := h.exactKey _ (List.mem_cons_of_mem _ hin)
      simp only [get?, hexact.beq_eq_false hne, Bool.false_eq_true, if_false, ih h.tail hin]

/-- Nothing is found under an exact key that no entry has. -/
theorem get?_eq_none_of_forall_ne {key : κ} (h : IsExact key) {m : Assoc κ β}
    (hne : ∀ e ∈ m, e.1 ≠ key) : get? key m = none := by
  induction m with
  | nil => rfl
  | cons e m ih =>
    obtain ⟨k, u⟩ := e
    have hk : (k == key) = false := h.beq_eq_false (hne (k, u) List.mem_cons_self)
    simp only [get?, hk, Bool.false_eq_true, if_false]
    exact ih fun e' he' => hne e' (List.mem_cons_of_mem _ he')

/-- Of two maps in a row the first one that has a key gives its value. -/
theorem get?_append (key : κ) (m m' : Assoc κ β) :
    get? key (m ++ m') = (get? key m).or (get? key m') := by
  induction m with
  | nil => rfl
  | cons e m ih =>
    obtain ⟨k, v⟩ := e
    by_cases hk : (k == key) = true
    · simp only [List.cons_append, get?, hk, if_true, Option.some_or]
    · simp only [List.cons_append, get?, hk, Bool.false_eq_true, if_false, ih]

/-- A new entry shows only where the map had nothing under its key. -/
theorem get?_insertNew {key key' : κ} (h' : IsExact key') (v : β) (m : Assoc κ β) :
    get? key' (insertNew key v m) = (get? key' m).or (get? key' [(key, v)]) := by
  unfold insertNew
  split
  · rename_i hhas
    by_cases hkey : key = key'
    · subst hkey
      obtain ⟨w, hw⟩ := Option.isSome_iff_exists.1 hhas
      rw [hw, Option.some_or]
    · simp only [get?, h'.beq_eq_false hkey, Bool.false_eq_true, if_false, Option.or_none]
  · exact get?_append key' m _

/-- An entry of a map with an insertion is an old one, or has the inserted value. -/
theorem mem_insert {key : κ} {v : β} {m : Assoc κ β} {e : κ × β} (h : e ∈ insert key v m) :
    e ∈ m ∨ e.2 = v := by
  induction m with
  | nil =>
    rw [insert, List.mem_singleton] at h
    exact .inr (by rw [h])
  | cons e' m ih =>
    obtain ⟨k, u⟩ := e'
    by_cases hk : (k == key) = true
    · simp only [insert, hk, if_true, List.mem_cons] at h
      rcases h with rfl | h
      · exact .inr rfl
      · exact .inl (List.mem_cons_of_mem _ h)
    · simp only [insert, hk, Bool.false_eq_true, if_false, List.mem_cons] at h
      rcases h with rfl | h
      · exact .inl List.mem_cons_self
      · exact (ih h).imp_left (List.mem_cons_of_mem _)

/-- An entry of a map with an insertion is an old one, or the inserted one. -/
theorem mem_insert_of_isExact {key : κ} (hkey : IsExact key) {v : β} {m : Assoc κ β} {e : κ × β}
    (h : e ∈ insert key v m) : e ∈ m ∨ e = (key, v) := by
  induction m with
  | nil => exact .inr (List.mem_singleton.1 h)
  | cons e' m ih =>
    obtain ⟨k, u⟩ := e'
    rw [insert] at h
    split at h
    · rename_i hk
      rcases List.mem_cons.1 h with rfl | h
      · exact .inr (by rw [(hkey k).1 hk])
      · exact .inl (List.mem_cons_of_mem _ h)
    · rcases List.mem_cons.1 h with rfl | h
      · exact .inl List.mem_cons_self
      · exact (ih h).imp_left (List.mem_cons_of_mem _)

/-- The keys after an insertion: those before, and the new key if it was none of them. -/
theorem map_fst_insert (key : κ) (v : β) (m : Assoc κ β) :
    (insert key v m).map Prod.fst =
      m.map Prod.fst ++ if (get? key m).isSome then [] else [key] := by
  induction m with
  | nil => simp only [insert, get?, List.map_cons, List.map_nil, Option.isSome_none,
      Bool.false_eq_true, if_false, List.nil_append]
  | cons e m ih =>
    obtain ⟨k, u⟩ := e
    by_cases hk : (k == key) = true
    · simp only [insert, get?, hk, if_true, List.map_cons, Option.isSome_some, List.append_nil]
    · simp only [insert, get?, hk, Bool.false_eq_true, if_false, List.map_cons, ih,
        List.cons_append]

/-- What holds of the keys of a map and of a further key holds of the keys after its insertion. -/
theorem forall_keys_insert {p : κ → Prop} {key : κ} (hkey : p key) (v : β) {m : Assoc κ β}
    (hm : ∀ e ∈ m, p e.1) : ∀ e ∈ insert key v m, p e.1 := by
  intro e he
  have hmem : e.1 ∈ (insert key v m).map Prod.fst := List.mem_map_of_mem he
  rw [map_fst_insert, List.mem_append] at hmem
  rcases hmem with hold | hnew
  · obtain ⟨e', he', heq⟩ := List.mem_map.1 hold
    exact heq ▸ hm e' he'
  · split at hnew
    · exact absurd hnew List.not_mem_nil
    · rw [List.mem_singleton.1 hnew]
      exact hkey

/-- A map with an inserted entry is not empty. -/
theorem insert_ne_nil (key : κ) (v : β) (m : Assoc κ β) : insert key v m ≠ [] := by
  cases m with
  | nil => exact List.cons_ne_nil _ _
  | cons e m =>
    rw [insert]
    split <;> exact List.cons_ne_nil _ _

/-- Something is found under an exact key just if the key is one of the map. -/
theorem isSome_get?_iff {key : κ} (h : IsExact key) {m : Assoc κ β} :
    (get? key m).isSome ↔ key ∈ m.map Prod.fst := by
  induction m with
  | nil => simp only [get?, Option.isSome_none, Bool.false_eq_true, List.map_nil,
      List.not_mem_nil]
  | cons e m ih =>
    obtain ⟨k, u⟩ := e
    by_cases hk : (k == key) = true
    · have heq : key = k := ((h k).1 hk).symm
      simp only [get?, hk, if_true, Option.isSome_some, List.map_cons, List.mem_cons, true_iff]
      exact .inl heq
    · have hne : key ≠ k := fun heq => hk ((h k).2 heq.symm)
      simp only [get?, hk, Bool.false_eq_true, if_false, ih, List.map_cons, List.mem_cons, hne,
        false_or]

/-- Inserting under an exact key keeps keys different. -/
theorem Distinct.insert {m : Assoc κ β} (hm : Distinct m) {key : κ} (h : IsExact key) (v : β) :
    Distinct (insert key v m) := by
  refine ⟨forall_keys_insert h v hm.exactKey, ?_⟩
  rw [map_fst_insert]
  split
  · rw [List.append_nil]
    exact hm.nodup
  · rename_i habsent
    rw [isSome_get?_iff h] at habsent
    rw [List.nodup_append]
    refine ⟨hm.nodup, List.nodup_singleton key, ?_⟩
    intro a ha b hb heq
    rw [List.mem_singleton.1 hb] at heq
    exact habsent (heq ▸ ha)

/-! ## Maps with a function on their values -/

/-- The map with a function on its values. -/
def mapValues (f : β → γ) (m : Assoc κ β) : Assoc κ γ := m.map fun e => (e.1, f e.2)

/-- A key has, in the map with a function on its values, the function of what it had. -/
theorem get?_mapValues (f : β → γ) (key : κ) (m : Assoc κ β) :
    get? key (mapValues f m) = (get? key m).map f := by
  induction m with
  | nil => rfl
  | cons e m ih =>
    obtain ⟨k, v⟩ := e
    change get? key ((k, f v) :: mapValues f m) = _
    by_cases hk : (k == key) = true
    · simp only [get?, hk, if_true, Option.map_some]
    · simp only [get?, hk, Bool.false_eq_true, if_false, ih]

/-- A function on values may be taken before or after an insertion. -/
theorem insert_mapValues (f : β → γ) (key : κ) (v : β) (m : Assoc κ β) :
    insert key (f v) (mapValues f m) = mapValues f (insert key v m) := by
  induction m with
  | nil => rfl
  | cons e m ih =>
    obtain ⟨k, w⟩ := e
    change insert key (f v) ((k, f w) :: mapValues f m) = _
    by_cases hk : (k == key) = true
    · simp only [insert, hk, if_true]
      rfl
    · simp only [insert, hk, Bool.false_eq_true, if_false, ih]
      rfl

omit [BEq κ] in
/-- Two functions on values, one after the other, are one. -/
theorem mapValues_mapValues (f : β → γ) (g : γ → δ) (m : Assoc κ β) :
    mapValues g (mapValues f m) = mapValues (fun v => g (f v)) m := by
  simp only [mapValues, List.map_map, Function.comp_def]

omit [BEq κ] in
/-- Functions that agree on the values of a map give the same map. -/
theorem mapValues_congr {f g : β → γ} {m : Assoc κ β} (h : ∀ e ∈ m, f e.2 = g e.2) :
    mapValues f m = mapValues g m :=
  List.map_congr_left fun e he => by rw [h e he]

omit [BEq κ] in
/-- A function that fixes the values of a map fixes the map. -/
theorem mapValues_eq_self {f : β → β} {m : Assoc κ β} (h : ∀ e ∈ m, f e.2 = e.2) :
    mapValues f m = m := by
  rw [mapValues_congr (g := fun v => v) h]
  exact List.map_id m

omit [BEq κ] in
/-- What holds of the values after a function on them, said of the values before. -/
theorem forall_mem_mapValues {f : β → γ} {p : γ → Prop} {m : Assoc κ β} :
    (∀ e ∈ mapValues f m, p e.2) ↔ ∀ e ∈ m, p (f e.2) := by
  simp only [mapValues, List.forall_mem_map]

/-- A function on values keeps keys different. -/
theorem Distinct.mapValues {m : Assoc κ β} (h : Distinct m) (f : β → γ) :
    Distinct (mapValues f m) := by
  refine ⟨?_, ?_⟩
  · intro e he
    obtain ⟨e', he', rfl⟩ := List.mem_map.1 he
    exact h.exactKey e' he'
  · have hkeys : (Assoc.mapValues f m).map Prod.fst = m.map Prod.fst := by
      simp only [Assoc.mapValues, List.map_map, Function.comp_def]
    rw [hkeys]
    exact h.nodup

/-! ## Altering one entry -/

/-- The map with the value under a key changed, given what was there. -/
def alter (key : κ) (f : Option β → β) (m : Assoc κ β) : Assoc κ β :=
  insert key (f (get? key m)) m

/-- An altered entry has what the function makes of what was there. -/
theorem get?_alter_self {key : κ} (h : IsExact key) (f : Option β → β) (m : Assoc κ β) :
    get? key (alter key f m) = some (f (get? key m)) :=
  get?_insert_self h _ m

/-- Altering one entry leaves every other. -/
theorem get?_alter_of_ne {key key' : κ} (h : IsExact key) (h' : IsExact key') (hne : key ≠ key')
    (f : Option β → β) (m : Assoc κ β) : get? key' (alter key f m) = get? key' m :=
  get?_insert_of_ne h h' hne _ m

/-- Altering one entry twice is altering it once, by one function after the other. -/
theorem alter_alter_self {key : κ} (h : IsExact key) (f g : Option β → β) (m : Assoc κ β) :
    alter key g (alter key f m) = alter key (fun x => g (some (f x))) m := by
  rw [alter, get?_alter_self h, alter, insert_insert_self h, alter]

/-- Two entries may be altered in either order, if the first of them is there already. -/
theorem alter_comm {key key' : κ} (h : IsExact key) (h' : IsExact key') (hne : key ≠ key')
    (f g : Option β → β) {m : Assoc κ β} (hmem : (get? key m).isSome) :
    alter key f (alter key' g m) = alter key' g (alter key f m) := by
  rw [alter, get?_alter_of_ne h' h hne.symm, alter, insert_comm h h' hne _ _ hmem, alter,
    get?_alter_of_ne h h' hne, alter]

/-- Altering an entry in the map of a function is altering it before, if the changes agree. -/
theorem alter_mapValues (φ : β → γ) (key : κ) {f : Option β → β} {g : Option γ → γ}
    (m : Assoc κ β) (h : g ((get? key m).map φ) = φ (f (get? key m))) :
    alter key g (mapValues φ m) = mapValues φ (alter key f m) := by
  rw [alter, get?_mapValues, h, insert_mapValues, alter]

/-- Altering the entry of an exact key keeps keys different. -/
theorem Distinct.alter {m : Assoc κ β} (hm : Distinct m) {key : κ} (h : IsExact key)
    (f : Option β → β) : Distinct (alter key f m) :=
  hm.insert h _

/-- A map under different exact keys whose values satisfy a predicate. -/
structure Every (P : β → Prop) (m : Assoc κ β) : Prop where
  distinct : Distinct m
  values : ∀ e ∈ m, P e.2

/-- A map without entries has all its values satisfy any predicate. -/
theorem every_nil {P : β → Prop} : Every P ([] : Assoc κ β) :=
  ⟨distinct_nil, fun _ h => absurd h List.not_mem_nil⟩

/-- Values keep a predicate that the altering function keeps. -/
theorem Every.alter {P : β → Prop} {m : Assoc κ β} (hm : Every P m) {key : κ} (h : IsExact key)
    {f : Option β → β} (hf : ∀ x, (∀ y, x = some y → P y) → P (f x)) : Every P (alter key f m) := by
  refine ⟨hm.distinct.alter h f, fun e he => ?_⟩
  rcases mem_insert he with hold | hnew
  · exact hm.values e hold
  · rw [hnew]
    refine hf _ fun y hy => ?_
    obtain ⟨k, hk⟩ := mem_of_get? hy
    exact hm.values _ hk

/-! ## Merging -/

/-- The map with the entries of another merged in, one after another: `f` combines what is there
with what comes in. -/
def mergeWith (f : Option β → γ → β) (m : Assoc κ β) : Assoc κ γ → Assoc κ β
  | [] => m
  | (k, c) :: rest => mergeWith f (alter k (fun x => f x c) m) rest

/-- Entries in a row are merged in one part after the other. -/
theorem mergeWith_append (f : Option β → γ → β) (m : Assoc κ β) (a b : Assoc κ γ) :
    mergeWith f m (a ++ b) = mergeWith f (mergeWith f m a) b := by
  induction a generalizing m with
  | nil => rfl
  | cons e a ih => exact ih _

/-- A function on the values that come in may be left to the merge. -/
theorem mergeWith_mapValues_right (f : Option β → δ → β) (g : γ → δ) (m : Assoc κ β)
    (a : Assoc κ γ) : mergeWith f m (mapValues g a) = mergeWith (fun x c => f x (g c)) m a := by
  induction a generalizing m with
  | nil => rfl
  | cons e a ih => exact ih _

/-- A key that is not merged in keeps what it has. -/
theorem get?_mergeWith_of_not_mem (f : Option β → γ → β) {key : κ} (h : IsExact key)
    {a : Assoc κ γ} (ha : ∀ e ∈ a, IsExact e.1) (hne : ∀ e ∈ a, e.1 ≠ key) (m : Assoc κ β) :
    get? key (mergeWith f m a) = get? key m := by
  induction a generalizing m with
  | nil => rfl
  | cons e a ih =>
    obtain ⟨k, c⟩ := e
    rw [mergeWith, ih (fun e he => ha e (List.mem_cons_of_mem _ he))
      (fun e he => hne e (List.mem_cons_of_mem _ he))]
    exact get?_alter_of_ne (ha _ List.mem_cons_self) h (hne _ List.mem_cons_self) _ m

/-- Of different entries, those in front of one do not change what is there under its key. -/
theorem Distinct.get?_mergeWith_append {f : Option β → γ → β} {front rest : Assoc κ γ} {e : κ × γ}
    (h : Distinct (front ++ e :: rest)) (m : Assoc κ β) :
    get? e.1 (mergeWith f m front) = get? e.1 m := by
  have hnodup := h.nodup
  rw [List.map_append, List.nodup_append] at hnodup
  refine get?_mergeWith_of_not_mem f (h.exactKey e (List.mem_append_right _ List.mem_cons_self))
    (fun e' he' => h.exactKey e' (List.mem_append_left _ he')) (fun e' he' => ?_) m
  exact hnodup.2.2 e'.1 (List.mem_map_of_mem he') e.1 (List.mem_map_of_mem List.mem_cons_self)

/-- A key that is merged in has the combination of what was there with what came in. -/
theorem get?_mergeWith_of_mem (f : Option β → γ → β) {a : Assoc κ γ} (ha : Distinct a) {key : κ}
    {c : γ} (hmem : (key, c) ∈ a) (m : Assoc κ β) :
    get? key (mergeWith f m a) = some (f (get? key m) c) := by
  induction a generalizing m with
  | nil => exact absurd hmem List.not_mem_nil
  | cons e a ih =>
    obtain ⟨k, c'⟩ := e
    have hk : IsExact k := ha.exactKey _ List.mem_cons_self
    rcases List.mem_cons.1 hmem with heq | hin
    · cases heq
      rw [mergeWith, get?_mergeWith_of_not_mem f hk ha.tail.exactKey ha.head_not_mem,
        get?_alter_self hk]
    · have hne : k ≠ key := fun heq => ha.head_not_mem _ hin heq.symm
      rw [mergeWith, ih ha.tail hin,
        get?_alter_of_ne hk (ha.exactKey _ (List.mem_cons_of_mem _ hin)) hne]

/-- A predicate that holds of the values of a map, and of what comes of merging into values with
it, holds of the values of the merged map. -/
theorem forall_mem_mergeWith {p : β → Prop} {f : Option β → γ → β} {m : Assoc κ β}
    {a : Assoc κ γ} (hm : ∀ e ∈ m, p e.2)
    (hf : ∀ e ∈ a, ∀ x : Option β, (∀ y, x = some y → p y) → p (f x e.2)) :
    ∀ e ∈ mergeWith f m a, p e.2 := by
  induction a generalizing m with
  | nil => exact hm
  | cons e a ih =>
    obtain ⟨k, c⟩ := e
    refine ih ?_ (fun e he => hf e (List.mem_cons_of_mem _ he))
    intro e he
    rcases mem_insert he with hold | hnew
    · exact hm e hold
    · rw [hnew]
      refine hf (k, c) List.mem_cons_self _ fun y hy => ?_
      obtain ⟨k', hk'⟩ := mem_of_get? hy
      exact hm _ hk'

/-- A predicate that holds of the entries of a map, and of what comes of merging into entries with
it, holds of the entries of the merged map. -/
theorem forall_entry_mergeWith {p : κ → β → Prop} {f : Option β → γ → β} {m : Assoc κ β}
    {a : Assoc κ γ} (ha : ∀ e ∈ a, IsExact e.1) (hm : ∀ e ∈ m, p e.1 e.2)
    (hf : ∀ e ∈ a, ∀ x : Option β, (∀ y, x = some y → p e.1 y) → p e.1 (f x e.2)) :
    ∀ e ∈ mergeWith f m a, p e.1 e.2 := by
  induction a generalizing m with
  | nil => exact hm
  | cons e a ih =>
    obtain ⟨k, c⟩ := e
    obtain ⟨hk, hexact⟩ := List.forall_mem_cons.1 ha
    refine ih hexact ?_ (fun e he => hf e (List.mem_cons_of_mem _ he))
    intro e he
    rcases mem_insert_of_isExact hk he with hold | rfl
    · exact hm e hold
    · exact hf (k, c) List.mem_cons_self _ fun y hy => hm _ (mem_of_get?_of_isExact hk hy)

/-- Altering an entry that is there already commutes with merging in entries under other keys. -/
theorem alter_mergeWith (f : Option β → γ → β) {key : κ} (h : IsExact key) (g : Option β → β)
    {a : Assoc κ γ} (ha : ∀ e ∈ a, IsExact e.1) (hne : ∀ e ∈ a, e.1 ≠ key) {m : Assoc κ β}
    (hmem : (get? key m).isSome) :
    alter key g (mergeWith f m a) = mergeWith f (alter key g m) a := by
  induction a generalizing m with
  | nil => rfl
  | cons e a ih =>
    obtain ⟨k, c⟩ := e
    have hk : IsExact k := ha _ List.mem_cons_self
    have hkne : key ≠ k := fun heq => hne _ List.mem_cons_self heq.symm
    have hmem' : (get? key (alter k (fun x => f x c) m)).isSome := by
      rw [get?_alter_of_ne hk h hkne.symm]
      exact hmem
    rw [mergeWith, ih (fun e he => ha e (List.mem_cons_of_mem _ he))
      (fun e he => hne e (List.mem_cons_of_mem _ he)) hmem', alter_comm h hk hkne g _ hmem,
      mergeWith]

/-- A change of one entry of the map that is merged in may be made on the merged map instead.
`change` is made before the merge and `follow` on what the merge gives. -/
theorem mergeWith_alter {f : Option β → γ → β} {key : κ} (h : IsExact key)
    (change : Option γ → γ) (follow : Option β → β)
    (hnone : ∀ x, f x (change none) = follow x)
    {a : Assoc κ γ} (ha : Distinct a)
    (hsome : ∀ e ∈ a, ∀ x, f x (change (some e.2)) = follow (some (f x e.2))) (m : Assoc κ β) :
    mergeWith f m (alter key change a) = alter key follow (mergeWith f m a) := by
  induction a generalizing m with
  | nil => simp only [alter, get?, insert, mergeWith, hnone]
  | cons e a ih =>
    obtain ⟨k, c⟩ := e
    by_cases hk : (k == key) = true
    · -- the entry is the first one: what is merged in behind it is under other keys
      obtain rfl : k = key := (h k).1 hk
      have hstart : alter k change ((k, c) :: a) = (k, change (some c)) :: a := by
        simp only [alter, get?, insert, hk, if_true]
      have hmem : (get? k (alter k (fun x => f x c) m)).isSome := by
        rw [get?_alter_self h]
        rfl
      rw [hstart, mergeWith, mergeWith,
        alter_mergeWith f h follow ha.tail.exactKey ha.head_not_mem hmem, alter_alter_self h]
      simp only [hsome (k, c) List.mem_cons_self]
    · have hstart : alter key change ((k, c) :: a) = (k, c) :: alter key change a := by
        simp only [alter, get?, insert, hk, Bool.false_eq_true, if_false]
      rw [hstart, mergeWith, mergeWith, ih ha.tail fun e he => hsome e (List.mem_cons_of_mem _ he)]

/-- Merging into the map of a function is merging before, if the combinations agree on what the map
has under the keys that are merged in. -/
theorem mergeWith_mapValues (φ : β → δ) {f : Option β → γ → β} {g : Option δ → γ → δ}
    {a : Assoc κ γ} (ha : Distinct a) {m : Assoc κ β}
    (h : ∀ e ∈ a, g ((get? e.1 m).map φ) e.2 = φ (f (get? e.1 m) e.2)) :
    mergeWith g (mapValues φ m) a = mapValues φ (mergeWith f m a) := by
  induction a generalizing m with
  | nil => rfl
  | cons e a ih =>
    obtain ⟨k, c⟩ := e
    have hk : IsExact k := ha.exactKey _ List.mem_cons_self
    rw [mergeWith, alter_mapValues φ k (f := fun x => f x c) m (h _ List.mem_cons_self), mergeWith]
    refine ih ha.tail fun e he => ?_
    rw [get?_alter_of_ne hk (ha.tail.exactKey e he) (ha.head_not_mem e he).symm]
    exact h e (List.mem_cons_of_mem _ he)

/-- A merge shows no change under a function exactly if every key that is merged in was there, and
combining what was there with what came in shows none. -/
theorem mapValues_mergeWith_eq_iff (φ : β → δ) {f : Option β → γ → β} {a : Assoc κ γ}
    (ha : Distinct a) {m : Assoc κ β} :
    mapValues φ (mergeWith f m a) = mapValues φ m ↔
      ∀ e ∈ a, ∃ x, get? e.1 m = some x ∧ φ (f (some x) e.2) = φ x := by
  constructor
  · rintro h ⟨k, c⟩ he
    have hget := congrArg (get? k) h
    rw [get?_mapValues, get?_mergeWith_of_mem f ha he, get?_mapValues] at hget
    cases hx : get? k m with
    | none => simp only [hx, Option.map_some, Option.map_none, reduceCtorEq] at hget
    | some x =>
      simp only [hx, Option.map_some, Option.some.injEq] at hget
      exact ⟨x, rfl, hget⟩
  · intro h
    induction a generalizing m with
    | nil => rfl
    | cons e a ih =>
      obtain ⟨k, c⟩ := e
      have hk : IsExact k := ha.exactKey _ List.mem_cons_self
      obtain ⟨x, hx, hφ⟩ := h _ List.mem_cons_self
      -- the first step changes nothing, and with different keys the later ones see what was there
      have hsame : mapValues φ (alter k (fun x => f x c) m) = mapValues φ m := by
        rw [alter, hx, ← insert_mapValues, hφ]
        exact insert_eq_self (by rw [get?_mapValues, hx]; rfl)
      rw [mergeWith, ih ha.tail, hsame]
      intro e he
      rw [get?_alter_of_ne hk (ha.tail.exactKey e he) (ha.head_not_mem e he).symm]
      exact h e (List.mem_cons_of_mem _ he)

/-! ## Updating -/

/-- An update is the merge in which what comes in replaces what is there. -/
theorem update_eq_mergeWith (m a : Assoc κ β) : update m a = mergeWith (fun _ v => v) m a := by
  induction a generalizing m with
  | nil => rfl
  | cons e a ih => exact ih _

/-- After an update with different keys a key has what came in, or else what it had. -/
theorem get?_update {key : κ} (h : IsExact key) {a : Assoc κ β} (ha : Distinct a) (m : Assoc κ β) :
    get? key (update m a) = (get? key a).or (get? key m) := by
  induction a generalizing m with
  | nil => rfl
  | cons e a ih =>
    obtain ⟨k, v⟩ := e
    have hk : IsExact k := ha.exactKey _ List.mem_cons_self
    rw [update, ih ha.tail, get?]
    by_cases hkey : k = key
    · subst hkey
      rw [get?_eq_none_of_forall_ne h ha.head_not_mem, get?_insert_self h, h.beq_self, if_pos rfl,
        Option.none_or, Option.some_or]
    · rw [get?_insert_of_ne hk h hkey, h.beq_eq_false hkey, if_neg Bool.false_ne_true]

/-- Entries in a row update a map one part after the other. -/
theorem update_append (m a b : Assoc κ β) : update m (a ++ b) = update (update m a) b := by
  simp only [update_eq_mergeWith, mergeWith_append]

/-- An update under exact keys keeps keys different. -/
theorem Distinct.update {m a : Assoc κ β} (hm : Distinct m) (ha : ∀ e ∈ a, IsExact e.1) :
    Distinct (update m a) := by
  induction a generalizing m with
  | nil => exact hm
  | cons e a ih =>
    exact ih (hm.insert (ha e List.mem_cons_self) e.2)
      fun e' he' => ha e' (List.mem_cons_of_mem _ he')

/-- Updates are associative: the last of three maps wins, however they are grouped. -/
theorem update_update {m a b : Assoc κ β} (ha : Distinct a) (hb : ∀ e ∈ b, IsExact e.1) :
    update m (update a b) = update (update m a) b := by
  induction b generalizing a with
  | nil => rfl
  | cons e b ih =>
    obtain ⟨k, v⟩ := e
    have hk : IsExact k := hb _ List.mem_cons_self
    have hinsert : update m (insert k v a) = insert k v (update m a) := by
      rw [update_eq_mergeWith, update_eq_mergeWith]
      exact mergeWith_alter hk (fun _ => v) (fun _ => v) (fun _ => rfl) ha (fun _ _ _ => rfl) m
    rw [update, update, ih (ha.insert hk v) fun e' he' => hb e' (List.mem_cons_of_mem _ he'),
      hinsert]

/-- What holds of the entries of two maps holds of those of the update. -/
theorem forall_entry_update {p : κ → β → Prop} {m a : Assoc κ β} (ha : ∀ e ∈ a, IsExact e.1)
    (hm : ∀ e ∈ m, p e.1 e.2) (hnew : ∀ e ∈ a, p e.1 e.2) : ∀ e ∈ update m a, p e.1 e.2 := by
  rw [update_eq_mergeWith]
  exact forall_entry_mergeWith ha hm fun e he _ _ => hnew e he

/-- What comes in by an update is there afterwards. -/
theorem isSome_get?_update_of_mem {key : κ} (h : IsExact key) {v : β} {m a : Assoc κ β}
    (hmem : (key, v) ∈ a) : (get? key (update m a)).isSome := by
  have hkeep : ∀ {n b : Assoc κ β}, (get? key n).isSome → (get? key (update n b)).isSome := by
    intro n b hn
    induction b generalizing n with
    | nil => exact hn
    | cons e b ih =>
      refine ih ?_
      rw [isSome_get?_iff h, map_fst_insert]
      exact List.mem_append_left _ ((isSome_get?_iff h).1 hn)
  induction a generalizing m with
  | nil => exact absurd hmem List.not_mem_nil
  | cons e a ih =>
    rcases List.mem_cons.1 hmem with rfl | hin
    · rw [update]
      refine hkeep ?_
      rw [get?_insert_self h]
      rfl
    · exact ih hin

/-- An update has entries if one of the two maps has some. -/
theorem update_ne_nil {m a : Assoc κ β} (h : m ≠ [] ∨ a ≠ []) : update m a ≠ [] := by
  induction a generalizing m with
  | nil => exact h.resolve_right fun hnil => hnil rfl
  | cons e a ih => exact ih (.inl (insert_ne_nil e.1 e.2 m))

/-- What holds of the keys of two maps holds of those of the update. -/
theorem forall_keys_update {p : κ → Prop} {m a : Assoc κ β} (hm : ∀ e ∈ m, p e.1)
    (ha : ∀ e ∈ a, p e.1) : ∀ e ∈ update m a, p e.1 := by
  induction a generalizing m with
  | nil => exact hm
  | cons e a ih =>
    obtain ⟨he, hrest⟩ := List.forall_mem_cons.1 ha
    exact ih (forall_keys_insert he e.2 hm) hrest

end ApiDoc.Assoc
