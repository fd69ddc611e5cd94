import ApiDoc.Document.Merge
import ApiDoc.Proofs.Assoc

/-!
# Objects in several places

A value is a tree, but some of its nodes may be one object that occurs in several places. Such
nodes have one mark. A change of the object shows in all places; `Value.refresh` makes it.

The nodes that were read from a text have numbers, and a *heap* tells which node has which number.
A value follows a heap if every node of it with a number is the node that the heap has for it. This
is what a value that was read is like (`Value.IsRead`) if no node of it is inside itself
(`Value.IsLoopFree`), and a change of one object keeps it, with the heap changed likewise
(`Value.Follows.refresh`).
-/

namespace ApiDoc

/-- No other atom equals a text. -/
theorem Atom.same_text_iff {a : Atom} {s : String} : a.same (.text s) = true ↔ a = .text s := by
  cases a <;> simp [Atom.same, Atom.number?]

/-- A text is a key of its own. -/
theorem Atom.isExact_text (s : String) : Assoc.IsExact (Atom.text s) := by
  intro k
  change (k.isNaN && false || k.same (.text s)) = true ↔ _
  rw [Bool.and_false, Bool.false_or, same_text_iff]

namespace Value

/-- No other value equals a text. -/
theorem same_text_iff {v : Value} {s : String} : v.same (.text s) = true ↔ v = .text s := by
  cases v with
  | atom a =>
    rw [same, atom.injEq]
    exact Atom.same_text_iff
  | _ => simp [same]

/-! ## Parts and nodes -/

/-- The values directly inside a value, the keys of an object included. -/
def parts : Value → List Value
  | .atom _ => []
  | .list _ items => items
  | .object _ entries => entries.flatMap fun e => [.atom e.1, e.2]
  | .pair a b => [a, b]
  | .set _ items => items.map .atom

/-- The value with a function on its parts, but for atoms that are keys or members of a set. -/
def mapParts (f : Value → Value) : Value → Value
  | .atom a => .atom a
  | .list m items => .list m (items.map f)
  | .object m entries => .object m (Assoc.mapValues f entries)
  | .pair a b => .pair (f a) (f b)
  | .set m items => .set m items

/-- The parts of an object are its keys and its values. -/
theorem mem_parts_object {m : Option Mark} {entries : List (Atom × Value)} {w : Value} :
    w ∈ (object m entries).parts ↔ ∃ e ∈ entries, w = .atom e.1 ∨ w = e.2 := by
  simp only [parts, List.mem_flatMap, List.mem_pair]

/-- The values of an object are parts of it. -/
theorem snd_mem_parts {m : Option Mark} {entries : List (Atom × Value)} {e : Atom × Value}
    (h : e ∈ entries) : e.2 ∈ (object m entries).parts :=
  mem_parts_object.2 ⟨e, h, .inr rfl⟩

/-- A part is smaller than the value. -/
theorem sizeOf_part_lt {v w : Value} (h : w ∈ v.parts) : sizeOf w < sizeOf v := by
  cases v with
  | atom a => exact absurd h List.not_mem_nil
  | list m items =>
    rw [parts] at h
    have := List.sizeOf_lt_of_mem h
    simp only [list.sizeOf_spec]
    omega
  | object m entries =>
    obtain ⟨⟨k, u⟩, he, hw⟩ := mem_parts_object.1 h
    have := List.sizeOf_lt_of_mem he
    rcases hw with rfl | rfl <;>
      · simp only [object.sizeOf_spec, Prod.mk.sizeOf_spec, atom.sizeOf_spec] at this ⊢
        omega
  | pair a b =>
    rcases List.mem_pair.1 h with rfl | rfl <;>
      · simp only [pair.sizeOf_spec]
        omega
  | set m items =>
    obtain ⟨a, ha, rfl⟩ := List.mem_map.1 h
    have := List.sizeOf_lt_of_mem ha
    simp only [set.sizeOf_spec, atom.sizeOf_spec]
    omega

/-- Induction over values: what holds of a value if it holds of its parts holds of all values. -/
@[elab_as_elim]
theorem induction {motive : Value → Prop} (step : ∀ v, (∀ w ∈ v.parts, motive w) → motive v)
    (v : Value) : motive v :=
  step v fun w _ => induction step w
termination_by sizeOf v
decreasing_by exact sizeOf_part_lt ‹_›

/-- Functions that agree on the parts of a value make the same of it. -/
theorem mapParts_congr {f g : Value → Value} {v : Value} (h : ∀ w ∈ v.parts, f w = g w) :
    v.mapParts f = v.mapParts g := by
  cases v with
  | atom a => rfl
  | set m items => rfl
  | list m items =>
    rw [parts] at h
    rw [mapParts, mapParts, List.map_congr_left h]
  | object m entries =>
    rw [mapParts, mapParts, Assoc.mapValues_congr fun e he => h e.2 (snd_mem_parts he)]
  | pair a b =>
    rw [mapParts, mapParts, h a (List.mem_pair.2 (.inl rfl)), h b (List.mem_pair.2 (.inr rfl))]

/-- A value is not changed if its parts are not. -/
theorem mapParts_id (v : Value) : v.mapParts (fun w => w) = v := by
  cases v with
  | list m items => rw [mapParts, List.map_id']
  | object m entries => rw [mapParts, Assoc.mapValues_eq_self fun e _ => rfl]
  | _ => rfl

/-- Two functions on parts, one after the other, are one. -/
theorem mapParts_mapParts (f g : Value → Value) (v : Value) :
    (v.mapParts f).mapParts g = v.mapParts fun w => g (f w) := by
  cases v with
  | list m items => simp only [mapParts, List.map_map, Function.comp_def]
  | object m entries => simp only [mapParts, Assoc.mapValues_mapValues]
  | _ => rfl

/-- A function on parts leaves the mark. -/
@[simp] theorem mark?_mapParts (f : Value → Value) (v : Value) :
    (v.mapParts f).mark? = v.mark? := by
  cases v <;> rfl

/-- A part of a value with a function on its parts is the function of a part, if atoms are left
as they are. -/
theorem mem_parts_mapParts {f : Value → Value} (hf : ∀ a, f (.atom a) = .atom a) {v w : Value}
    (h : w ∈ (v.mapParts f).parts) : ∃ x ∈ v.parts, w = f x := by
  cases v with
  | atom a => exact absurd h List.not_mem_nil
  | list m items =>
    obtain ⟨x, hx, rfl⟩ := List.mem_map.1 h
    exact ⟨x, hx, rfl⟩
  | object m entries =>
    obtain ⟨e', he', hw⟩ := mem_parts_object.1 h
    obtain ⟨e, he, rfl⟩ := List.mem_map.1 he'
    rcases hw with rfl | rfl
    · exact ⟨.atom e.1, mem_parts_object.2 ⟨e, he, .inl rfl⟩, (hf e.1).symm⟩
    · exact ⟨e.2, snd_mem_parts he, rfl⟩
  | pair a b =>
    rcases List.mem_pair.1 h with rfl | rfl
    · exact ⟨a, List.mem_pair.2 (.inl rfl), rfl⟩
    · exact ⟨b, List.mem_pair.2 (.inr rfl), rfl⟩
  | set m items =>
    obtain ⟨a, ha, rfl⟩ := List.mem_map.1 h
    exact ⟨.atom a, List.mem_map_of_mem ha, (hf a).symm⟩

/-- The nodes of a value, itself included. -/
inductive Node (x : Value) : Value → Prop where
  | self : Node x x
  | part {v w : Value} : w ∈ v.parts → Node x w → Node x v

/-! ## Predicates on nodes -/

/-- Every node of a value satisfies a predicate. -/
def Every (P : Value → Prop) (v : Value) : Prop := ∀ x, Node x v → P x

/-- Entries whose keys satisfy a predicate, and so does every node of their values. -/
structure EveryIn (P : Value → Prop) (entries : List (Atom × Value)) : Prop where
  keys : ∀ e ∈ entries, P (atom e.1)
  values : ∀ e ∈ entries, e.2.Every P

section Every

variable {P Q : Value → Prop} {v w : Value} {m : Option Mark} {es : List (Atom × Value)}

/-- The nodes of a value are the value itself and those of its parts. -/
theorem every_iff : Every P v ↔ P v ∧ ∀ w ∈ v.parts, Every P w := by
  constructor
  · intro h
    exact ⟨h v .self, fun w hw x hx => h x (.part hw hx)⟩
  · rintro ⟨hself, hparts⟩ x hx
    cases hx with
    | self => exact hself
    | part hw hx => exact hparts _ hw x hx

/-- What holds of every node holds of the value. -/
theorem Every.self (h : Every P v) : P v := h v .self

/-- What holds of every node of a value does so of a part. -/
theorem Every.part (h : Every P v) (hw : w ∈ v.parts) : Every P w :=
  fun x hx => h x (.part hw hx)

/-- Nodes that satisfy a predicate satisfy a weaker one. -/
theorem Every.mono (h : Every P v) (hPQ : ∀ x, P x → Q x) : Every Q v := fun x hx => hPQ x (h x hx)

/-- An atom is its only node. -/
theorem every_atom_iff {a : Atom} : Every P (atom a) ↔ P (atom a) := by
  rw [every_iff]
  exact and_iff_left fun w hw => absurd hw List.not_mem_nil

/-- Entries are those of an object all of whose parts satisfy the predicate. -/
theorem everyIn_iff : EveryIn P es ↔ ∀ w ∈ (object m es).parts, w.Every P := by
  constructor
  · intro h w hw
    obtain ⟨e, he, hw⟩ := mem_parts_object.1 hw
    rcases hw with rfl | rfl
    · exact every_atom_iff.2 (h.keys e he)
    · exact h.values e he
  · intro h
    exact ⟨fun e he => (h _ (mem_parts_object.2 ⟨e, he, .inl rfl⟩)).self,
      fun e he => h _ (snd_mem_parts he)⟩

/-- The entries of an object whose nodes satisfy a predicate. -/
theorem Every.entries (h : (object m es).Every P) : EveryIn P es :=
  everyIn_iff.2 fun _ => h.part

/-- An object of entries that satisfy a predicate, if it does so itself. -/
theorem EveryIn.object (h : EveryIn P es) (hself : P (object m es)) :
    (object m es).Every P :=
  every_iff.2 ⟨hself, everyIn_iff.1 h⟩

theorem everyIn_nil : EveryIn P [] :=
  ⟨fun _ h => absurd h List.not_mem_nil, fun _ h => absurd h List.not_mem_nil⟩

/-- Entries satisfy a predicate just if the first one and the others do. -/
theorem everyIn_cons_iff {e : Atom × Value} :
    EveryIn P (e :: es) ↔ (P (atom e.1) ∧ e.2.Every P) ∧ EveryIn P es := by
  constructor
  · rintro ⟨hkeys, hvalues⟩
    rw [List.forall_mem_cons] at hkeys hvalues
    exact ⟨⟨hkeys.1, hvalues.1⟩, hkeys.2, hvalues.2⟩
  · rintro ⟨⟨hkey, hvalue⟩, hrest⟩
    exact ⟨List.forall_mem_cons.2 ⟨hkey, hrest.keys⟩, List.forall_mem_cons.2 ⟨hvalue, hrest.values⟩⟩

/-- Entries in a row. -/
theorem EveryIn.append {new : List (Atom × Value)} (h : EveryIn P es) (hnew : EveryIn P new) :
    EveryIn P (es ++ new) :=
  ⟨List.forall_mem_append.2 ⟨h.keys, hnew.keys⟩, List.forall_mem_append.2 ⟨h.values, hnew.values⟩⟩

/-- What is found among entries satisfies the predicate. -/
theorem EveryIn.get? (h : EveryIn P es) {key : Atom}
    (hget : Assoc.get? key es = some v) : v.Every P := by
  obtain ⟨k, hk⟩ := Assoc.mem_of_get? hget
  exact h.values _ hk

/-- A field of a value satisfies the predicate. -/
theorem Every.field? (h : v.Every P) {key : String} (hw : v.field? key = some w) : w.Every P := by
  cases v with
  | object m es => exact h.entries.get? hw
  | _ => cases hw

/-- Entries keep a predicate with one more that satisfies it. -/
theorem EveryIn.insert (h : EveryIn P es) {key : Atom} (hkey : P (atom key))
    (hv : v.Every P) : EveryIn P (Assoc.insert key v es) := by
  refine ⟨Assoc.forall_keys_insert (p := fun k => P (atom k)) hkey v h.keys, fun e he => ?_⟩
  rcases Assoc.mem_insert he with hold | hnew
  · exact h.values e hold
  · rw [hnew]
    exact hv

/-- Entries keep a predicate when they are updated with others that satisfy it. -/
theorem EveryIn.update {new : List (Atom × Value)} (h : EveryIn P es)
    (hnew : EveryIn P new) : EveryIn P (Assoc.update es new) := by
  induction new generalizing es with
  | nil => exact h
  | cons e new ih =>
    obtain ⟨⟨hkey, hvalue⟩, hrest⟩ := everyIn_cons_iff.1 hnew
    exact ih (h.insert hkey hvalue) hrest

/-- A predicate that holds of all that an enumeration or a merge makes: texts, integers and objects
of their own. -/
structure HoldsOfNew (P : Value → Prop) : Prop where
  text : ∀ s, P (.text s)
  int : ∀ i, P (.int i)
  map : ∀ entries, P (.map entries)

/-- An enumeration of a value gives parts of it, texts and integers. -/
theorem elements?_every (hP : HoldsOfNew P) (h : ∀ w ∈ v.parts, w.Every P) {items : List Value}
    (hitems : v.elements? = some items) : ∀ w ∈ items, w.Every P := by
  unfold elements? at hitems
  split at hitems <;> simp only [Option.some.injEq, reduceCtorEq] at hitems <;> subst hitems
  case h_1 => exact h
  case h_2 m entries =>
    intro w hw
    obtain ⟨e, he, rfl⟩ := List.mem_map.1 hw
    exact h _ (mem_parts_object.2 ⟨e, he, .inl rfl⟩)
  case h_3 => exact h
  case h_4 => exact h
  case h_5 =>
    intro w hw
    obtain ⟨c, -, rfl⟩ := List.mem_map.1 hw
    exact every_atom_iff.2 (hP.text _)
  case h_6 =>
    intro w hw
    obtain ⟨b, -, rfl⟩ := List.mem_map.1 hw
    exact every_atom_iff.2 (hP.int _)

end Every

/-! ## Marked nodes -/

/-- Every node of a value that has a mark satisfies a predicate. -/
def Marked (p : Mark → Value → Prop) (v : Value) : Prop :=
  ∀ x mark, Node x v → x.mark? = some mark → p mark x

variable {p q : Mark → Value → Prop} {v w : Value}

/-- What a predicate on marked nodes says of a node. -/
abbrev IfMarked (p : Mark → Value → Prop) (x : Value) : Prop :=
  ∀ mark, x.mark? = some mark → p mark x

/-- What a merge makes anew has no marks. -/
theorem holdsOfNew_ifMarked : HoldsOfNew (IfMarked p) :=
  ⟨fun _ => nofun, fun _ => nofun, fun _ => nofun⟩

/-- A predicate on marked nodes is one on nodes that says nothing of the others. -/
theorem marked_iff_every : Marked p v ↔ Every (IfMarked p) v :=
  ⟨fun h x hx mark => h x mark hx, fun h x mark hx => h x hx mark⟩

/-- The marked nodes of a value are the value itself, if it has a mark, and those of its parts. -/
theorem marked_iff :
    Marked p v ↔ (∀ mark, v.mark? = some mark → p mark v) ∧ ∀ w ∈ v.parts, Marked p w := by
  constructor
  · intro h
    exact ⟨fun mark => h v mark .self, fun w hw x mark hx => h x mark (.part hw hx)⟩
  · rintro ⟨hroot, hparts⟩ x mark hx hmark
    cases hx with
    | self => exact hroot mark hmark
    | part hw hx => exact hparts _ hw x mark hx hmark

/-- A value with a mark satisfies the predicate. -/
theorem Marked.root (h : Marked p v) {mark : Mark} (hmark : v.mark? = some mark) : p mark v :=
  h v mark .self hmark

/-- A part keeps a predicate on marked nodes. -/
theorem Marked.part (h : Marked p v) (hw : w ∈ v.parts) : Marked p w :=
  fun x mark hx => h x mark (.part hw hx)

/-- Marked nodes that satisfy a predicate satisfy a weaker one. -/
theorem Marked.mono (h : Marked p v) (hpq : ∀ mark x, p mark x → q mark x) : Marked q v :=
  fun x mark hx hmark => hpq mark x (h x mark hx hmark)

/-- Two predicates on marked nodes are one. -/
theorem Marked.and (hp : Marked p v) (hq : Marked q v) :
    Marked (fun mark x => p mark x ∧ q mark x) v :=
  fun x mark hx hmark => ⟨hp x mark hx hmark, hq x mark hx hmark⟩

/-- A value without a mark has only marked nodes of its parts. -/
theorem marked_of_mark?_eq_none (hmark : v.mark? = none) (h : ∀ w ∈ v.parts, Marked p w) :
    Marked p v :=
  marked_iff.2 ⟨fun _ hm => absurd (hmark.symm.trans hm) nofun, h⟩

/-- What is predicated of the nodes of a value holds of the nodes of each of its nodes. -/
theorem Marked.node (h : Marked p v) (hw : Node w v) : Marked p w := by
  induction hw with
  | self => exact h
  | part hx _ ih => exact ih (h.part hx)

/-- A node is no larger than the value it is a node of. -/
theorem Node.sizeOf_le (h : Node w v) : sizeOf w ≤ sizeOf v := by
  induction h with
  | self => exact Nat.le_refl _
  | part hx _ ih => exact Nat.le_trans ih (Nat.le_of_lt (sizeOf_part_lt hx))

/-! ## Entries with marks -/

/-- Entries whose keys and values have a predicate on their marked nodes. -/
structure MarkedEntries (p : Mark → Value → Prop) (entries : List (Atom × Value)) : Prop where
  keys : ∀ e ∈ entries, (atom e.1).Marked p
  values : ∀ e ∈ entries, e.2.Marked p

/-- A predicate on the marked nodes of entries is one on all their nodes. -/
theorem markedEntries_iff_everyIn {entries : List (Atom × Value)} :
    MarkedEntries p entries ↔ EveryIn (IfMarked p) entries := by
  constructor
  · rintro ⟨hkeys, hvalues⟩
    exact ⟨fun e he => every_atom_iff.1 (marked_iff_every.1 (hkeys e he)),
      fun e he => marked_iff_every.1 (hvalues e he)⟩
  · rintro ⟨hkeys, hvalues⟩
    exact ⟨fun e he => marked_iff_every.2 (every_atom_iff.2 (hkeys e he)),
      fun e he => marked_iff_every.2 (hvalues e he)⟩

/-- Entries are those of an object whose parts have the predicate on their marked nodes. -/
theorem markedEntries_iff {m : Option Mark} {entries : List (Atom × Value)} :
    MarkedEntries p entries ↔ ∀ w ∈ (object m entries).parts, w.Marked p := by
  rw [markedEntries_iff_everyIn, everyIn_iff (m := m)]
  exact forall₂_congr fun w _ => marked_iff_every.symm

/-- An object without a mark has only marked nodes of its entries. -/
theorem MarkedEntries.map {entries : List (Atom × Value)} (h : MarkedEntries p entries) :
    (map entries).Marked p :=
  marked_of_mark?_eq_none rfl (markedEntries_iff.1 h)

/-- The entries of an object keep a predicate on its marked nodes. -/
theorem Marked.entries {m : Option Mark} {entries : List (Atom × Value)}
    (h : (object m entries).Marked p) : MarkedEntries p entries :=
  markedEntries_iff.2 fun _ => h.part

theorem markedEntries_nil : MarkedEntries p [] :=
  ⟨fun _ h => absurd h List.not_mem_nil, fun _ h => absurd h List.not_mem_nil⟩

/-- What is found among entries has only marked nodes of theirs. -/
theorem MarkedEntries.get? {entries : List (Atom × Value)} (h : MarkedEntries p entries)
    {key : Atom} (hget : Assoc.get? key entries = some v) : v.Marked p :=
  marked_iff_every.2 ((markedEntries_iff_everyIn.1 h).get? hget)

/-- A field of a value keeps a predicate on its marked nodes. -/
theorem Marked.field? (h : v.Marked p) {key : String} (hw : v.field? key = some w) : w.Marked p :=
  marked_iff_every.2 ((marked_iff_every.1 h).field? hw)

/-- Entries keep a predicate on their marked nodes when they are updated with others that have it.
-/
theorem MarkedEntries.update {old new : List (Atom × Value)} (hold : MarkedEntries p old)
    (hnew : MarkedEntries p new) : MarkedEntries p (Assoc.update old new) :=
  markedEntries_iff_everyIn.2
    ((markedEntries_iff_everyIn.1 hold).update (markedEntries_iff_everyIn.1 hnew))

/-- An atom without a mark has no marked nodes. -/
theorem marked_atom {a : Atom} (h : (atom a).mark? = none) : (atom a).Marked p :=
  marked_of_mark?_eq_none h fun _ hw => absurd hw List.not_mem_nil

/-! ## Changing an object in all its places -/

/-- Whether a value can be changed in place: it is no atom. -/
def isBox : Value → Bool
  | .atom _ => false
  | _ => true

/-- A function on parts leaves whether a value can be changed in place. -/
@[simp] theorem isBox_mapParts (f : Value → Value) (v : Value) :
    (v.mapParts f).isBox = v.isBox := by
  cases v <;> rfl

/-- Items are refreshed one by one. -/
theorem refreshItems_eq_map (mark : Mark) (object : Value) (items : List Value) :
    refreshItems mark object items = items.map (refresh mark object) := by
  induction items with
  | nil => rfl
  | cons v items ih => rw [refreshItems, ih, List.map_cons]

/-- Entries are refreshed one by one. -/
theorem refreshEntries_eq_mapValues (mark : Mark) (object : Value)
    (entries : List (Atom × Value)) :
    refreshEntries mark object entries = Assoc.mapValues (refresh mark object) entries := by
  induction entries with
  | nil => rfl
  | cons e entries ih =>
    obtain ⟨k, v⟩ := e
    rw [refreshEntries, ih]
    rfl

/-- An object takes the place of every node with its mark; other nodes change in their parts. -/
theorem refresh_eq (mark : Mark) (object v : Value) :
    refresh mark object v =
      if v.isBox = true ∧ v.mark? = some mark then object
      else v.mapParts (refresh mark object) := by
  cases v with
  | atom a => rfl
  | list m items => simp only [refresh, refreshItems_eq_map, isBox, mark?, true_and, mapParts]
  | object m entries =>
    simp only [refresh, refreshEntries_eq_mapValues, isBox, mark?, true_and, mapParts]
  | pair a b => rfl
  | set m items => simp only [refresh, isBox, mark?, true_and, mapParts]

@[simp] theorem refresh_atom (mark : Mark) (object : Value) (a : Atom) :
    refresh mark object (.atom a) = .atom a := by
  rw [refresh]

/-- Changing an object in its places keeps a predicate on nodes that does not look into their
parts. -/
theorem Every.refresh {P : Value → Prop} {new : Value} (hP : ∀ f x, P x → P (x.mapParts f))
    (h : v.Every P) (hnew : new.Every P) (mark : Mark) : (refresh mark new v).Every P := by
  induction v using induction with
  | step v ih =>
    rw [refresh_eq]
    split
    · exact hnew
    · refine every_iff.2 ⟨hP _ v h.self, fun w hw => ?_⟩
      obtain ⟨x, hx, rfl⟩ := mem_parts_mapParts (refresh_atom _ _) hw
      exact ih x hx (h.part hx)

/-- Nothing changes if the object that is put in place of the marked nodes is what they are. -/
theorem refresh_eq_self {mark : Mark} {object : Value}
    (h : v.Marked fun m x => m = mark → x = object) : refresh mark object v = v := by
  induction v using induction with
  | step v ih =>
    rw [refresh_eq]
    split
    · rename_i hm
      exact (h.root hm.2 rfl).symm
    · rw [mapParts_congr fun w hw => ih w hw (h.part hw), mapParts_id]

/-- Nothing changes in a value that has no node with the mark. -/
theorem refresh_eq_self_of_ne {mark : Mark} {object : Value} (h : v.Marked fun m _ => m ≠ mark) :
    refresh mark object v = v :=
  refresh_eq_self (h.mono fun _ _ hm heq => absurd heq hm)

/-- Of two changes of one object only the second one shows. -/
theorem refresh_refresh_self {mark : Mark} {u w : Value} (hu : refresh mark w u = w) (v : Value) :
    refresh mark w (refresh mark u v) = refresh mark w v := by
  induction v using induction with
  | step v ih =>
    rw [refresh_eq mark u v, refresh_eq mark w v]
    split
    · exact hu
    · rename_i hm
      rw [refresh_eq, isBox_mapParts, mark?_mapParts, if_neg hm, mapParts_mapParts,
        mapParts_congr ih]

/-- Changes of two objects commute, each seen in the other, if not each of them is inside the
other. -/
theorem refresh_comm {k l : Mark} (hne : k ≠ l) {u w : Value}
    (hfree : (u.Marked fun m _ => m ≠ l) ∨ (w.Marked fun m _ => m ≠ k)) (v : Value) :
    refresh l (refresh k u w) (refresh k u v) = refresh k (refresh l w u) (refresh l w v) := by
  -- the two ways to put `w` into `u`, and `u` into `w`, agree
  have hu : refresh l (refresh k u w) u = refresh l w u := by
    rcases hfree with h | h
    · rw [refresh_eq_self_of_ne h, refresh_eq_self_of_ne h]
    · rw [refresh_eq_self_of_ne h]
  have hw : refresh k (refresh l w u) w = refresh k u w := by
    rcases hfree with h | h
    · rw [refresh_eq_self_of_ne h]
    · rw [refresh_eq_self_of_ne h, refresh_eq_self_of_ne h]
  induction v using induction with
  | step v ih =>
    rw [refresh_eq k u v, refresh_eq l w v]
    by_cases hk : v.isBox = true ∧ v.mark? = some k
    · have hl : ¬(v.isBox = true ∧ v.mark? = some l) := fun hl =>
        hne (Option.some.inj (hk.2.symm.trans hl.2))
      rw [if_pos hk, if_neg hl, hu, refresh_eq k _ (mapParts _ v), isBox_mapParts, mark?_mapParts,
        if_pos hk]
    · by_cases hl : v.isBox = true ∧ v.mark? = some l
      · rw [if_neg hk, if_pos hl, hw, refresh_eq l _ (mapParts _ v), isBox_mapParts,
          mark?_mapParts, if_pos hl]
      · rw [if_neg hk, if_neg hl, refresh_eq l _ (mapParts _ v), isBox_mapParts, mark?_mapParts,
          if_neg hl, refresh_eq k _ (mapParts _ v), isBox_mapParts, mark?_mapParts, if_neg hk,
          mapParts_mapParts, mapParts_mapParts, mapParts_congr ih]

/-! ## Heaps -/

/-- A value that has, for every number that one of its nodes has, the node that a heap has for
it. -/
def Follows (heap : Nat → Value) (v : Value) : Prop :=
  v.Marked fun mark x => ∀ i, mark = .node i → x = heap i

/-- A value as it is read or given: its marks are numbers of nodes, and all nodes with one number
are one node. A value without marks is such a value. -/
def IsRead (v : Value) : Prop :=
  ∃ heap : Nat → Value, v.Marked fun mark x => ∃ i, mark = .node i ∧ x = heap i

/-- A value that none of the nodes that were read is in. -/
def IsNew (v : Value) : Prop := v.Marked fun mark _ => ∀ i, mark ≠ .node i

/-- A value that has no node with a mark inside a node with this mark. -/
def IsLoopFree (v : Value) : Prop :=
  v.Marked fun mark x => ∀ w ∈ x.parts, w.Marked fun m _ => m ≠ mark

/-- A node that is the same in all places is not inside itself. -/
theorem IsRead.isLoopFree (h : v.IsRead) : v.IsLoopFree := by
  obtain ⟨heap, hv⟩ := h
  rintro x mark hx hmark w hw y m hy hm rfl
  obtain ⟨i, hi, hxi⟩ := hv x m hx hmark
  obtain ⟨j, hj, hyj⟩ := (hv.node hx).part hw y m hy hm
  obtain rfl : i = j := Mark.node.inj (hi.symm.trans hj)
  have hle : sizeOf y ≤ sizeOf w := hy.sizeOf_le
  have hlt : sizeOf w < sizeOf x := sizeOf_part_lt hw
  rw [hyj, ← hxi] at hle
  omega

variable {heap : Nat → Value}

/-- A change of a node in all its places gives a value that follows the heap with the node changed
in all its places. What is new in the changed node may have no node of the heap in it but those
that were there. -/
theorem Follows.refresh {j : Nat} {new : Value} (h : v.Follows heap)
    (hmark : new.mark? = some (.node j)) (hnew : refresh (.node j) new (heap j) = new)
    (hparts : ∀ w ∈ new.parts, w.Marked fun mark x => ∀ i, mark = .node i → x = heap i ∧ i ≠ j) :
    (refresh (.node j) new v).Follows fun i => refresh (.node j) new (heap i) := by
  have hfollows : new.Follows fun i => Value.refresh (.node j) new (heap i) := by
    refine marked_iff.2 ⟨?_, ?_⟩
    · rintro mark hm i rfl
      obtain rfl : j = i := Mark.node.inj (Option.some.inj (hmark.symm.trans hm))
      exact hnew.symm
    · rintro w hw x mark hx hm i rfl
      -- the changed node is not inside its own parts, so it leaves them as they are
      have hfree : x.Marked fun mark _ => mark ≠ .node j :=
        ((hparts w hw).node hx).mono fun mark y hy heq => (hy j heq).2 rfl
      show x = Value.refresh (.node j) new (heap i)
      rw [← (hparts w hw x _ hx hm i rfl).1, refresh_eq_self_of_ne hfree]
  induction v using induction with
  | step v ih =>
    rw [refresh_eq]
    split
    · exact hfollows
    · rename_i hj
      refine marked_iff.2 ⟨?_, ?_⟩
      · rintro mark hm i rfl
        rw [mark?_mapParts] at hm
        show _ = Value.refresh (.node j) new (heap i)
        rw [← h.root hm i rfl, refresh_eq _ _ v, if_neg hj]
      · intro w hw
        obtain ⟨x, hx, rfl⟩ := mem_parts_mapParts (refresh_atom _ _) hw
        exact ih x hx (h.part hx)

end Value

end ApiDoc
