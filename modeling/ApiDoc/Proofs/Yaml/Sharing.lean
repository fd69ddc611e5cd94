import ApiDoc.Options
import ApiDoc.Proofs.Except
import ApiDoc.Proofs.Value.Sharing
import Mathlib.Data.Finset.Card

/-!
# Marks of what is read

The values of a text have the numbers of their nodes as marks. All nodes with one number are one
node, whichever way leads to them, if and only if no node is inside itself
(`read_isRead_iff_isLoopFree`). The entries that options in such a text give for a document are of
this kind, too (`Options.load_isRead`).
-/

namespace ApiDoc.Yaml

open Value

/-! ## What nodes have become -/

/-- The mark of the atom of a scalar is that of its node, if it has one. -/
theorem mark?_atomOf {mark : Option Mark} {type : ScalarType} {text : String} {a : Atom}
    (h : atomOf mark type text = .ok a) {m : Mark} (hm : (Value.atom a).mark? = some m) :
    mark = some m := by
  cases type <;> simp only [atomOf] at h
  case moment =>
    split at h
    · split at h <;> cases h
      exact hm
    · cases h
  -- no other atom has a mark
  case null | text =>
    cases h
    cases hm
  case bool | bytes =>
    split at h <;> cases h
    cases hm
  case int | float =>
    split at h
    · cases h
    · obtain ⟨_, -, rfl⟩ := exists_of_map_eq_ok h
      cases hm
  case merge | default | sign => cases h

namespace Built

/-- The atoms that are keys of an object or members of a set. -/
def keys : Built → List Atom
  | .object entries => entries.map Prod.fst
  | .set items => items
  | _ => []

/-- The numbers of the parts of a collection. -/
def parts : Built → List Nat
  | .list items => items
  | .pairs items => items.flatMap fun e => [e.1, e.2]
  | .object entries => entries.map Prod.snd
  | _ => []

/-- Whether a node is a list, object or set. -/
def isCollection : Built → Bool
  | .atom _ => false
  | _ => true

/-- A collection without its parts. -/
def emptied : Built → Built
  | .list _ => .list []
  | .pairs _ => .pairs []
  | .object _ => .object []
  | x => x

/-- The value of a node with a number, given the values of its parts. -/
def value (n : Nat) (part : Nat → Value) : Built → Value
  | .atom a => .atom a
  | .list items => .list (some (.node n)) (items.map part)
  | .pairs items => .list (some (.node n)) (items.map fun e => .pair (part e.1) (part e.2))
  | .object entries => .object (some (.node n)) (entries.map fun e => (e.1, part e.2))
  | .set items => .set (some (.node n)) items

variable {x : Built} {n : Nat} {f g : Nat → Value} {p : Mark → Value → Prop}

/-- A collection has the number of its node for a mark. -/
theorem mark?_value (h : x.isCollection = true) : (x.value n f).mark? = some (.node n) := by
  cases x with
  | atom a => cases h
  | _ => rfl

/-- The value of a node depends on the values of its parts only. -/
theorem value_congr (h : ∀ c ∈ x.parts, f c = g c) : x.value n f = x.value n g := by
  cases x with
  | atom a => rfl
  | set items => rfl
  | list items =>
    rw [parts] at h
    rw [value, value, List.map_congr_left h]
  | pairs items =>
    rw [value, value, List.map_congr_left]
    intro e he
    rw [h e.1 (List.mem_flatMap.2 ⟨e, he, List.mem_pair.2 (.inl rfl)⟩),
      h e.2 (List.mem_flatMap.2 ⟨e, he, List.mem_pair.2 (.inr rfl)⟩)]
  | object entries =>
    rw [value, value, List.map_congr_left]
    intro e he
    rw [h e.2 (List.mem_map_of_mem he)]

/-- A collection without its parts has none. -/
theorem parts_emptied (x : Built) : x.emptied.parts = [] := by
  cases x <;> rfl

/-- A collection stays one without its parts. -/
theorem isCollection_emptied (x : Built) : x.emptied.isCollection = x.isCollection := by
  cases x <;> rfl

/-- A collection without its parts has no other keys. -/
theorem keys_emptied_subset (x : Built) : x.emptied.keys ⊆ x.keys := by
  cases x <;> simp [emptied, keys]

/-- What is predicated of the nodes inside a collection holds of the nodes of its parts. -/
theorem marked_part (h : ∀ w ∈ (x.value n f).parts, w.Marked p) :
    ∀ c ∈ x.parts, (f c).Marked p := by
  intro c hc
  cases x with
  | atom a => exact absurd hc List.not_mem_nil
  | set items => exact absurd hc List.not_mem_nil
  | list items => exact h _ (List.mem_map_of_mem hc)
  | pairs items =>
    obtain ⟨e, he, hc⟩ := List.mem_flatMap.1 hc
    have hpair := h (.pair (f e.1) (f e.2)) (List.mem_map_of_mem he)
    rcases List.mem_pair.1 hc with rfl | rfl
    · exact hpair.part (List.mem_pair.2 (.inl rfl))
    · exact hpair.part (List.mem_pair.2 (.inr rfl))
  | object entries =>
    obtain ⟨e, he, rfl⟩ := List.mem_map.1 hc
    exact h _ (snd_mem_parts (List.mem_map_of_mem he))

/-- The nodes of a collection are itself, its keys and the nodes of its parts. -/
theorem marked_value (hx : x.isCollection = true) (hroot : p (.node n) (x.value n f))
    (hkeys : ∀ a ∈ x.keys, (Value.atom a).Marked p) (hparts : ∀ c ∈ x.parts, (f c).Marked p) :
    (x.value n f).Marked p := by
  refine marked_iff.2 ⟨fun mark hmark => ?_, fun w hw => ?_⟩
  · rw [mark?_value hx, Option.some.injEq] at hmark
    exact hmark ▸ hroot
  cases x with
  | atom a => cases hx
  | set items =>
    obtain ⟨a, ha, rfl⟩ := List.mem_map.1 hw
    exact hkeys a ha
  | list items =>
    obtain ⟨c, hc, rfl⟩ := List.mem_map.1 hw
    exact hparts c hc
  | pairs items =>
    obtain ⟨e, he, rfl⟩ := List.mem_map.1 hw
    refine marked_of_mark?_eq_none rfl fun w hw => ?_
    rcases List.mem_pair.1 hw with rfl | rfl
    · exact hparts e.1 (List.mem_flatMap.2 ⟨e, he, List.mem_pair.2 (.inl rfl)⟩)
    · exact hparts e.2 (List.mem_flatMap.2 ⟨e, he, List.mem_pair.2 (.inr rfl)⟩)
  | object entries =>
    obtain ⟨e', he', hw⟩ := mem_parts_object.1 hw
    obtain ⟨e, he, rfl⟩ := List.mem_map.1 he'
    rcases hw with rfl | rfl
    · exact hkeys e.1 (List.mem_map_of_mem he)
    · exact hparts e.2 (List.mem_map_of_mem he)

end Built

namespace Builder

variable {b b' b'' : Builder} {n : Nat}

/-! ## Building -/

/-- An atom that has no mark, or the mark of a node that has become this atom. -/
def Knows (b : Builder) (a : Atom) : Prop :=
  ∀ mark, (Value.atom a).mark? = some mark → ∃ k, mark = .node k ∧ b.built? k = some (.atom a)

/-- The state of building: marks of atoms are those of their nodes, and what is on the agenda has
become a collection. -/
structure Consistent (b : Builder) : Prop where
  atoms : ∀ n a, b.built? n = some (.atom a) → b.Knows a
  keys : ∀ n x, b.built? n = some x → ∀ a ∈ x.keys, b.Knows a
  agenda : ∀ n ∈ b.agenda, n < b.built.size → ∃ x, b.built? n = some x ∧ x.isCollection = true

/-- A later state of building: atoms stay as they are, and nothing leaves the agenda. -/
structure Grown (b b' : Builder) : Prop where
  consistent : b'.Consistent
  atoms : ∀ n a, b.built? n = some (.atom a) → b'.built? n = some (.atom a)
  agenda : ∀ n ∈ b.agenda, n ∈ b'.agenda
  size : b'.built.size = b.built.size

/-- A consistent state is a later state of itself. -/
theorem Consistent.grown (h : b.Consistent) : Grown b b :=
  ⟨h, fun _ _ hn => hn, fun _ hn => hn, rfl⟩

/-- A later state of a later state. -/
theorem Grown.trans (h : Grown b b') (h' : Grown b' b'') : Grown b b'' :=
  ⟨h'.consistent, fun n a hn => h'.atoms n a (h.atoms n a hn),
    fun n hn => h'.agenda n (h.agenda n hn), h'.size.trans h.size⟩

/-- An atom stays known as long as atoms stay. -/
theorem Knows.mono {a : Atom} (h : b.Knows a)
    (hatoms : ∀ n a, b.built? n = some (.atom a) → b'.built? n = some (.atom a)) : b'.Knows a := by
  intro mark hmark
  obtain ⟨k, hk, hbuilt⟩ := h mark hmark
  exact ⟨k, hk, hatoms k a hbuilt⟩

/-- What is built is within the bounds. -/
theorem lt_of_built? {x : Built} (h : b.built? n = some x) : n < b.built.size := by
  by_contra hn
  rw [built?, Array.getElem?_eq_none (Nat.le_of_not_lt hn)] at h
  cases h

/-- What is built after a node becomes something. -/
theorem built?_put (b : Builder) (n : Nat) (x : Built) (k : Nat) :
    (b.put n x).built? k = if n = k ∧ n < b.built.size then some x else b.built? k := by
  simp only [built?, put, Array.getElem?_setIfInBounds]
  by_cases hk : n = k
  · subst hk
    by_cases hn : n < b.built.size
    · simp [hn]
    · simp [hn]
  · simp [hk]

/-- What is an atom stays so when another node becomes something. -/
theorem built?_put_of_atom (hold : ∀ a, b.built? n ≠ some (.atom a)) (x : Built) {k : Nat}
    {a : Atom} (h : b.built? k = some (.atom a)) : (b.put n x).built? k = some (.atom a) := by
  rw [built?_put, if_neg, h]
  rintro ⟨rfl, -⟩
  exact hold a h

/-- The state stays consistent when a node that is no atom becomes a collection with known keys. -/
theorem Consistent.put_collection (hb : b.Consistent) {x : Built} (hx : x.isCollection = true)
    (hkeys : ∀ a ∈ x.keys, b.Knows a) (hold : ∀ a, b.built? n ≠ some (.atom a)) :
    Grown b (b.put n x) := by
  have hatoms := fun k a => built?_put_of_atom (k := k) (a := a) hold x
  refine ⟨⟨fun k a hk => ?_, fun k y hk a ha => ?_, fun k hk hlt => ?_⟩, hatoms, fun _ hk => hk,
    Array.size_setIfInBounds⟩
  · rw [built?_put] at hk
    split at hk
    · cases hk
      cases hx
    · exact (hb.atoms k a hk).mono hatoms
  · rw [built?_put] at hk
    split at hk
    · cases hk
      exact (hkeys a ha).mono hatoms
    · exact (hb.keys k y hk a ha).mono hatoms
  · rw [built?_put]
    split
    · exact ⟨x, rfl, hx⟩
    · exact hb.agenda k hk (by simpa [Builder.put] using hlt)

/-- The state stays consistent when a node becomes an atom with its own mark. -/
theorem Consistent.put_atom (hb : b.Consistent) {a : Atom} (hnone : b.built? n = none)
    (hmark : ∀ mark, (Value.atom a).mark? = some mark → mark = .node n) :
    Grown b (b.put n (.atom a)) := by
  have hold : ∀ c, b.built? n ≠ some (.atom c) := by
    intro c
    rw [hnone]
    nofun
  have hatoms := fun k c => built?_put_of_atom (k := k) (a := c) hold (.atom a)
  refine ⟨⟨fun k c hk => ?_, fun k y hk c hc => ?_, fun k hk hlt => ?_⟩, hatoms, fun _ hk => hk,
    Array.size_setIfInBounds⟩
  · -- the new atom has its own mark, and the old ones are still there
    have hk' := hk
    rw [built?_put] at hk'
    split at hk'
    · rename_i hn
      cases hk'
      obtain rfl := hn.1
      exact fun mark hm => ⟨n, hmark mark hm, hk⟩
    · exact (hb.atoms k c hk').mono hatoms
  · rw [built?_put] at hk
    split at hk
    · cases hk
      exact absurd hc List.not_mem_nil
    · exact (hb.keys k y hk c hc).mono hatoms
  · obtain ⟨x, hx, hcollection⟩ := hb.agenda k hk (by simpa [Builder.put] using hlt)
    refine ⟨x, ?_, hcollection⟩
    rw [built?_put, if_neg, hx]
    rintro ⟨rfl, -⟩
    rw [hnone] at hx
    cases hx

/-- The state stays consistent with a collection on the agenda. -/
theorem Consistent.push (hb : b.Consistent)
    (hn : n < b.built.size → ∃ x, b.built? n = some x ∧ x.isCollection = true) :
    Grown b { b with agenda := b.agenda.push n } := by
  refine ⟨⟨hb.atoms, hb.keys, fun k hk hlt => ?_⟩, fun _ _ hk => hk,
    fun k hk => Array.mem_push.2 (.inl hk), rfl⟩
  rcases Array.mem_push.1 hk with hk | rfl
  · exact hb.agenda k hk hlt
  · exact hn hlt

/-- The state stays consistent with another graph. -/
theorem Consistent.withGraph (hb : b.Consistent) (g : Graph) : Grown b { b with graph := g } :=
  ⟨⟨hb.atoms, hb.keys, hb.agenda⟩, fun _ _ hk => hk, fun _ hk => hk, rfl⟩

/-- A node on the agenda is no atom. -/
theorem Consistent.ne_atom (hb : b.Consistent) (hn : n ∈ b.agenda) (a : Atom) :
    b.built? n ≠ some (.atom a) := by
  intro h
  obtain ⟨x, hx, hcollection⟩ := hb.agenda n hn (lt_of_built? h)
  rw [h] at hx
  cases hx
  cases hcollection

/-- An atom has the mark of its node, if it has one. -/
theorem mark?_atom {g : Graph} {type : ScalarType} {a : Atom} (h : atom g n type = .ok a) :
    ∀ mark, (Value.atom a).mark? = some mark → mark = .node n := by
  intro mark hm
  unfold atom at h
  split at h
  · cases h
  · split at h
    · cases h
    · exact (Option.some.inj (mark?_atomOf h hm)).symm

/-- Meeting a node keeps the state consistent. -/
theorem Consistent.meet (hb : b.Consistent) (h : b.meet n = .ok b') : Grown b b' := by
  unfold Builder.meet at h
  split at h
  · cases h
    exact hb.grown
  rename_i hnew
  have hnone : b.built? n = none := by simpa using hnew
  split at h
  · obtain ⟨a, ha, rfl⟩ := exists_of_map_eq_ok h
    exact hb.put_atom hnone (mark?_atom ha)
  · cases h
  · cases h
    have hput : Grown b (b.put n (.list [])) :=
      hb.put_collection rfl (fun _ ha => absurd ha List.not_mem_nil) (fun a => hnone ▸ nofun)
    refine hput.trans (hput.consistent.push fun hlt => ⟨.list [], ?_, rfl⟩)
    rw [built?_put, if_pos ⟨rfl, hput.size ▸ hlt⟩]

/-- Meeting several nodes keeps the state consistent. -/
theorem Consistent.meetAll {items : List Nat} (hb : b.Consistent)
    (h : b.meetAll items = .ok b') : Grown b b' := by
  induction items generalizing b with
  | nil =>
    cases h
    exact hb.grown
  | cons n items ih =>
    obtain ⟨b₁, hmeet, hrest⟩ := exists_of_bind_eq_ok h
    have hgrown := hb.meet hmeet
    exact hgrown.trans (ih hgrown.consistent hrest)

/-- Meeting pairs of nodes keeps the state consistent. -/
theorem Consistent.meetPairs {items : List Nat} {pairs : List (Nat × Nat)} (hb : b.Consistent)
    (h : b.meetPairs items = .ok (pairs, b')) : Grown b b' := by
  induction items generalizing b pairs with
  | nil =>
    cases h
    exact hb.grown
  | cons n items ih =>
    rw [Builder.meetPairs] at h
    split at h
    · obtain ⟨b₁, hkey, h⟩ := exists_of_bind_eq_ok h
      obtain ⟨b₂, hvalue, h⟩ := exists_of_bind_eq_ok h
      obtain ⟨⟨pairs', b₃⟩, hrest, h⟩ := exists_of_bind_eq_ok h
      cases h
      have hgrown₁ := hb.meet hkey
      have hgrown₂ := hgrown₁.trans (hgrown₁.consistent.meet hvalue)
      exact hgrown₂.trans (ih hgrown₂.consistent hrest)
    · cases h

/-- The keys after an insertion are those before it and the new one. -/
theorem mem_insertKey {g : Graph} {n v : Nat} {a : Atom} {keyed : Keyed} {e : Nat × Atom × Nat}
    (h : e ∈ insertKey g n a v keyed) : e.2.1 = a ∨ ∃ e' ∈ keyed, e'.2.1 = e.2.1 := by
  fun_induction insertKey g n a v keyed with
  | case1 =>
    rw [List.mem_singleton] at h
    exact .inl (h ▸ rfl)
  | case2 m c w rest _ =>
    rcases List.mem_cons.1 h with rfl | h
    · exact .inr ⟨_, List.mem_cons_self, rfl⟩
    · exact .inr ⟨e, List.mem_cons_of_mem _ h, rfl⟩
  | case3 m c w rest _ ih =>
    rcases List.mem_cons.1 h with rfl | h
    · exact .inr ⟨_, List.mem_cons_self, rfl⟩
    · rcases ih h with heq | ⟨e', he', heq⟩
      · exact .inl heq
      · exact .inr ⟨e', List.mem_cons_of_mem _ he', heq⟩

/-- Behind the entries of a mapping all its keys are known. -/
theorem Consistent.meetEntries {entries : List (Nat × Nat)} {keyed keyed' : Keyed}
    (hb : b.Consistent) (hkeyed : ∀ e ∈ keyed, b.Knows e.2.1)
    (h : b.meetEntries keyed entries = .ok (keyed', b')) :
    Grown b b' ∧ ∀ e ∈ keyed', b'.Knows e.2.1 := by
  induction entries generalizing b keyed with
  | nil =>
    cases h
    exact ⟨hb.grown, hkeyed⟩
  | cons entry entries ih =>
    obtain ⟨k, v⟩ := entry
    obtain ⟨b₁, hkey, h⟩ := exists_of_bind_eq_ok h
    split at h
    · rename_i a ha
      obtain ⟨b₂, hvalue, h⟩ := exists_of_bind_eq_ok h
      have hgrown₁ := hb.meet hkey
      have hgrown₂ := hgrown₁.trans (hgrown₁.consistent.meet hvalue)
      have hknown : ∀ e ∈ insertKey b₁.graph k a v keyed, b₂.Knows e.2.1 := by
        intro e he
        rcases mem_insertKey he with heq | ⟨e', he', heq⟩
        · rw [heq]
          exact (hgrown₁.consistent.atoms k a ha).mono
            (hgrown₁.consistent.meet hvalue).atoms
        · exact heq ▸ (hkeyed e' he').mono hgrown₂.atoms
      obtain ⟨hgrown, hkeyed'⟩ := ih hgrown₂.consistent hknown h
      exact ⟨hgrown₂.trans hgrown, hkeyed'⟩
    · cases h

/-- Members of a set in order are members as they came, or have no mark. -/
theorem knows_setOrder {items : List Atom} (h : ∀ a ∈ items, b.Knows a) :
    ∀ a ∈ setOrder items, b.Knows a := by
  intro a ha
  unfold setOrder at ha
  simp only at ha
  split at ha
  · obtain ⟨m, -, rfl⟩ := List.mem_map.1 ha
    intro mark hmark
    cases hmark
  · exact h a ha

/-- Filling a collection keeps the state consistent. -/
theorem Consistent.fill (hb : b.Consistent) (hn : n ∈ b.agenda) (h : b.fill n = .ok b') :
    Grown b b' := by
  unfold Builder.fill at h
  -- in all cases the parts are met first, and the node becomes a collection after that
  have hput : ∀ {b₁ : Builder} {x : Built}, Grown b b₁ → x.isCollection = true →
      (∀ a ∈ x.keys, b₁.Knows a) → Grown b (b₁.put n x) := fun hgrown hx hkeys =>
    hgrown.trans (hgrown.consistent.put_collection hx hkeys
      (hgrown.consistent.ne_atom (hgrown.agenda n hn)))
  have hentries : ∀ {g : Graph} {entries : List (Nat × Nat)} {keyed : Keyed} {b₁ : Builder},
      Builder.meetEntries { b with graph := g } [] entries = .ok (keyed, b₁) →
      Grown b b₁ ∧ ∀ e ∈ keyed, b₁.Knows e.2.1 := by
    intro g entries keyed b₁ hmeet
    have hgraph := hb.withGraph g
    obtain ⟨hgrown, hkeyed⟩ :=
      hgraph.consistent.meetEntries (fun _ he => absurd he List.not_mem_nil) hmeet
    exact ⟨hgraph.trans hgrown, hkeyed⟩
  split at h
  · obtain ⟨b₁, hmeet, h⟩ := exists_of_bind_eq_ok h
    cases h
    exact hput (hb.meetAll hmeet) rfl fun _ ha => absurd ha List.not_mem_nil
  · obtain ⟨⟨pairs, b₁⟩, hmeet, h⟩ := exists_of_bind_eq_ok h
    cases h
    exact hput (hb.meetPairs hmeet) rfl fun _ ha => absurd ha List.not_mem_nil
  · obtain ⟨g, -, h⟩ := exists_of_bind_eq_ok h
    obtain ⟨⟨keyed, b₁⟩, hmeet, h⟩ := exists_of_bind_eq_ok h
    cases h
    obtain ⟨hgrown, hkeyed⟩ := hentries hmeet
    refine hput hgrown rfl fun a ha => ?_
    simp only [Built.keys, List.map_map, List.mem_map] at ha
    obtain ⟨e, he, rfl⟩ := ha
    exact hkeyed e he
  · obtain ⟨g, -, h⟩ := exists_of_bind_eq_ok h
    obtain ⟨⟨keyed, b₁⟩, hmeet, h⟩ := exists_of_bind_eq_ok h
    cases h
    obtain ⟨hgrown, hkeyed⟩ := hentries hmeet
    refine hput hgrown rfl (knows_setOrder fun a ha => ?_)
    obtain ⟨e, he, rfl⟩ := List.mem_map.1 ha
    exact hkeyed e he
  · cases h

/-- A whole run keeps the state consistent. -/
theorem Consistent.run {fuel i : Nat} (hb : b.Consistent) (h : run fuel i b = .ok b') :
    Grown b b' := by
  induction fuel generalizing i b with
  | zero =>
    cases h
    exact hb.grown
  | succ fuel ih =>
    rw [Builder.run] at h
    split at h
    · cases h
      exact hb.grown
    · rename_i n hn
      obtain ⟨b₁, hfill, hrest⟩ := exists_of_bind_eq_ok h
      have hgrown := hb.fill (Array.mem_of_getElem? hn) hfill
      exact hgrown.trans (ih hgrown.consistent hrest)

/-! ## Values of nodes -/

variable {fuel bound : Nat} {inside others : List Nat}

/-- A node that nothing was built for is null. -/
theorem value_of_none (h : b.built? n = none) : b.value fuel inside n = .null := by
  cases fuel with
  | zero => rfl
  | succ fuel => rw [Builder.value, h]

/-- A node is what was built for it, emptied if it is inside itself. -/
theorem value_of_some {x : Built} (h : b.built? n = some x) :
    b.value (fuel + 1) inside n =
      (if n ∈ inside then x.emptied else x).value n (b.value fuel (n :: inside)) := by
  rw [Builder.value, h]
  cases x <;> by_cases hn : n ∈ inside <;> simp [hn, Built.emptied, Built.value]

/-- A node that has become an atom is that atom. -/
theorem value_of_atom {a : Atom} (h : b.built? n = some (.atom a)) (hfuel : 0 < fuel) :
    b.value fuel inside n = .atom a := by
  obtain ⟨fuel, rfl⟩ := Nat.exists_eq_succ_of_ne_zero (Nat.ne_of_gt hfuel)
  rw [value_of_some h]
  split <;> rfl

/-- How many nodes there are that a node is not inside of. -/
def room (b : Builder) (inside : List Nat) : Nat :=
  (Finset.range b.built.size \ inside.toFinset).card

/-- At the outermost node there is room for all. -/
theorem room_nil (b : Builder) : b.room [] = b.built.size := by
  simp [room]

/-- One node further inside there is less room. -/
theorem room_cons_lt (hlt : n < b.built.size) (hn : n ∉ inside) :
    b.room (n :: inside) < b.room inside := by
  rw [room, room, List.toFinset_cons, Finset.sdiff_insert]
  exact Finset.card_erase_lt_of_mem (by simpa using ⟨hlt, hn⟩)

/-- The bound on the depth does not show if there are fewer nodes. -/
theorem value_of_le (hle : fuel ≤ bound) (hroom : b.room inside < fuel) :
    b.value bound inside n = b.value fuel inside n := by
  induction fuel generalizing bound inside n with
  | zero => omega
  | succ fuel ih =>
    obtain ⟨bound, rfl⟩ : ∃ k, bound = k + 1 := ⟨bound - 1, by omega⟩
    cases hx : b.built? n with
    | none => rw [value_of_none hx, value_of_none hx]
    | some x =>
      rw [value_of_some hx, value_of_some hx]
      refine Built.value_congr fun c hc => ?_
      split at hc
      · rw [Built.parts_emptied] at hc
        exact absurd hc List.not_mem_nil
      · rename_i hn
        have := room_cons_lt (lt_of_built? hx) hn
        exact ih (by omega) (by omega)

/-- Of the nodes that a value is inside of only those show that are in it. -/
theorem value_congr
    (h : (b.value fuel inside n).Marked fun mark _ =>
      ∀ m, mark = .node m → (m ∈ inside ↔ m ∈ others)) :
    b.value fuel inside n = b.value fuel others n := by
  induction fuel generalizing inside others n with
  | zero => rfl
  | succ fuel ih =>
    cases hx : b.built? n with
    | none => rw [value_of_none hx, value_of_none hx]
    | some x =>
      by_cases hcollection : x.isCollection = true
      · rw [value_of_some hx] at h
        have hn : n ∈ inside ↔ n ∈ others := by
          refine h.root (Built.mark?_value ?_) n rfl
          split
          · rw [Built.isCollection_emptied, hcollection]
          · exact hcollection
        rw [value_of_some hx, value_of_some hx, ← if_congr hn rfl rfl]
        refine Built.value_congr fun c hc => ih ?_
        refine (Built.marked_part (fun _ => h.part) c hc).mono fun mark _ hm m heq => ?_
        rw [List.mem_cons, List.mem_cons, hm m heq]
      · cases x with
        | atom a => rw [value_of_atom hx (by omega), value_of_atom hx (by omega)]
        | _ => exact absurd rfl hcollection

/-- A node with a mark is what the builder has for its number. -/
def Agrees (b : Builder) (bound : Nat) (others : List Nat) (mark : Mark) (x : Value) : Prop :=
  ∃ m, mark = .node m ∧ x = b.value bound others m

/-- An atom that is known agrees with the builder. -/
theorem Knows.marked {a : Atom} (h : b.Knows a) (hbound : 0 < bound) :
    (Value.atom a).Marked (b.Agrees bound others) := by
  refine marked_iff.2 ⟨fun mark hmark => ?_, fun w hw => absurd hw List.not_mem_nil⟩
  obtain ⟨k, hk, hbuilt⟩ := h mark hmark
  exact ⟨k, hk, (value_of_atom hbuilt hbound).symm⟩

/-- If no node is inside itself, then all nodes with one number are one node. -/
theorem Consistent.value_agrees (hb : b.Consistent) (hle : fuel ≤ bound)
    (hroom : b.room inside < fuel) (hfree : (b.value fuel inside n).IsLoopFree)
    (hsame : (b.value fuel inside n).Marked fun mark _ =>
      ∀ m, mark = .node m → (m ∈ inside ↔ m ∈ others)) :
    (b.value fuel inside n).Marked (b.Agrees bound others) := by
  -- the nodes that a part is inside of are not in the part, so it is what it is anywhere else
  induction fuel generalizing inside n with
  | zero => omega
  | succ fuel ih =>
    cases hx : b.built? n with
    | none =>
      rw [value_of_none hx]
      exact marked_atom rfl
    | some x =>
      by_cases hcollection : x.isCollection = true
      · have heq : b.value (fuel + 1) inside n = b.value bound others n := by
          rw [← value_of_le hle hroom] at hsame ⊢
          exact value_congr hsame
        rw [value_of_some hx] at hfree hsame heq ⊢
        by_cases hn : n ∈ inside
        · rw [if_pos hn] at heq ⊢
          rw [← Built.isCollection_emptied] at hcollection
          refine Built.marked_value hcollection ⟨n, rfl, heq⟩ (fun a ha => ?_) (fun c hc => ?_)
          · exact (hb.keys n x hx a (Built.keys_emptied_subset x ha)).marked (by omega)
          · rw [Built.parts_emptied] at hc
            exact absurd hc List.not_mem_nil
        · rw [if_neg hn] at hfree hsame heq ⊢
          have hlt := room_cons_lt (lt_of_built? hx) hn
          -- the node itself is not in its parts
          have hapart := Built.marked_part (hfree.root (Built.mark?_value hcollection))
          refine Built.marked_value hcollection ⟨n, rfl, heq⟩
            (fun a ha => (hb.keys n x hx a ha).marked (by omega)) (fun c hc => ?_)
          refine ih (by omega) (by omega) (Built.marked_part (fun _ => hfree.part) c hc) ?_
          have hpart := Built.marked_part (fun _ => hsame.part) c hc
          refine ((hapart c hc).and hpart).mono fun mark _ hm m hmark => ?_
          have hne : m ≠ n := fun h => hm.1 (h ▸ hmark)
          rw [List.mem_cons, or_iff_right hne, hm.2 m hmark]
      · cases x with
        | atom a =>
          rw [value_of_atom hx (by omega)]
          exact (hb.atoms n a hx).marked (by omega)
        | _ => exact absurd rfl hcollection

/-- The value of a node without loops is one that is read. -/
theorem Consistent.value_isRead (hb : b.Consistent) (hroom : b.room inside < fuel)
    (hfree : (b.value fuel inside n).IsLoopFree) : (b.value fuel inside n).IsRead :=
  ⟨b.value fuel inside,
    hb.value_agrees (Nat.le_refl fuel) hroom hfree fun _ _ _ _ _ _ => Iff.rfl⟩

/-- Nothing has been built at first. -/
theorem consistent_start (g : Graph) (size : Nat) :
    Consistent { graph := g, built := Array.replicate size none } := by
  have hnone : ∀ n, built? { graph := g, built := Array.replicate size none } n = none := by
    intro n
    rw [built?, Array.getElem?_replicate]
    split <;> rfl
  refine ⟨fun n a h => ?_, fun n x h => ?_, fun n hn => ?_⟩
  · rw [hnone] at h
    cases h
  · rw [hnone] at h
    cases h
  · exact absurd hn (Array.not_mem_empty n)

end Builder

/-! ## Texts and options -/

/-- The value of a graph without loops is one that is read. -/
theorem Graph.value_isRead {g : Graph} {root : Nat} {v : Value} (h : g.value root = .ok v)
    (hfree : v.IsLoopFree) : v.IsRead := by
  obtain ⟨b₁, hmeet, h⟩ := exists_of_bind_eq_ok h
  obtain ⟨b₂, hrun, h⟩ := exists_of_bind_eq_ok h
  cases h
  have hgrown₁ := (Builder.consistent_start g g.nodes.size).meet hmeet
  have hgrown := hgrown₁.trans (hgrown₁.consistent.run hrun)
  have hsize : b₂.built.size = g.nodes.size := hgrown.size.trans Array.size_replicate
  refine hgrown.consistent.value_isRead ?_ hfree
  rw [Builder.room_nil, hsize]
  exact Nat.lt_succ_self _

/-- The nodes of a text that have one number are one node exactly if none of them is inside
itself. -/
theorem read_isRead_iff_isLoopFree {text : List Char} {v : Value} (h : read text = .ok v) :
    v.IsRead ↔ v.IsLoopFree := by
  refine ⟨IsRead.isLoopFree, fun hfree => ?_⟩
  obtain ⟨tokens, -, h⟩ := exists_of_bind_eq_ok h
  obtain ⟨tree?, -, h⟩ := exists_of_bind_eq_ok h
  cases tree? with
  | none =>
    cases h
    exact ⟨fun _ => .null, marked_atom rfl⟩
  | some tree => exact Graph.value_isRead h hfree

end ApiDoc.Yaml

namespace ApiDoc

open Value

/-- Both checks go well where both together do. -/
theorem Checked.both_eq_ok {α β : Type} {x : Checked α} {y : Checked β} {r : α × β}
    (h : Checked.both x y = .ok r) : x = .ok r.1 ∧ y = .ok r.2 := by
  unfold Checked.both at h
  split at h <;> cases h
  exact ⟨rfl, rfl⟩

namespace Options

variable {v : Value} {options : Options}

/-- The entries of a document that options give are those of an object in the options. -/
theorem definition_of_ofValue (h : ofValue v = .ok options) :
    ∃ m, .object m options.definition ∈ v.parts := by
  unfold ofValue at h
  split at h
  · cases h
  · rename_i m entries
    split at h
    · cases h
    · split at h <;> cases h
      rename_i hchecked
      obtain ⟨r, hboth, hr⟩ := exists_of_bind_eq_ok hchecked
      cases hr
      have hdefinition := (Checked.both_eq_ok hboth).1
      unfold Checked.required at hdefinition
      split at hdefinition
      · cases hdefinition
      · rename_i w hw
        obtain ⟨key, hmem⟩ := Assoc.mem_of_get? hw
        cases w with
        | object m' entries' =>
          cases hdefinition
          exact ⟨m', snd_mem_parts hmem⟩
        | _ => cases hdefinition
  · cases h

/-- The definition of options that were read is read. -/
theorem ofValue_isRead (hread : v.IsRead) (h : ofValue v = .ok options) :
    (Value.map options.definition).IsRead := by
  obtain ⟨heap, hv⟩ := hread
  obtain ⟨m, hm⟩ := definition_of_ofValue h
  exact ⟨heap, (hv.part hm).entries.map⟩

/-- Options from a file where no node is inside itself give entries that are read. -/
theorem load_isRead {tree : FileTree} {p : Path} (hv : tree.readYaml p = .ok v)
    (hfree : v.IsLoopFree) (h : load tree p = .ok options) :
    (Value.map options.definition).IsRead := by
  have hread : v.IsRead := by
    unfold FileTree.readYaml at hv
    split at hv
    · cases hv
    · split at hv
      · cases hv
      · split at hv <;> cases hv
        rename_i hyaml
        exact (Yaml.read_isRead_iff_isLoopFree hyaml).2 hfree
  -- moving the base directory to where the options are leaves the definition
  obtain ⟨w, hw, h⟩ := exists_of_bind_eq_ok h
  rw [hv] at hw
  cases hw
  cases v with
  | object m entries =>
    simp only at h
    split at h
    · cases h
    · rename_i given hgiven
      have hdefinition : options.definition = given.definition := by
        unfold seenFrom at h
        simp only at h
        split at h
        · cases h
          rfl
        · split at h <;> cases h
          rfl
      rw [hdefinition]
      exact ofValue_isRead hread hgiven
  | _ => cases h

end Options

end ApiDoc
