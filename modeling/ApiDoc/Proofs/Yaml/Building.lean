import ApiDoc.Proofs.Yaml.Graphs
import ApiDoc.Proofs.Yaml.Sharing

/-!
# Values of documents that were written as JSON

The builder meets every node of the graph of a document once and makes of it what it stands for
(`Ready`): what is met is kept, what is on the agenda is filled in its turn, and nothing fails
(`Underway`). So the value of the graph has the outline of the document: `Graph.exists_value`.
-/

namespace ApiDoc.Yaml

namespace Graph

variable {g : Graph} {n k : Nat} {v : Value}

/-- The text of a node that is a key. -/
def keyOf (g : Graph) (n : Nat) : Atom :=
  match g.content n with
  | .scalar text => .text text
  | _ => .null

/-- The text of a key is the key. -/
theorem IsKey.keyOf_eq {key : Atom} (h : g.IsKey n key) : g.keyOf n = key := by
  obtain ⟨text, rfl, hn⟩ := h
  rw [keyOf, content, hn]
  rfl

/-- What a node of the graph of a document becomes when its parts are met, and why this goes
well. -/
inductive Ready (g : Graph) (n : Nat) : Built → Prop where
  | atom {type : ScalarType} {text : String} {c : Atom}
      (hn : g.nodes[n]? = some ⟨.scalar type, .scalar text⟩)
      (hc : atomOf (some (.node n)) type text = .ok c) : Ready g n (.atom c)
  | list {ns : List Nat} (hn : g.nodes[n]? = some ⟨.sequence, .sequence ns⟩)
      (hlt : ∀ c ∈ ns, c < g.nodes.size) : Ready g n (.list ns)
  | object {ns : List (Nat × Nat)} (hn : g.nodes[n]? = some ⟨.mapping, .mapping ns⟩)
      (hkeys : ∀ e ∈ ns, ∃ key, g.IsKey e.1 key) (hdistinct : (ns.map (g.keyOf ·.1)).Nodup)
      (hlt : ∀ e ∈ ns, e.2 < g.nodes.size) :
      Ready g n (.object (ns.map fun e => (g.keyOf e.1, e.2)))

/-- A node that is ready is one of the graph. -/
theorem Ready.lt {x : Built} (hx : g.Ready n x) : n < g.nodes.size := by
  cases hx with
  | atom hn _ => exact (Array.getElem?_eq_some_iff.1 hn).1
  | list hn _ => exact (Array.getElem?_eq_some_iff.1 hn).1
  | object hn _ _ _ => exact (Array.getElem?_eq_some_iff.1 hn).1

section Ready

variable {x y : Built}

/-- A scalar becomes the atom that it stands for. -/
theorem Ready.eq_atom (hx : g.Ready n x) {type : ScalarType} {text : String} {c : Atom}
    (hn : g.nodes[n]? = some ⟨.scalar type, .scalar text⟩)
    (hc : atomOf (some (.node n)) type text = .ok c) : x = .atom c := by
  cases hx with
  | atom hn' hc' =>
    cases hn.symm.trans hn'
    cases hc.symm.trans hc'
    rfl
  | list hn' _ => cases hn.symm.trans hn'
  | object hn' _ _ _ => cases hn.symm.trans hn'

/-- A sequence becomes a list of its items. -/
theorem Ready.eq_list (hx : g.Ready n x) {ns : List Nat}
    (hn : g.nodes[n]? = some ⟨.sequence, .sequence ns⟩) : x = .list ns := by
  cases hx with
  | atom hn' _ => cases hn.symm.trans hn'
  | list hn' _ =>
    cases hn.symm.trans hn'
    rfl
  | object hn' _ _ _ => cases hn.symm.trans hn'

/-- A mapping becomes an object with the texts of its keys. -/
theorem Ready.eq_object (hx : g.Ready n x) {ns : List (Nat × Nat)}
    (hn : g.nodes[n]? = some ⟨.mapping, .mapping ns⟩) :
    x = .object (ns.map fun e => (g.keyOf e.1, e.2)) := by
  cases hx with
  | atom hn' _ => cases hn.symm.trans hn'
  | list hn' _ => cases hn.symm.trans hn'
  | object hn' _ _ _ =>
    cases hn.symm.trans hn'
    rfl

/-- A node becomes one thing only. -/
theorem Ready.unique (hx : g.Ready n x) (hy : g.Ready n y) : y = x := by
  cases hx with
  | atom hn hc => exact hy.eq_atom hn hc
  | list hn _ => exact hy.eq_list hn
  | object hn _ _ _ => exact hy.eq_object hn

end Ready

section Zip

variable {α β γ : Type} {xs : List α} {ys : List β}

/-- Items of one list are what the items of another one are, place by place. -/
theorem map_eq_map_of_zip {f : α → γ} {f' : β → γ} (hlength : xs.length = ys.length)
    (h : ∀ p ∈ xs.zip ys, f p.1 = f' p.2) : xs.map f = ys.map f' :=
  calc
    xs.map f = ((xs.zip ys).map Prod.fst).map f := by
      rw [List.map_fst_zip (Nat.le_of_eq hlength)]
    _ = ((xs.zip ys).map Prod.snd).map f' := by
      rw [List.map_map, List.map_map]
      exact List.map_congr_left h
    _ = ys.map f' := by rw [List.map_snd_zip (Nat.le_of_eq hlength.symm)]

/-- What holds of all first members of pairs holds of all items of the first list. -/
theorem forall_mem_of_zip {P : α → Prop} (hlength : xs.length = ys.length)
    (h : ∀ p ∈ xs.zip ys, P p.1) : ∀ x ∈ xs, P x := by
  rw [← List.map_fst_zip (Nat.le_of_eq hlength)]
  exact List.forall_mem_map.2 h

end Zip

/-- A node that holds a document becomes something. -/
theorem Holds.exists_ready (hv : g.Holds n v) : ∃ x, g.Ready n x := by
  cases hv with
  | atom hn hc _ => exact ⟨_, .atom hn hc⟩
  | list hn hlength _ hitems =>
    exact ⟨_, .list hn (forall_mem_of_zip hlength fun p hp => (hitems p hp).lt)⟩
  | object hn hlength hkeys hdistinct _ hvalues =>
    refine ⟨_, .object hn (forall_mem_of_zip hlength fun p hp => ⟨_, hkeys p hp⟩) ?_
      (forall_mem_of_zip hlength fun p hp => (hvalues p hp).lt)⟩
    rw [map_eq_map_of_zip hlength fun p hp => (hkeys p hp).keyOf_eq]
    exact hdistinct

end Graph

namespace Builder

open Yaml.Graph

variable {g : Graph} {b b' b'' : Builder} {i n : Nat}

/-- A builder that has gone on: what is built and what is on the agenda is as it was. -/
structure Keeps (b b' : Builder) : Prop where
  built : ∀ {n x}, b.built? n = some x → b'.built? n = some x
  agenda : ∀ {j n : Nat}, b.agenda[j]? = some n → b'.agenda[j]? = some n

/-- A builder that has not gone on. -/
theorem Keeps.refl (b : Builder) : Keeps b b := ⟨id, id⟩

/-- A builder that has gone on twice. -/
theorem Keeps.trans (h : Keeps b b') (h' : Keeps b' b'') : Keeps b b'' :=
  ⟨fun hx => h'.built (h.built hx), fun hj => h'.agenda (h.agenda hj)⟩

/-- What is met stays met. -/
theorem Keeps.isSome (h : Keeps b b') (hn : (b.built? n).isSome = true) :
    (b'.built? n).isSome = true := by
  obtain ⟨x, hx⟩ := Option.isSome_iff_exists.1 hn
  rw [h.built hx]
  rfl

/-- A node that has become what it stands for, and whose parts are met. -/
def Settled (g : Graph) (b : Builder) (n : Nat) : Prop :=
  ∃ x, b.built? n = some x ∧ g.Ready n x ∧ ∀ c ∈ x.parts, (b.built? c).isSome = true

/-- The state of building when the collections in front of a place of the agenda are settled: what
is met is an atom that its node stands for, or is on the agenda. -/
structure Underway (g : Graph) (b : Builder) (i : Nat) : Prop where
  graph : b.graph = g
  size : b.built.size = g.nodes.size
  bound : i ≤ b.agenda.size
  met : ∀ {n x}, b.built? n = some x → n ∈ b.agenda ∨ (x.isCollection = false ∧ g.Ready n x)
  agenda : ∀ n ∈ b.agenda, (b.built? n).isSome = true ∧
    ∃ x, g.Ready n x ∧ x.isCollection = true
  nodup : b.agenda.toList.Nodup
  done : ∀ {j n : Nat}, j < i → b.agenda[j]? = some n → Settled g b n

/-- A node that is settled stays so. -/
theorem Settled.keeps (h : Settled g b n) (hk : Keeps b b') : Settled g b' n := by
  obtain ⟨x, hx, hready, hparts⟩ := h
  exact ⟨x, hk.built hx, hready, fun c hc => hk.isSome (hparts c hc)⟩

/-- What is settled stays so while the builder goes on. -/
theorem Underway.done_of_keeps (hb : Underway g b i) (hk : Keeps b b') {j m : Nat} (hj : j < i)
    (hm : b'.agenda[j]? = some m) : Settled g b' m := by
  have hlt : j < b.agenda.size := Nat.lt_of_lt_of_le hj hb.bound
  have hold : b.agenda[j]? = some b.agenda[j] := Array.getElem?_eq_getElem hlt
  rw [hk.agenda hold] at hm
  cases hm
  exact (hb.done hj hold).keeps hk

/-- A builder goes on when a node becomes something for the first time. -/
theorem keeps_put (hn : b.built? n = none) (x : Built) : Keeps b (b.put n x) := by
  refine ⟨fun {k y} hy => ?_, id⟩
  rw [built?_put, if_neg, hy]
  rintro ⟨rfl, -⟩
  rw [hn] at hy
  cases hy

/-- A builder goes on when a node comes onto the agenda. -/
theorem keeps_push (b : Builder) (n : Nat) : Keeps b { b with agenda := b.agenda.push n } := by
  refine ⟨id, fun {j m} hj => ?_⟩
  have hlt : j < b.agenda.size := (Array.getElem?_eq_some_iff.1 hj).1
  rw [← hj, Array.getElem?_push, if_neg (Nat.ne_of_lt hlt)]

/-- What a node of the graph becomes is what is built for it. -/
theorem Underway.built?_put_self (hb : Underway g b i) (hn : n < g.nodes.size) (x : Built) :
    (b.put n x).built? n = some x := by
  rw [built?_put, if_pos ⟨rfl, hb.size ▸ hn⟩]

/-- A scalar that is met becomes an atom. -/
theorem Underway.put_atom (hb : Underway g b i) (hn : b.built? n = none) {c : Atom}
    (hready : g.Ready n (.atom c)) : Underway g (b.put n (.atom c)) i := by
  have hk := keeps_put hn (.atom c)
  refine ⟨hb.graph, Array.size_setIfInBounds.trans hb.size, hb.bound, fun {k x} hx => ?_,
    fun k hk' => ⟨hk.isSome (hb.agenda k hk').1, (hb.agenda k hk').2⟩, hb.nodup,
    fun hj hm => hb.done_of_keeps hk hj hm⟩
  rw [built?_put] at hx
  split at hx
  · rename_i heq
    obtain rfl := heq.1
    cases hx
    exact .inr ⟨rfl, hready⟩
  · exact hb.met hx

/-- A collection that is met goes on the agenda. -/
theorem Underway.put_collection (hb : Underway g b i) (hn : b.built? n = none) {x : Built}
    (hready : g.Ready n x) (hx : x.isCollection = true) :
    Underway g { b.put n (.list []) with agenda := b.agenda.push n } i := by
  have hk : Keeps b { b.put n (.list []) with agenda := b.agenda.push n } :=
    (keeps_put hn (.list [])).trans (keeps_push (b.put n (.list [])) n)
  -- what is on the agenda is built, so the node is not on it yet
  have hnew : n ∉ b.agenda := by
    intro hmem
    have hsome := (hb.agenda n hmem).1
    rw [hn] at hsome
    cases hsome
  have hself := hb.built?_put_self hready.lt (.list [])
  refine ⟨hb.graph, Array.size_setIfInBounds.trans hb.size, ?_, fun {k y} hy => ?_,
    fun k hmem => ?_, ?_, fun hj hm => hb.done_of_keeps hk hj hm⟩
  · exact Nat.le_trans hb.bound (by simp)
  · have hy : (b.put n (.list [])).built? k = some y := hy
    rw [built?_put] at hy
    split at hy
    · rename_i heq
      obtain rfl := heq.1
      exact .inl Array.mem_push_self
    · exact (hb.met hy).imp_left fun hmem => Array.mem_push.2 (.inl hmem)
  · rcases Array.mem_push.1 hmem with hmem | rfl
    · exact ⟨hk.isSome (hb.agenda k hmem).1, (hb.agenda k hmem).2⟩
    · exact ⟨Option.isSome_iff_exists.2 ⟨_, hself⟩, x, hready, hx⟩
  · rw [Array.toList_push]
    refine List.nodup_append.2 ⟨hb.nodup, List.nodup_singleton n, fun k hmem m hm heq => hnew ?_⟩
    rw [← List.mem_singleton.1 hm, ← heq]
    exact Array.mem_toList_iff.1 hmem

/-- What is met of a scalar is its atom. -/
theorem Underway.eq_atom (hb : Underway g b i) {c : Atom} (hready : g.Ready n (.atom c))
    {x : Built} (hx : b.built? n = some x) : x = .atom c := by
  rcases hb.met hx with hmem | ⟨-, hx'⟩
  · obtain ⟨-, y, hy, hcollection⟩ := hb.agenda n hmem
    rw [hready.unique hy] at hcollection
    cases hcollection
  · exact hready.unique hx'

/-- A scalar node gives the atom that it stands for. -/
theorem atom_eq_ok {type : ScalarType} {text : String} {c : Atom}
    (hn : g.nodes[n]? = some ⟨.scalar type, .scalar text⟩)
    (hc : atomOf (some (.node n)) type text = .ok c) : atom g n type = .ok c := by
  have hcontent : g.content n = .scalar text := by
    rw [content, hn]
    rfl
  have htext : g.text? n = some text := by
    rw [text?, textWithin, hcontent]
  have hscalar : g.isScalar n = true := by
    rw [isScalar, hcontent]
  rw [atom, htext]
  simp only [hscalar, Bool.not_true, Bool.and_false, Bool.false_eq_true, if_false, hc]

/-- A node of the graph of a document is met without a fault. -/
theorem Underway.exists_meet (hb : Underway g b i) {x : Built} (hx : g.Ready n x) :
    ∃ b', b.meet n = .ok b' ∧ Underway g b' i ∧ Keeps b b' ∧ (b'.built? n).isSome = true := by
  unfold Builder.meet
  by_cases hmet : (b.built? n).isSome = true
  · exact ⟨b, if_pos hmet, hb, .refl b, hmet⟩
  rw [if_neg hmet, hb.graph]
  have hnone : b.built? n = none := by simpa using hmet
  have hself : ∀ y, ((b.put n y).built? n).isSome = true := fun y =>
    Option.isSome_iff_exists.2 ⟨y, hb.built?_put_self hx.lt y⟩
  have hpush : Keeps b { b.put n (.list []) with agenda := b.agenda.push n } :=
    (keeps_put hnone (.list [])).trans (keeps_push (b.put n (.list [])) n)
  have hready := hx
  -- a scalar is built at once, a collection when its turn comes
  cases hx with
  | @atom type text c hn hc =>
    have hkind : g.kind n = .scalar type := by rw [kind, hn]; rfl
    rw [hkind]
    simp only [atom_eq_ok hn hc]
    exact ⟨_, rfl, hb.put_atom hnone hready, keeps_put hnone _, hself _⟩
  | list hn _ =>
    have hkind : g.kind n = .sequence := by rw [kind, hn]; rfl
    rw [hkind]
    exact ⟨_, rfl, hb.put_collection hnone hready rfl, hpush, hself _⟩
  | object hn _ _ _ =>
    have hkind : g.kind n = .mapping := by rw [kind, hn]; rfl
    rw [hkind]
    exact ⟨_, rfl, hb.put_collection hnone hready rfl, hpush, hself _⟩

/-- A key that is not there goes to the end. -/
theorem insertKey_of_new {a : Atom} {v : Nat} {keyed : Keyed}
    (h : ∀ e ∈ keyed, sameKey g e.1 e.2.1 n a = false) :
    insertKey g n a v keyed = keyed ++ [(n, a, v)] := by
  induction keyed with
  | nil => rfl
  | cons e keyed ih =>
    obtain ⟨he, hkeyed⟩ := List.forall_mem_cons.1 h
    rw [insertKey, he, ih hkeyed]
    rfl

/-- Different texts are different keys. -/
theorem sameKey_of_ne {k m : Nat} {s t : String} (h : Atom.text s ≠ .text t) :
    sameKey g k (.text s) m (.text t) = false := by
  have hne : s ≠ t := fun heq => h (congrArg Atom.text heq)
  exact beq_eq_false_iff_ne.2 hne

/-- What is met stays met when a node becomes something. -/
theorem isSome_put {c : Nat} (h : (b.built? c).isSome = true) (n : Nat) (x : Built) :
    ((b.put n x).built? c).isSome = true := by
  rw [built?_put]
  split
  · rfl
  · exact h

/-- A collection whose parts are met becomes what it stands for. -/
theorem Underway.put_ready (hb : Underway g b i) (hn : b.agenda[i]? = some n) {x : Built}
    (hx : g.Ready n x) (hparts : ∀ c ∈ x.parts, (b.built? c).isSome = true) :
    Underway g (b.put n x) (i + 1) := by
  have hself := hb.built?_put_self hx.lt x
  refine ⟨hb.graph, Array.size_setIfInBounds.trans hb.size,
    (Array.getElem?_eq_some_iff.1 hn).1, fun {k y} hy => ?_,
    fun k hk => ⟨isSome_put (hb.agenda k hk).1 n x, (hb.agenda k hk).2⟩, hb.nodup,
    fun {j m} hj hm => ?_⟩
  · rw [built?_put] at hy
    split at hy
    · rename_i heq
      exact .inl (heq.1 ▸ Array.mem_of_getElem? hn)
    · exact hb.met hy
  · by_cases hmn : n = m
    · subst hmn
      exact ⟨x, hself, hx, fun c hc => isSome_put (hparts c hc) n x⟩
    · -- another node was settled before
      have hji : j ≠ i := by
        rintro rfl
        exact hmn (Option.some.inj (hn.symm.trans hm))
      obtain ⟨y, hy, hready, hy'⟩ := hb.done (by omega) hm
      refine ⟨y, ?_, hready, fun c hc => isSome_put (hy' c hc) n x⟩
      rw [built?_put, if_neg fun heq => hmn heq.1, hy]

/-- No key of the graph of a document has a meaning of its own. -/
theorem mergeKeys_eq_self {ns : List (Nat × Nat)} (hentries : g.entries n = ns)
    (hkeys : ∀ e ∈ ns, ∃ key, g.IsKey e.1 key) : g.mergeKeys n = .ok g := by
  have hplain : (ns.any fun e => g.isSpecial e.1) = false := by
    refine List.any_eq_false.2 fun e he => ?_
    obtain ⟨key, text, -, hnode⟩ := hkeys e he
    have hkind : g.kind e.1 = .scalar .text := by rw [kind, hnode]; rfl
    simp [Graph.isSpecial, hkind]
  rw [mergeKeys, hentries, hplain]
  rfl

/-- The agenda has no node twice. -/
theorem Underway.size_agenda_le (hb : Underway g b i) : b.agenda.size ≤ g.nodes.size := by
  have hsub : b.agenda.toList ⊆ List.range g.nodes.size := by
    intro n hn
    obtain ⟨-, x, hx, -⟩ := hb.agenda n (Array.mem_toList_iff.1 hn)
    exact List.mem_range.2 hx.lt
  have hlength := (hb.nodup.subperm hsub).length_le
  rwa [List.length_range, Array.length_toList] at hlength

section Sound

variable (hsound : ∀ n < g.nodes.size, ∃ x, g.Ready n x)

include hsound

/-- All parts of a collection are met, and the building goes on. -/
theorem Underway.exists_meetAll {ns : List Nat} (hlt : ∀ c ∈ ns, c < g.nodes.size)
    (hb : Underway g b i) :
    ∃ b', b.meetAll ns = .ok b' ∧ Underway g b' i ∧ Keeps b b' ∧
      ∀ c ∈ ns, (b'.built? c).isSome = true := by
  induction ns generalizing b with
  | nil => exact ⟨b, rfl, hb, .refl b, fun c hc => absurd hc List.not_mem_nil⟩
  | cons c ns ih =>
    obtain ⟨hc, hns⟩ := List.forall_mem_cons.1 hlt
    obtain ⟨x, hx⟩ := hsound c hc
    obtain ⟨b₁, hmeet, hb₁, hk₁, hsome⟩ := hb.exists_meet hx
    obtain ⟨b', hall, hb', hk', hrest⟩ := ih hns hb₁
    refine ⟨b', ?_, hb', hk₁.trans hk', List.forall_mem_cons.2 ⟨hk'.isSome hsome, hrest⟩⟩
    rw [meetAll, hmeet]
    exact hall

/-- The entries of an object are met without a fault, and all of them are kept. -/
theorem Underway.exists_meetEntries {ns : List (Nat × Nat)} {keyed : Keyed}
    (hkeys : ∀ e ∈ ns, ∃ key, g.IsKey e.1 key) (hlt : ∀ e ∈ ns, e.2 < g.nodes.size)
    (htexts : ∀ e ∈ keyed, ∃ text, e.2.1 = .text text)
    (hdistinct : (keyed.map (·.2.1) ++ ns.map (g.keyOf ·.1)).Nodup) (hb : Underway g b i) :
    ∃ b', b.meetEntries keyed ns =
        .ok (keyed ++ ns.map (fun e => (e.1, g.keyOf e.1, e.2)), b') ∧
      Underway g b' i ∧ Keeps b b' ∧ ∀ e ∈ ns, (b'.built? e.2).isSome = true := by
  induction ns generalizing b keyed with
  | nil =>
    refine ⟨b, ?_, hb, .refl b, fun e he => absurd he List.not_mem_nil⟩
    rw [meetEntries, List.map_nil, List.append_nil]
  | cons e ns ih =>
    obtain ⟨⟨key, hkey⟩, hkeys⟩ := List.forall_mem_cons.1 hkeys
    obtain ⟨he, hlt⟩ := List.forall_mem_cons.1 hlt
    have hkeyOf := hkey.keyOf_eq
    obtain ⟨text, rfl, hnode⟩ := hkey
    rw [List.map_cons, hkeyOf] at hdistinct
    have hready : g.Ready e.1 (.atom (.text text)) := .atom hnode rfl
    obtain ⟨b₁, hmeet₁, hb₁, hk₁, hsome₁⟩ := hb.exists_meet hready
    obtain ⟨y, hy⟩ := Option.isSome_iff_exists.1 hsome₁
    obtain rfl := hb₁.eq_atom hready hy
    obtain ⟨x, hx⟩ := hsound e.2 he
    obtain ⟨b₂, hmeet₂, hb₂, hk₂, hsome₂⟩ := hb₁.exists_meet hx
    -- the keys differ, so each one goes to the end
    have hinsert : insertKey b₁.graph e.1 (.text text) e.2 keyed =
        keyed ++ [(e.1, .text text, e.2)] := by
      refine insertKey_of_new fun e' he' => ?_
      obtain ⟨text', htext'⟩ := htexts e' he'
      rw [htext']
      refine sameKey_of_ne fun heq => (List.nodup_append.1 hdistinct).2.2 _ ?_ _ ?_ heq
      · exact List.mem_map.2 ⟨e', he', htext'⟩
      · exact List.mem_cons_self
    have htexts' : ∀ e' ∈ keyed ++ [(e.1, .text text, e.2)], ∃ text, e'.2.1 = .text text :=
      List.forall_mem_append.2 ⟨htexts, List.forall_mem_singleton.2 ⟨text, rfl⟩⟩
    obtain ⟨b', hentries, hb', hk', hrest⟩ := ih hkeys hlt htexts' (by simpa using hdistinct) hb₂
    refine ⟨b', ?_, hb', hk₁.trans (hk₂.trans hk'),
      List.forall_mem_cons.2 ⟨hk'.isSome hsome₂, hrest⟩⟩
    rw [meetEntries, hmeet₁]
    simp only [bind, Except.bind, hy, hmeet₂, hinsert, hentries]
    rw [List.map_cons, hkeyOf, List.append_assoc, List.singleton_append]

/-- A collection whose turn it is becomes what it stands for. -/
theorem Underway.exists_fill (hb : Underway g b i) (hn : b.agenda[i]? = some n) :
    ∃ b', b.fill n = .ok b' ∧ Underway g b' (i + 1) ∧
      ∀ c, (b.built? c).isSome = true → (b'.built? c).isSome = true := by
  obtain ⟨-, x, hx, hcollection⟩ := hb.agenda n (Array.mem_of_getElem? hn)
  have hready := hx
  unfold Builder.fill
  rw [hb.graph]
  -- what is on the agenda is a collection: its parts are met, and then it is put in place
  cases hx with
  | atom => cases hcollection
  | @list ns hnode hlt =>
    have hkind : g.kind n = .sequence := by rw [kind, hnode]; rfl
    have hcontent : g.content n = .sequence ns := by rw [content, hnode]; rfl
    obtain ⟨b₁, hmeet, hb₁, hk, hparts⟩ := hb.exists_meetAll hsound hlt
    refine ⟨b₁.put n (.list ns), ?_, hb₁.put_ready (hk.agenda hn) hready hparts,
      fun c hc => isSome_put (hk.isSome hc) n _⟩
    rw [hkind, hcontent]
    simp only [hmeet]
    rfl
  | @object ns hnode hkeys hdistinct hlt =>
    have hkind : g.kind n = .mapping := by rw [kind, hnode]; rfl
    have hcontent : g.content n = .mapping ns := by rw [content, hnode]; rfl
    have hentries : g.entries n = ns := by rw [entries, hcontent]
    have hgraph : { b with graph := g } = b := by rw [← hb.graph]
    obtain ⟨b₁, hmeet, hb₁, hk, hvalues⟩ := hb.exists_meetEntries hsound hkeys hlt
      (fun e he => absurd he List.not_mem_nil) hdistinct
    have hparts : ∀ c ∈ (Built.object (ns.map fun e => (g.keyOf e.1, e.2))).parts,
        (b₁.built? c).isSome = true := by
      intro c hc
      rw [Built.parts, List.map_map] at hc
      obtain ⟨e, he, rfl⟩ := List.mem_map.1 hc
      exact hvalues e he
    refine ⟨_, ?_, hb₁.put_ready (hk.agenda hn) hready hparts,
      fun c hc => isSome_put (hk.isSome hc) n _⟩
    rw [hkind, hcontent]
    simp only [mergeKeys_eq_self hentries hkeys, bind, Except.bind, hgraph, hentries, hmeet]
    simp only [List.nil_append, List.map_map, Function.comp_def]
    rfl

/-- All collections of the graph of a document are settled in their turn. -/
theorem Underway.exists_run {fuel : Nat} (hb : Underway g b i)
    (hfuel : g.nodes.size < fuel + i) :
    ∃ b', run fuel i b = .ok b' ∧ Underway g b' b'.agenda.size ∧
      ∀ c, (b.built? c).isSome = true → (b'.built? c).isSome = true := by
  induction fuel generalizing b i with
  | zero =>
    -- there are no more collections than nodes
    have hbound := hb.bound
    have hsize := hb.size_agenda_le
    omega
  | succ fuel ih =>
    rw [run]
    cases hn : b.agenda[i]? with
    | none =>
      have hend : i = b.agenda.size :=
        Nat.le_antisymm hb.bound (Array.getElem?_eq_none_iff.1 hn)
      exact ⟨b, rfl, hend ▸ hb, fun c hc => hc⟩
    | some n =>
      obtain ⟨b₁, hfill, hb₁, hsome₁⟩ := hb.exists_fill hsound hn
      obtain ⟨b', hrun, hb', hsome'⟩ := ih hb₁ (by omega)
      refine ⟨b', ?_, hb', fun c hc => hsome' c (hsome₁ c hc)⟩
      simp only [hfill]
      exact hrun

end Sound

/-! ## The value of the root -/

/-- When all collections are settled, all that is met is settled. -/
theorem Underway.settled (hb : Underway g b b.agenda.size) (hn : (b.built? n).isSome = true) :
    Settled g b n := by
  obtain ⟨x, hx⟩ := Option.isSome_iff_exists.1 hn
  rcases hb.met hx with hmem | ⟨hatom, hready⟩
  · obtain ⟨j, hj, hn⟩ := Array.mem_iff_getElem.1 hmem
    exact hb.done hj (hn ▸ Array.getElem?_eq_getElem hj)
  · refine ⟨x, hx, hready, fun c hc => ?_⟩
    cases x with
    | atom a => exact absurd hc List.not_mem_nil
    | _ => cases hatom

/-- At the start nothing is met and nothing has to be settled. -/
theorem underway_start (g : Graph) :
    Underway g { graph := g, built := Array.replicate g.nodes.size none } 0 := by
  refine ⟨rfl, Array.size_replicate, Nat.zero_le _, fun {n x} hx => ?_,
    fun n hn => absurd hn (Array.not_mem_empty n), List.nodup_nil,
    fun hj => absurd hj (Nat.not_lt_zero _)⟩
  rw [built?, Array.getElem?_replicate] at hx
  split at hx <;> cases hx

/-- The value of a node has the outline of the document that the node holds. -/
theorem outline_value {v : Value} (hv : g.Holds n v)
    (hall : ∀ {n}, (b.built? n).isSome = true → Settled g b n) {fuel : Nat} {inside : List Nat}
    (hn : (b.built? n).isSome = true) (hinside : ∀ m ∈ inside, m < n)
    (hfuel : g.nodes.size < n + fuel) : (b.value fuel inside n).outline = v.outline := by
  -- parts have greater numbers, so that neither the bound nor the nodes around a part show
  have hopen : ∀ {n fuel inside}, (b.built? n).isSome = true → (∀ m ∈ inside, m < n) →
      n < g.nodes.size → g.nodes.size < n + fuel → ∃ fuel' x, fuel = fuel' + 1 ∧ g.Ready n x ∧
        (∀ c ∈ x.parts, (b.built? c).isSome = true) ∧
          b.value fuel inside n = x.value n (b.value fuel' (n :: inside)) := by
    intro n fuel inside hn hinside hlt hfuel
    obtain ⟨fuel, rfl⟩ : ∃ k, fuel = k + 1 := ⟨fuel - 1, by omega⟩
    obtain ⟨x, hx, hready, hparts⟩ := hall hn
    have hnew : n ∉ inside := fun hmem => Nat.lt_irrefl n (hinside n hmem)
    exact ⟨fuel, x, rfl, hready, hparts, by rw [value_of_some hx, if_neg hnew]⟩
  have hlt := hv.lt
  induction hv generalizing fuel inside with
  | atom hnode hc houtline =>
    obtain ⟨fuel, x, rfl, hready, -, hvalue⟩ := hopen hn hinside hlt hfuel
    obtain rfl := hready.eq_atom hnode hc
    rw [hvalue]
    exact houtline
  | list hnode hlength hless hitems ih =>
    obtain ⟨fuel, x, rfl, hready, hparts, hvalue⟩ := hopen hn hinside hlt hfuel
    obtain rfl := hready.eq_list hnode
    rw [hvalue, Built.value, Value.outline_list, Value.outline_list, List.map_map]
    congr 1
    refine map_eq_map_of_zip hlength fun p hp => ?_
    have hp' := hless p hp
    refine ih p hp (hparts p.1 (List.of_mem_zip hp).1) ?_ (by omega) (hitems p hp).lt
    exact List.forall_mem_cons.2 ⟨hp', fun m hm => Nat.lt_trans (hinside m hm) hp'⟩
  | object hnode hlength hkeys _ hless hvalues ih =>
    obtain ⟨fuel, x, rfl, hready, hparts, hvalue⟩ := hopen hn hinside hlt hfuel
    obtain rfl := hready.eq_object hnode
    rw [hvalue, Built.value, Value.outline_object, Value.outline_object, List.map_map,
      List.map_map]
    congr 1
    refine map_eq_map_of_zip hlength fun p hp => ?_
    have hp' := hless p hp
    have hpart := hparts p.1.2
      (List.mem_map.2 ⟨_, List.mem_map_of_mem (List.of_mem_zip hp).1, rfl⟩)
    refine Prod.ext (hkeys p hp).keyOf_eq (ih p hp hpart ?_ (by omega) (hvalues p hp).lt)
    exact List.forall_mem_cons.2 ⟨hp', fun m hm => Nat.lt_trans (hinside m hm) hp'⟩

end Builder

/-- The graph of a document has a value, with the outline of the document. -/
theorem Graph.exists_value {g : Graph} {root : Nat} {v : Value} (hv : g.Holds root v)
    (hall : ∀ n < g.nodes.size, ∃ w, g.Holds n w) :
    ∃ w, g.value root = .ok w ∧ w.outline = v.outline := by
  have hsound : ∀ n < g.nodes.size, ∃ x, g.Ready n x := by
    intro n hn
    obtain ⟨w, hw⟩ := hall n hn
    exact hw.exists_ready
  have hstart := Builder.underway_start g
  obtain ⟨x, hx⟩ := hv.exists_ready
  obtain ⟨b₁, hmeet, hb₁, -, hsome₁⟩ := hstart.exists_meet hx
  obtain ⟨b, hrun, hb, hsome⟩ := hb₁.exists_run hsound (Nat.lt_succ_self _)
  refine ⟨b.value (g.nodes.size + 1) [] root, ?_, ?_⟩
  · rw [Graph.value]
    simp only [hmeet, hrun, bind, Except.bind]
    rfl
  · exact Builder.outline_value hv hb.settled (hsome root hsome₁)
      (fun m hm => absurd hm List.not_mem_nil) (by omega)

/-! ## Reading what was written -/

/-- Whether a text can be read from a YAML text that it stands in as a string: its characters may
stand there, and none of its lines starts with the mark of a document. -/
def isReadableText (s : String) : Bool := isAllowedText s && isUnmarked s

/-- Whether a document that is written as JSON can be read as YAML: its texts can be read, and its
keys fit on one line that is not too long. -/
def isReadable (v : Value) : Bool :=
  v.allTexts (fun s => Scanner.fitsKey s && isReadableText s) isReadableText

/-- A document that was written as JSON is read as YAML with its outline if it is readable, and
cannot be read otherwise. -/
theorem read_write {v : Value} {t : List Char} (h : v.IsDocument) (ht : Json.write v = .ok t) :
    (isReadable v = true → ∃ w, read t = .ok w ∧ w.outline = v.outline) ∧
      (isReadable v = false → read t = .error .malformed) := by
  have hreadable : isReadable v =
      (hasFittingKeys v && v.allTexts isReadableText isReadableText) := by
    rw [hasFittingKeys, ← h.allTexts_and]
    rfl
  have hscan : scan t = if v.allTexts isReadableText isReadableText then .ok (tokensOf v)
      else .error .malformed := scan_write h ht
  rw [hreadable, read, hscan]
  cases v.allTexts isReadableText isReadableText with
  | false =>
    rw [Bool.and_false]
    exact ⟨fun hbad => (by cases hbad), fun _ => rfl⟩
  | true =>
    rw [Bool.and_true, if_pos rfl]
    simp only [bind, Except.bind, ofTokens_tokensOf h]
    cases hkeys : hasFittingKeys v with
    | false => exact ⟨fun hbad => (by cases hbad), fun _ => rfl⟩
    | true =>
      obtain ⟨hroot, hall⟩ := Graph.holds_ofTree h hkeys
      exact ⟨fun _ => Graph.exists_value hroot hall, fun hbad => (by cases hbad)⟩

end ApiDoc.Yaml
