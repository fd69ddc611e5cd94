import ApiDoc.Proofs.Document.Outline
import ApiDoc.Proofs.Yaml.Parsing

/-!
# Graphs of documents that were written as JSON

The tree of a document becomes a graph in which each node holds a part of the document, as far as
its outline goes: `Graph.holds_ofTree`. What a part of a tree adds to a graph is told for every
graph that has the new nodes in their places, so that nodes may be added behind them.
-/

namespace ApiDoc.Yaml

namespace Graph

variable {g h : Graph} {n k : Nat} {v : Value}

/-- A node that is the key of an entry. -/
def IsKey (g : Graph) (n : Nat) (key : Atom) : Prop :=
  ∃ text, key = .text text ∧ g.nodes[n]? = some ⟨.scalar .text, .scalar text⟩

/-- A node that holds a document. Parts have greater numbers than what they are parts of. -/
inductive Holds (g : Graph) : Nat → Value → Prop where
  | atom {n : Nat} {type : ScalarType} {text : String} {a c : Atom}
      (hn : g.nodes[n]? = some ⟨.scalar type, .scalar text⟩)
      (hc : atomOf (some (.node n)) type text = .ok c)
      (houtline : (Value.atom c).outline = (Value.atom a).outline) : Holds g n (.atom a)
  | list {n : Nat} {ns : List Nat} {m : Option Mark} {items : List Value}
      (hn : g.nodes[n]? = some ⟨.sequence, .sequence ns⟩) (hlength : ns.length = items.length)
      (hlt : ∀ p ∈ ns.zip items, n < p.1) (hitems : ∀ p ∈ ns.zip items, Holds g p.1 p.2) :
      Holds g n (.list m items)
  | object {n : Nat} {ns : List (Nat × Nat)} {m : Option Mark} {entries : List (Atom × Value)}
      (hn : g.nodes[n]? = some ⟨.mapping, .mapping ns⟩) (hlength : ns.length = entries.length)
      (hkeys : ∀ p ∈ ns.zip entries, g.IsKey p.1.1 p.2.1)
      (hdistinct : (entries.map Prod.fst).Nodup) (hlt : ∀ p ∈ ns.zip entries, n < p.1.2)
      (hvalues : ∀ p ∈ ns.zip entries, Holds g p.1.2 p.2.2) : Holds g n (.object m entries)

/-- A node that holds a document is one of the graph. -/
theorem Holds.lt (hv : g.Holds n v) : n < g.nodes.size := by
  have hn : g.nodes[n]? ≠ none := by cases hv <;> simp [*]
  by_contra hlt
  exact hn (Array.getElem?_eq_none (Nat.le_of_not_lt hlt))

/-- A node that is a key is one of the graph. -/
theorem IsKey.lt {key : Atom} (h : g.IsKey n key) : n < g.nodes.size := by
  obtain ⟨text, -, hn⟩ := h
  exact (Array.getElem?_eq_some_iff.1 hn).1

/-! ## From a tree -/

/-- A graph that has the nodes of another one from a number on. -/
def Sees (start : Nat) (g h : Graph) : Prop :=
  ∀ m, start ≤ m → m < g.nodes.size → h.nodes[m]? = g.nodes[m]?

/-- A graph with more nodes than another one: the old ones are what they were, and the new ones hold
documents, whatever comes behind them. -/
structure Adds (g g' : Graph) : Prop where
  size : g.nodes.size ≤ g'.nodes.size
  old : ∀ m < g.nodes.size, g'.nodes[m]? = g.nodes[m]?
  new : ∀ h, Sees g.nodes.size g' h → ∀ m, g.nodes.size ≤ m → m < g'.nodes.size →
    ∃ v, h.Holds m v

/-- The number of a new node of which something holds, and the graph with it. -/
structure Plants (P : Graph → Nat → Prop) (g : Graph) (r : Nat × Graph) : Prop where
  root : r.1 = g.nodes.size
  lt : g.nodes.size < r.2.nodes.size
  adds : Adds g r.2
  holds : ∀ h, Sees g.nodes.size r.2 h → P h r.1

variable {g₁ g₂ : Graph}

/-- A graph without new nodes. -/
theorem Adds.refl (g : Graph) : Adds g g :=
  ⟨Nat.le_refl _, fun _ _ => rfl, fun _ _ _ hle hlt => absurd hlt (Nat.not_lt.2 hle)⟩

/-- What has the nodes of the larger graph has those of the smaller one. -/
theorem Adds.sees (hadds : Adds g₁ g₂) {start : Nat} (hsees : Sees start g₂ h) :
    Sees start g₁ h := fun m hle hlt =>
  (hsees m hle (Nat.lt_of_lt_of_le hlt hadds.size)).trans (hadds.old m hlt)

/-- Nodes from a number on are nodes from a later one on. -/
theorem Sees.mono {start later : Nat} (hsees : Sees start g h) (hle : start ≤ later) :
    Sees later g h := fun m hm hlt => hsees m (Nat.le_trans hle hm) hlt

/-- A graph with new nodes, and with further ones. -/
theorem Adds.trans (h₁ : Adds g g₁) (h₂ : Adds g₁ g₂) : Adds g g₂ := by
  refine ⟨Nat.le_trans h₁.size h₂.size, fun m hm => ?_, fun h hsees m hle hlt => ?_⟩
  · rw [h₂.old m (Nat.lt_of_lt_of_le hm h₁.size), h₁.old m hm]
  · rcases Nat.lt_or_ge m g₁.nodes.size with hm | hm
    · exact h₁.new h (h₂.sees hsees) m hle hm
    · exact h₂.new h (hsees.mono h₁.size) m hm hlt

/-- One new node is planted if it holds a document by itself. -/
theorem plants_add {P : Graph → Nat → Prop} (anchor : Option String) {node : Node}
    (hP : ∀ h : Graph, h.nodes[g.nodes.size]? = some node →
      P h g.nodes.size ∧ ∃ v, h.Holds g.nodes.size v) :
    Plants P g (g.add anchor node) := by
  have hsize : (g.add anchor node).2.nodes.size = g.nodes.size + 1 := Array.size_push _
  have hroot : ∀ {h}, Sees g.nodes.size (g.add anchor node).2 h →
      h.nodes[g.nodes.size]? = some node := fun hsees =>
    (hsees _ (Nat.le_refl _) (by omega)).trans Array.getElem?_push_size
  refine ⟨rfl, by omega, ⟨by omega, fun m hm => ?_, fun h hsees m hle hlt => ?_⟩,
    fun h hsees => (hP h (hroot hsees)).1⟩
  · exact (Array.getElem?_push_lt hm).trans (Array.getElem?_eq_getElem hm).symm
  · obtain rfl : m = g.nodes.size := by omega
    exact (hP h (hroot hsees)).2

/-- New content of one node leaves all others. -/
theorem nodes_setContent (g : Graph) (n : Nat) (content : Content) (m : Nat) :
    (g.setContent n content).nodes[m]? =
      if n = m then g.nodes[m]?.map (fun node => ⟨node.kind, content⟩) else g.nodes[m]? :=
  Array.getElem?_modify

/-- A node that gets its content when its parts are there. -/
theorem plants_setContent {P : Graph → Nat → Prop} {kind : Kind} {empty content : Content}
    (hadds : Adds (g.add none ⟨kind, empty⟩).2 g₂)
    (hP : ∀ h : Graph, h.nodes[g.nodes.size]? = some ⟨kind, content⟩ →
      Sees (g.nodes.size + 1) g₂ h → P h g.nodes.size ∧ ∃ v, h.Holds g.nodes.size v) :
    Plants P g (g.nodes.size, g₂.setContent g.nodes.size content) := by
  have hsize : (g.add none ⟨kind, empty⟩).2.nodes.size = g.nodes.size + 1 := Array.size_push _
  have hle := hadds.size
  have hold := hadds.old
  have hnew := hadds.new
  rw [hsize] at hle hold hnew
  have hsize' : (g₂.setContent g.nodes.size content).nodes.size = g₂.nodes.size :=
    Array.size_modify
  have hseen : ∀ {h}, Sees g.nodes.size (g₂.setContent g.nodes.size content) h →
      h.nodes[g.nodes.size]? = some ⟨kind, content⟩ ∧ Sees (g.nodes.size + 1) g₂ h := by
    intro h hsees
    -- the node itself has its new content, and all behind it is as the parts left it
    refine ⟨?_, fun m hm hlt => ?_⟩
    · have hroot : g₂.nodes[g.nodes.size]? = some ⟨kind, empty⟩ :=
        (hold _ (Nat.lt_succ_self _)).trans Array.getElem?_push_size
      rw [hsees _ (Nat.le_refl _) (by omega), nodes_setContent, if_pos rfl, hroot]
      rfl
    · rw [hsees m (by omega) (by omega), nodes_setContent, if_neg (by omega)]
  have hlt : g.nodes.size < (g₂.setContent g.nodes.size content).nodes.size := by omega
  refine ⟨rfl, hlt, ⟨Nat.le_of_lt hlt, fun m hm => ?_, fun h hsees m hm hlt => ?_⟩,
    fun h hsees => ?_⟩
  · rw [nodes_setContent, if_neg (by omega), hold m (by omega)]
    exact (Array.getElem?_push_lt hm).trans (Array.getElem?_eq_getElem hm).symm
  · obtain ⟨hroot, hrest⟩ := hseen hsees
    rcases Nat.eq_or_lt_of_le hm with rfl | hm
    · exact (hP h hroot hrest).2
    · exact hnew h hrest m hm (hsize' ▸ hlt)
  · obtain ⟨hroot, hrest⟩ := hseen hsees
    exact (hP h hroot hrest).1

theorem addTrees_cons (g : Graph) (t : Tree) (ts : List Tree) :
    g.addTrees (t :: ts) = ((g.addTree t).1 :: ((g.addTree t).2.addTrees ts).1,
      ((g.addTree t).2.addTrees ts).2) := rfl

theorem addPairs_cons (g : Graph) (key value : Tree) (rest : List (Tree × Tree))
    {r₁ r₂ : Nat × Graph} (h₁ : g.addTree key = r₁) (h₂ : r₁.2.addTree value = r₂) :
    g.addPairs ((key, value) :: rest) =
      ((r₁.1, r₂.1) :: (r₂.2.addPairs rest).1, (r₂.2.addPairs rest).2) := by
  subst h₁ h₂
  rfl

/-- The trees of items add nodes that hold the items. -/
theorem addTrees_holds {items : List Value}
    (hitems : ∀ v ∈ items, ∀ g, Plants (fun h n => h.Holds n v) g (g.addTree (treeOf v)))
    (g : Graph) {r : List Nat × Graph} (hr : g.addTrees (items.map treeOf) = r) :
    Adds g r.2 ∧ r.1.length = items.length ∧ ∀ p ∈ r.1.zip items, g.nodes.size ≤ p.1 ∧
      ∀ h, Sees g.nodes.size r.2 h → h.Holds p.1 p.2 := by
  induction items generalizing g r with
  | nil =>
    rw [← hr]
    exact ⟨.refl g, rfl, fun p hp => absurd hp List.not_mem_nil⟩
  | cons v items ih =>
    obtain ⟨hv, hitems⟩ := List.forall_mem_cons.1 hitems
    have hfirst := hv g
    obtain ⟨hadds, hlength, hrest⟩ := ih hitems (g.addTree (treeOf v)).2 rfl
    rw [← hr, List.map_cons, addTrees_cons]
    refine ⟨hfirst.adds.trans hadds, congrArg (· + 1) hlength, ?_⟩
    refine List.forall_mem_cons.2 ⟨⟨Nat.le_of_eq hfirst.root.symm, fun h hsees => ?_⟩, ?_⟩
    · exact hfirst.holds h (hadds.sees hsees)
    · intro p hp
      obtain ⟨hle, hholds⟩ := hrest p hp
      have hsize := hfirst.adds.size
      exact ⟨Nat.le_trans hsize hle, fun h hsees => hholds h (hsees.mono hsize)⟩

/-- The trees of entries add nodes for their keys and nodes that hold their values. -/
theorem addPairs_holds {entries : List (Atom × Value)}
    (hkeys : ∀ e ∈ entries, ∀ g, Plants (fun h n => h.IsKey n e.1) g (g.addTree (keyTree e.1)))
    (hvalues : ∀ e ∈ entries, ∀ g, Plants (fun h n => h.Holds n e.2) g (g.addTree (treeOf e.2)))
    (g : Graph) {r : List (Nat × Nat) × Graph}
    (hr : g.addPairs (entries.map fun e => (keyTree e.1, treeOf e.2)) = r) :
    Adds g r.2 ∧ r.1.length = entries.length ∧ ∀ p ∈ r.1.zip entries, g.nodes.size ≤ p.1.2 ∧
      ∀ h, Sees g.nodes.size r.2 h → h.IsKey p.1.1 p.2.1 ∧ h.Holds p.1.2 p.2.2 := by
  induction entries generalizing g r with
  | nil =>
    rw [← hr]
    exact ⟨.refl g, rfl, fun p hp => absurd hp List.not_mem_nil⟩
  | cons e entries ih =>
    obtain ⟨hkey, hkeys⟩ := List.forall_mem_cons.1 hkeys
    obtain ⟨hvalue, hvalues⟩ := List.forall_mem_cons.1 hvalues
    have hk := hkey g
    -- the key is planted first, then its value, then the entries behind them
    generalize hg₁ : g.addTree (keyTree e.1) = r₁ at hk
    have hv := hvalue r₁.2
    generalize hg₂ : r₁.2.addTree (treeOf e.2) = r₂ at hv
    obtain ⟨hadds, hlength, hrest⟩ := ih hkeys hvalues r₂.2 rfl
    have hk₁ := hk.adds.size
    have hk₂ := hv.adds.size
    rw [← hr, List.map_cons, addPairs_cons _ _ _ _ hg₁ hg₂]
    refine ⟨hk.adds.trans (hv.adds.trans hadds), congrArg (· + 1) hlength, ?_⟩
    refine List.forall_mem_cons.2 ⟨⟨?_, fun h hsees => ⟨?_, ?_⟩⟩, ?_⟩
    · rw [hv.root]
      exact hk₁
    · exact hk.holds h (hv.adds.sees (hadds.sees hsees))
    · exact hv.holds h ((hadds.sees hsees).mono hk₁)
    · intro p hp
      obtain ⟨hle, hholds⟩ := hrest p hp
      exact ⟨by omega, fun h hsees => hholds h (hsees.mono (Nat.le_trans hk₁ hk₂))⟩

/-- A quoted scalar adds a node that is a text. -/
theorem addTree_quoted (g : Graph) (text : String) :
    g.addTree (.scalar {} text false) = g.add none ⟨.scalar .text, .scalar text⟩ := rfl

/-- A plain scalar adds a node of the type that its text has. -/
theorem addTree_word (g : Graph) (text : String) :
    g.addTree (.scalar {} text true) = g.add none ⟨.scalar (typeOf text), .scalar text⟩ := rfl

/-- A sequence adds its own node first, and then those of its items. -/
theorem addTree_sequence (g : Graph) (ts : List Tree) {r : List Nat × Graph}
    (hr : (g.add none ⟨.sequence, .sequence []⟩).2.addTrees ts = r) :
    g.addTree (.sequence {} ts) =
      (g.nodes.size, r.2.setContent g.nodes.size (.sequence r.1)) := by
  subst hr
  rfl

/-- A mapping adds its own node first, and then those of its entries. -/
theorem addTree_mapping (g : Graph) (ts : List (Tree × Tree)) {r : List (Nat × Nat) × Graph}
    (hr : (g.add none ⟨.mapping, .mapping []⟩).2.addPairs ts = r) :
    g.addTree (.mapping {} ts) =
      (g.nodes.size, r.2.setContent g.nodes.size (.mapping r.1)) := by
  subst hr
  rfl

/-- A text in quotation marks is held by its node. -/
theorem holds_quoted {text : String} (hn : g.nodes[n]? = some ⟨.scalar .text, .scalar text⟩)
    (s : String) : g.Holds n (.text s) := .atom hn rfl rfl

/-- A key that fits is planted as one. -/
theorem plants_key {key : String} (hkey : Scanner.fitsKey key = true) (g : Graph) :
    Plants (fun h n => h.IsKey n (.text key)) g (g.addTree (keyTree (.text key))) := by
  rw [Scanner.fitsKey, Bool.and_eq_true] at hkey
  have hcontent : String.ofList (quotedContent key) = key := by
    rw [quotedContent_of_all hkey.2, String.ofList_toList]
  rw [keyTree, hcontent, addTree_quoted]
  exact plants_add none fun h hn => ⟨⟨key, rfl, hn⟩, _, holds_quoted hn key⟩

/-- The tree of a document whose keys are known as keys adds a node that holds the document. -/
theorem plants_treeOf (hv : v.IsDocument) (hkeys : hasFittingKeys v = true) (g : Graph) :
    Plants (fun h n => h.Holds n v) g (g.addTree (treeOf v)) := by
  induction hv generalizing g with
  | bare ha ht =>
    rw [treeOf_of_isBare ha, wordOf_of_atomText ht, addTree_word]
    obtain ⟨c, hc, hflag⟩ := exists_atomOf_atomText ha ht (some (.node g.nodes.size))
    have hholds : ∀ h : Graph, h.nodes[g.nodes.size]? = some _ → h.Holds g.nodes.size _ :=
      fun h hn => .atom hn hc (Value.outline_atom_congr hflag)
    exact plants_add none fun h hn => ⟨hholds h hn, _, hholds h hn⟩
  | text s => exact plants_add none fun h hn => ⟨holds_quoted hn s, _, holds_quoted hn s⟩
  | @list m items _ ih =>
    rw [hasFittingKeys_list, List.all_eq_true] at hkeys
    -- the node of the list comes first, so the items have greater numbers
    have hsize : (g.add none ⟨.sequence, .sequence []⟩).2.nodes.size = g.nodes.size + 1 :=
      Array.size_push _
    obtain ⟨hadds, hlength, hitems⟩ := addTrees_holds (fun v hv => ih v hv (hkeys v hv)) _ rfl
    rw [hsize] at hitems
    rw [treeOf_list, addTree_sequence g _ rfl]
    refine plants_setContent hadds fun h hn hsees => ?_
    have hholds : h.Holds g.nodes.size (.list m items) :=
      .list hn hlength (fun p hp => (hitems p hp).1) fun p hp => (hitems p hp).2 h hsees
    exact ⟨hholds, _, hholds⟩
  | @object m entries htexts hdistinct _ ih =>
    rw [hasFittingKeys_object, List.all_eq_true] at hkeys
    have hsize : (g.add none ⟨.mapping, .mapping []⟩).2.nodes.size = g.nodes.size + 1 :=
      Array.size_push _
    have hplants : ∀ e ∈ entries, ∀ g, Plants (fun h n => h.IsKey n e.1) g
        (g.addTree (keyTree e.1)) := by
      intro e he
      obtain ⟨key, hkey⟩ := htexts e he
      have hfits := (Bool.and_eq_true_iff.1 (hkeys e he)).1
      rw [hkey] at hfits ⊢
      exact plants_key hfits
    obtain ⟨hadds, hlength, hentries⟩ := addPairs_holds hplants
      (fun e he => ih e he (Bool.and_eq_true_iff.1 (hkeys e he)).2) _ rfl
    rw [hsize] at hentries
    rw [treeOf_object, addTree_mapping g _ rfl]
    refine plants_setContent hadds fun h hn hsees => ?_
    have hholds : h.Holds g.nodes.size (.object m entries) :=
      .object hn hlength (fun p hp => ((hentries p hp).2 h hsees).1) hdistinct
        (fun p hp => (hentries p hp).1) fun p hp => ((hentries p hp).2 h hsees).2
    exact ⟨hholds, _, hholds⟩

/-- The graph of a document: its root holds the document, and every node holds some document. -/
theorem holds_ofTree (hv : v.IsDocument) (hkeys : hasFittingKeys v = true) :
    (ofTree (treeOf v)).2.Holds (ofTree (treeOf v)).1 v ∧
      ∀ n < (ofTree (treeOf v)).2.nodes.size, ∃ w, (ofTree (treeOf v)).2.Holds n w := by
  have hplants := plants_treeOf hv hkeys {}
  have hsees := fun m (_ : 0 ≤ m) (_ : m < (ofTree (treeOf v)).2.nodes.size) =>
    (rfl : (ofTree (treeOf v)).2.nodes[m]? = _)
  exact ⟨hplants.holds _ hsees, fun n hn => hplants.adds.new _ hsees n (Nat.zero_le n) hn⟩

end Graph

end ApiDoc.Yaml
