import ApiDoc.Proofs.Document.Commutation
import ApiDoc.Proofs.Document.Seed

/-!
# Blocks with several routes

A block with several routes says the same as blocks with one route each that repeat the tags which
are read once for the whole block: merging its fragment gives the document that merging their
fragments one after another gives (`add_singles`), also if several routes are for the same method of
the same path.
-/

namespace ApiDoc

open Value

namespace Document

/-! ## Fragments of operations -/

variable {entries : List (Atom × Value)}

/-- A document that is open takes paths without a fault and stays open. -/
theorem Open.mergePaths (h : Open entries)
    {new : Assoc String (Assoc String (List (Atom × Value)))} (hnew : NewPaths new) :
    faultInto "paths" .paths (Fragment.valueOfPaths new) entries = none ∧
      Open (Document.mergeInto "paths" .paths (Fragment.valueOfPaths new) entries) := by
  obtain ⟨p, hget, hobject, hobjects⟩ := h.shaped.paths
  exact h.mergeInto .paths hget hnew.valueOfPaths
    (mergePaths_object hobject hobjects rfl (Fragment.holdsObjects_valueOfPaths new))

/-- A document that is open takes groups without a fault and stays open. -/
theorem Open.mergeGroups (h : Open entries) (groups : List Group) :
    faultInto "tags" .groups (Fragment.groupsValue groups) entries = none ∧
      Open (Document.mergeInto "tags" .groups (Fragment.groupsValue groups) entries) := by
  obtain ⟨t, hget, hlist, hobjects⟩ := h.shaped.tags
  exact h.mergeInto .groups hget (Fragment.groupsValue_marked groups)
    (mergeGroups_list hlist hobjects rfl (Fragment.holdsObjects_groupsValue groups))

/-- Merging no definitions leaves a document as it is. -/
theorem Open.mergeNoDefinitions (h : Open entries) :
    faultInto "definitions" .map (.map []) entries = none ∧
      Document.mergeInto "definitions" .map (.map []) entries = entries := by
  obtain ⟨heap, hsound⟩ := h.sound
  obtain ⟨d, hget, hobject⟩ := h.shaped.definitions
  obtain ⟨m, es, rfl⟩ := isObject_iff.1 hobject
  refine ⟨?_, hsound.mergeInto_eq_self hget rfl⟩
  rw [faultInto, sectionOf_eq hget]
  rfl

/-- A document with paths and groups of a fragment. -/
def withOperations (paths : Assoc String (Assoc String (List (Atom × Value))))
    (groups : List Group) (entries : List (Atom × Value)) : List (Atom × Value) :=
  mergeInto "tags" .groups (Fragment.groupsValue groups)
    (mergeInto "paths" .paths (Fragment.valueOfPaths paths) entries)

/-- A document that is open stays so with paths and groups. -/
theorem Open.withOperations (h : Open entries)
    {paths : Assoc String (Assoc String (List (Atom × Value)))} (hpaths : NewPaths paths)
    (groups : List Group) : Open (withOperations paths groups entries) :=
  ((h.mergePaths hpaths).2.mergeGroups groups).2

/-- Fragments of operations are merged one after another without a fault. -/
theorem Open.addFragments (h : Open entries) (m : Option Mark) (fragments : List Fragment)
    (hfragments : ∀ f ∈ fragments, NewPaths f.paths ∧ f.definitions = []) :
    addFragments (.object m entries) (fragments.map Fragment.toValue) =
      ⟨.object m (fragments.foldl
        (fun es f => Document.withOperations f.paths f.groups es) entries), none⟩ := by
  induction fragments generalizing entries with
  | nil => rfl
  | cons f fragments ih =>
    obtain ⟨⟨hpaths, hdefinitions⟩, hrest⟩ := List.forall_mem_cons.1 hfragments
    obtain ⟨hpfault, hpopen⟩ := h.mergePaths hpaths
    obtain ⟨htfault, htopen⟩ := hpopen.mergeGroups f.groups
    obtain ⟨hdfault, hdsame⟩ := htopen.mergeNoDefinitions
    have hparts : Document.mergeParts (Fragment.valueOfPaths f.paths)
        (Fragment.groupsValue f.groups) (.map []) entries =
          (Document.withOperations f.paths f.groups entries, none) := by
      simp only [Document.mergeParts, hpfault, htfault, hdfault, hdsame]
      rfl
    rw [List.map_cons, Fragment.toValue_of_definitions_eq_nil hdefinitions, fragmentOf,
      Document.addFragments, addProperties_fragment, hparts, List.foldl_cons]
    exact ih (h.withOperations hpaths f.groups) hrest

/-! ## One operation more -/

/-- Merging the paths of a fragment, then an operation, is merging the paths with the operation. -/
theorem mergeInto_paths_addOperation (h : Open entries)
    {new : Assoc String (Assoc String (List (Atom × Value)))} (hnew : NewPaths new)
    (op : Operation) :
    mergeInto "paths" .paths (Fragment.valueOfPaths (Fragment.addOperation [] op))
        (mergeInto "paths" .paths (Fragment.valueOfPaths new) entries) =
      mergeInto "paths" .paths (Fragment.valueOfPaths (Fragment.addOperation new op)) entries := by
  obtain ⟨p, hget, hobject, hobjects⟩ := h.shaped.paths
  obtain ⟨m, paths, rfl⟩ := isObject_iff.1 hobject
  rw [holdsObjects_object] at hobjects
  have hobjects' : ∀ e ∈ joinPaths paths new, e.2.isObject = true :=
    Assoc.forall_mem_mergeWith (p := fun v : Value => v.isObject = true) hobjects
      fun _ _ _ _ => rfl
  have hdistinct : Assoc.Every (Assoc.Every Assoc.Distinct) new :=
    ⟨hnew.distinct, fun e he => ⟨(hnew.values e he).distinct,
      fun e' he' => ((hnew.values e he).values e' he').1⟩⟩
  rw [mergeInto_eq hget, mergeSection_paths m hobjects,
    mergeInto_eq (get?_putSection_self (.object m _ _) "paths"), mergeSection_paths m hobjects',
    putSection_putSection (.object m _ _) (.object m _ _), mergeInto_eq hget,
    mergeSection_paths m hobjects, joinPaths_addOperation hdistinct]

/-- Merging groups, then further ones, is merging all of them. -/
theorem mergeInto_groups_append (h : Open entries) (groups groups' : List Group) :
    mergeInto "tags" .groups (Fragment.groupsValue groups')
        (mergeInto "tags" .groups (Fragment.groupsValue groups) entries) =
      mergeInto "tags" .groups (Fragment.groupsValue (groups ++ groups')) entries := by
  obtain ⟨t, hget, hlist, hobjects⟩ := h.shaped.tags
  obtain ⟨m, items, rfl⟩ := isList_iff.1 hlist
  have hitems : ∀ item ∈ items, item.isObject = true := holdsObjects_iff.1 hobjects
  have hitems' : ∀ item ∈ (groups.map Fragment.groupValue).foldl addGroup items,
      item.isObject = true :=
    isObject_foldl_addGroup hitems (List.forall_mem_map.2 fun _ _ => rfl)
  rw [mergeInto_eq hget, mergeSection_groups m hitems,
    mergeInto_eq (get?_putSection_self (.list m _ _) "tags"), mergeSection_groups m hitems',
    putSection_putSection (.list m _ _) (.list m _ _), mergeInto_eq hget,
    mergeSection_groups m hitems, List.map_append, List.foldl_append]

/-- A fragment with an operation more is merged like the fragment, then the operation. -/
theorem withOperations_addOperation (h : Open entries)
    {paths : Assoc String (Assoc String (List (Atom × Value)))} (hpaths : NewPaths paths)
    (groups : List Group) {op : Operation} (hop : op.IsMarked fun mark _ => ∀ i, mark ≠ .node i)
    (g : Group) :
    withOperations (Fragment.addOperation [] op) [g] (withOperations paths groups entries) =
      withOperations (Fragment.addOperation paths op) (groups ++ [g]) entries := by
  have hone : NewPaths (Fragment.addOperation [] op) :=
    Fragment.PathsMarked.addOperation Assoc.every_nil hop
  obtain ⟨-, hopen⟩ := h.mergePaths hpaths
  obtain ⟨-, hopen'⟩ := h.mergePaths (hpaths.addOperation hop)
  -- the operation passes the groups that were merged before it
  unfold withOperations
  rw [← mergeInto_comm hopen hone groups, mergeInto_paths_addOperation h hpaths op,
    mergeInto_groups_append hopen' groups [g]]

/-- Merging operations one after another is merging the fragment that a block makes of them. -/
theorem foldl_withOperations (h : Open entries) {ops : List Operation}
    (hops : ∀ op ∈ ops, op.IsMarked fun mark _ => ∀ i, mark ≠ .node i) (g : Group)
    {paths : Assoc String (Assoc String (List (Atom × Value)))} (hpaths : NewPaths paths)
    (groups : List Group) :
    ops.foldl (fun es op => withOperations (Fragment.addOperation [] op) [g] es)
        (withOperations paths groups entries) =
      withOperations (ops.foldl Fragment.addOperation paths) (groups ++ ops.map fun _ => g)
        entries := by
  induction ops generalizing paths groups with
  | nil => rw [List.foldl_nil, List.foldl_nil, List.map_nil, List.append_nil]
  | cons op ops ih =>
    obtain ⟨hop, hrest⟩ := List.forall_mem_cons.1 hops
    rw [List.foldl_cons, withOperations_addOperation h hpaths groups hop g,
      ih hrest (hpaths.addOperation hop), List.foldl_cons, List.map_cons, List.append_assoc,
      List.singleton_append]

/-- Merging nothing leaves a document as it is. -/
theorem Open.withOperations_nil (h : Open entries) :
    Document.withOperations [] [] entries = entries := by
  obtain ⟨heap, hsound⟩ := h.sound
  obtain ⟨p, hpget, hobject, -⟩ := h.shaped.paths
  obtain ⟨t, htget, hlist, -⟩ := h.shaped.tags
  obtain ⟨m, paths, rfl⟩ := isObject_iff.1 hobject
  obtain ⟨m', items, rfl⟩ := isList_iff.1 hlist
  have hpaths : Document.mergeInto "paths" .paths (Fragment.valueOfPaths []) entries = entries :=
    hsound.mergeInto_eq_self hpget rfl
  rw [Document.withOperations, hpaths]
  exact hsound.mergeInto_eq_self htget rfl

end Document

/-! ## Blocks with one route each -/

namespace Fragment

/-- Whether a tag is read once for the whole block. -/
def isShared (tag : Tag) : Bool := tag.kind?.any (·.isBlockLevel)

/-- A block with one route, the tags that belong to it, and the tags of another block that are read
once for the whole block. -/
def single (b : Block) (route : Tag) (tags : List Tag) : Block :=
  { b with tags := route :: (tags.filter (!isShared ·) ++ b.tags.filter isShared) }

/-- The blocks with one route each that a block with several routes is short for. -/
def singles (b : Block) : List Block := (segments b.tags).2.map fun s => single b s.1 s.2

/-- The tags in front of the first route are no routes, and each route has behind it the tags up to
the next route. -/
theorem segments_routes (tags : List Tag) :
    (∀ tag ∈ (segments tags).1, tag.kind? ≠ some .route) ∧
      ∀ s ∈ (segments tags).2, s.1.kind? = some .route ∧ ∀ tag ∈ s.2, tag.kind? ≠ some .route := by
  induction tags with
  | nil => exact ⟨fun _ h => absurd h List.not_mem_nil, fun _ h => absurd h List.not_mem_nil⟩
  | cons tag tags ih =>
    rw [segments]
    simp only
    split
    · rename_i hroute
      refine ⟨fun _ h => absurd h List.not_mem_nil, List.forall_mem_cons.2 ⟨?_, ih.2⟩⟩
      exact ⟨beq_iff_eq.1 hroute, ih.1⟩
    · rename_i hroute
      refine ⟨List.forall_mem_cons.2 ⟨?_, ih.1⟩, ih.2⟩
      rwa [beq_iff_eq] at hroute

/-- Tags without a route are one segment. -/
theorem segments_of_no_route {tags : List Tag} (h : ∀ tag ∈ tags, tag.kind? ≠ some .route) :
    segments tags = (tags, []) := by
  induction tags with
  | nil => rfl
  | cons tag tags ih =>
    obtain ⟨htag, hrest⟩ := List.forall_mem_cons.1 h
    rw [segments, ih hrest]
    simp only [beq_iff_eq, htag, if_false]

/-- One route in front makes one segment of the tags behind it. -/
theorem segments_route {route : Tag} (hroute : route.kind? = some .route) {tags : List Tag}
    (h : ∀ tag ∈ tags, tag.kind? ≠ some .route) :
    segments (route :: tags) = ([], [(route, tags)]) := by
  rw [segments, segments_of_no_route h]
  simp only [beq_iff_eq, hroute, if_true]

/-- A tag that is read for the whole block is no route. -/
theorem kind?_ne_of_isShared {tag : Tag} (h : isShared tag = true) : tag.kind? ≠ some .route := by
  intro hroute
  simp [isShared, hroute, TagKind.isBlockLevel] at h

/-- Headers are read for the whole block. -/
theorem isShared_of_isHeader {tag : Tag} (h : tag.kind?.any (·.isHeader) = true) :
    isShared tag = true := by
  unfold isShared
  cases hkind : tag.kind? with
  | none => simp [hkind] at h
  | some kind => cases kind <;> simp_all [TagKind.isHeader, TagKind.isBlockLevel]

/-- A tag that is attached to an operation is not read for the whole block. -/
theorem not_isShared_of_isAttached {tag : Tag} (h : isAttached tag = true) :
    isShared tag = false := by
  unfold isAttached at h
  unfold isShared
  cases hkind : tag.kind? with
  | none => rfl
  | some kind => simp_all

/-- Groups are read for the whole block. -/
theorem isShared_of_group {tag : Tag} (h : (tag.kind? == some .group) = true) :
    isShared tag = true := by
  rw [isShared, beq_iff_eq.1 h]
  rfl

/-- The group is found among the tags that are read for the whole block. -/
theorem find?_group_filter (tags : List Tag) :
    (tags.filter isShared).find? (·.kind? == some .group) =
      tags.find? (·.kind? == some .group) := by
  rw [List.find?_filter]
  congr 1
  funext tag
  cases hkind : (tag.kind? == some .group) with
  | true => simp [isShared_of_group hkind]
  | false => simp

/-- The group of a block is that of its shared tags. -/
theorem ofTags_filter_isShared {front : List Tag} (hfront : ∀ tag ∈ front, isShared tag = false)
    (tags : List Tag) : Group.ofTags (front ++ tags.filter isShared) = Group.ofTags tags := by
  have hnone : front.find? (·.kind? == some .group) = none := by
    refine List.find?_eq_none.2 fun tag htag hkind => ?_
    exact Bool.false_ne_true ((hfront tag htag).symm.trans (isShared_of_group hkind))
  rw [Group.ofTags, List.find?_append, hnone, Option.none_or, find?_group_filter, Group.ofTags]

/-- A tag that is not read for the whole block adds no header. -/
theorem addTags_of_not_isShared {tag : Tag} (h : isShared tag = false) (table : HeaderTable)
    (tags : List Tag) : table.addTags (tag :: tags) = table.addTags tags := by
  have hheader : ¬tag.kind?.any (·.isHeader) = true := fun hheader =>
    Bool.false_ne_true (h.symm.trans (isShared_of_isHeader hheader))
  rw [HeaderTable.addTags, if_neg hheader]

/-- The headers of a block are those of its shared tags. -/
theorem addTags_filter_isShared {front : List Tag} (hfront : ∀ tag ∈ front, isShared tag = false)
    (tags : List Tag) (table : HeaderTable) :
    table.addTags (front ++ tags.filter isShared) = table.addTags tags := by
  induction front with
  | cons tag front ih =>
    obtain ⟨htag, hrest⟩ := List.forall_mem_cons.1 hfront
    rw [List.cons_append, addTags_of_not_isShared htag, ih hrest]
  | nil =>
    rw [List.nil_append]
    induction tags generalizing table with
    | nil => rfl
    | cons tag tags ih =>
      cases htag : isShared tag with
      | false => rw [List.filter_cons_of_neg (by simp [htag]), addTags_of_not_isShared htag, ih]
      | true =>
        rw [List.filter_cons_of_pos htag, HeaderTable.addTags, HeaderTable.addTags]
        split
        · split
          · exact ih _
          · rfl
        · exact ih _

/-- The shared tags are none that belong to the operation in front of them. -/
theorem filter_isAttached (tags shared : List Tag) :
    (tags.filter (!isShared ·) ++ shared.filter isShared).filter isAttached =
      tags.filter isAttached := by
  have hshared : (shared.filter isShared).filter isAttached = [] := by
    refine List.filter_eq_nil_iff.2 fun tag htag hattached => ?_
    exact Bool.false_ne_true
      ((not_isShared_of_isAttached hattached).symm.trans (List.mem_filter.1 htag).2)
  rw [List.filter_append, hshared, List.append_nil, List.filter_filter]
  refine List.filter_congr fun tag _ => ?_
  cases hattached : isAttached tag with
  | false => rfl
  | true => rw [not_isShared_of_isAttached hattached]; rfl

/-- The block of one route gives the operation that its route has in the whole block. -/
theorem ofBlock_single (markOf : String → Option Mark) (b : Block) {s : Tag × List Tag}
    (hs : s ∈ (segments b.tags).2) :
    ofBlock markOf (single b s.1 s.2) =
      (operations (Group.ofTags b.tags).name (descriptionOf b)
        ((HeaderTable.ofTags b.tags).toEntries markOf) [s]).map fun ops =>
          { paths := ops.foldl addOperation []
            groups := ops.map fun _ => Group.ofTags b.tags } := by
  obtain ⟨route, tags⟩ := s
  obtain ⟨hroute, htags⟩ := (segments_routes b.tags).2 _ hs
  have hrest : ∀ tag ∈ tags.filter (!isShared ·) ++ b.tags.filter isShared,
      tag.kind? ≠ some .route := by
    refine List.forall_mem_append.2 ⟨?_, ?_⟩
    · exact fun tag htag => htags tag (List.mem_filter.1 htag).1
    · exact fun tag htag => kind?_ne_of_isShared (List.mem_filter.1 htag).2
  -- nothing in front of the shared tags is shared, so those are read as in the whole block
  have hfront : ∀ tag ∈ route :: tags.filter (!isShared ·), isShared tag = false := by
    refine List.forall_mem_cons.2 ⟨?_, fun tag htag => ?_⟩
    · rw [isShared, hroute]
      rfl
    · simpa using (List.mem_filter.1 htag).2
  have hgroup : Group.ofTags (single b route tags).tags = Group.ofTags b.tags :=
    ofTags_filter_isShared hfront b.tags
  have hheaders : HeaderTable.ofTags (single b route tags).tags = HeaderTable.ofTags b.tags :=
    addTags_filter_isShared hfront b.tags []
  have hsegments : (segments (single b route tags).tags).2 = [(route, _)] :=
    congrArg Prod.snd (segments_route hroute hrest)
  have hblock : ofBlock markOf (single b route tags) =
      ofOperations markOf (single b route tags) := by
    unfold ofBlock
    simp only [single, hroute]
    rfl
  rw [hblock, ofOperations, hgroup, hheaders, hsegments]
  simp only [operations, filter_isAttached]
  rfl

/-- The blocks of the routes give one fragment for each operation of the whole block. -/
theorem mapM_ofBlock_single (markOf : String → Option Mark) (b : Block)
    {routes : List (Tag × List Tag)} (hroutes : ∀ s ∈ routes, s ∈ (segments b.tags).2)
    {ops : List Operation}
    (hops : operations (Group.ofTags b.tags).name (descriptionOf b)
      ((HeaderTable.ofTags b.tags).toEntries markOf) routes = .ok ops) :
    (routes.map fun s => single b s.1 s.2).mapM (ofBlock markOf) =
      .ok (ops.map fun op =>
        { paths := addOperation [] op, groups := [Group.ofTags b.tags] }) := by
  induction routes generalizing ops with
  | nil =>
    cases hops
    rfl
  | cons s routes ih =>
    obtain ⟨hs, hrest⟩ := List.forall_mem_cons.1 hroutes
    obtain ⟨op, ops', rfl, hop, hops'⟩ := operations_cons hops
    have hone : operations (Group.ofTags b.tags).name (descriptionOf b)
        ((HeaderTable.ofTags b.tags).toEntries markOf) [s] = .ok [op] := by
      simp only [operations, hop, bind, Except.bind, pure, Except.pure]
    rw [List.map_cons, List.mapM_cons, ofBlock_single markOf b hs, hone, ih hrest hops']
    rfl

/-- A block with several routes is short for blocks with one route each: its fragment and theirs,
one after another, are merged without a fault and give the same document. -/
theorem add_singles {b : Block} (hfirst : ∀ head ∈ b.tags.head?, head.kind? ≠ some .typedef)
    {f : Fragment} (hf : ofBlock (fun _ => none) b = .ok f) {seed document : Value}
    (hread : seed.IsRead) (hdocument : Document.ofSeed seed = .ok document)
    (hshape : Document.HasShape document) :
    ∃ fs, (singles b).mapM (ofBlock fun _ => none) = .ok fs ∧
      (Document.add document (.array [f.toValue])).fault = none ∧
      Document.add document (.array [f.toValue]) =
        Document.add document (.array (fs.map toValue)) := by
  obtain ⟨m, old, entries, rfl, rfl⟩ := Document.eq_object_of_ofSeed hdocument
  have hopen : Document.Open entries :=
    Document.ofSeed_open hread (hshape.of_ofSeed hdocument) hdocument
  rcases ofBlock_cases hf with ⟨head, rest, name, d, htags, hkind, -, -⟩ | ⟨ops, hops, rfl⟩
  · exact absurd hkind (hfirst head (by rw [htags]; rfl))
  · have hmarked : ∀ op ∈ ops, op.IsMarked fun mark _ => ∀ i, mark ≠ .node i :=
      operations_marked (HeaderTable.toEntries_marked (fun _ _ _ h => by cases h) _) hops
    have hwhole := hopen.addFragments m
      [⟨ops.foldl addOperation [], ops.map fun _ => Group.ofTags b.tags, []⟩]
      (List.forall_mem_singleton.2 ⟨PathsMarked.foldl Assoc.every_nil hmarked, rfl⟩)
    have hparts := hopen.addFragments m
      (ops.map fun op => ⟨addOperation [] op, [Group.ofTags b.tags], []⟩)
      (List.forall_mem_map.2 fun op hop =>
        ⟨PathsMarked.addOperation Assoc.every_nil (hmarked op hop), rfl⟩)
    have hsame :=
      Document.foldl_withOperations hopen hmarked (Group.ofTags b.tags) Assoc.every_nil []
    rw [hopen.withOperations_nil] at hsame
    rw [List.foldl_map, hsame] at hparts
    refine ⟨_, mapM_ofBlock_single _ b (fun _ h => h) hops, ?_, ?_⟩
    · exact congrArg Merged.fault hwhole
    · exact hwhole.trans hparts.symm

/-- A block that documents a method twice, with a group and a parameter between the routes. -/
def twoRoutes : Block where
  tags := [{ title := "route", description := some "GET /pets" },
    { title := "group", description := some "pets - All about pets" },
    { title := "deprecated" },
    { title := "route", description := some "GET /pets" },
    { title := "summary", description := some "List pets" }]

/-- A method documented twice, in a document whose paths and definitions are one object. -/
theorem add_singles_twoRoutes :
    ∃ f fs document, ofBlock (fun _ => none) twoRoutes = .ok f ∧
      (singles twoRoutes).mapM (ofBlock fun _ => none) = .ok fs ∧
      (singles twoRoutes).length = 2 ∧
      Document.ofSeed (.map Document.sharedSections) = .ok document ∧
      (Document.add document (.array [f.toValue])).fault = none ∧
      Document.add document (.array [f.toValue]) =
        Document.add document (.array (fs.map toValue)) := by
  obtain ⟨f, hf⟩ : ∃ f, ofBlock (fun _ => none) twoRoutes = .ok f :=
    exists_ok_of_isSome_toOption (by decide +kernel)
  have hfirst : ∀ head ∈ twoRoutes.tags.head?, head.kind? ≠ some .typedef := by
    intro head hhead
    cases hhead
    decide +kernel
  have hdocument : Document.ofSeed (.map Document.sharedSections) = .ok _ := rfl
  obtain ⟨fs, hfs, hfault, hsame⟩ := add_singles hfirst hf Document.sharedSections_isRead hdocument
    ⟨fun v hv => by cases hv; decide, fun v hv => by cases hv; decide,
      fun v hv => by cases hv; decide⟩
  exact ⟨f, fs, _, hf, hfs, by decide +kernel, hdocument, hfault, hsame⟩

end Fragment

end ApiDoc
