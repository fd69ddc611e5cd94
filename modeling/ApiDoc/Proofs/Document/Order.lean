import ApiDoc.Proofs.Document.Idempotence

/-!
# Fragments in any order

Fragments of blocks that do not contradict each other may be added in any order: the documents are
the same up to the order of keys and of groups (`add_perm`). Fragments contradict each other if they
give different values to one field of an operation or to one definition, or different groups of one
name. What counts as the same value is left open; any reflexive relation will do.

A permutation of fragments is a permutation of what comes in under each key, at each level. So it
is enough that for each key the combined values agree (`reordered_mergeWith`), from the fields up to
the paths.
-/

namespace ApiDoc

namespace Assoc

variable {κ β γ : Type} [BEq κ]

/-- Entries under exact keys that are merged in any order give the same keys in some order. -/
theorem keys_mergeWith_perm (f : Option β → γ → β) {a b : Assoc κ γ} (h : a.Perm b)
    (ha : ∀ e ∈ a, IsExact e.1) (m : Assoc κ β) :
    ((mergeWith f m a).map Prod.fst).Perm ((mergeWith f m b).map Prod.fst) := by
  obtain ⟨new, hkeys, hnodup, hmem⟩ := keys_mergeWith f ha m
  obtain ⟨new', hkeys', hnodup', hmem'⟩ :=
    keys_mergeWith f (fun e he => ha e (h.mem_iff.2 he)) m
  rw [hkeys, hkeys']
  refine List.Perm.append_left _ ((List.perm_ext_iff_of_nodup hnodup hnodup').2 fun k => ?_)
  rw [hmem, hmem', (h.map Prod.fst).mem_iff]

end Assoc

/-! ## Values up to the order of keys -/

namespace Value

/-- Whether two values are the same up to the order of keys, to a depth; below it they are compared
by a relation. -/
def Reordered (R : Value → Value → Prop) : Nat → Value → Value → Prop
  | 0, v, w => R v w
  | n + 1, v, w => v.isObject = true ∧ w.isObject = true ∧
    (v.entries.map Prod.fst).Perm (w.entries.map Prod.fst) ∧
    ∀ key, Option.Rel (Reordered R n) (v.lookup? key) (w.lookup? key)

/-- Whether two values are the same list up to the order of items. -/
def SameItems (v w : Value) : Prop :=
  ∃ m items items', v = .list m items ∧ w = .list m items' ∧ items.Perm items'

/-- An object whose keys are exact and differ, and so on to a depth. -/
def IsTable : Nat → Value → Prop
  | 0, _ => True
  | n + 1, v => v.isObject = true ∧ Assoc.Every (IsTable n) v.entries

/-- Values that have the same at all places of a depth. -/
def Agree (R : Value → Value → Prop) (n : Nat) (vs : List Value) : Prop :=
  ∀ place, place.length = n →
    ∀ c ∈ vs.filterMap (at? place), ∀ d ∈ vs.filterMap (at? place), R c d

variable {R : Value → Value → Prop} {n : Nat} {vs : List Value}

/-- A nested value is the same as itself up to order. -/
theorem reordered_refl (hR : ∀ v, R v v) {v : Value} (h : v.isNested n = true) :
    Reordered R n v v := by
  induction n generalizing v with
  | zero => exact hR v
  | succ n ih =>
    refine ⟨(isNested_succ.1 h).1, (isNested_succ.1 h).1, List.Perm.refl _, fun key => ?_⟩
    cases hentry : v.lookup? key with
    | none => exact .none
    | some w => exact .some (ih (isNested_lookup? h hentry))

/-- A nested value that may be there is the same as itself up to order. -/
theorem rel_refl (hR : ∀ v, R v v) {x : Option Value}
    (hx : ∀ v, x = some v → v.isNested n = true) : Option.Rel (Reordered R n) x x := by
  cases x with
  | none => exact .none
  | some v => exact .some (reordered_refl hR (hx v rfl))

/-- Values that agree have under a key values that agree, one level less deep. -/
theorem Agree.filterMap_lookup? (h : Agree R (n + 1) vs) (key : Atom) :
    Agree R n (vs.filterMap (lookup? key)) := by
  intro place hplace
  rw [List.filterMap_filterMap]
  exact h (key :: place) (congrArg (· + 1) hplace)

/-- Values that agree to no depth are related to each other. -/
theorem Agree.pairwise (h : Agree R 0 vs) : ∀ c ∈ vs, ∀ d ∈ vs, R c d := by
  have hnil := h [] rfl
  rwa [show vs.filterMap (at? []) = vs from List.filterMap_some] at hnil

/-- Tables have under a key tables, one level less deep. -/
theorem isTable_filterMap_lookup? (h : ∀ v ∈ vs, IsTable (n + 1) v) (key : Atom) :
    ∀ w ∈ vs.filterMap (lookup? key), IsTable n w := by
  intro w hw
  obtain ⟨v, hv, hentry⟩ := List.mem_filterMap.1 hw
  obtain ⟨k, hk⟩ := mem_entries_of_lookup? hentry
  exact (h v hv).2.values _ hk

/-- The keys of a table are different. -/
theorem IsTable.different {v : Value} (h : IsTable (n + 1) v) : Assoc.Different v.entries :=
  h.2.distinct.different

/-- The keys of tables are exact. -/
theorem isExact_flatMap_entries (h : ∀ v ∈ vs, IsTable (n + 1) v) :
    ∀ e ∈ vs.flatMap entries, Assoc.IsExact e.1 := by
  intro e he
  obtain ⟨v, hv, he⟩ := List.mem_flatMap.1 he
  exact (h v hv).2.distinct.exactKey e he

end Value

namespace Document

open Value

variable {R : Value → Value → Prop} {n : Nat}

/-- A merge of permuted entries gives the same map up to order, if what comes in under each key
gives the same. -/
theorem reordered_mergeWith {f : Option Value → Value → Value} {base : List (Atom × Value)}
    {vs vs' : List Value} (hperm : vs.Perm vs') (hvs : ∀ v ∈ vs, IsTable (n + 1) v)
    {k : Nat} (h : ∀ key, Option.Rel (Reordered R k)
      (Assoc.combine f (Assoc.get? key base) (vs.filterMap (lookup? key)))
      (Assoc.combine f (Assoc.get? key base) (vs'.filterMap (lookup? key)))) (m m' : Option Mark) :
    Reordered R (k + 1) (.object m (Assoc.mergeWith f base (vs.flatMap entries)))
      (.object m' (Assoc.mergeWith f base (vs'.flatMap entries))) := by
  have hvs' : ∀ v ∈ vs', IsTable (n + 1) v := fun v hv => hvs v (hperm.mem_iff.2 hv)
  have hentries : (vs.flatMap entries).Perm (vs'.flatMap entries) := hperm.flatMap_right entries
  refine ⟨rfl, rfl, Assoc.keys_mergeWith_perm f hentries (isExact_flatMap_entries hvs) base,
    fun key => ?_⟩
  change Option.Rel _ (Assoc.get? key (Assoc.mergeWith f base _))
    (Assoc.get? key (Assoc.mergeWith f base _))
  rw [Assoc.get?_mergeWith, Assoc.get?_mergeWith,
    given_flatMap_entries fun v hv => (hvs v hv).different,
    given_flatMap_entries fun v hv => (hvs' v hv).different]
  exact h key

/-! ## Fields, methods and paths in any order -/

variable {x : Option Value} {cs cs' : List Value}

/-- Either nothing comes in, or something does in both orders. -/
theorem rel_combine_of_perm {f : Option Value → Value → Value} (hperm : cs.Perm cs')
    (hx : Option.Rel (Reordered R n) x x)
    (h : cs ≠ [] → cs' ≠ [] →
      Option.Rel (Reordered R n) (Assoc.combine f x cs) (Assoc.combine f x cs')) :
    Option.Rel (Reordered R n) (Assoc.combine f x cs) (Assoc.combine f x cs') := by
  by_cases hcs : cs = []
  · subst hcs
    obtain rfl := hperm.nil_eq
    exact hx
  · refine h hcs fun hcs' => hcs ?_
    subst hcs'
    exact hperm.eq_nil

/-- Of values that agree any may be the last one. -/
theorem rel_combine_last (hR : ∀ v, R v v) (hagree : Agree R 0 cs) (hperm : cs.Perm cs') :
    Option.Rel (Reordered R 0) (Assoc.combine (fun _ v => v) x cs)
      (Assoc.combine (fun _ v => v) x cs') := by
  refine rel_combine_of_perm hperm (rel_refl hR fun _ _ => rfl) fun hcs hcs' => ?_
  rw [Assoc.combine_last, Assoc.combine_last, List.getLast?_eq_some_getLast hcs,
    List.getLast?_eq_some_getLast hcs']
  exact .some (hagree.pairwise _ (List.getLast_mem hcs) _
    (hperm.mem_iff.2 (List.getLast_mem hcs')))

/-- Of values that agree any may be the first one. -/
theorem rel_combine_first (hR : ∀ v, R v v) (hagree : Agree R 0 cs) (hperm : cs.Perm cs') :
    Option.Rel (Reordered R 0) (Assoc.combine (fun x v => x.getD v) x cs)
      (Assoc.combine (fun x v => x.getD v) x cs') := by
  refine rel_combine_of_perm hperm (rel_refl hR fun _ _ => rfl) fun hcs hcs' => ?_
  rw [Assoc.combine_first, Assoc.combine_first, List.head?_eq_some_head hcs,
    List.head?_eq_some_head hcs']
  cases x with
  | some v => exact .some (hR v)
  | none =>
    exact .some (hagree.pairwise _ (List.head_mem hcs) _ (hperm.mem_iff.2 (List.head_mem hcs')))

/-- Operations that agree may come in any order. -/
theorem rel_combine_overlay (hR : ∀ v, R v v) (hcs : ∀ c ∈ cs, IsTable 1 c)
    (hagree : Agree R 1 cs) (hx : ∀ v, x = some v → v.isNested 1 = true) (hperm : cs.Perm cs') :
    Option.Rel (Reordered R 1) (Assoc.combine overlay x cs) (Assoc.combine overlay x cs') := by
  refine rel_combine_of_perm hperm (rel_refl hR hx) fun hnil hnil' => ?_
  have hcs' : ∀ c ∈ cs', IsTable 1 c := fun c hc => hcs c (hperm.mem_iff.2 hc)
  obtain ⟨m, hcombine⟩ := combine_overlay_objects hnil (fun c hc => (hcs c hc).1)
    (fun c hc => (hcs c hc).different) x
  obtain ⟨m', hcombine'⟩ := combine_overlay_objects hnil' (fun c hc => (hcs' c hc).1)
    (fun c hc => (hcs' c hc).different) x
  rw [hcombine, hcombine', Assoc.update_eq_mergeWith, Assoc.update_eq_mergeWith]
  refine .some (reordered_mergeWith hperm hcs (fun key => ?_) m m')
  exact rel_combine_last hR (hagree.filterMap_lookup? key) (hperm.filterMap (lookup? key))

/-- Paths that agree may come in any order. -/
theorem rel_combine_joinPath (hR : ∀ v, R v v) (hcs : ∀ c ∈ cs, IsTable 2 c)
    (hagree : Agree R 2 cs) (hx : ∀ v, x = some v → v.isNested 2 = true) (hperm : cs.Perm cs') :
    Option.Rel (Reordered R 2) (Assoc.combine joinPath x cs) (Assoc.combine joinPath x cs') := by
  refine rel_combine_of_perm hperm (rel_refl hR hx) fun hnil hnil' => ?_
  have hmethods : ∀ key v, Assoc.get? key (methodsOf x) = some v → v.isNested 1 = true := by
    intro key v hv
    cases x with
    | none => exact absurd hv nofun
    | some w =>
      obtain ⟨m, es, rfl⟩ := isObject_iff.1 (isNested_succ.1 (hx w rfl)).1
      exact isNested_lookup? (hx _ rfl) hv
  rw [combine_joinPath x hnil, combine_joinPath x hnil']
  refine .some (reordered_mergeWith hperm hcs (fun key => ?_) none none)
  exact rel_combine_overlay hR (isTable_filterMap_lookup? hcs key)
    (hagree.filterMap_lookup? key) (hmethods key) (hperm.filterMap (lookup? key))

/-- Paths in any order. -/
theorem reordered_paths (hR : ∀ v, R v v) {vs vs' : List Value} (hperm : vs.Perm vs')
    (hvs : ∀ v ∈ vs, IsTable 3 v) (hagree : Agree R 3 vs) {m : Option Mark}
    {paths : List (Atom × Value)} (hpaths : (Value.object m paths).isNested 3 = true) :
    Reordered R 3 (.object m (Assoc.mergeWith joinPath paths (vs.flatMap entries)))
      (.object m (Assoc.mergeWith joinPath paths (vs'.flatMap entries))) := by
  refine reordered_mergeWith hperm hvs (fun key => ?_) m m
  exact rel_combine_joinPath hR (isTable_filterMap_lookup? hvs key) (hagree.filterMap_lookup? key)
    (fun v hv => isNested_lookup? hpaths hv) (hperm.filterMap (lookup? key))

/-- Entries of maps in any order. -/
theorem reordered_map (hR : ∀ v, R v v) {vs vs' : List Value} (hperm : vs.Perm vs')
    (hvs : ∀ v ∈ vs, IsTable 1 v) (hagree : Agree R 1 vs) (m : Option Mark)
    (base : List (Atom × Value)) :
    Reordered R 1 (.object m (Assoc.mergeWith (fun x v => x.getD v) base (vs.flatMap entries)))
      (.object m (Assoc.mergeWith (fun x v => x.getD v) base (vs'.flatMap entries))) := by
  refine reordered_mergeWith hperm hvs (fun key => ?_) m m
  exact rel_combine_first hR (hagree.filterMap_lookup? key) (hperm.filterMap (lookup? key))

/-! ## Groups in any order -/

/-- If groups of one name are the same, those that are appended are the ones with new names. -/
theorem mem_appended_iff {earlier reached appended : List Value}
    (h : Appended earlier reached appended)
    (hunique : ∀ s ∈ reached, ∀ t ∈ reached, sameName s t = true → s = t)
    (htruthy : ∀ s ∈ reached, s.isTruthy = true) (g : Value) :
    g ∈ appended ↔ g ∈ reached ∧ ∀ s ∈ earlier, sameName s g = false := by
  constructor
  · intro hg
    exact ⟨h.sublist.subset hg, h.absent g hg⟩
  · rintro ⟨hg, habsent⟩
    rcases h.complete g hg (htruthy g hg) with hin | ⟨s, hs, hname⟩
    · exact hin
    · rcases List.mem_append.1 hs with hs | hs
      · exact absurd ((habsent s hs).symm.trans hname) Bool.false_ne_true
      · rw [← hunique s (h.sublist.subset hs) g hg hname]
        exact hs

/-- Groups may come in any order, if those with one name are the same. -/
theorem foldl_addGroup_perm {items groups groups' : List Value} (hperm : groups.Perm groups')
    (hunique : ∀ s ∈ groups, ∀ t ∈ groups, sameName s t = true → s = t)
    (hself : ∀ s ∈ groups, sameName s s = true) (htruthy : ∀ s ∈ groups, s.isTruthy = true) :
    (groups.foldl addGroup items).Perm (groups'.foldl addGroup items) := by
  obtain ⟨appended, hfold, happended⟩ := foldl_addGroup items groups
  obtain ⟨appended', hfold', happended'⟩ := foldl_addGroup items groups'
  -- groups with different names are different
  have hnodup : ∀ {l reached : List Value}, Appended items reached l → reached.Perm groups →
      l.Nodup := by
    intro l reached hl hreached
    refine hl.differ.imp_of_mem fun {s t} hs _ hdiffer heq => ?_
    have hs := hreached.mem_iff.1 (hl.sublist.subset hs)
    rw [← heq, hself s hs] at hdiffer
    cases hdiffer
  rw [hfold, hfold']
  refine List.Perm.append_left items ((List.perm_ext_iff_of_nodup
    (hnodup happended (List.Perm.refl _)) (hnodup happended' hperm.symm)).2 fun g => ?_)
  rw [mem_appended_iff happended hunique htruthy, mem_appended_iff happended'
    (fun s hs t ht => hunique s (hperm.mem_iff.2 hs) t (hperm.mem_iff.2 ht))
    (fun s hs => htruthy s (hperm.mem_iff.2 hs)), hperm.mem_iff]

end Document

/-! ## Fragments of blocks -/

namespace Fragment

open Value

/-- What has the entries of a map under texts. -/
theorem isTable_map_texts {α : Type} {n : Nat} {m : Assoc String α} (hm : Assoc.Distinct m)
    {g : α → Value} (hg : ∀ e ∈ m, IsTable n (g e.2)) :
    IsTable (n + 1) (.map (Assoc.mapValues g (Assoc.texts m))) := by
  refine ⟨rfl, hm.texts.mapValues g, ?_⟩
  refine Assoc.forall_mem_mapValues.2 fun e he => ?_
  obtain ⟨e', he', rfl⟩ := List.mem_map.1 he
  exact hg e' he'

/-- The paths of a block are a table down to the fields of operations. -/
theorem isTable_pathsValue {markOf : String → Option Mark} {b : Block} {f : Fragment}
    (h : ofBlock markOf b = .ok f) : IsTable 3 f.pathsValue := by
  have hpaths : PathsMarked (fun _ _ => True) f.paths := ofBlock_pathsMarked (by simp) h
  rw [pathsValue_eq]
  refine isTable_map_texts hpaths.distinct fun e he => ?_
  refine isTable_map_texts (hpaths.values e he).distinct fun e' he' => ?_
  exact ⟨rfl, ((hpaths.values e he).values e' he').1, fun _ _ => trivial⟩

/-- The definitions of a block are a table of names. -/
theorem isTable_definitionsValue {markOf : String → Option Mark} {b : Block} {f : Fragment}
    (h : ofBlock markOf b = .ok f) : IsTable 1 f.definitionsValue := by
  have hdistinct : Assoc.Distinct f.definitions := by
    rcases ofBlock_cases h with ⟨_, _, name, d, -, -, -, rfl⟩ | ⟨ops, -, rfl⟩
    · exact Assoc.distinct_singleton (Assoc.isExact_of_lawfulBEq name) d
    · exact Assoc.distinct_nil
  rw [definitionsValue_eq]
  exact isTable_map_texts hdistinct fun _ _ => trivial

end Fragment

namespace Document

open Value

variable {fs fs' : List Fragment}

/-- What fragments have for a section, in order. -/
theorem valuesFor_toValue (fs : List Fragment) (key : Atom) :
    valuesFor key (propertiesOf (.array (fs.map Fragment.toValue))) =
      fs.filterMap fun f => f.toValue.lookup? key := by
  have hproperties : propertiesOf (.array (fs.map Fragment.toValue)) =
      fs.flatMap fun f => f.toValue.entries := List.flatMap_map ..
  rw [hproperties, valuesFor, List.map_flatMap, Assoc.given_flatMap,
    List.filterMap_eq_flatMap_toList]
  refine List.flatMap_congr fun f _ => ?_
  have hnames : f.toValue.entries.map (fun e => (sectionNamed e.1, e.2)) = f.toValue.entries := rfl
  have hdifferent : Assoc.Different f.toValue.entries := by
    refine Assoc.Distinct.different ⟨?_, ?_⟩
    · intro e he
      obtain ⟨s, -, rfl⟩ := List.mem_map.1 he
      exact Atom.isExact_text s.1
    · change ["paths", "tags", "definitions"].map Atom.text |>.Nodup
      decide
  rw [hnames]
  exact Assoc.given_of_different hdifferent key

/-- What fragments have for a section that all of them have, one after another. -/
theorem valuesFor_of_lookup? {key : Atom} {g : Fragment → Value}
    (h : ∀ f : Fragment, f.toValue.lookup? key = some (g f)) (fs : List Fragment) :
    valuesFor key (propertiesOf (.array (fs.map Fragment.toValue))) = fs.map g := by
  rw [valuesFor_toValue, List.filterMap_congr fun f _ => h f]
  exact congrFun List.filterMap_eq_map fs

/-- A fragment has paths, tags and definitions, and nothing else. -/
theorem lookup?_toValue_of_ne {key : Atom} (hpaths : key ≠ .text "paths")
    (htags : key ≠ .text "tags") (hdefinitions : key ≠ .text "definitions") (f : Fragment) :
    f.toValue.lookup? key = none := by
  have hne : ∀ s, key ≠ .text s → (Atom.text s == key) = false := by
    intro s hs
    rw [← Bool.not_eq_true, BEq.comm, Atom.isExact_text s]
    exact hs
  change Assoc.get? key [(.text "paths", _), (.text "tags", _), (.text "definitions", _)] = none
  simp only [Assoc.get?, hne _ hpaths, hne _ htags, hne _ hdefinitions, Bool.false_eq_true,
    if_false]

/-- The sections that fragments have something for. -/
theorem valuesFor_toValue_eq_nil {key : Atom} (hpaths : key ≠ .text "paths")
    (htags : key ≠ .text "tags") (hdefinitions : key ≠ .text "definitions") (fs : List Fragment) :
    valuesFor key (propertiesOf (.array (fs.map Fragment.toValue))) = [] := by
  rw [valuesFor_toValue, List.filterMap_eq_nil_iff]
  exact fun f _ => lookup?_toValue_of_ne hpaths htags hdefinitions f

/-- Fragments are merged into paths, tags and definitions only. -/
theorem mem_stepsOf_toValue {e : Atom × SectionKind × Value}
    (he : e ∈ stepsOf (propertiesOf (.array (fs.map Fragment.toValue)))) :
    e.1 = .text "paths" ∨ e.1 = .text "tags" ∨ e.1 = .text "definitions" := by
  by_contra hne
  rw [not_or, not_or] at hne
  obtain ⟨_, -, hstep⟩ := List.mem_filterMap.1 he
  obtain ⟨⟨key, kind⟩, hs, rfl⟩ := Option.map_eq_some_iff.1 hstep
  have hgiven := Assoc.mem_given.2 ⟨_, he, BEq.rfl⟩
  rw [given_stepsOf (propertyOf?_eq_some_iff.1 hs).2,
    valuesFor_toValue_eq_nil hne.1 hne.2.1 hne.2.2] at hgiven
  exact absurd hgiven List.not_mem_nil

/-- All sections of fragments are supported. -/
theorem areSupported_toValue (fs : List Fragment) :
    areSupported (.array (fs.map Fragment.toValue)) = true := by
  have hall : (fs.map Fragment.toValue).all isSupported = true :=
    List.all_eq_true.2 (List.forall_mem_map.2 fun _ _ => rfl)
  exact hall

/-- What fragments have for paths. -/
theorem valuesFor_paths (fs : List Fragment) :
    valuesFor (.text "paths") (propertiesOf (.array (fs.map Fragment.toValue))) =
      fs.map Fragment.pathsValue :=
  valuesFor_of_lookup? (fun _ => rfl) fs

/-- What fragments have for tags. -/
theorem valuesFor_tags (fs : List Fragment) :
    valuesFor (.text "tags") (propertiesOf (.array (fs.map Fragment.toValue))) =
      fs.map fun f => Fragment.groupsValue f.groups :=
  valuesFor_of_lookup? (fun _ => rfl) fs

/-- What fragments have for definitions. -/
theorem valuesFor_definitions (fs : List Fragment) :
    valuesFor (.text "definitions") (propertiesOf (.array (fs.map Fragment.toValue))) =
      fs.map Fragment.definitionsValue :=
  valuesFor_of_lookup? (fun _ => rfl) fs

/-- The groups of fragments as values, in order. -/
def groupValues (fs : List Fragment) : List Value :=
  (fs.flatMap Fragment.groups).map Fragment.groupValue

/-- The groups that fragments offer are the groups that they have. -/
theorem flatMap_itemsOrSelf (fs : List Fragment) :
    (fs.map fun f => Fragment.groupsValue f.groups).flatMap itemsOrSelf = groupValues fs := by
  rw [List.flatMap_map, groupValues, List.map_flatMap]
  rfl

/-! ## Adding fragments of blocks -/

/-- The entries of a document with given paths, groups and definitions. -/
structure WithSections (entries : List (Atom × Value)) (paths tags definitions : Value) : Prop where
  paths : Assoc.get? (.text "paths") entries = some paths
  tags : Assoc.get? (.text "tags") entries = some tags
  definitions : Assoc.get? (.text "definitions") entries = some definitions

section Adding

variable {m pm tm dm : Option Mark} {entries paths definitions : List (Atom × Value)}
  {items : List Value}

/-- Paths that are objects take the paths of fragments. -/
theorem takes_pathsValue (hobjects : ∀ e ∈ paths, e.2.isObject = true)
    (hfs : ∀ f ∈ fs, IsTable 3 f.pathsValue) :
    Takes .paths (some (.object pm paths)) (fs.map Fragment.pathsValue) := by
  have htables : ∀ v ∈ fs.map Fragment.pathsValue, IsTable 3 v := List.forall_mem_map.2 hfs
  refine entrywise_paths.takes_object_iff.2 ⟨fun v hv => (htables v hv).1, ?_⟩
  refine admits_of_isObject hobjects fun e he => ?_
  obtain ⟨v, hv, he⟩ := List.mem_flatMap.1 he
  exact ((htables v hv).2.values e he).1

/-- Definitions that are an object take in those of any fragments. -/
theorem takes_definitionsValue (fs : List Fragment) :
    Takes .map (some (.object dm definitions)) (fs.map Fragment.definitionsValue) :=
  entrywise_map.takes_object_iff.2
    ⟨List.forall_mem_map.2 fun _ _ => rfl, Assoc.admits_true _ definitions _⟩

/-- Groups that are objects take in those of any fragments, one after another. -/
theorem takes_groupsValue (hitems : ∀ item ∈ items, item.isObject = true) (fs : List Fragment) :
    Takes .groups (some (.list tm items)) (fs.map fun f => Fragment.groupsValue f.groups) ∧
      Assoc.combine (fun x v => joinSection x (.groups, v)) (some (.list tm items))
          (fs.map fun f => Fragment.groupsValue f.groups) =
        some (.list tm ((groupValues fs).foldl addGroup items)) := by
  rw [← flatMap_itemsOrSelf]
  refine combine_groups tm hitems ?_
  rw [flatMap_itemsOrSelf]
  exact List.forall_mem_map.2 fun _ _ => rfl

/-- Each section takes what fragments have for it. -/
theorem WithSections.takes
    (h : WithSections entries (.object pm paths) (.list tm items) (.object dm definitions))
    (hobjects : ∀ e ∈ paths, e.2.isObject = true) (hitems : ∀ item ∈ items, item.isObject = true)
    (hfs : ∀ f ∈ fs, IsTable 3 f.pathsValue) {key : String} {kind : SectionKind}
    (hkind : sectionKind? key = some kind) :
    Takes kind (Assoc.get? (.text key) entries)
      (valuesFor (.text key) (propertiesOf (.array (fs.map Fragment.toValue)))) := by
  by_cases hp : key = "paths"
  · subst hp
    obtain rfl : SectionKind.paths = kind := Option.some.inj hkind
    rw [h.paths, valuesFor_paths]
    exact takes_pathsValue hobjects hfs
  by_cases ht : key = "tags"
  · subst ht
    obtain rfl : SectionKind.groups = kind := Option.some.inj hkind
    rw [h.tags, valuesFor_tags]
    exact (takes_groupsValue hitems fs).1
  by_cases hd : key = "definitions"
  · subst hd
    obtain rfl : SectionKind.map = kind := Option.some.inj hkind
    rw [h.definitions, valuesFor_definitions]
    exact takes_definitionsValue fs
  rw [valuesFor_toValue_eq_nil (fun h => hp (Atom.text.inj h)) (fun h => ht (Atom.text.inj h))
    fun h => hd (Atom.text.inj h)]
  trivial

/-- Fragments of blocks bring no new section into a document that has theirs. -/
theorem WithSections.keys {p t d : Value} (h : WithSections entries p t d) (fs : List Fragment) :
    (Assoc.mergeWith joinSection entries
        (stepsOf (propertiesOf (.array (fs.map Fragment.toValue))))).map Prod.fst =
      entries.map Prod.fst := by
  have hexact : ∀ e ∈ stepsOf (propertiesOf (.array (fs.map Fragment.toValue))),
      Assoc.IsExact e.1 := by
    intro e he
    rcases mem_stepsOf_toValue he with heq | heq | heq <;> exact heq ▸ Atom.isExact_text _
  refine Assoc.keys_mergeWith_of_mem joinSection hexact fun e he => ?_
  rw [← Assoc.isSome_get?_iff (hexact e he)]
  rcases mem_stepsOf_toValue he with heq | heq | heq
  · rw [heq, h.paths]
    rfl
  · rw [heq, h.tags]
    rfl
  · rw [heq, h.definitions]
    rfl

/-- The sections after fragments were merged in. -/
theorem WithSections.mergeWith
    (h : WithSections entries (.object pm paths) (.list tm items) (.object dm definitions))
    (hobjects : ∀ e ∈ paths, e.2.isObject = true) (hitems : ∀ item ∈ items, item.isObject = true)
    (hfs : ∀ f ∈ fs, IsTable 3 f.pathsValue) :
    WithSections (Assoc.mergeWith joinSection entries
        (stepsOf (propertiesOf (.array (fs.map Fragment.toValue)))))
      (.object pm (Assoc.mergeWith joinPath paths
        ((fs.map Fragment.pathsValue).flatMap Value.entries)))
      (.list tm ((groupValues fs).foldl addGroup items))
      (.object dm (Assoc.mergeWith (fun x v => x.getD v) definitions
        ((fs.map Fragment.definitionsValue).flatMap Value.entries))) where
  paths := by
    have hkind : sectionKind? "paths" = some .paths := by decide
    rw [get?_mergeWith_stepsOf hkind, h.paths, valuesFor_paths]
    exact entrywise_paths.combine_object (takes_pathsValue hobjects hfs)
  tags := by
    have hkind : sectionKind? "tags" = some .groups := by decide
    rw [get?_mergeWith_stepsOf hkind, h.tags, valuesFor_tags]
    exact (takes_groupsValue hitems fs).2
  definitions := by
    have hkind : sectionKind? "definitions" = some .map := by decide
    rw [get?_mergeWith_stepsOf hkind, h.definitions, valuesFor_definitions]
    exact entrywise_map.combine_object (takes_definitionsValue fs)

/-- Fragments leave every section but paths, tags and definitions. -/
theorem get?_mergeWith_toValue {key : Atom} (hpaths : key ≠ .text "paths")
    (htags : key ≠ .text "tags") (hdefinitions : key ≠ .text "definitions") (fs : List Fragment)
    (entries : List (Atom × Value)) :
    Assoc.get? key (Assoc.mergeWith joinSection entries
        (stepsOf (propertiesOf (.array (fs.map Fragment.toValue))))) =
      Assoc.get? key entries := by
  have hnil := valuesFor_toValue_eq_nil hpaths htags hdefinitions fs
  rw [valuesFor, Assoc.given, List.map_eq_nil_iff, List.filter_eq_nil_iff] at hnil
  rw [Assoc.get?_mergeWith, given_stepsOf_eq_nil fun e he => ?_, Assoc.combine_nil]
  rw [← Bool.not_eq_true]
  exact hnil _ (List.mem_map_of_mem (f := fun e => (sectionNamed e.1, e.2)) he)

end Adding

/-! ## Call by call -/

/-- Adding fragments one call after another is adding all of them, if that goes through. -/
theorem Apart.addAll_singletons {marks : List Mark} {names : List String}
    {entries : List (Atom × Value)} (h : Apart marks names entries) {vs : List Value}
    (hvs : ∀ e ∈ vs.flatMap Value.entries, Enters marks names e) {m : Option Mark}
    (hok : (add (.object m entries) (.array vs)).fault = none) :
    addAll (.object m entries) (vs.map fun v => .array [v]) =
      (add (.object m entries) (.array vs)).value := by
  induction vs generalizing entries with
  | nil => rfl
  | cons v vs ih =>
    have hentries : [v].flatMap Value.entries = v.entries := List.flatMap_singleton ..
    obtain ⟨hv, hrest⟩ := List.forall_mem_append.1 (List.flatMap_cons ▸ hvs)
    have hsingle : ∀ e ∈ [v].flatMap Value.entries, Enters marks names e := hentries ▸ hv
    obtain ⟨hiff, hall⟩ := h.addFragments_fault_iff hvs m
    obtain ⟨hiff₁, hall₁⟩ := h.addFragments_fault_iff hsingle m
    obtain ⟨hsupported, hadmits⟩ := hiff.1 hok
    rw [List.forall_mem_cons] at hsupported
    rw [List.flatMap_cons, stepsOf_append, Assoc.admits_append] at hadmits
    rw [hentries] at hiff₁ hall₁
    -- the first call goes through, and the others after it
    have hok₁ : (addFragments (.object m entries) [v]).fault = none :=
      hiff₁.2 ⟨List.forall_mem_singleton.2 hsupported.1, hadmits.1⟩
    obtain ⟨hvalue₁, hapart₁⟩ := h.addFragments_value hsingle m
    rw [hall₁ hok₁] at hvalue₁ hapart₁
    obtain ⟨hiff₂, hall₂⟩ := hapart₁.addFragments_fault_iff hrest m
    have hok₂ := hiff₂.2 ⟨hsupported.2, hadmits.2⟩
    obtain ⟨hvalue₂, -⟩ := hapart₁.addFragments_value hrest m
    obtain ⟨hvalue, -⟩ := h.addFragments_value hvs m
    calc addAll (.object m entries) ((v :: vs).map fun v => .array [v])
        = addAll (addFragments (.object m entries) [v]).value (vs.map fun v => .array [v]) := rfl
      _ = (addFragments (.object m (Assoc.mergeWith joinSection entries
            (stepsOf v.entries))) vs).value := by
        rw [hvalue₁]
        exact ih hapart₁ hrest hok₂
      _ = (addFragments (.object m entries) (v :: vs)).value := by
        rw [hvalue₂, hvalue, hall₂ hok₂, hall hok, List.flatMap_cons, stepsOf_append,
          Assoc.mergeWith_append]

/-! ## The whole document -/

/-- Whether two documents are the same up to the order of the keys of paths, methods, fields and
definitions, and of the groups. -/
structure SameDocument (R : Value → Value → Prop) (v w : Value) : Prop where
  keys : v.entries.map Prod.fst = w.entries.map Prod.fst
  paths : Option.Rel (Reordered R 3) (v.lookup? (.text "paths")) (w.lookup? (.text "paths"))
  tags : Option.Rel SameItems (v.lookup? (.text "tags")) (w.lookup? (.text "tags"))
  definitions : Option.Rel (Reordered R 1) (v.lookup? (.text "definitions"))
    (w.lookup? (.text "definitions"))
  others : ∀ key, key ≠ .text "paths" → key ≠ .text "tags" → key ≠ .text "definitions" →
    v.lookup? key = w.lookup? key

variable {R : Value → Value → Prop}

/-- Groups of fragments have one name just if their names are one text. -/
theorem sameName_groupValue {s t : Group} :
    sameName (Fragment.groupValue s) (Fragment.groupValue t) = true ↔ s.name = t.name := by
  have hname : sameName (Fragment.groupValue s) (Fragment.groupValue t) =
      (Value.text s.name).same (.text t.name) := rfl
  rw [hname, same_text_iff, Value.text, Value.text, atom.injEq, Atom.text.injEq]

/-- The groups of fragments in any order. -/
theorem groupValues_perm (hperm : fs.Perm fs')
    (hgroups : ∀ f ∈ fs, ∀ g ∈ fs, ∀ s ∈ f.groups, ∀ t ∈ g.groups, s.name = t.name → s = t)
    (items : List Value) :
    ((groupValues fs).foldl addGroup items).Perm ((groupValues fs').foldl addGroup items) := by
  refine foldl_addGroup_perm ((hperm.flatMap_right Fragment.groups).map _) ?_ ?_ ?_
  · refine List.forall_mem_map.2 fun s hs => List.forall_mem_map.2 fun t ht hname => ?_
    obtain ⟨f, hf, hs⟩ := List.mem_flatMap.1 hs
    obtain ⟨g, hg, ht⟩ := List.mem_flatMap.1 ht
    rw [hgroups f hf g hg s hs t ht (sameName_groupValue.1 hname)]
  · exact List.forall_mem_map.2 fun s _ => sameName_groupValue.2 rfl
  · exact List.forall_mem_map.2 fun _ _ => rfl

/-- Fragments that do not contradict each other agree in what they have for a section. -/
theorem agree_of_at? {n : Nat} {key : Atom} {g : Fragment → Value}
    (hentry : ∀ f : Fragment, f.toValue.lookup? key = some (g f))
    (h : ∀ f ∈ fs, ∀ f' ∈ fs, ∀ place : List Atom, place.length = n → ∀ v w,
      f.toValue.at? (key :: place) = some v → f'.toValue.at? (key :: place) = some w → R v w) :
    Agree R n (fs.map g) := by
  have hat : ∀ place : List Atom, ∀ c ∈ (fs.map g).filterMap (at? place),
      ∃ f ∈ fs, f.toValue.at? (key :: place) = some c := by
    intro place c hc
    obtain ⟨v, hv, hplace⟩ := List.mem_filterMap.1 hc
    obtain ⟨f, hf, rfl⟩ := List.mem_map.1 hv
    refine ⟨f, hf, ?_⟩
    rw [at?, hentry, Option.bind_some, hplace]
  intro place hplace c hc d hd
  obtain ⟨f, hf, hfc⟩ := hat place c hc
  obtain ⟨f', hf', hfd⟩ := hat place d hd
  exact h f hf f' hf' place hplace c d hfc hfd

section Permuted

variable {m pm tm dm : Option Mark} {entries paths definitions : List (Atom × Value)}
  {items : List Value}

/-- Fragments are added without fault, in one call or in one call each. -/
theorem WithSections.add_toValue
    (h : WithSections entries (.object pm paths) (.list tm items) (.object dm definitions))
    (hobjects : ∀ e ∈ paths, e.2.isObject = true) (hitems : ∀ item ∈ items, item.isObject = true)
    (hfs : ∀ f ∈ fs, IsTable 3 f.pathsValue)
    (hseparate : Separate entries (propertiesOf (.array (fs.map Fragment.toValue))))
    (m : Option Mark) :
    (add (.object m entries) (.array (fs.map Fragment.toValue))).fault = none ∧
      (add (.object m entries) (.array (fs.map Fragment.toValue))).value =
        .object m (Assoc.mergeWith joinSection entries
          (stepsOf (propertiesOf (.array (fs.map Fragment.toValue))))) ∧
      addAll (.object m entries) (fs.map fun f => .array [f.toValue]) =
        (add (.object m entries) (.array (fs.map Fragment.toValue))).value := by
  have hok : (add (.object m entries) (.array (fs.map Fragment.toValue))).fault = none := by
    refine (hseparate.apart.add_fault_iff hseparate.enters m).1.2 ⟨areSupported_toValue fs, ?_⟩
    exact admits_stepsOf_iff.2 fun key kind hkind => h.takes hobjects hitems hfs hkind
  have henters : ∀ e ∈ (fs.map Fragment.toValue).flatMap Value.entries, Enters _ _ e :=
    hseparate.enters
  have hcalls := hseparate.apart.addAll_singletons henters hok
  rw [List.map_map] at hcalls
  exact ⟨hok, (hseparate.add_ok hok).1, hcalls⟩

/-- Merging permuted fragments gives the same document up to order. -/
theorem WithSections.sameDocument
    (h : WithSections entries (.object pm paths) (.list tm items) (.object dm definitions))
    (hnested : (Value.object pm paths).isNested 3 = true)
    (hitems : ∀ item ∈ items, item.isObject = true) (hR : ∀ v, R v v) (hperm : fs.Perm fs')
    (hfs : ∀ f ∈ fs, IsTable 3 f.pathsValue ∧ IsTable 1 f.definitionsValue)
    (hpaths : Agree R 3 (fs.map Fragment.pathsValue))
    (hdefinitions : Agree R 1 (fs.map Fragment.definitionsValue))
    (hgroups : ∀ f ∈ fs, ∀ g ∈ fs, ∀ s ∈ f.groups, ∀ t ∈ g.groups, s.name = t.name → s = t)
    (m : Option Mark) :
    SameDocument R
      (.object m (Assoc.mergeWith joinSection entries
        (stepsOf (propertiesOf (.array (fs.map Fragment.toValue))))))
      (.object m (Assoc.mergeWith joinSection entries
        (stepsOf (propertiesOf (.array (fs'.map Fragment.toValue)))))) := by
  have hobjects : ∀ e ∈ paths, e.2.isObject = true :=
    fun e he => (isNested_succ.1 ((isNested_succ.1 hnested).2 e he)).1
  have hafter := h.mergeWith hobjects hitems fun f hf => (hfs f hf).1
  have hafter' := h.mergeWith hobjects hitems fun f hf => (hfs f (hperm.mem_iff.2 hf)).1
  refine ⟨(h.keys fs).trans (h.keys fs').symm, ?_, ?_, ?_, fun key hp ht hd => ?_⟩
  · rw [lookup?_object, lookup?_object, hafter.paths, hafter'.paths]
    exact .some (reordered_paths hR (hperm.map _)
      (List.forall_mem_map.2 fun f hf => (hfs f hf).1) hpaths hnested)
  · rw [lookup?_object, lookup?_object, hafter.tags, hafter'.tags]
    exact .some ⟨tm, _, _, rfl, rfl, groupValues_perm hperm hgroups items⟩
  · rw [lookup?_object, lookup?_object, hafter.definitions, hafter'.definitions]
    exact .some (reordered_map hR (hperm.map _)
      (List.forall_mem_map.2 fun f hf => (hfs f hf).2) hdefinitions dm definitions)
  · rw [lookup?_object, lookup?_object, get?_mergeWith_toValue hp ht hd,
      get?_mergeWith_toValue hp ht hd]

end Permuted

/-- Fragments of blocks that do not contradict each other may be added in any order, in one call or
in one call each: nothing fails, and the documents are the same up to the order of keys and
groups. -/
theorem add_perm (hR : ∀ v, R v v) {m : Option Mark} {entries : List (Atom × Value)}
    (hperm : fs.Perm fs') (hmade : ∀ f ∈ fs, ∃ markOf b, Fragment.ofBlock markOf b = .ok f)
    (hseparate : Separate entries (propertiesOf (.array (fs.map Fragment.toValue))))
    (hshaped : Shaped entries)
    (hnested : ∀ v, Assoc.get? (.text "paths") entries = some v → v.isNested 3 = true)
    (hfields : ∀ f ∈ fs, ∀ g ∈ fs, ∀ uri method field v w,
      f.toValue.at? [.text "paths", uri, method, field] = some v →
      g.toValue.at? [.text "paths", uri, method, field] = some w → R v w)
    (hdefinitions : ∀ f ∈ fs, ∀ g ∈ fs, ∀ name v w,
      f.toValue.at? [.text "definitions", name] = some v →
      g.toValue.at? [.text "definitions", name] = some w → R v w)
    (hgroups : ∀ f ∈ fs, ∀ g ∈ fs, ∀ s ∈ f.groups, ∀ t ∈ g.groups, s.name = t.name → s = t) :
    (add (.object m entries) (.array (fs.map Fragment.toValue))).fault = none ∧
      (add (.object m entries) (.array (fs'.map Fragment.toValue))).fault = none ∧
      SameDocument R (add (.object m entries) (.array (fs.map Fragment.toValue))).value
        (add (.object m entries) (.array (fs'.map Fragment.toValue))).value ∧
      SameDocument R (addAll (.object m entries) (fs.map fun f => .array [f.toValue]))
        (addAll (.object m entries) (fs'.map fun f => .array [f.toValue])) := by
  obtain ⟨p, hp, hpobject, hpobjects⟩ := hshaped.paths
  obtain ⟨t, ht, htlist, htobjects⟩ := hshaped.tags
  obtain ⟨d, hd, hdobject⟩ := hshaped.definitions
  obtain ⟨pm, paths, rfl⟩ := isObject_iff.1 hpobject
  obtain ⟨tm, items, rfl⟩ := isList_iff.1 htlist
  obtain ⟨dm, definitions, rfl⟩ := isObject_iff.1 hdobject
  have hsections : WithSections entries (.object pm paths) (.list tm items)
      (.object dm definitions) := ⟨hp, ht, hd⟩
  rw [holdsObjects_object] at hpobjects
  have hitems : ∀ item ∈ items, item.isObject = true := holdsObjects_iff.1 htobjects
  -- the paths and definitions of a block have different keys, down to the fields
  have htables : ∀ f ∈ fs, IsTable 3 f.pathsValue ∧ IsTable 1 f.definitionsValue := by
    intro f hf
    obtain ⟨markOf, b, hblock⟩ := hmade f hf
    exact ⟨Fragment.isTable_pathsValue hblock, Fragment.isTable_definitionsValue hblock⟩
  have hpathsAgree : Agree R 3 (fs.map Fragment.pathsValue) := by
    have hentry : ∀ f : Fragment, f.toValue.lookup? (.text "paths") = some f.pathsValue :=
      fun _ => rfl
    refine agree_of_at? hentry fun f hf g hg place hplace => ?_
    obtain ⟨uri, method, field, rfl⟩ := List.length_eq_three.1 hplace
    exact hfields f hf g hg uri method field
  have hdefinitionsAgree : Agree R 1 (fs.map Fragment.definitionsValue) := by
    have hentry : ∀ f : Fragment,
        f.toValue.lookup? (.text "definitions") = some f.definitionsValue := fun _ => rfl
    refine agree_of_at? hentry fun f hf g hg place hplace => ?_
    obtain ⟨name, rfl⟩ := List.length_eq_one_iff.1 hplace
    exact hdefinitions f hf g hg name
  -- both orders go through, and both documents are known in closed form
  obtain ⟨hok, hvalue, hcalls⟩ := hsections.add_toValue hpobjects hitems
    (fun f hf => (htables f hf).1) hseparate m
  have hsubset : propertiesOf (.array (fs'.map Fragment.toValue)) ⊆
      propertiesOf (.array (fs.map Fragment.toValue)) :=
    ((hperm.map Fragment.toValue).flatMap_right Value.entries).symm.subset
  obtain ⟨hok', hvalue', hcalls'⟩ := hsections.add_toValue hpobjects hitems
    (fun f hf => (htables f (hperm.mem_iff.2 hf)).1) (hseparate.of_subset hsubset) m
  have hsame := hsections.sameDocument (hnested _ hp) hitems hR hperm htables hpathsAgree
    hdefinitionsAgree hgroups m
  rw [← hvalue, ← hvalue'] at hsame
  refine ⟨hok, hok', hsame, ?_⟩
  rw [hcalls, hcalls']
  exact hsame

/-- A block that documents one route of pets, with its group. -/
def petsBlock (route : String) : Block where
  tags := [{ title := "route", description := some route },
    { title := "group", description := some "pets - All about pets" }]

/-- The entries of a document that has an operation on pets, and no group. -/
def petsEntries : List (Atom × Value) :=
  [(.text "paths", .map [(.text "/pets", .map [(.text "get", .map
      [(.text "summary", .text "Pets")])])]),
    (.text "tags", .array []), (.text "definitions", .map [])]

/-- A fragment of one operation has fields under its method only. -/
theorem method_of_at? {f : Fragment} {path name : String} {fields : List (Atom × Value)}
    (hf : f.paths = [(path, [(name, fields)])]) {uri method field : Atom} {v : Value}
    (h : f.toValue.at? [.text "paths", uri, method, field] = some v) :
    (Atom.text name == method) = true := by
  obtain ⟨w, hw, h⟩ := Option.bind_eq_some_iff.1 h
  obtain rfl : f.pathsValue = w := Option.some.inj hw
  obtain ⟨methods, hmethods, h⟩ := Option.bind_eq_some_iff.1 h
  obtain ⟨operation, hoperation, -⟩ := Option.bind_eq_some_iff.1 h
  rw [Fragment.pathsValue, hf] at hmethods
  obtain ⟨k, hk, -⟩ := Assoc.exists_mem_of_get? hmethods
  obtain ⟨-, rfl⟩ := Prod.mk.inj (List.mem_singleton.1 hk)
  obtain ⟨k', hk', hname⟩ := Assoc.exists_mem_of_get? hoperation
  obtain ⟨rfl, -⟩ := Prod.mk.inj (List.mem_singleton.1 hk')
  exact hname

/-- The paths and methods of a fragment, its groups, and the number of its definitions. -/
def outline (f : Fragment) : List (String × List String) × List Group × Nat :=
  (f.paths.map fun e => (e.1, e.2.map Prod.fst), f.groups, f.definitions.length)

/-- A fragment with the outline of one operation has just that operation. -/
theorem exists_of_outline {b : Block} {path name : String} {groups : List Group}
    (h : (Fragment.ofBlock (fun _ => none) b).toOption.map outline =
      some ([(path, [name])], groups, 0)) :
    ∃ f fields, Fragment.ofBlock (fun _ => none) b = .ok f ∧
      f.paths = [(path, [(name, fields)])] ∧ f.groups = groups ∧ f.definitions = [] := by
  obtain ⟨f, hf, hshape⟩ := Option.map_eq_some_iff.1 h
  have hblock : Fragment.ofBlock (fun _ => none) b = .ok f := by
    cases hb : Fragment.ofBlock (fun _ => none) b with
    | error fault =>
      rw [hb] at hf
      cases hf
    | ok f' =>
      rw [hb] at hf
      exact congrArg Except.ok (Option.some.inj hf)
  rw [outline, Prod.mk.injEq, Prod.mk.injEq] at hshape
  obtain ⟨hpaths, hgroups, hdefinitions⟩ := hshape
  obtain ⟨⟨_, methods⟩, hpath, heq⟩ := List.map_eq_singleton_iff.1 hpaths
  obtain ⟨rfl, hmethods⟩ := Prod.mk.inj heq
  obtain ⟨⟨_, fields⟩, rfl, rfl⟩ := List.map_eq_singleton_iff.1 hmethods
  exact ⟨f, fields, hblock, hpath, hgroups, List.length_eq_zero_iff.1 hdefinitions⟩

/-- Two methods of one path, with the same group, in either order. -/
theorem add_perm_pets :
    ∃ f g, Fragment.ofBlock (fun _ => none) (petsBlock "GET /pets") = .ok f ∧
      Fragment.ofBlock (fun _ => none) (petsBlock "POST /pets") = .ok g ∧
      SameDocument Eq
        (addAll (.object none petsEntries) [.array [f.toValue], .array [g.toValue]])
        (addAll (.object none petsEntries) [.array [g.toValue], .array [f.toValue]]) := by
  have hget : (Fragment.ofBlock (fun _ => none) (petsBlock "GET /pets")).toOption.map outline =
      some ([("/pets", ["get"])], [⟨"pets", "All about pets"⟩], 0) := by decide +kernel
  have hpost : (Fragment.ofBlock (fun _ => none) (petsBlock "POST /pets")).toOption.map outline =
      some ([("/pets", ["post"])], [⟨"pets", "All about pets"⟩], 0) := by decide +kernel
  obtain ⟨f, fs, hf, hfpaths, hfgroups, hfdefinitions⟩ := exists_of_outline hget
  obtain ⟨g, gs, hg, hgpaths, hggroups, hgdefinitions⟩ := exists_of_outline hpost
  -- no method is both of them
  have hne : ∀ method : Atom, (Atom.text "get" == method) = true →
      (Atom.text "post" == method) = true → False := by
    intro method hmethod hmethod'
    have heq : (Atom.text "get" == Atom.text "post") = true :=
      BEq.trans hmethod (BEq.symm hmethod')
    exact absurd heq (by decide)
  have hdefinitions : ∀ h ∈ [f, g], ∀ name,
      h.toValue.at? [.text "definitions", name] = none := by
    have hnone : ∀ {h : Fragment}, h.definitions = [] → ∀ name,
        h.toValue.at? [.text "definitions", name] = none := by
      intro h hnil name
      change (h.definitionsValue.lookup? name).bind _ = none
      rw [Fragment.definitionsValue, hnil]
      rfl
    simp only [List.forall_mem_cons, List.not_mem_nil, false_implies, implies_true, and_true]
    exact ⟨hnone hfdefinitions, hnone hgdefinitions⟩
  have hpair : ∀ {P : Fragment → Prop}, P f → P g → ∀ h ∈ [f, g], P h :=
    fun h h' => List.forall_mem_cons.2 ⟨h, List.forall_mem_singleton.2 h'⟩
  refine ⟨f, g, hf, hg, (add_perm (fun _ => rfl) (List.Perm.swap g f [])
    (hpair ⟨_, _, hf⟩ ⟨_, _, hg⟩) (separate_of_marksUnder rfl) ⟨⟨_, rfl, rfl, rfl⟩,
    ⟨_, rfl, rfl, rfl⟩, ⟨_, rfl, rfl⟩⟩ ?_ ?_ ?_ ?_).2.2.2⟩
  · rintro v hv
    cases hv
    rfl
  · refine hpair (hpair ?_ ?_) (hpair ?_ ?_) <;> intro uri method field v w hv hw
    · exact Option.some.inj (hv.symm.trans hw)
    · exact (hne method (method_of_at? hfpaths hv) (method_of_at? hgpaths hw)).elim
    · exact (hne method (method_of_at? hfpaths hw) (method_of_at? hgpaths hv)).elim
    · exact Option.some.inj (hv.symm.trans hw)
  · intro h hh h' hh' name v w hv
    rw [hdefinitions h hh name] at hv
    cases hv
  · have hgroup : ∀ h ∈ [f, g], ∀ s ∈ h.groups, s = ⟨"pets", "All about pets"⟩ :=
      hpair (hfgroups ▸ List.forall_mem_singleton.2 rfl)
        (hggroups ▸ List.forall_mem_singleton.2 rfl)
    intro h hh h' hh' s hs t ht _
    rw [hgroup h hh s hs, hgroup h' hh' t ht]

/-- Objects that are the same up to order have the same under each key, up to order. -/
theorem rel_lookup? {R : Value → Value → Prop} {n : Nat} {x y : Option Value}
    (h : Option.Rel (Reordered R (n + 1)) x y) (key : Atom) :
    Option.Rel (Reordered R n) (x.bind (lookup? key)) (y.bind (lookup? key)) := by
  cases h with
  | none => exact .none
  | some hxy => exact hxy.2.2.2 key

/-- Objects that are the same up to order have as many entries. -/
theorem length_entries_of_rel {R : Value → Value → Prop} {n : Nat} {x y : Option Value}
    (h : Option.Rel (Reordered R (n + 1)) x y) :
    x.map (·.entries.length) = y.map (·.entries.length) := by
  cases h with
  | none => rfl
  | some hxy =>
    have hlength := hxy.2.2.1.length_eq
    rw [List.length_map, List.length_map] at hlength
    rw [Option.map_some, Option.map_some, hlength]

/-- The entries of a document whose definitions are the same object as its paths. -/
def sharedRoutes : List (Atom × Value) :=
  [(.text "paths", .object (some (.node 0)) []), (.text "definitions", .object (some (.node 0)) []),
    (.text "tags", .array [])]

/-- A block with a route to `u`. -/
def routeToU : Block where
  tags := [{ title := "route", description := some "GET u" }]

/-- The numbers of entries under the path `u` after a fragment and the definition `u`, in both
orders. -/
def entriesOfU (f : Fragment) : List (Option Nat) :=
  let g : Fragment := { definitions := [("u", ⟨none, [], []⟩)] }
  [[f, g], [g, f]].map fun fs =>
    ((addAll (.map sharedRoutes) (fs.map fun f => .array [f.toValue])).at?
      [.text "paths", .text "u"]).map (·.entries.length)

/-- A route and a definition with its path for a name: if the paths and the definitions are one
object, the definition is kept only if it comes first. -/
theorem add_swapped_differs :
    ∃ f g, Fragment.ofBlock (fun _ => none) routeToU = .ok f ∧
      Fragment.ofBlock (fun _ => none) (typedefBlock "u") = .ok g ∧ Shaped sharedRoutes ∧
      (∀ v, Assoc.get? (.text "paths") sharedRoutes = some v → v.isNested 3 = true) ∧
      g.paths = [] ∧ f.definitions = [] ∧ g.groups = [] ∧
      (∀ s ∈ f.groups, ∀ t ∈ f.groups, s.name = t.name → s = t) ∧
      ∀ R, ¬SameDocument R
        (addAll (.map sharedRoutes) [.array [f.toValue], .array [g.toValue]])
        (addAll (.map sharedRoutes) [.array [g.toValue], .array [f.toValue]]) := by
  have hroute : (Fragment.ofBlock (fun _ => none) routeToU).toOption.map outline =
      some ([("u", ["get"])], [⟨"default", ""⟩], 0) := by decide +kernel
  have hentries : (Fragment.ofBlock (fun _ => none) routeToU).toOption.map entriesOfU =
      some [some 1, some 3] := by decide +kernel
  obtain ⟨f, fields, hf, -, hgroups, hdefinitions⟩ := exists_of_outline hroute
  refine ⟨f, _, hf, ofBlock_typedefBlock (by decide) _,
    ⟨⟨_, rfl, rfl, rfl⟩, ⟨_, rfl, rfl, rfl⟩, ⟨_, rfl, rfl⟩⟩, ?_, rfl, hdefinitions, rfl, ?_,
    fun R hsame => ?_⟩
  · rintro v ⟨⟩
    rfl
  · rw [hgroups]
    intro s hs t ht _
    rw [List.mem_singleton.1 hs, List.mem_singleton.1 ht]
  · have hlength := length_entries_of_rel (rel_lookup? hsame.paths (.text "u"))
    rw [hf] at hentries
    have hentries := Option.some.inj hentries
    simp only [entriesOfU, List.map_cons, List.map_nil, List.cons.injEq, at?, Option.bind_fun_some]
      at hentries
    rw [hentries.1, hentries.2.1] at hlength
    exact absurd hlength (by decide)

end Document

end ApiDoc
