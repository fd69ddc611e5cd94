import ApiDoc.Proofs.Document.Generation
import ApiDoc.Proofs.Document.Paths
import ApiDoc.Proofs.Fragment.Fields

/-!
# What a failed block leaves

A block that cannot be read leaves the document as it is. One that can be read may fail when it is
merged, and then what its paths left is still there: those in front of the first path that does not
take methods, or all of them if it was the groups that failed (`mergeParts_of_fault`). So a failed
block leaves the document as it is just if the document had all fields of these paths, with the same
content (`generate_failed_unchanged_iff`).
-/

namespace ApiDoc

open Value

namespace Document

variable {heap : Nat → Value} {entries : List (Atom × Value)} {target value : Value}

/-! ## Merges that fail -/

/-- A map that takes in nothing stays as it is. -/
theorem mergeMap_value_of_fault (h : (mergeMap target value).fault ≠ none) :
    (mergeMap target value).value = target := by
  unfold mergeMap at h ⊢
  split
  · split
    · exact absurd rfl h
    · rfl
  · rfl

/-- What has the content of a group is an object with its name. -/
theorem eq_object_of_group {g : Group} {u : Value} (h : u.plain = (Fragment.groupValue g).plain) :
    ∃ m es, u = .object m es ∧ groupName es = .text g.name := by
  obtain ⟨m, es, rfl, hes⟩ := eq_object_of_plain h
  have hname : (Assoc.get? (.text "name") es).map plain = some (.text g.name) := by
    rw [← Assoc.get?_mapValues, hes]
    rfl
  refine ⟨m, es, rfl, ?_⟩
  obtain ⟨w, hw, hplain⟩ := Option.map_eq_some_iff.1 hname
  rw [groupName, hw, Option.getD_some]
  cases w with
  | atom a => rwa [plain_atom] at hplain
  | _ => simp [plain] at hplain

/-- A group counts as something, since it has a name. -/
theorem isTruthy_of_group {g : Group} {u : Value} (h : u.plain = (Fragment.groupValue g).plain) :
    u.isTruthy = true := by
  obtain ⟨m, es, rfl, hname⟩ := eq_object_of_group h
  cases es with
  | nil => cases hname
  | cons e es => rfl

/-- Whether a group is there depends on its name only. -/
theorem hasGroup_congr {g : Group} {u w : Value} (hu : u.plain = (Fragment.groupValue g).plain)
    (hw : w.plain = (Fragment.groupValue g).plain) (target : Value) :
    hasGroup target u = hasGroup target w := by
  obtain ⟨m, es, rfl, hname⟩ := eq_object_of_group hu
  obtain ⟨m', es', rfl, hname'⟩ := eq_object_of_group hw
  have hnamed : ∀ items, anyNamed (.object m es) items = anyNamed (.object m' es') items := by
    intro items
    induction items with
    | nil => rfl
    | cons item items ih =>
      cases item with
      | object m'' fs => rw [anyNamed, anyNamed, hname, hname', ih]
      | _ => rfl
  unfold hasGroup
  split
  · exact hnamed _
  · rfl

/-- A group that has been appended is there. -/
theorem hasGroup_append {g : Group} {u : Value} (hu : u.plain = (Fragment.groupValue g).plain)
    {appended : Value} (hnot : hasGroup target u = .ok false)
    (happend : append target u = .ok appended) : hasGroup appended u = .ok true := by
  obtain ⟨m, es, rfl, hname⟩ := eq_object_of_group hu
  cases target with
  | list m' items =>
    cases happend
    have hself : anyNamed (.object m es) [.object m es] = .ok true := by
      rw [anyNamed, hname, if_pos (same_text_iff.2 rfl)]
    exact ((anyNamed_append (.object m es) items [.object m es]).2 hnot).trans hself
  | _ => cases happend

/-- Groups that are there already change nothing. -/
theorem addGroups_of_hasGroup {g : Group} {u : Value} (hu : u.plain = (Fragment.groupValue g).plain)
    (hhas : hasGroup target u = .ok true) {groups : List Value}
    (hgroups : ∀ w ∈ groups, w.plain = (Fragment.groupValue g).plain) :
    addGroups target groups = ⟨target, none⟩ := by
  induction groups with
  | nil => rfl
  | cons w groups ih =>
    obtain ⟨hw, hrest⟩ := List.forall_mem_cons.1 hgroups
    rw [addGroups, hasGroup_congr hw hu, hhas]
    simp only [ih hrest, ite_self]

/-- The groups of a block are all the same, so merging them fails at the first one or not at all. -/
theorem addGroups_value_of_fault {g : Group} {groups : List Value}
    (hgroups : ∀ w ∈ groups, w.plain = (Fragment.groupValue g).plain)
    (h : (addGroups target groups).fault ≠ none) : (addGroups target groups).value = target := by
  cases groups with
  | nil => rfl
  | cons u groups =>
    obtain ⟨hu, hrest⟩ := List.forall_mem_cons.1 hgroups
    rw [addGroups, if_pos (isTruthy_of_group hu)] at h ⊢
    split at h
    · rfl
    · -- the name is there, so none of the groups is appended or fails
      rename_i hhas
      exact absurd (by rw [addGroups_of_hasGroup hu hhas hrest]) h
    · rename_i hhas
      split at h
      · rfl
      · rename_i appended happend
        exact absurd (by rw [addGroups_of_hasGroup hu (hasGroup_append hu hhas happend) hrest]) h

/-! ## Fragments that fail -/

/-- The groups of a fragment are those of one block, and a fragment with definitions has none. -/
theorem ofBlock_groups {markOf : String → Option Mark} {b : Block} {f : Fragment}
    (h : Fragment.ofBlock markOf b = .ok f) :
    (∀ g ∈ f.groups, g = Group.ofTags b.tags) ∧ (f.groups = [] ∨ f.definitions = []) := by
  rcases Fragment.ofBlock_cases h with ⟨_, _, name, d, -, -, -, rfl⟩ | ⟨ops, -, rfl⟩
  · exact ⟨fun g hg => absurd hg List.not_mem_nil, .inl rfl⟩
  · refine ⟨fun g hg => ?_, .inr rfl⟩
    obtain ⟨_, -, rfl⟩ := List.mem_map.1 hg
    rfl

/-- What has the content of the groups of a block is a list of its group. -/
theorem eq_list_of_groups {g : Group} {groups : List Group} (hsame : ∀ g' ∈ groups, g' = g)
    {v : Value} (hv : v.plain = (Fragment.groupsValue groups).plain) :
    ∃ m items, v = .list m items ∧ (∀ w ∈ items, w.plain = (Fragment.groupValue g).plain) ∧
      (groups = [] → items = []) := by
  obtain ⟨m, items, rfl, hitems⟩ := eq_list_of_plain hv
  refine ⟨m, items, rfl, fun w hw => ?_, ?_⟩
  · have hmem : w.plain ∈ (groups.map Fragment.groupValue).map plain :=
      hitems ▸ List.mem_map_of_mem hw
    simp only [List.map_map, List.mem_map, Function.comp] at hmem
    obtain ⟨g', hg', heq⟩ := hmem
    rw [← heq, hsame g' hg']
  · rintro rfl
    exact List.map_eq_nil_iff.1 hitems

/-- The sections that every document has, of those that fragments are merged into. -/
def HasSections (entries : List (Atom × Value)) : Prop :=
  ∀ key ∈ ["paths", "tags", "definitions"], (Assoc.get? (.text key) entries).isSome

/-- A merge into one section leaves all sections there. -/
theorem HasSections.mergeInto (h : HasSections entries) (key : String) (kind : SectionKind)
    (value : Value) : HasSections (mergeInto key kind value entries) :=
  fun name hname => isSome_get?_mergeInto (h name hname) kind value

/-- A merge of all parts leaves all sections there. -/
theorem HasSections.mergeParts (h : HasSections entries) (paths groups definitions : Value) :
    HasSections (mergeParts paths groups definitions entries).1 := by
  have hpaths := h.mergeInto "paths" .paths paths
  have hgroups := hpaths.mergeInto "tags" .groups groups
  unfold Document.mergeParts
  simp only
  split
  · exact hpaths
  · split
    · exact hgroups
    · exact hgroups.mergeInto "definitions" .map definitions

/-- A fragment that fails leaves what the merging of its paths left. -/
theorem mergeParts_of_fault (h : Sound heap entries) (hsections : HasSections entries)
    {markOf : String → Option Mark} {b : Block} {f : Fragment}
    (hf : Fragment.ofBlock markOf b = .ok f) {paths groups definitions : Value}
    (hpaths : paths.IsNew) (hgroups : groups.IsNew)
    (hgcontent : groups.plain = (Fragment.groupsValue f.groups).plain)
    (hdcontent : definitions.plain = f.definitionsValue.plain)
    (hfault : (mergeParts paths groups definitions entries).2 ≠ none) :
    (mergeParts paths groups definitions entries).1 = mergeInto "paths" .paths paths entries := by
  obtain ⟨hsame, hkind⟩ := ofBlock_groups hf
  obtain ⟨heap₁, h₁⟩ := h.mergeInto hpaths "paths" .paths
  obtain ⟨heap₂, h₂⟩ := h₁.mergeInto hgroups "tags" .groups
  have hsections₁ := hsections.mergeInto "paths" .paths paths
  have hsections₂ := hsections₁.mergeInto "tags" .groups groups
  obtain ⟨t, ht⟩ := Option.isSome_iff_exists.1 (hsections₁ "tags" (by decide))
  obtain ⟨d, hd⟩ := Option.isSome_iff_exists.1 (hsections₂ "definitions" (by decide))
  obtain ⟨m, items, rfl, hall, hempty⟩ := eq_list_of_groups hsame hgcontent
  unfold mergeParts at hfault ⊢
  simp only at hfault ⊢
  split
  · rfl
  · rename_i hpfault
    simp only [hpfault] at hfault
    split
    · rename_i fault htfault
      have htfault' : (mergeSection .groups t (.list m items)).fault ≠ none := by
        rw [faultInto, sectionOf_eq ht] at htfault
        rw [htfault]
        exact Option.some_ne_none fault
      exact h₁.mergeInto_eq_self ht (addGroups_value_of_fault hall htfault')
    · rename_i htfault
      simp only [htfault] at hfault
      rw [faultInto, sectionOf_eq hd] at hfault
      have hdsame : (mergeSection .map d definitions).value = d := mergeMap_value_of_fault hfault
      rw [h₂.mergeInto_eq_self hd hdsame]
      -- only a fragment with definitions fails here, and it has no groups
      rcases hkind with hnil | hnil
      · obtain rfl := hempty hnil
        exact h₁.mergeInto_eq_self ht rfl
      · refine absurd ?_ hfault
        obtain ⟨m', es, rfl, hes⟩ := eq_object_of_plain hdcontent
        rw [hnil] at hes
        obtain rfl := List.map_eq_nil_iff.1 hes
        cases d <;> rfl

/-! ## Content that is there already -/

/-- An object with at least one entry, all under different texts and with a property. -/
def IsRecord (P : Value → Prop) (v : Value) : Prop :=
  ∃ m es, v = .object m es ∧ Fragment.IsFilled es ∧ ∀ e ∈ es, P e.2

/-- The fields of a record have its property. -/
theorem IsRecord.of_field? {P : Value → Prop} {u w : Value} {key : String} (h : IsRecord P u)
    (hfield : u.field? key = some w) : P w := by
  obtain ⟨m, es, rfl, -, hP⟩ := h
  obtain ⟨k, hk⟩ := Assoc.mem_of_get? hfield
  exact hP _ hk

/-- A record has a field. -/
theorem IsRecord.exists_field? {P : Value → Prop} {u : Value} (h : IsRecord P u) :
    ∃ key w, u.field? key = some w := by
  obtain ⟨m, es, rfl, hfilled, -⟩ := h
  obtain ⟨⟨k, w⟩, he⟩ := List.exists_mem_of_ne_nil es hfilled.ne_nil
  obtain ⟨key, rfl⟩ : ∃ key, k = .text key := hfilled.texts _ he
  exact ⟨key, w, Assoc.get?_of_mem hfilled.distinct he⟩

/-- A merge changes no content just if what comes in is there and changes none. -/
theorem mapValues_plain_mergeWith_iff {f : Option Value → Value → Value}
    {es : List (Atom × Value)} (hdistinct : Assoc.Distinct es)
    (htexts : ∀ e ∈ es, ∃ key, e.1 = .text key) (ms : List (Atom × Value)) :
    Assoc.mapValues plain (Assoc.mergeWith f ms es) = Assoc.mapValues plain ms ↔
      ∀ key u, Assoc.get? (.text key) es = some u →
        ∃ y, Assoc.get? (.text key) ms = some y ∧ (f (some y) u).plain = y.plain := by
  rw [Assoc.mapValues_mergeWith_eq_iff plain hdistinct]
  constructor
  · intro h key u hu
    exact h _ (Assoc.mem_of_get?_of_isExact (Atom.isExact_text key) hu)
  · intro h e he
    obtain ⟨key, hkey⟩ := htexts e he
    rw [hkey]
    exact h key e.2 (hkey ▸ Assoc.get?_of_mem hdistinct he)

/-- An operation on top of another changes no content just if all its fields are there. -/
theorem plain_overlay_eq_iff {u : Value} (hu : IsRecord (fun _ => True) u) (y : Value) :
    (overlay (some y) u).plain = y.plain ↔
      ∀ key w, u.field? key = some w → (y.field? key).map plain = some w.plain := by
  by_cases hy : y.isObject = true
  · obtain ⟨m, fs, rfl⟩ := isObject_iff.1 hy
    obtain ⟨m', es, rfl, hfilled, -⟩ := hu
    rw [overlay, plain_object, plain_object, Assoc.update_eq_mergeWith, object.injEq,
      and_iff_right rfl, mapValues_plain_mergeWith_iff hfilled.distinct hfilled.texts]
    refine forall₃_congr fun key w _ => ?_
    simp only [field?, Option.map_eq_some_iff, eq_comm]
  · rw [Bool.not_eq_true] at hy
    constructor
    · intro h
      obtain ⟨m', es, rfl, -, -⟩ := hu
      rw [overlay_of_not_isObject hy] at h
      rw [← isObject_plain, ← h, isObject_plain] at hy
      cases hy
    · -- what is no object has no fields, and the operation has one
      intro h
      obtain ⟨key, w, hw⟩ := hu.exists_field?
      have hfield := h key w hw
      cases y with
      | object m fs => cases hy
      | _ => cases hfield

/-- Methods merged into a path change no content just if all their fields are there. -/
theorem plain_joinPath_eq_iff {u : Value} (hu : IsRecord (IsRecord fun _ => True) u) (x : Value) :
    (joinPath (some x) u).plain = x.plain ↔
      ∀ method key w, (u.field? method).bind (field? key) = some w →
        ((x.field? method).bind (field? key)).map plain = some w.plain := by
  by_cases hx : x.isObject = true
  · obtain ⟨m, ms, rfl⟩ := isObject_iff.1 hx
    have hrecords : ∀ {method o}, u.field? method = some o → IsRecord (fun _ => True) o :=
      fun ho => hu.of_field? ho
    obtain ⟨m', es, rfl, hfilled, -⟩ := hu
    rw [joinPath, plain_object, plain_object, object.injEq, and_iff_right rfl, methodsOf_object,
      entries, mapValues_plain_mergeWith_iff hfilled.distinct hfilled.texts]
    refine forall_congr' fun method => ?_
    constructor
    · intro h key w hw
      obtain ⟨o, ho, hw⟩ := Option.bind_eq_some_iff.1 hw
      obtain ⟨y, hy, hplain⟩ := h o ho
      rw [field?, hy, Option.bind_some]
      exact (plain_overlay_eq_iff (hrecords ho) y).1 hplain key w hw
    · intro h o ho
      have ho' : (Value.object m' es).field? method = some o := ho
      -- the operation has a field, so the method is there
      obtain ⟨key, w, hw⟩ := (hrecords ho).exists_field?
      have hfield := h key w (by rw [ho', Option.bind_some, hw])
      rw [field?] at hfield
      cases hy : Assoc.get? (.text method) ms with
      | none => rw [hy] at hfield; cases hfield
      | some y =>
        refine ⟨y, rfl, (plain_overlay_eq_iff (hrecords ho) y).2 fun key w hw => ?_⟩
        have hfield' := h key w (by rw [ho', Option.bind_some, hw])
        rwa [field?, hy, Option.bind_some] at hfield'
  · rw [Bool.not_eq_true] at hx
    constructor
    · intro h
      rw [← isObject_plain, ← h, isObject_plain] at hx
      cases hx
    · intro h
      obtain ⟨method, o, ho⟩ := hu.exists_field?
      obtain ⟨key, w, hw⟩ := (hu.of_field? ho).exists_field?
      have hfield := h method key w (by rw [ho, Option.bind_some, hw])
      cases x with
      | object m ms => cases hx
      | _ => cases hfield

/-- Entries of the paths of a fragment: under different texts, each with methods and their
fields. -/
structure PathEntries (uris : List String) (new : List (Atom × Value)) : Prop where
  distinct : Assoc.Distinct new
  keys : new.map Prod.fst = uris.map .text
  records : ∀ e ∈ new, IsRecord (IsRecord fun _ => True) e.2

namespace PathEntries

variable {uris : List String} {new : List (Atom × Value)} {uri : String}

/-- The methods of every path are an object. -/
theorem isObject (h : PathEntries uris new) : ∀ e ∈ new, e.2.isObject = true := by
  intro e he
  obtain ⟨_, _, heq, -⟩ := h.records e he
  rw [heq]
  rfl

/-- Every path has methods. -/
theorem exists_mem (h : PathEntries uris new) (huri : uri ∈ uris) : ∃ u, (.text uri, u) ∈ new := by
  have hmem : Atom.text uri ∈ new.map Prod.fst := h.keys ▸ List.mem_map_of_mem huri
  obtain ⟨⟨_, u⟩, he, rfl⟩ := List.mem_map.1 hmem
  exact ⟨u, he⟩

/-- The paths of a fragment are texts. -/
theorem texts (h : PathEntries uris new) : ∀ e ∈ new, ∃ uri ∈ uris, e.1 = .text uri := by
  intro e he
  have hmem : e.1 ∈ uris.map .text := h.keys ▸ List.mem_map_of_mem he
  obtain ⟨uri, huri, heq⟩ := List.mem_map.1 hmem
  exact ⟨uri, huri, heq.symm⟩

/-- The entries in front of the first one whose key fails a test. -/
theorem takeWhile (h : PathEntries uris new) (test : Atom → Bool) :
    PathEntries (uris.takeWhile fun uri => test (.text uri)) (new.takeWhile fun e => test e.1) where
  distinct := h.distinct.sublist (List.takeWhile_sublist _)
  keys :=
    calc (new.takeWhile fun e => test e.1).map Prod.fst
        = (new.map Prod.fst).takeWhile test := by
          rw [List.takeWhile_map]
          rfl
      _ = (uris.takeWhile fun uri => test (.text uri)).map .text := by
          rw [h.keys, List.takeWhile_map]
          rfl
  records e he := h.records e ((List.takeWhile_sublist _).subset he)

/-- A path in front of the first that fails a test has its methods there too. -/
theorem get?_takeWhile (h : PathEntries uris new) (test : Atom → Bool)
    (huri : uri ∈ uris.takeWhile fun uri => test (.text uri)) :
    Assoc.get? (.text uri) (new.takeWhile fun e => test e.1) = Assoc.get? (.text uri) new := by
  obtain ⟨u, hu⟩ := (h.takeWhile test).exists_mem huri
  rw [Assoc.get?_of_mem (h.takeWhile test).distinct hu,
    Assoc.get?_of_mem h.distinct ((List.takeWhile_sublist _).subset hu)]

/-- Paths merged into others change no content just if all their fields are there. -/
theorem mapValues_plain_iff (h : PathEntries uris new) (ps : List (Atom × Value)) :
    Assoc.mapValues plain (Assoc.mergeWith joinPath ps new) = Assoc.mapValues plain ps ↔
      ∀ uri ∈ uris, ∀ method key w,
        ((Assoc.get? (.text uri) new).bind (field? method)).bind (field? key) = some w →
        (((Assoc.get? (.text uri) ps).bind (field? method)).bind (field? key)).map plain =
          some w.plain := by
  rw [mapValues_plain_mergeWith_iff h.distinct
    fun e he => (h.texts e he).imp fun _ huri => huri.2]
  constructor
  · intro hall uri huri method key w hw
    obtain ⟨u, hmem⟩ := h.exists_mem huri
    have hu := Assoc.get?_of_mem h.distinct hmem
    obtain ⟨x, hx, hplain⟩ := hall uri u hu
    rw [hu, Option.bind_some] at hw
    rw [hx, Option.bind_some]
    exact (plain_joinPath_eq_iff (h.records _ hmem) x).1 hplain method key w hw
  · intro hall uri u hu
    have hmem := Assoc.mem_of_get?_of_isExact (Atom.isExact_text uri) hu
    obtain ⟨uri', huri, heq⟩ := h.texts _ hmem
    cases heq
    have hrecord := h.records _ hmem
    -- the path has a field, so it is there
    obtain ⟨method, o, ho⟩ := hrecord.exists_field?
    obtain ⟨key, w, hw⟩ := (hrecord.of_field? ho).exists_field?
    have hfield := hall uri huri method key w (by simp only [hu, ho, hw, Option.bind_some])
    cases hx : Assoc.get? (.text uri) ps with
    | none => rw [hx] at hfield; cases hfield
    | some x =>
      refine ⟨x, rfl, (plain_joinPath_eq_iff hrecord x).2 fun method key w hw => ?_⟩
      have hfield' := hall uri huri method key w (by rw [hu, Option.bind_some, hw])
      rwa [hx, Option.bind_some] at hfield'

end PathEntries

/-- Paths that are no object stay as they are. -/
theorem mergePaths_value_of_not_isObject {p : Value} (hp : p.isObject = false) (m : Option Mark)
    (new : List (Atom × Value)) : (mergePaths p (.object m new)).value = p := by
  cases p with
  | object m' ps => cases hp
  | _ => rfl

/-- Paths that are no object take no methods. -/
theorem hasRoom_of_not_isObject {p : Value} (hp : p.isObject = false) (uri : String) :
    hasRoom uri p = false := by
  cases p with
  | object m' ps => cases hp
  | _ => rfl

/-- Paths merged into a section change no content just if all fields of those in front of the first
path that there is no room for are there. -/
theorem plain_mergePaths_eq_iff {uris : List String} {new : List (Atom × Value)}
    (h : PathEntries uris new) (m : Option Mark) (p : Value) :
    (mergePaths p (.object m new)).value.plain = p.plain ↔
      ∀ uri ∈ uris.takeWhile (hasRoom · p), ∀ method key w,
        (((Value.object m new).field? uri).bind (field? method)).bind (field? key) = some w →
        (((p.field? uri).bind (field? method)).bind (field? key)).map plain = some w.plain := by
  by_cases hp : p.isObject = true
  · obtain ⟨m', ps, rfl⟩ := isObject_iff.1 hp
    have hmerged : (mergePaths (.object m' ps) (.object m new)).value = .object m'
        (Assoc.mergeWith joinPath ps (new.takeWhile fun e => opens (Assoc.get? e.1 ps))) :=
      (addPaths_eq m' ps h.distinct h.isObject).1
    rw [hmerged, plain_object, plain_object, object.injEq, and_iff_right rfl,
      (h.takeWhile fun k => opens (Assoc.get? k ps)).mapValues_plain_iff]
    refine forall₂_congr fun uri huri => ?_
    rw [h.get?_takeWhile (fun k => opens (Assoc.get? k ps)) huri]
    rfl
  · rw [Bool.not_eq_true] at hp
    rw [mergePaths_value_of_not_isObject hp]
    refine iff_of_true rfl fun uri huri => ?_
    have hroom := List.mem_takeWhile_imp huri
    rw [hasRoom_of_not_isObject hp] at hroom
    cases hroom

/-- A section that changes no content changes none in its other places. -/
theorem Follows.plain_patch {old new v : Value} (hv : v.Follows heap) (hold : old.Follows heap)
    (hnum : old.IsNumbered) (hsame : new.plain = old.plain) :
    (patch old new v).plain = v.plain := by
  cases hmark : old.mark? with
  | none => rw [patch_of_mark?_eq_none hmark]
  | some mark =>
    obtain ⟨j, rfl⟩ := hnum mark hmark
    rw [patch_of_mark?_eq_some hmark]
    refine plain_refresh (hv.mono fun mark x hx heq => ?_)
    rw [hx j heq, hsame, hold.root hmark j rfl]

/-- A step changes the content of a document just if it changes that of its section. -/
theorem mapValues_plain_putSection_iff (h : Sound heap entries) {key : String} {old new : Value}
    (hget : Assoc.get? (.text key) entries = some old) (hregrown : Regrown old new) :
    Assoc.mapValues plain (putSection key old new entries) = Assoc.mapValues plain entries ↔
      new.plain = old.plain := by
  obtain ⟨hfollows, hnum⟩ := h.get? hget
  constructor
  · intro heq
    have hkey := congrArg (Assoc.get? (.text key)) heq
    rw [Assoc.get?_mapValues, get?_putSection_self hregrown, Assoc.get?_mapValues, hget] at hkey
    exact Option.some.inj hkey
  · intro hsame
    -- the section may stand in other places, which all show the same content
    have hpatch : ∀ e ∈ Assoc.insert (.text key) new entries,
        (patch old new e.2).plain = e.2.plain := by
      intro e he
      rcases Assoc.mem_insert he with hold | hnew
      · exact Follows.plain_patch (h.follows e hold) hfollows hnum hsame
      · rw [hnew, hregrown.patch_new]
    have hget' : Assoc.get? (.text key) (Assoc.mapValues plain entries) = some new.plain := by
      rw [Assoc.get?_mapValues, hget, hsame, Option.map_some]
    rw [putSection_eq, Assoc.mapValues_mapValues, Assoc.mapValues_congr hpatch,
      ← Assoc.insert_mapValues, Assoc.insert_eq_self hget']

/-! ## Blocks that fail -/

/-- The field of a route in a document without its marks. -/
theorem fieldAt?_plain (route : Route) (key : String) (v : Value) :
    fieldAt? route key v.plain = (fieldAt? route key v).map plain := by
  have hbind : ∀ (k : String) (x : Option Value),
      (x.map plain).bind (field? k) = (x.bind (field? k)).map plain := by
    intro k x
    cases x with
    | none => rfl
    | some u => exact field?_plain k u
  rw [fieldAt?, field?_plain, hbind, hbind, hbind, fieldAt?]

/-- Values that differ in marks only have fields of the same content for a route. -/
theorem exists_fieldAt?_of_plain {u v w : Value} {route : Route} {key : String}
    (h : u.plain = v.plain) (hw : fieldAt? route key v = some w) :
    ∃ w', fieldAt? route key u = some w' ∧ w'.plain = w.plain := by
  refine Option.map_eq_some_iff.1 ?_
  rw [← fieldAt?_plain, h, fieldAt?_plain, hw, Option.map_some]

/-- What has the content of a record is a record. -/
theorem IsRecord.of_plain {P Q : Value → Prop} {u v : Value} (h : IsRecord P v)
    (hplain : u.plain = v.plain) (hPQ : ∀ a b, P a → b.plain = a.plain → Q b) : IsRecord Q u := by
  obtain ⟨m, es, rfl, hfilled, hP⟩ := h
  obtain ⟨m', es', rfl, hes⟩ := eq_object_of_plain hplain
  have hkeys := map_fst_of_plain hes
  refine ⟨m', es', rfl, ⟨hfilled.distinct.of_keys hkeys, ?_, ?_⟩, ?_⟩
  · intro e he
    obtain ⟨e', he', hkey, -⟩ := exists_mem_of_plain hes he
    exact hkey ▸ hfilled.texts e' he'
  · rintro rfl
    exact hfilled.ne_nil (List.map_eq_nil_iff.1 hkeys.symm)
  · intro e he
    obtain ⟨e', he', -, hvalue⟩ := exists_mem_of_plain hes he
    exact hPQ e'.2 e.2 (hP e' he') hvalue

/-- The methods of a path of a fragment, as a value. -/
theorem isRecord_methodsValue {methods : Assoc String (List (Atom × Value))}
    (h : Assoc.Every Fragment.IsFilled methods ∧ methods ≠ []) :
    IsRecord (IsRecord fun _ => True) (Fragment.methodsValue methods) := by
  obtain ⟨hevery, hne⟩ := h
  refine ⟨none, _, rfl, ⟨hevery.distinct.texts.mapValues _, ?_, ?_⟩, ?_⟩
  · rw [Assoc.mapValues_texts]
    exact List.forall_mem_map.2 fun e _ => ⟨e.1, rfl⟩
  · rw [Assoc.mapValues_texts]
    exact fun hnil => hne (List.map_eq_nil_iff.1 hnil)
  · rw [Assoc.mapValues_texts]
    exact List.forall_mem_map.2 fun e he => ⟨none, e.2, rfl, hevery.values e he, fun _ _ => trivial⟩

/-- What has the content of the paths of a fragment has their entries. -/
theorem PathEntries.of_plain {paths : Assoc String (Assoc String (List (Atom × Value)))}
    (h : Fragment.PathsFilled paths) {v : Value}
    (hv : v.plain = (Fragment.valueOfPaths paths).plain) :
    ∃ m new, v = .object m new ∧ PathEntries (paths.map Prod.fst) new := by
  obtain ⟨m, new, rfl, hnew⟩ := eq_object_of_plain hv
  refine ⟨m, new, rfl, ?_, ?_, ?_⟩
  · exact (h.distinct.texts.mapValues Fragment.methodsValue).of_keys (map_fst_of_plain hnew)
  · rw [map_fst_of_plain hnew, Assoc.mapValues_texts, List.map_map, List.map_map]
    rfl
  · intro e he
    obtain ⟨e', he', -, hplain⟩ := exists_mem_of_plain hnew he
    rw [Assoc.mapValues_texts] at he'
    obtain ⟨path, hpath, rfl⟩ := List.mem_map.1 he'
    exact (isRecord_methodsValue (h.values path hpath)).of_plain hplain
      fun a b ha hab => ha.of_plain hab fun _ _ _ _ => trivial

/-- What has the content of the paths of a fragment has a path of the fragment in every entry. -/
theorem exists_path_of_plain {paths : Assoc String (Assoc String (List (Atom × Value)))}
    {mp : Option Mark} {new : List (Atom × Value)}
    (h : (Value.object mp new).plain = (Fragment.valueOfPaths paths).plain) {e : Atom × Value}
    (he : e ∈ new) :
    ∃ path ∈ paths, e.1 = .text path.1 ∧ e.2.plain = (Fragment.methodsValue path.2).plain := by
  rw [Fragment.valueOfPaths, plain_object, plain_object, object.injEq] at h
  obtain ⟨e', he', hkey, hplain⟩ := exists_mem_of_plain h.2 he
  rw [Assoc.mapValues_texts] at he'
  obtain ⟨path, hpath, rfl⟩ := List.mem_map.1 he'
  exact ⟨path, hpath, hkey.symm, hplain⟩

/-- Whether a document has all fields of the paths of a fragment, with the same content, up to the
first path that it does not take. -/
def Covers (document : Value) (f : Fragment) : Prop :=
  ∀ route key w, route.uri ∈ (f.paths.map Prod.fst).takeWhile (takes document) →
    fieldAt? route key f.toValue = some w → (fieldAt? route key document).map plain = some w.plain

/-- A fragment that fails leaves the content of the document just if it was there already. -/
theorem plain_add_eq_iff (h : Sound heap entries) (hsections : HasSections entries)
    (m : Option Mark) {markOf : String → Option Mark} {b : Block} {f : Fragment}
    (hf : Fragment.ofBlock markOf b = .ok f) {v : Value} (hv : f.Denotes v)
    (hfault : (add (.object m entries) (.array [v])).fault ≠ none) :
    (add (.object m entries) (.array [v])).value.plain = (Value.object m entries).plain ↔
      Covers (.object m entries) f := by
  obtain ⟨mv, paths, groups, definitions, rfl, ⟨hpcontent, hpnew⟩, ⟨hgcontent, hgnew⟩, hdcontent,
    -⟩ := hv.parts
  rw [add_fragment] at hfault
  obtain ⟨p, hget⟩ := Option.isSome_iff_exists.1 (hsections "paths" (by decide))
  rw [Fragment.pathsValue_eq] at hpcontent
  obtain ⟨mp, new, rfl, hentries⟩ :=
    PathEntries.of_plain (Fragment.ofBlock_pathsFilled hf) hpcontent
  -- a merge that fails has changed the paths only
  rw [add_fragment, mergeParts_of_fault h hsections hf hpnew hgnew hgcontent hdcontent hfault,
    plain_object, plain_object, object.injEq, and_iff_right rfl, mergeInto_eq hget,
    mapValues_plain_putSection_iff h hget (mergeSection_gain .paths hpnew).regrown]
  refine (plain_mergePaths_eq_iff hentries mp p).trans ?_
  have hdocument : ∀ route key, fieldAt? route key (.object m entries) =
      ((p.field? route.uri).bind (field? route.method)).bind (field? key) := by
    intro route key
    rw [fieldAt?, field?, hget, Option.bind_some]
  rw [Covers, takes_eq_hasRoom hget]
  constructor
  · intro hall route key w huri hw
    obtain ⟨w', hw', heq⟩ := exists_fieldAt?_of_plain hv.content hw
    rw [hdocument, hall route.uri huri route.method key w' hw', heq]
  · intro hall uri huri method key w hw
    have hthere : fieldAt? ⟨method, uri⟩ key
        (fragmentOf mv (.object mp new) groups definitions) = some w := hw
    obtain ⟨w', hw', heq⟩ := exists_fieldAt?_of_plain hv.content.symm hthere
    rw [← hdocument ⟨method, uri⟩ key, hall ⟨method, uri⟩ key w' huri hw', heq]

/-! ## The run -/

/-- The documents of a run: objects with all sections, in which each node that was read is the same
in all its places. -/
def IsRunning (document : Value) : Prop :=
  ∃ m entries heap, document = .object m entries ∧ Sound heap entries ∧ HasSections entries

/-- The document of a seed that was read is one of a run. -/
theorem isRunning_ofSeed {seed document : Value} (hread : seed.IsRead)
    (h : ofSeed seed = .ok document) : IsRunning document := by
  obtain ⟨m, old, entries, rfl, rfl⟩ := eq_object_of_ofSeed h
  obtain ⟨heap, hsound⟩ := ofSeed_sound hread h
  have hall : ∀ key ∈ ["paths", "tags", "definitions"],
      key ≠ "swagger" ∧ (Assoc.get? key initialSections).isSome := by
    decide
  refine ⟨m, entries, heap, rfl, hsound, fun key hkey => ?_⟩
  rw [get?_ofSeed h (hall key hkey).1, Option.isSome_or, (hall key hkey).2, Bool.or_true]

/-- A block keeps the document a document of a run, whether or not it fails. -/
theorem IsRunning.addBlock {document : Value} (h : IsRunning document) (path : String)
    (number : Nat) (b : Block) : IsRunning (addBlock path number document b).document := by
  cases hread : fragmentOf? number b with
  | error fault =>
    rw [(addBlock_of_error hread path document).1]
    exact h
  | ok v =>
    obtain ⟨m, entries, heap, rfl, hsound, hsections⟩ := h
    obtain ⟨f, hf⟩ := fragmentOf?_denotes hread
    obtain ⟨mv, paths, groups, definitions, rfl, ⟨-, hpaths⟩, ⟨-, hgroups⟩, -, hdefinitions⟩ :=
      hf.parts
    obtain ⟨heap', hsound'⟩ := hsound.mergeParts hpaths hgroups hdefinitions
    rw [(addBlock_of_ok hread path _).1, addFragment, add_fragment]
    exact ⟨m, _, heap', rfl, hsound', hsections.mergeParts paths groups definitions⟩

/-- A run goes on with any blocks. -/
theorem IsRunning.runBlocks {document : Value} (h : IsRunning document) (number : Nat)
    (blocks : List (String × Block)) : IsRunning (runBlocks number document blocks).document := by
  induction blocks generalizing number document with
  | nil => exact h
  | cons head blocks ih => exact ih (h.addBlock head.1 number head.2) (number + 1)

/-- A block that is reported leaves the content of the document just if it could not be read, or the
document had all of it that was merged before the merging failed. -/
theorem plain_addBlock_eq_iff {document : Value} (h : IsRunning document) (path : String)
    (number : Nat) (b : Block)
    (hfailed : errors (addBlock path number document b).notices ≠ []) :
    (addBlock path number document b).document.plain = document.plain ↔
      ∀ f, Fragment.ofBlock (fun code => some (.headers number code)) b = .ok f →
        Covers document f := by
  cases hread : Fragment.ofBlock (fun code => some (.headers number code)) b with
  | error fault =>
    have hnone : fragmentOf? number b = .error fault := by
      rw [fragmentOf?, hread]
      rfl
    rw [(addBlock_of_error hnone path document).1]
    exact iff_of_true rfl fun f hf => by cases hf
  | ok f =>
    have hsome : fragmentOf? number b = .ok (f.toValue.numbered number 0).1 := by
      rw [fragmentOf?, hread]
      rfl
    have hmark : ∀ code i, some (Mark.headers number code) ≠ some (.node i) :=
      fun code i heq => by cases heq
    obtain ⟨hdocument, herrors⟩ := addBlock_of_ok hsome path document
    obtain ⟨m, entries, heap, rfl, hsound, hsections⟩ := h
    have hiff := plain_add_eq_iff hsound hsections m hread
      ((Fragment.denotes_toValue hmark hread).numbered number 0)
      fun hnone => hfailed (herrors hnone)
    rw [hdocument, addFragment, hiff]
    exact ⟨fun hcovers f' hf' => (Except.ok.inj hf') ▸ hcovers, fun hcovers => hcovers f rfl⟩

end Document

open Document

/-- A block of source files that is reported as not documented is skipped, in that the content of
the document stays as it was, just if it could not be read, or the document had all fields of the
paths of it that were merged before the merging failed. -/
theorem Options.generate_failed_unchanged_iff (tree : FileTree) (options : Options)
    {places : List (List String)} (hglob : tree.glob options.basedir options.files = .ok places)
    (hread : (Value.map options.definition).IsRead) :
    ∃ start, ofSeed (.map options.definition) = .ok start ∧
      (options.generate tree).document =
        .ok (runBlocks 0 start (blocksOf (tree.sources places))).document ∧
      ∀ before path b after, blocksOf (tree.sources places) = before ++ (path, b) :: after →
        (∃ fault, .blockFailed path b.source fault ∈
          (addBlock path before.length (runBlocks 0 start before).document b).notices) →
        ((runBlocks 0 start (before ++ [(path, b)])).document.plain =
            (runBlocks 0 start before).document.plain ↔
          ∀ f, Fragment.ofBlock (fun code => some (.headers before.length code)) b = .ok f →
            Covers (runBlocks 0 start before).document f) := by
  obtain ⟨entries, hseed⟩ := ofSeed_object none options.definition
  refine ⟨.object none entries, hseed, (generate_eq_runBlocks tree options hglob hseed).1, ?_⟩
  rintro before path b after - ⟨fault, hfault⟩
  have hrunning := (isRunning_ofSeed hread hseed).runBlocks 0 before
  rw [runBlocks_append, Nat.zero_add]
  exact plain_addBlock_eq_iff hrunning path before.length b
    (List.ne_nil_of_mem (List.mem_filter.2 ⟨hfault, rfl⟩))

/-- A definition without a name is reported, and the document stays as it was. -/
theorem Options.generate_failed_unchanged_iff_petsOptions :
    ∃ start before path b after, ofSeed (.map petsOptions.definition) = .ok start ∧
      blocksOf (petsTree.sources [["pets.js"]]) = before ++ (path, b) :: after ∧
      (∃ fault, .blockFailed path b.source fault ∈
        (addBlock path before.length (runBlocks 0 start before).document b).notices) ∧
      (runBlocks 0 start (before ++ [(path, b)])).document.plain =
        (runBlocks 0 start before).document.plain := by
  obtain ⟨start, hstart, -, hiff⟩ := generate_failed_unchanged_iff petsTree petsOptions
    (by decide +kernel : _ = Except.ok [["pets.js"]]) sharedSections_isRead
  have hunread : ((blocksOf (petsTree.sources [["pets.js"]])).map fun e =>
      (fragmentOf? 1 e.2).toOption.isSome) = [true, false, true] := by
    decide +kernel
  obtain ⟨first, rest, hblocks, -, hrest⟩ := List.map_eq_cons_iff.1 hunread
  obtain ⟨⟨path, b⟩, after, rfl, hb, -⟩ := List.map_eq_cons_iff.1 hrest
  cases hread : fragmentOf? 1 b with
  | ok v => simp [hread, Except.toOption] at hb
  | error fault =>
    have hfailed : ∀ document, ∃ fault, Notice.blockFailed path b.source fault ∈
        (addBlock path 1 document b).notices := by
      intro document
      have hmem : Notice.blockFailed path b.source (.format fault) ∈
          errors (addBlock path 1 document b).notices := by
        rw [(addBlock_of_error hread path document).2]
        exact List.mem_singleton_self _
      exact ⟨_, List.mem_of_mem_filter hmem⟩
    refine ⟨start, [first], path, b, after, hstart, hblocks, hfailed _, ?_⟩
    refine (hiff [first] path b after hblocks (hfailed _)).2 fun f hf => ?_
    change Fragment.ofBlock (fun code => some (.headers 1 code)) b = .ok f at hf
    rw [fragmentOf?, hf] at hread
    cases hread

/-- The entries of a seed with null in place of its groups. -/
def nullTags : List (Atom × Value) := [(.text "tags", .null)]

/-- A block with one route. -/
def routeBlock : Block where
  tags := [{ title := "route", description := some "GET /pets" }]

/-- A block is reported as not documented and has been documented. -/
theorem failed_block_documented :
    ∃ start, ofSeed (.map nullTags) = .ok start ∧
      (∃ fault, .blockFailed "pets.js" routeBlock.source fault ∈
        (addBlock "pets.js" 0 start routeBlock).notices) ∧
      (runBlocks 0 start [("pets.js", routeBlock)]).document.plain ≠ start.plain := by
  have hstart : ofSeed (.map nullTags) = .ok _ := rfl
  refine ⟨_, hstart, ⟨.merge .unsuitable, ?_⟩, fun hsame => ?_⟩
  · decide +kernel
  · have hpaths := congrArg (fun v => (v.field? "paths").map (·.entries.length)) hsame
    revert hpaths
    decide +kernel

end ApiDoc
