import ApiDoc.Proofs.Document.Paths

/-!
# Steps in another order

Merging paths and merging groups commute (`mergeInto_comm`), though a group may be an object that is
also a path, or the paths may be inside a group. Two merges into the same section are one
(`putSection_putSection`).
-/

namespace ApiDoc

namespace Value

variable {u v w old new : Value}

/-- Two changes of one object, one after the other. -/
theorem Regrown.patch_patch (huv : Regrown u v) (hvw : Regrown v w) (x : Value) :
    patch v w (patch u v x) = patch u w x := by
  cases hmark : u.mark? with
  | none =>
    rw [patch_of_mark?_eq_none hmark, patch_of_mark?_eq_none hmark,
      patch_of_mark?_eq_none (huv.mark?_eq.trans hmark)]
  | some mark =>
    have hv : v.mark? = some mark := huv.mark?_eq.trans hmark
    rw [patch_of_mark?_eq_some hmark, patch_of_mark?_eq_some hmark, patch_of_mark?_eq_some hv,
      refresh_refresh_self (hvw.refresh_eq hv)]

/-- A value that is not the changed object changes in its parts only. -/
theorem patch_eq_mapParts (h : ∀ mark, old.mark? = some mark → v.mark? ≠ some mark) :
    patch old new v = v.mapParts (patch old new) := by
  cases hmark : old.mark? with
  | none =>
    rw [patch_of_mark?_eq_none hmark,
      mapParts_congr fun w _ => patch_of_mark?_eq_none hmark new w, mapParts_id]
  | some mark =>
    rw [patch_of_mark?_eq_some hmark, refresh_eq, if_neg fun hv => h mark hmark hv.2]
    exact mapParts_congr fun w _ => (patch_of_mark?_eq_some hmark new w).symm

/-- No value becomes or ceases to be a text by a change in its parts. -/
theorem Regrown.same_text (h : Regrown old new) (s : String) :
    new.same (.text s) = old.same (.text s) := by
  cases h with
  | refl => rfl
  | _ => simp only [same]

end Value

namespace Document

open Value

variable {heap : Nat → Value} {p p' t t' v : Value} {entries : List (Atom × Value)}

/-- Of two changes of one section only the last one shows. -/
theorem putSection_putSection {u v w : Value} (huv : Regrown u v) (hvw : Regrown v w)
    (key : String) :
    putSection key v w (putSection key u v entries) = putSection key u w entries := by
  simp only [putSection_eq, ← Assoc.insert_mapValues, Assoc.mapValues_mapValues]
  rw [Assoc.insert_insert_self (Atom.isExact_text key), hvw.patch_new, (huv.trans hvw).patch_new,
    Assoc.mapValues_congr fun e _ => huv.patch_patch hvw e.2]

/-! ## Changes of two sections -/

/-- Two values with one mark are one, if the mark is a number. -/
theorem mark?_ne_of_ne (hv : v.Follows heap) (hp : p.Follows heap) (hnum : p.IsNumbered)
    (hne : v ≠ p) : ∀ mark, p.mark? = some mark → v.mark? ≠ some mark := by
  intro mark hmark hv'
  obtain ⟨j, rfl⟩ := hnum mark hmark
  exact hne ((hv.root hv' j rfl).trans (hp.root hmark j rfl).symm)

/-- A value that is not the changed section changes in its parts only. -/
theorem Follows.patch_eq_mapParts (hv : v.Follows heap) (hp : p.Follows heap)
    (hnum : p.IsNumbered) (hne : v ≠ p) : patch p p' v = v.mapParts (patch p p') :=
  Value.patch_eq_mapParts (mark?_ne_of_ne hv hp hnum hne)

/-- A section that is not larger than another one does not have it inside, also after a change. -/
theorem Change.ne_of_le (hchange : Change heap p p') (hp : p.Follows heap) {i j : Nat}
    (hi : p.mark? = some (.node i)) (hij : i ≠ j) (hle : sizeOf p ≤ sizeOf (heap j)) :
    p'.Marked fun mark _ => mark ≠ .node j := by
  refine marked_iff.2 ⟨?_, fun w hw => ?_⟩
  · rintro mark hmark rfl
    rw [hchange.regrown.mark?_eq, hi] at hmark
    exact hij (Mark.node.inj (Option.some.inj hmark))
  · refine (hchange.parts hp w hw).mono ?_
    rintro mark x hx rfl
    obtain ⟨hxj, hlt⟩ := hx j rfl
    rw [hxj] at hlt
    omega

/-- Changes of two sections commute, each seen through the other. -/
theorem patch_comm (hp : p.Follows heap) (hpnum : p.IsNumbered) (hpchange : Change heap p p')
    (ht : t.Follows heap) (htnum : t.IsNumbered) (htchange : Change heap t t') (hne : p ≠ t)
    (v : Value) :
    patch (patch p p' t) (patch p p' t') (patch p p' v) =
      patch (patch t t' p) (patch t t' p') (patch t t' v) := by
  have hptmark : (patch p p' t).mark? = t.mark? := (hpchange.patch_regrown hp hpnum ht).mark?_eq
  have htpmark : (patch t t' p).mark? = p.mark? := (htchange.patch_regrown ht htnum hp).mark?_eq
  cases hpmark : p.mark? with
  | none =>
    rw [patch_of_mark?_eq_none (htpmark.trans hpmark)]
    simp only [patch_of_mark?_eq_none hpmark]
  | some k =>
    cases htmark : t.mark? with
    | none =>
      rw [patch_of_mark?_eq_none (hptmark.trans htmark)]
      simp only [patch_of_mark?_eq_none htmark]
    | some l =>
      obtain ⟨i, rfl⟩ := hpnum k hpmark
      obtain ⟨j, rfl⟩ := htnum l htmark
      have hpi : p = heap i := hp.root hpmark i rfl
      have htj : t = heap j := ht.root htmark j rfl
      have hij : i ≠ j := by
        rintro rfl
        exact hne (hpi.trans htj.symm)
      rw [patch_of_mark?_eq_some (hptmark.trans htmark),
        patch_of_mark?_eq_some (htpmark.trans hpmark)]
      simp only [patch_of_mark?_eq_some hpmark, patch_of_mark?_eq_some htmark]
      refine refresh_comm (fun heq => hij (Mark.node.inj heq)) ?_ v
      -- the smaller of the two sections is not the one that has the other inside
      by_cases hle : sizeOf p ≤ sizeOf t
      · exact .inl (hpchange.ne_of_le hp hpmark hij (by rw [← htj]; exact hle))
      · refine .inr (htchange.ne_of_le ht htmark hij.symm ?_)
        rw [← hpi]
        omega

/-- Changes of two sections may be made in either order, if each is made in the other's places too.
-/
theorem putSection_comm {key key' : String} (hkey : key ≠ key')
    (hget : (Assoc.get? (.text key) entries).isSome)
    (hpatch : ∀ v, patch (patch p p' t) (patch p p' t') (patch p p' v) =
      patch (patch t t' p) (patch t t' p') (patch t t' v)) :
    putSection key' (patch p p' t) (patch p p' t') (putSection key p p' entries) =
      putSection key (patch t t' p) (patch t t' p') (putSection key' t t' entries) := by
  rw [putSection_eq key', putSection_eq key p p', Assoc.insert_mapValues, Assoc.mapValues_mapValues,
    putSection_eq key, putSection_eq key' t t', Assoc.insert_mapValues, Assoc.mapValues_mapValues,
    Assoc.insert_comm (Atom.isExact_text key) (Atom.isExact_text key')
      (fun heq => hkey (Atom.text.inj heq)) p' t' hget]
  exact Assoc.mapValues_congr fun e _ => hpatch e.2

/-! ## Groups -/

/-- An object of objects is no group: its name would be a text. -/
theorem isNamed_of_holdsObjects {v : Value} (hv : v.isObject = true)
    (hobjects : v.holdsObjects = true) (name : String) : isNamed name v = false := by
  obtain ⟨m, es, rfl⟩ := isObject_iff.1 hv
  rw [holdsObjects_object] at hobjects
  rw [isNamed, entries, groupName]
  cases hget : Assoc.get? (.text "name") es with
  | none => rfl
  | some w =>
    obtain ⟨k, hk⟩ := Assoc.mem_of_get? hget
    obtain ⟨m', es', rfl⟩ := isObject_iff.1 (hobjects _ hk)
    simp only [Option.getD_some, same]

/-- A change of the paths keeps the names of groups, though a group may be in the paths or be the
object of the paths. -/
theorem isNamed_patch (hp : p.Follows heap) (hnum : p.IsNumbered) (hchange : Change heap p p')
    (hpobject : p.isObject = true) (hpobjects : p.holdsObjects = true)
    (hobjects' : p'.holdsObjects = true) {item : Value} (hitem : item.Follows heap)
    (name : String) :
    isNamed name (patch p p' item) = isNamed name item := by
  -- if the paths are one of the groups, they have no text for a name, neither before nor after
  by_cases heq : item = p
  · subst heq
    have hpatch : (patch item p' item).isObject = true ∧
        (patch item p' item).holdsObjects = true := by
      cases hmark : item.mark? with
      | none =>
        rw [patch_of_mark?_eq_none hmark]
        exact ⟨hpobject, hpobjects⟩
      | some mark =>
        rw [patch_of_mark?_eq_some hmark, hchange.regrown.refresh_eq hmark]
        exact ⟨hchange.regrown.isObject_eq.trans hpobject, hobjects'⟩
    rw [isNamed_of_holdsObjects hpatch.1 hpatch.2, isNamed_of_holdsObjects hpobject hpobjects]
  · rw [Follows.patch_eq_mapParts hitem hp hnum heq]
    cases item with
    | object m es =>
      rw [mapParts, isNamed, isNamed, entries, entries, groupName, groupName, Assoc.get?_mapValues]
      cases hget : Assoc.get? (.text "name") es with
      | none => rfl
      | some w =>
        obtain ⟨k, hk⟩ := Assoc.mem_of_get? hget
        exact (hchange.patch_regrown hp hnum (hitem.part (snd_mem_parts hk))).same_text name
    | _ => rfl

/-- A change of the groups acts on the parts of paths. -/
theorem Change.actsOnParts (hchange : Change heap t t') (ht : t.Follows heap) (hnum : t.IsNumbered)
    (hlist : t.isList = true) : ActsOnParts (fun v => v.Follows heap) (patch t t') where
  part hv hw := hv.part hw
  object hv := by
    rw [Follows.patch_eq_mapParts hv ht hnum (by rintro rfl; exact Bool.false_ne_true hlist)]
    rfl
  map es := by
    rw [Value.patch_eq_mapParts fun mark _ hmark => by cases hmark]
    rfl
  other hv hobject := (hchange.patch_regrown ht hnum hv).isObject_eq.trans hobject
  new hv := hv.patch_eq hnum

/-- Paths of objects take in the paths of a fragment without a fault. -/
theorem mergeSection_paths (m : Option Mark) {paths : List (Atom × Value)}
    (hpaths : ∀ e ∈ paths, e.2.isObject = true)
    (new : Assoc String (Assoc String (List (Atom × Value)))) :
    mergeSection .paths (.object m paths) (Fragment.valueOfPaths new) =
      ⟨.object m (joinPaths paths new), none⟩ :=
  mergePaths_valueOfPaths m hpaths new

/-- A list of objects takes in the groups of a fragment without a fault. -/
theorem mergeSection_groups (m : Option Mark) {items : List Value}
    (hitems : ∀ item ∈ items, item.isObject = true) (groups : List Group) :
    mergeSection .groups (.list m items) (Fragment.groupsValue groups) =
      ⟨.list m ((groups.map Fragment.groupValue).foldl addGroup items), none⟩ :=
  addGroups_objects m hitems (List.forall_mem_map.2 fun _ _ => rfl)

/-- Merging the groups of a fragment after a change of the paths is merging them before it. -/
theorem mergeGroups_patch (hp : p.Follows heap) (hpnum : p.IsNumbered) (hchange : Change heap p p')
    (hpobject : p.isObject = true) (hpobjects : p.holdsObjects = true)
    (hobjects' : p'.holdsObjects = true) (ht : t.Follows heap) (hlist : t.isList = true)
    (htobjects : t.holdsObjects = true) (groups : List Group) :
    (mergeSection .groups (patch p p' t) (Fragment.groupsValue groups)).value =
      patch p p' (mergeSection .groups t (Fragment.groupsValue groups)).value := by
  obtain ⟨m, items, rfl⟩ := isList_iff.1 hlist
  have hitems : ∀ item ∈ items, item.isObject = true := holdsObjects_iff.1 htobjects
  have hfollows : ∀ item ∈ items, item.Follows heap := fun item hitem => ht.part hitem
  have hitems' : ∀ item ∈ items.map (patch p p'), item.isObject = true :=
    List.forall_mem_map.2 fun item hitem =>
      (hchange.patch_regrown hp hpnum (hfollows item hitem)).isObject_eq.trans (hitems item hitem)
  have hne : Value.list m items ≠ p := by
    rintro rfl
    exact Bool.false_ne_true hpobject
  have hmarks := mark?_ne_of_ne ht hp hpnum hne
  have hpatch : ∀ xs, patch p p' (.list m xs) = .list m (xs.map (patch p p')) :=
    fun xs => Value.patch_eq_mapParts (v := .list m xs) hmarks
  rw [hpatch, mergeSection_groups m hitems', mergeSection_groups m hitems, hpatch,
    foldl_addGroup_map]
  · exact List.forall_mem_map.2 fun g _ => IsNew.patch_eq (Fragment.groupValue_marked g) hpnum
  · exact fun item hitem => List.forall_mem_map.2 fun g _ =>
      isNamed_patch hp hpnum hchange hpobject hpobjects hobjects' (hfollows item hitem) g.name

/-- Merging the paths of a fragment after a change of the groups is merging them before it. -/
theorem mergePaths_patch (ht : t.Follows heap) (htnum : t.IsNumbered) (hchange : Change heap t t')
    (hlist : t.isList = true) (hp : p.Follows heap) (hpobject : p.isObject = true)
    (hpobjects : p.holdsObjects = true)
    {new : Assoc String (Assoc String (List (Atom × Value)))}
    (hnew : NewPaths new) :
    (mergeSection .paths (patch t t' p) (Fragment.valueOfPaths new)).value =
      patch t t' (mergeSection .paths p (Fragment.valueOfPaths new)).value := by
  obtain ⟨m, paths, rfl⟩ := isObject_iff.1 hpobject
  have hacts := hchange.actsOnParts ht htnum hlist
  rw [holdsObjects_object] at hpobjects
  have hfollows : ∀ e ∈ paths, e.2.Follows heap := fun e he => hp.part (snd_mem_parts he)
  have hobjects' : ∀ e ∈ Assoc.mapValues (patch t t') paths, e.2.isObject = true :=
    List.forall_mem_map.2 fun e he =>
      (hchange.patch_regrown ht htnum (hfollows e he)).isObject_eq.trans (hpobjects e he)
  have hne : Value.object m paths ≠ t := by
    rintro rfl
    exact Bool.false_ne_true hlist
  have hmarks := mark?_ne_of_ne hp ht htnum hne
  have hpatch : ∀ es, patch t t' (.object m es) = .object m (Assoc.mapValues (patch t t') es) :=
    fun es => Value.patch_eq_mapParts (v := .object m es) hmarks
  rw [hpatch, mergeSection_paths m hobjects', mergeSection_paths m hpobjects, hpatch,
    hacts.joinPaths (fun e he => ⟨hfollows e he, hpobjects e he⟩) hnew]

/-- Merging the paths of a fragment and merging its groups commute. -/
theorem mergeInto_comm (h : Open entries)
    {new : Assoc String (Assoc String (List (Atom × Value)))}
    (hnew : NewPaths new) (groups : List Group) :
    mergeInto "tags" .groups (Fragment.groupsValue groups)
        (mergeInto "paths" .paths (Fragment.valueOfPaths new) entries) =
      mergeInto "paths" .paths (Fragment.valueOfPaths new)
        (mergeInto "tags" .groups (Fragment.groupsValue groups) entries) := by
  obtain ⟨heap, hsound⟩ := h.sound
  obtain ⟨p, hpget, hpobject, hpobjects⟩ := h.shaped.paths
  obtain ⟨t, htget, htlist, htobjects⟩ := h.shaped.tags
  obtain ⟨hp, hpnum⟩ := hsound.get? hpget
  obtain ⟨ht, htnum⟩ := hsound.get? htget
  -- the sections may be inside each other, but an object is no list
  have hne : p ≠ t := by
    rintro rfl
    obtain ⟨m, paths, rfl⟩ := isObject_iff.1 hpobject
    exact Bool.false_ne_true htlist
  have hpchange : Change heap p (mergeSection .paths p (Fragment.valueOfPaths new)).value :=
    mergeSection_change .paths hnew.valueOfPaths
  have htchange : Change heap t (mergeSection .groups t (Fragment.groupsValue groups)).value :=
    mergeSection_change .groups (Fragment.groupsValue_marked groups)
  have hobjects' : (mergeSection .paths p (Fragment.valueOfPaths new)).value.holdsObjects = true :=
    (mergePaths_object hpobject hpobjects rfl (Fragment.holdsObjects_valueOfPaths new)).2.objects
      hpobjects
  -- each step finds the other section changed by the step before it
  have htget' := get?_putSection_of_get? (show "paths" ≠ "tags" by decide) htget p
    (mergeSection .paths p (Fragment.valueOfPaths new)).value
  have hpget' := get?_putSection_of_get? (show "tags" ≠ "paths" by decide) hpget t
    (mergeSection .groups t (Fragment.groupsValue groups)).value
  rw [mergeInto_eq hpget, mergeInto_eq htget, mergeInto_eq htget', mergeInto_eq hpget',
    mergeGroups_patch hp hpnum hpchange hpobject hpobjects hobjects' ht htlist htobjects,
    mergePaths_patch ht htnum htchange htlist hp hpobject hpobjects hnew]
  refine putSection_comm (by decide) ?_ (patch_comm hp hpnum hpchange ht htnum htchange hne)
  rw [hpget]
  rfl

end Document

end ApiDoc
