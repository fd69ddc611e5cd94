import ApiDoc.Proofs.Document.Merging
import ApiDoc.Proofs.Document.Steps

/-!
# Documents that every fragment can be merged into

If the paths of a document are an object of objects, its groups a list of objects and its
definitions an object, then merging a fragment does not fail and gives such a document again:
`Open.add`. A section may be the same object as another one, or be inside it; so what one
step changes is looked for in all sections.
-/

namespace ApiDoc

namespace Value

/-- The items of a list, or the values of an object. -/
def values : Value → List Value
  | .list _ items => items
  | .object _ entries => entries.map Prod.snd
  | _ => []

/-- Whether all items of a list, or all values of an object, are objects. -/
def holdsObjects (v : Value) : Bool := v.values.all isObject

/-- A value holds objects just if all its values are objects. -/
theorem holdsObjects_iff {v : Value} :
    v.holdsObjects = true ↔ ∀ w ∈ v.values, w.isObject = true :=
  List.all_eq_true

/-- A list holds objects if its items are objects. -/
theorem holdsObjects_list {m : Option Mark} {items : List Value} :
    (list m items).holdsObjects = true ↔ ∀ item ∈ items, item.isObject = true :=
  holdsObjects_iff

/-- An object holds objects if its values are objects. -/
theorem holdsObjects_object {m : Option Mark} {entries : List (Atom × Value)} :
    (object m entries).holdsObjects = true ↔ ∀ e ∈ entries, e.2.isObject = true := by
  rw [holdsObjects_iff]
  exact List.forall_mem_map

/-! ## Shapes and content -/

/-- Without its marks a value is an object just if it was. -/
@[simp] theorem isObject_plain (v : Value) : v.plain.isObject = v.isObject := by
  cases v <;> simp [plain, isObject]

/-- Without its marks a value is a list just if it was. -/
@[simp] theorem isList_plain (v : Value) : v.plain.isList = v.isList := by
  cases v <;> simp [plain, isList]

/-- The values of a value without its marks. -/
@[simp] theorem values_plain (v : Value) : v.plain.values = v.values.map plain := by
  cases v with
  | object m entries =>
    simp only [plain_object, values, Assoc.mapValues, List.map_map, Function.comp_def]
  | list m items => simp only [plain_list, values]
  | _ => simp [plain, values]

/-- Without its marks a value holds objects just if it did. -/
@[simp] theorem holdsObjects_plain (v : Value) : v.plain.holdsObjects = v.holdsObjects := by
  simp only [holdsObjects, values_plain, List.all_map, Function.comp_def, isObject_plain]

/-! ## Shapes after a change -/

/-- The same object is an object just if it was. -/
theorem Regrown.isObject_eq {old new : Value} (h : Regrown old new) :
    new.isObject = old.isObject := by
  cases h <;> rfl

/-- The same object is a list just if it was. -/
theorem Regrown.isList_eq {old new : Value} (h : Regrown old new) : new.isList = old.isList := by
  cases h <;> rfl

/-- A value and what has become of it: the same object, which holds objects if it did before. -/
structure Kept (old new : Value) : Prop where
  regrown : Regrown old new
  objects : old.holdsObjects = true → new.holdsObjects = true

/-- A value that nothing has become of. -/
theorem Kept.refl (v : Value) : Kept v v := ⟨.refl v, fun h => h⟩

/-- A value that is kept twice is kept. -/
theorem Kept.trans {u v w : Value} (h : Kept u v) (h' : Kept v w) : Kept u w :=
  ⟨h.regrown.trans h'.regrown, fun hu => h'.objects (h.objects hu)⟩

end Value

namespace Document

open Value

variable {heap : Nat → Value} {old new target value v : Value} {entries : List (Atom × Value)}

/-- A section keeps its shape when it or another section keeps it. -/
theorem Change.patch_kept (h : Change heap old new) (hold : old.Follows heap)
    (hnum : old.IsNumbered) (hkept : Kept old new) (hv : v.Follows heap) :
    Kept v (patch old new v) := by
  refine ⟨h.patch_regrown hold hnum hv, fun hobjects => ?_⟩
  have hparts : ∀ w ∈ v.parts, (patch old new w).isObject = w.isObject :=
    fun w hw => (h.patch_regrown hold hnum (hv.part hw)).isObject_eq
  cases hmark : old.mark? with
  | none =>
    rw [patch_of_mark?_eq_none hmark]
    exact hobjects
  | some mark =>
    obtain ⟨j, rfl⟩ := hnum mark hmark
    simp only [patch_of_mark?_eq_some hmark] at hparts ⊢
    rw [refresh_eq]
    split
    · -- the value is the section that has changed
      rename_i hj
      refine hkept.objects ?_
      rw [hold.root hmark j rfl, ← hv.root hj.2 j rfl]
      exact hobjects
    · rw [holdsObjects_iff] at hobjects ⊢
      cases v with
      | list m items =>
        refine List.forall_mem_map.2 fun w hw => ?_
        rw [hparts w hw]
        exact hobjects w hw
      | object m es =>
        refine List.forall_mem_map.2 (Assoc.forall_mem_mapValues
          (p := fun w : Value => w.isObject = true) |>.2 fun e he => ?_)
        rw [hparts e.2 (snd_mem_parts he)]
        exact hobjects e.2 (List.mem_map_of_mem he)
      | _ => exact fun w hw => absurd hw List.not_mem_nil

/-! ## Each kind of merge -/

/-- A map keeps its shape if objects come in. -/
theorem mergeMap_kept (hvalue : value.holdsObjects = true) :
    Kept target (mergeMap target value).value := by
  refine ⟨(mergeMap_grown (P := fun _ => True) fun _ _ => trivial).regrown, ?_⟩
  unfold mergeMap
  split
  · rename_i m new
    split
    · rename_i m' old
      intro hold
      rw [holdsObjects_object] at hold hvalue ⊢
      exact fun e he => (mem_addNew he).elim (hold e) (hvalue e)
    · exact fun h => h
  · exact fun h => h

/-- Objects go into an object without a fault. -/
theorem mergeMap_fault (htarget : target.isObject = true) (hvalue : value.isObject = true) :
    (mergeMap target value).fault = none := by
  obtain ⟨m, entries, rfl⟩ := isObject_iff.1 htarget
  obtain ⟨m', new, rfl⟩ := isObject_iff.1 hvalue
  rfl

/-- Groups that are objects are merged into a list of objects, which stays one. -/
theorem mergeGroups_list (htarget : target.isList = true) (hobjects : target.holdsObjects = true)
    (hvalue : value.isList = true) (hvalues : value.holdsObjects = true) :
    (mergeGroups target value).fault = none ∧ Kept target (mergeGroups target value).value := by
  obtain ⟨m, items, rfl⟩ := isList_iff.1 htarget
  obtain ⟨m', groups, rfl⟩ := isList_iff.1 hvalue
  have hitems : ∀ item ∈ items, item.isObject = true := holdsObjects_iff.1 hobjects
  have hgroups : ∀ group ∈ groups, group.isObject = true := holdsObjects_iff.1 hvalues
  rw [mergeGroups, itemsOrSelf, addGroups_objects m hitems hgroups]
  exact ⟨rfl, .list m items _, fun _ => holdsObjects_iff.2 (isObject_foldl_addGroup hitems hgroups)⟩

/-- Paths that are objects are merged into an object of objects, which stays one. -/
theorem mergePaths_object (htarget : target.isObject = true) (hobjects : target.holdsObjects = true)
    (hvalue : value.isObject = true) (hvalues : value.holdsObjects = true) :
    (mergePaths target value).fault = none ∧ Kept target (mergePaths target value).value := by
  obtain ⟨m, paths, rfl⟩ := isObject_iff.1 htarget
  obtain ⟨m', new, rfl⟩ := isObject_iff.1 hvalue
  rw [holdsObjects_object] at hobjects hvalues
  rw [mergePaths_of_objects m m' hobjects hvalues]
  refine ⟨rfl, .object m paths _, fun _ => holdsObjects_object.2 ?_⟩
  exact Assoc.forall_mem_mergeWith (p := fun v : Value => v.isObject = true) hobjects
    fun _ _ _ _ => rfl

/-! ## The three steps -/

/-- The entries of a document whose paths are an object of objects, whose groups are a list of
objects and whose definitions are an object. -/
structure Shaped (entries : List (Atom × Value)) : Prop where
  paths : ∃ v, Assoc.get? (.text "paths") entries = some v ∧
    v.isObject = true ∧ v.holdsObjects = true
  tags : ∃ v, Assoc.get? (.text "tags") entries = some v ∧ v.isList = true ∧ v.holdsObjects = true
  definitions : ∃ v, Assoc.get? (.text "definitions") entries = some v ∧ v.isObject = true

/-- What is said of the shape of a section holds after every change that keeps shapes. -/
theorem Sound.section_kept (h : Sound heap entries) {key : String}
    (hget : Assoc.get? (.text key) entries = some old) (hchange : Change heap old new)
    (hkept : Kept old new) {P : Value → Prop} (hP : ∀ v w, Kept v w → P v → P w) {key' : String}
    (hsection : ∃ v, Assoc.get? (.text key') entries = some v ∧ P v) :
    ∃ v, Assoc.get? (.text key') (Document.putSection key old new entries) = some v ∧ P v := by
  obtain ⟨hfollows, hnum⟩ := h.get? hget
  obtain ⟨v, hv, hPv⟩ := hsection
  by_cases hkey : key = key'
  · subst hkey
    obtain rfl : old = v := Option.some.inj (hget.symm.trans hv)
    exact ⟨new, get?_putSection_self hchange.regrown key, hP _ _ hkept hPv⟩
  · refine ⟨patch old new v, get?_putSection_of_get? hkey hv old new, hP _ _ ?_ hPv⟩
    exact hchange.patch_kept hfollows hnum hkept (h.get? hv).1

/-- A document keeps its shape with a section that keeps its own. -/
theorem Shaped.putSection (hshape : Shaped entries) (h : Sound heap entries) {key : String}
    (hget : Assoc.get? (.text key) entries = some old) (hchange : Change heap old new)
    (hkept : Kept old new) : Shaped (Document.putSection key old new entries) := by
  refine ⟨?_, ?_, ?_⟩
  · refine h.section_kept hget hchange hkept (fun v w hvw hv => ?_) hshape.paths
    exact ⟨hvw.regrown.isObject_eq.trans hv.1, hvw.objects hv.2⟩
  · refine h.section_kept hget hchange hkept (fun v w hvw hv => ?_) hshape.tags
    exact ⟨hvw.regrown.isList_eq.trans hv.1, hvw.objects hv.2⟩
  · refine h.section_kept hget hchange hkept (fun v w hvw hv => ?_) hshape.definitions
    exact hvw.regrown.isObject_eq.trans hv

/-- The entries of a document that every fragment can be merged into. -/
structure Open (entries : List (Atom × Value)) : Prop where
  sound : ∃ heap, Sound heap entries
  shaped : Shaped entries

/-- A step that finds its section goes through and leaves an open document, if the merge goes
through and keeps the shape of the section. -/
theorem Open.mergeInto (h : Open entries) (kind : SectionKind) {key : String}
    (hget : Assoc.get? (.text key) entries = some old) (hvalue : value.IsNew)
    (hmerge : (mergeSection kind old value).fault = none ∧
      Kept old (mergeSection kind old value).value) :
    faultInto key kind value entries = none ∧ Open (mergeInto key kind value entries) := by
  obtain ⟨heap, hsound⟩ := h.sound
  rw [faultInto, Document.mergeInto, sectionOf_eq hget]
  obtain ⟨hfollows, hnum⟩ := hsound.get? hget
  have hchange : Change heap old _ := mergeSection_change kind hvalue
  exact ⟨hmerge.1, ⟨_, hsound.putSection hfollows hnum hchange key⟩,
    h.shaped.putSection hsound hget hchange hmerge.2⟩

/-- A fragment is merged into an open document by all three steps, and each leaves an open
document. -/
theorem Open.steps (h : Open entries) {paths groups definitions : Value}
    (hpaths : paths.IsNew ∧ paths.isObject = true ∧ paths.holdsObjects = true)
    (hgroups : groups.IsNew ∧ groups.isList = true ∧ groups.holdsObjects = true)
    (hdefinitions : definitions.IsNew ∧ definitions.isObject = true ∧
      definitions.holdsObjects = true) :
    ∃ withPaths withGroups withDefinitions,
      withPaths = Document.mergeInto "paths" .paths paths entries ∧ Open withPaths ∧
      withGroups = Document.mergeInto "tags" .groups groups withPaths ∧ Open withGroups ∧
      withDefinitions = Document.mergeInto "definitions" .map definitions withGroups ∧
      Open withDefinitions ∧
      Document.mergeParts paths groups definitions entries = (withDefinitions, none) := by
  obtain ⟨p, hp, hpobject, hpobjects⟩ := h.shaped.paths
  obtain ⟨hpfault, hpopen⟩ := h.mergeInto .paths hp hpaths.1
    (mergePaths_object hpobject hpobjects hpaths.2.1 hpaths.2.2)
  obtain ⟨t, ht, htlist, htobjects⟩ := hpopen.shaped.tags
  obtain ⟨htfault, htopen⟩ := hpopen.mergeInto .groups ht hgroups.1
    (mergeGroups_list htlist htobjects hgroups.2.1 hgroups.2.2)
  obtain ⟨d, hd, hdobject⟩ := htopen.shaped.definitions
  obtain ⟨hdfault, hdopen⟩ := htopen.mergeInto .map hd hdefinitions.1
    ⟨mergeMap_fault hdobject hdefinitions.2.1, mergeMap_kept hdefinitions.2.2⟩
  refine ⟨_, _, _, rfl, hpopen, rfl, htopen, rfl, hdopen, ?_⟩
  rw [Document.mergeParts]
  simp only [hpfault, htfault, hdfault]

end Document

/-! ## Fragments -/

namespace Fragment

open Value

/-- The paths of a fragment are objects. -/
theorem holdsObjects_valueOfPaths (paths : Assoc String (Assoc String (List (Atom × Value)))) :
    (valueOfPaths paths).holdsObjects = true := by
  rw [valueOfPaths, holdsObjects_object]
  exact List.forall_mem_map.2 fun _ _ => rfl

/-- The groups of a fragment are objects. -/
theorem holdsObjects_groupsValue (groups : List Group) : (groupsValue groups).holdsObjects = true :=
  holdsObjects_iff.2 (List.forall_mem_map.2 fun _ _ => rfl)

section Shapes

variable {f : Fragment} {v : Value}

/-- What has the content of paths is an object of objects. -/
theorem shape_of_pathsValue (h : v.plain = f.pathsValue.plain) :
    v.isObject = true ∧ v.holdsObjects = true := by
  rw [← isObject_plain, ← holdsObjects_plain, h, isObject_plain, holdsObjects_plain, pathsValue_eq]
  exact ⟨rfl, holdsObjects_valueOfPaths f.paths⟩

/-- What has the content of groups is a list of objects. -/
theorem shape_of_groupsValue (h : v.plain = (groupsValue f.groups).plain) :
    v.isList = true ∧ v.holdsObjects = true := by
  rw [← isList_plain, ← holdsObjects_plain, h, isList_plain, holdsObjects_plain]
  exact ⟨rfl, holdsObjects_groupsValue f.groups⟩

/-- What has the content of definitions is an object of objects. -/
theorem shape_of_definitionsValue (h : v.plain = f.definitionsValue.plain) :
    v.isObject = true ∧ v.holdsObjects = true := by
  rw [← isObject_plain, ← holdsObjects_plain, h, isObject_plain, holdsObjects_plain,
    definitionsValue_eq, holdsObjects_object, Assoc.mapValues_texts]
  exact ⟨rfl, List.forall_mem_map.2 fun _ _ => rfl⟩

end Shapes

end Fragment

namespace Document

/-- A fragment is merged into an open document by three steps, each with a part of the fragment, and
each leaves an open document. -/
theorem Open.addSteps {entries : List (Atom × Value)} (h : Open entries) (m : Option Mark)
    {f : Fragment} {v : Value} (hv : f.Denotes v) :
    ∃ paths groups definitions withPaths withGroups withDefinitions,
      (paths.plain = f.pathsValue.plain ∧ paths.IsNew) ∧
      (groups.plain = (Fragment.groupsValue f.groups).plain ∧ groups.IsNew) ∧
      (definitions.plain = f.definitionsValue.plain ∧ definitions.IsNew) ∧
      (withPaths = Document.mergeInto "paths" .paths paths entries ∧ Open withPaths) ∧
      (withGroups = Document.mergeInto "tags" .groups groups withPaths ∧ Open withGroups) ∧
      (withDefinitions = Document.mergeInto "definitions" .map definitions withGroups ∧
        Open withDefinitions) ∧
      Document.add (.object m entries) (.array [v]) = ⟨.object m withDefinitions, none⟩ := by
  obtain ⟨m', paths, groups, definitions, rfl, hpaths, hgroups, hdefinitions⟩ := hv.parts
  obtain ⟨withPaths, withGroups, withDefinitions, hwp, hpopen, hwg, hgopen, hwd, hdopen, hparts⟩ :=
    h.steps ⟨hpaths.2, Fragment.shape_of_pathsValue hpaths.1⟩
      ⟨hgroups.2, Fragment.shape_of_groupsValue hgroups.1⟩
      ⟨hdefinitions.2, Fragment.shape_of_definitionsValue hdefinitions.1⟩
  refine ⟨paths, groups, definitions, withPaths, withGroups, withDefinitions, hpaths, hgroups,
    hdefinitions, ⟨hwp, hpopen⟩, ⟨hwg, hgopen⟩, ⟨hwd, hdopen⟩, ?_⟩
  rw [add_fragment, hparts]

/-- Merging a fragment into an open document does not fail, and the document stays open. -/
theorem Open.add {entries : List (Atom × Value)} (h : Open entries) (m : Option Mark)
    {f : Fragment} {v : Value} (hv : f.Denotes v) :
    ∃ entries', Document.add (.object m entries) (.array [v]) = ⟨.object m entries', none⟩ ∧
      Open entries' := by
  obtain ⟨_, _, _, _, _, withDefinitions, -, -, -, -, -, ⟨-, hopen⟩, hadd⟩ := h.addSteps m hv
  exact ⟨withDefinitions, hadd, hopen⟩

end Document

end ApiDoc
