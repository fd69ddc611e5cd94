import ApiDoc.Proofs.Document.Paths
import ApiDoc.Proofs.Value.Equality

/-!
# Documents with sections of their own

A merge into a section shows wherever the section is. If no section that fragments have something
for is in the document a second time, nor in what is merged in (`Separate`), then each merge shows
in its own place only, and merging fragments is merging maps: under the name of each section comes
in what the fragments have for it (`Apart.add_value`). A fragment that fails stops the run; what
had been reached by then is merged (`reached`). The run goes through just if all names are known
and each section takes what comes in (`Apart.add_fault_iff`).
-/

namespace ApiDoc

namespace Value

/-- The values of an object are its parts. -/
theorem mem_parts_of_mem_entries {v : Value} {e : Atom × Value} (h : e ∈ v.entries) :
    e.2 ∈ v.parts := by
  cases v with
  | object m entries => exact snd_mem_parts h
  | _ => exact absurd h List.not_mem_nil

/-- Of what an enumeration gives, objects with entries are parts of the value. -/
theorem mem_parts_of_elements? {v w : Value} {items : List Value} (h : v.elements? = some items)
    (hw : w ∈ items) {e : Atom × Value} (he : e ∈ w.entries) : w ∈ v.parts := by
  unfold elements? at h
  split at h
  all_goals cases h
  · exact hw
  · obtain ⟨_, -, rfl⟩ := List.mem_map.1 hw
    exact absurd he List.not_mem_nil
  · exact hw
  · exact hw
  · obtain ⟨_, -, rfl⟩ := List.mem_map.1 hw
    exact absurd he List.not_mem_nil
  · obtain ⟨_, -, rfl⟩ := List.mem_map.1 hw
    exact absurd he List.not_mem_nil

end Value

namespace Document

open Value

variable {marks : List Mark} {names : List String} {entries : List (Atom × Value)}
  {old new value : Value}

/-! ## Sections that are nowhere else -/

/-- The marks of the sections of a document. -/
def sectionMarks (entries : List (Atom × Value)) : List Mark := entries.filterMap fun e => e.2.mark?

/-- The names of the sections that properties are for. -/
def sectionsOf (properties : List (Atom × Value)) : List String :=
  properties.filterMap fun e => (propertyOf? e.1).map Prod.fst

/-- The marks of the sections of a document under some names. -/
def marksUnder (names : List String) (entries : List (Atom × Value)) : List Mark :=
  names.filterMap fun name => (Assoc.get? (.text name) entries).bind mark?

/-- The entries of a document in which each section that properties are for stands in one place: it
is no other section, and it is neither inside a section nor in what is merged in. Sections without
marks stand in one place, and those that no property is for may stand in several. -/
structure Separate (entries properties : List (Atom × Value)) : Prop where
  once : ∀ mark ∈ marksUnder (sectionsOf properties) entries, (sectionMarks entries).count mark ≤ 1
  inside : ∀ e ∈ entries, ∀ w ∈ e.2.parts,
    w.Marked fun mark _ => mark ∉ marksUnder (sectionsOf properties) entries
  incoming : ∀ e ∈ properties,
    e.2.Marked fun mark _ => mark ∉ marksUnder (sectionsOf properties) entries

/-- The entries of a document in which the sections under some names have some of given marks, and
each of these marks is in one place at most. -/
structure Apart (marks : List Mark) (names : List String) (entries : List (Atom × Value)) :
    Prop where
  named : ∀ name ∈ names, ∀ v, Assoc.get? (.text name) entries = some v →
    ∀ mark, v.mark? = some mark → mark ∈ marks
  once : ∀ mark ∈ marks, (sectionMarks entries).count mark ≤ 1
  inside : ∀ e ∈ entries, ∀ w ∈ e.2.parts, w.Marked fun mark _ => mark ∉ marks

/-- A property that is for one of the sections under some names, if it is for any, and has none of
given marks in its value. -/
structure Enters (marks : List Mark) (names : List String) (e : Atom × Value) : Prop where
  named : ∀ key kind, propertyOf? e.1 = some (key, kind) → key ∈ names
  value : e.2.Marked fun mark _ => mark ∉ marks

/-- The marks of the sections that properties are for are in one place. -/
theorem Separate.apart {properties : List (Atom × Value)} (h : Separate entries properties) :
    Apart (marksUnder (sectionsOf properties) entries) (sectionsOf properties) entries where
  named name hname v hv mark hmark :=
    List.mem_filterMap.2 ⟨name, hname, by rw [hv, Option.bind_some, hmark]⟩
  once := h.once
  inside := h.inside

/-- Properties are for the sections that they are for, and have none of their marks. -/
theorem Separate.enters {properties : List (Atom × Value)} (h : Separate entries properties) :
    ∀ e ∈ properties,
      Enters (marksUnder (sectionsOf properties) entries) (sectionsOf properties) e := by
  refine fun e he => ⟨fun key kind hkey => ?_, h.incoming e he⟩
  exact List.mem_filterMap.2 ⟨e, he, by rw [hkey, Option.map_some]⟩

/-- What stands in one place for properties does so for some of them. -/
theorem Separate.of_subset {properties some : List (Atom × Value)}
    (h : Separate entries properties) (hsubset : some ⊆ properties) : Separate entries some := by
  have hmarks : marksUnder (sectionsOf some) entries ⊆ marksUnder (sectionsOf properties) entries :=
    List.filterMap_subset _ (List.filterMap_subset _ hsubset)
  refine ⟨fun mark hmark => h.once mark (hmarks hmark), fun e he w hw => ?_, fun e he => ?_⟩
  · exact (h.inside e he w hw).mono fun mark _ hnot hin => hnot (hmarks hin)
  · exact (h.incoming e (hsubset he)).mono fun mark _ hnot hin => hnot (hmarks hin)

/-- Sections without marks stand in one place. -/
theorem separate_of_marksUnder {properties : List (Atom × Value)}
    (h : marksUnder (sectionsOf properties) entries = []) : Separate entries properties := by
  refine ⟨?_, fun _ _ _ _ _ mark _ _ => ?_, fun _ _ _ mark _ _ => ?_⟩
  all_goals rw [h]
  · exact nofun
  all_goals exact List.not_mem_nil

/-- The mark of a section is among the marks of the sections. -/
theorem mem_sectionMarks {mark : Mark} {e : Atom × Value} (he : e ∈ entries)
    (hmark : e.2.mark? = some mark) : mark ∈ sectionMarks entries :=
  List.mem_filterMap.2 ⟨e, he, hmark⟩

theorem sectionMarks_cons (e : Atom × Value) (entries : List (Atom × Value)) :
    sectionMarks (e :: entries) = e.2.mark?.toList ++ sectionMarks entries := by
  rw [sectionMarks, List.filterMap_cons]
  cases e.2.mark? <;> rfl

/-- The marks stay when a section is replaced by one with the same mark. -/
theorem sectionMarks_insert {key : Atom} {empty : Value} (hempty : empty.mark? = none)
    (hmark : new.mark? = ((Assoc.get? key entries).getD empty).mark?) :
    sectionMarks (Assoc.insert key new entries) = sectionMarks entries := by
  induction entries with
  | nil =>
    have hnone : new.mark? = none := hmark.trans hempty
    rw [Assoc.insert, sectionMarks_cons, hnone]
    rfl
  | cons e entries ih =>
    obtain ⟨k, v⟩ := e
    rw [Assoc.get?] at hmark
    rw [Assoc.insert]
    split at hmark
    · rename_i hk
      rw [if_pos hk, sectionMarks_cons, sectionMarks_cons, hmark, Option.getD_some]
    · rename_i hk
      rw [if_neg hk, sectionMarks_cons, sectionMarks_cons, ih hmark]

/-- After a section is replaced whose mark is there once, no other section has its mark. -/
theorem mark?_ne_of_mem_insert {key : Atom} {mark : Mark}
    (honce : (sectionMarks entries).count mark ≤ 1) (hget : Assoc.get? key entries = some old)
    (hmark : old.mark? = some mark) {e : Atom × Value} (he : e ∈ Assoc.insert key new entries) :
    e.2 = new ∨ e ∈ entries ∧ e.2.mark? ≠ some mark := by
  induction entries with
  | nil => cases hget
  | cons e' entries ih =>
    obtain ⟨k, v⟩ := e'
    rw [sectionMarks_cons, List.count_append] at honce
    -- one mark cannot be both that of the first section and that of a later one
    have hnot : v.mark? = some mark → mark ∉ sectionMarks entries := by
      intro hv
      rw [hv, Option.toList_some, List.count_singleton_self] at honce
      exact List.count_eq_zero.1 (by omega)
    rw [Assoc.get?] at hget
    rw [Assoc.insert] at he
    split at hget
    · rename_i hk
      cases hget
      rw [if_pos hk, List.mem_cons] at he
      rcases he with rfl | he
      · exact .inl rfl
      · exact .inr ⟨List.mem_cons_of_mem _ he, fun h => hnot hmark (mem_sectionMarks he h)⟩
    · rename_i hk
      rw [if_neg hk, List.mem_cons] at he
      rcases he with rfl | he
      · obtain ⟨k', hk'⟩ := Assoc.mem_of_get? hget
        exact .inr ⟨List.mem_cons_self, fun h => hnot h (mem_sectionMarks hk' hmark)⟩
      · exact (ih (by omega) hget he).imp_right fun h => ⟨List.mem_cons_of_mem _ h.1, h.2⟩

/-! ## One step -/

/-- What has become of a section, or of an empty one, when a value of its kind was merged in. -/
def joinSection (x : Option Value) (p : SectionKind × Value) : Value :=
  (mergeSection p.1 (x.getD (emptySection p.1)) p.2).value

/-- Whether a section, or an empty one, takes a value of its kind. -/
def Fits (x : Option Value) (p : SectionKind × Value) : Prop :=
  (mergeSection p.1 (x.getD (emptySection p.1)) p.2).fault = none

/-- An empty section has no mark. -/
theorem mark?_emptySection (kind : SectionKind) : (emptySection kind).mark? = none := by
  cases kind <;> rfl

/-- A section that is nowhere else is replaced in its own place only. -/
theorem Apart.putSection_eq (h : Apart marks names entries) {key : String} (hkey : key ∈ names)
    {empty : Value} (hempty : empty.mark? = none)
    (hregrown : Regrown ((Assoc.get? (.text key) entries).getD empty) new) :
    putSection key ((Assoc.get? (.text key) entries).getD empty) new entries =
      Assoc.insert (.text key) new entries := by
  rw [Document.putSection_eq]
  refine Assoc.mapValues_eq_self fun e he => ?_
  cases hmark : ((Assoc.get? (.text key) entries).getD empty).mark? with
  | none => exact patch_of_mark?_eq_none hmark new e.2
  | some mark =>
    -- an empty section has no mark, so the section is there
    obtain ⟨old, hget⟩ : ∃ old, Assoc.get? (.text key) entries = some old := by
      cases hget : Assoc.get? (.text key) entries with
      | some old => exact ⟨old, rfl⟩
      | none =>
        rw [hget, Option.getD_none, hempty] at hmark
        cases hmark
    rw [hget, Option.getD_some] at hmark hregrown ⊢
    have hin : mark ∈ marks := h.named key hkey old hget mark hmark
    rcases mark?_ne_of_mem_insert (h.once mark hin) hget hmark he with hnew | ⟨hmem, hne⟩
    · rw [hnew, hregrown.patch_new]
    · -- neither the other section itself nor anything inside it is the replaced one
      rw [patch_of_mark?_eq_some hmark]
      refine refresh_eq_self_of_ne (marked_iff.2 ⟨?_, fun w hw => ?_⟩)
      · rintro m hm rfl
        exact hne hm
      · refine (h.inside e hmem w hw).mono ?_
        rintro m _ hm rfl
        exact hm hin

/-- A step changes the entry of its section, and the sections stay in one place each. -/
theorem Apart.mergeInto (h : Apart marks names entries) {key : String} (hkey : key ∈ names)
    (hvalue : value.Marked fun mark _ => mark ∉ marks) (kind : SectionKind) :
    Document.mergeInto key kind value entries =
        Assoc.alter (.text key) (fun x => joinSection x (kind, value)) entries ∧
      Apart marks names
        (Assoc.alter (.text key) (fun x => joinSection x (kind, value)) entries) := by
  have hgain : Gain (fun mark _ => mark ∉ marks)
      ((Assoc.get? (.text key) entries).getD (emptySection kind))
      (joinSection (Assoc.get? (.text key) entries) (kind, value)) :=
    mergeSection_gain kind hvalue
  have hempty := mark?_emptySection kind
  refine ⟨h.putSection_eq hkey hempty hgain.regrown, fun name hname v hv mark hmark => ?_,
    fun mark hmark => ?_, fun e he => ?_⟩
  · rw [Assoc.get?_alter] at hv
    split at hv
    · -- the section has the mark that it had, or none if it is new
      rename_i hsame
      cases hv
      rw [← Assoc.get?_congr hsame, hgain.regrown.mark?_eq] at hmark
      cases hget : Assoc.get? (.text key) entries with
      | some old =>
        rw [hget] at hmark
        exact h.named key hkey old hget mark hmark
      | none =>
        rw [hget, Option.getD_none, hempty] at hmark
        cases hmark
    · exact h.named name hname v hv mark hmark
  · rw [Assoc.alter, sectionMarks_insert hempty hgain.regrown.mark?_eq]
    exact h.once mark hmark
  · rcases Assoc.mem_insert he with hold | hnew
    · exact h.inside e hold
    · rw [hnew]
      refine hgain.marked ?_
      cases hget : Assoc.get? (.text key) entries with
      | some old =>
        obtain ⟨k, hk⟩ := Assoc.mem_of_get? hget
        exact h.inside _ hk
      | none =>
        cases kind <;> exact fun w hw => absurd hw List.not_mem_nil

/-! ## The run over the properties of fragments -/

/-- The fragments that a value is an enumeration of. -/
def fragmentsOf (fragments : Value) : List Value :=
  if fragments.isNull then [] else fragments.elements?.getD []

/-- The properties of fragments, one after another. -/
def propertiesOf (fragments : Value) : List (Atom × Value) :=
  (fragmentsOf fragments).flatMap Value.entries

/-- What comes into a document by properties: under the name of each section, values of its
kind. -/
def stepsOf (properties : List (Atom × Value)) : List (Atom × SectionKind × Value) :=
  properties.filterMap fun e => (propertyOf? e.1).map fun s => (.text s.1, s.2, e.2)

/-- The properties that a run gets to, the one that it fails at included. -/
def reachedProperties (document : Value) : List (Atom × Value) → List (Atom × Value)
  | [] => []
  | (name, value) :: rest =>
    match propertyOf? name with
    | none => []
    | some (key, kind) =>
      (name, value) ::
        match addProperty document key kind value with
        | ⟨document, none⟩ => reachedProperties document rest
        | _ => []

/-- The properties of fragments that a run gets to. -/
def reachedFragments (document : Value) : List Value → List (Atom × Value)
  | .object _ properties :: rest =>
    reachedProperties document properties ++
      match addProperties document properties with
      | ⟨document, none⟩ => reachedFragments document rest
      | _ => []
  | _ => []

/-- The properties that are merged into a document, up to the one that fails. -/
def reached (document fragments : Value) : List (Atom × Value) :=
  reachedFragments document (fragmentsOf fragments)

/-- What properties in a row bring in, one part after the other. -/
theorem stepsOf_append (ps qs : List (Atom × Value)) :
    stepsOf (ps ++ qs) = stepsOf ps ++ stepsOf qs :=
  List.filterMap_append

/-- A known property comes first in what is brought in. -/
theorem stepsOf_cons {name : Atom} {key : String} {kind : SectionKind}
    (h : propertyOf? name = some (key, kind)) (value : Value) (ps : List (Atom × Value)) :
    stepsOf ((name, value) :: ps) = (.text key, kind, value) :: stepsOf ps := by
  rw [stepsOf, List.filterMap_cons]
  simp only [h, Option.map_some]
  rfl

/-- A run gets to a known property, and past it if that has no fault. -/
theorem reachedProperties_cons {name : Atom} {key : String} {kind : SectionKind}
    (h : propertyOf? name = some (key, kind)) (m : Option Mark) (entries : List (Atom × Value))
    (value : Value) (rest : List (Atom × Value)) :
    reachedProperties (.object m entries) ((name, value) :: rest) =
      (name, value) ::
        match faultInto key kind value entries with
        | none => reachedProperties (.object m (Document.mergeInto key kind value entries)) rest
        | some _ => [] := by
  rw [reachedProperties]
  simp only [h, addProperty_object]
  cases faultInto key kind value entries <;> rfl

/-- The document after a run over properties: what the run got to is merged in. -/
theorem Apart.addProperties_value (h : Apart marks names entries)
    {ps : List (Atom × Value)} (hps : ∀ e ∈ ps, Enters marks names e) (m : Option Mark) :
    (addProperties (.object m entries) ps).value = .object m (Assoc.mergeWith joinSection entries
        (stepsOf (reachedProperties (.object m entries) ps))) ∧
      Apart marks names (Assoc.mergeWith joinSection entries
        (stepsOf (reachedProperties (.object m entries) ps))) := by
  induction ps generalizing entries with
  | nil => exact ⟨rfl, h⟩
  | cons e ps ih =>
    obtain ⟨name, value⟩ := e
    obtain ⟨hfirst, hrest⟩ := List.forall_mem_cons.1 hps
    cases hname : propertyOf? name with
    | none =>
      rw [addProperties, reachedProperties]
      simp only [hname]
      exact ⟨rfl, h⟩
    | some s =>
      obtain ⟨key, kind⟩ := s
      obtain ⟨hstep, hapart⟩ := h.mergeInto (hfirst.named key kind hname) hfirst.value kind
      rw [addProperties_cons hname, reachedProperties_cons hname, stepsOf_cons hname, hstep]
      cases faultInto key kind value entries with
      | none => exact ih hapart hrest
      | some fault => exact ⟨rfl, hapart⟩

/-- A run over properties goes through just if all their names are known and each section takes
what comes in; then it gets to all of them. -/
theorem Apart.addProperties_fault_iff (h : Apart marks names entries)
    {ps : List (Atom × Value)} (hps : ∀ e ∈ ps, Enters marks names e) (m : Option Mark) :
    ((addProperties (.object m entries) ps).fault = none ↔
        (∀ e ∈ ps, (propertyOf? e.1).isSome = true) ∧
          Assoc.Admits Fits joinSection entries (stepsOf ps)) ∧
      ((addProperties (.object m entries) ps).fault = none →
        reachedProperties (.object m entries) ps = ps) := by
  induction ps generalizing entries with
  | nil => exact ⟨⟨fun _ => ⟨fun e he => absurd he List.not_mem_nil, trivial⟩, fun _ => rfl⟩,
      fun _ => rfl⟩
  | cons e ps ih =>
    obtain ⟨name, value⟩ := e
    obtain ⟨hfirst, hrest⟩ := List.forall_mem_cons.1 hps
    cases hname : propertyOf? name with
    | none =>
      rw [addProperties, List.forall_mem_cons]
      simp only [hname, reduceCtorEq, Option.isSome_none, Bool.false_eq_true, false_and,
        false_implies, and_self]
    | some s =>
      obtain ⟨key, kind⟩ := s
      obtain ⟨hstep, hapart⟩ := h.mergeInto (hfirst.named key kind hname) hfirst.value kind
      rw [addProperties_cons hname, reachedProperties_cons hname, stepsOf_cons hname, hstep,
        List.forall_mem_cons, hname, Assoc.Admits]
      -- the first step fails exactly if the section does not take the value
      have hfits : Fits (Assoc.get? (.text key) entries) (kind, value) ↔
          faultInto key kind value entries = none := Iff.rfl
      rw [hfits]
      cases faultInto key kind value entries with
      | none =>
        obtain ⟨hiff, hall⟩ := ih hapart hrest
        simp only [Option.isSome_some, true_and]
        exact ⟨hiff, fun hnone => by rw [hall hnone]⟩
      | some fault => simp only [reduceCtorEq, false_and, and_false, false_implies, and_self]

/-- Whether a value is an object whose properties are all known. -/
def isSupported (fragment : Value) : Bool :=
  fragment.isObject && fragment.entries.all fun e => (propertyOf? e.1).isSome

/-- The document after a run over fragments: what the run got to is merged in. -/
theorem Apart.addFragments_value (h : Apart marks names entries) {items : List Value}
    (hitems : ∀ e ∈ items.flatMap Value.entries, Enters marks names e) (m : Option Mark) :
    (addFragments (.object m entries) items).value = .object m (Assoc.mergeWith joinSection entries
        (stepsOf (reachedFragments (.object m entries) items))) ∧
      Apart marks names (Assoc.mergeWith joinSection entries
        (stepsOf (reachedFragments (.object m entries) items))) := by
  induction items generalizing entries with
  | nil => exact ⟨rfl, h⟩
  | cons item items ih =>
    obtain ⟨hitem, hrest⟩ := List.forall_mem_append.1 (List.flatMap_cons ▸ hitems)
    cases item with
    | object m' ps =>
      have hps : ∀ e ∈ ps, Enters marks names e := hitem
      obtain ⟨hvalue, hapart⟩ := h.addProperties_value hps m
      rw [addFragments, reachedFragments, stepsOf_append, Assoc.mergeWith_append]
      generalize addProperties (.object m entries) ps = run at hvalue ⊢
      obtain ⟨document, fault⟩ := run
      obtain rfl : document = _ := hvalue
      cases fault with
      | none => exact ih hapart hrest
      | some fault => exact ⟨rfl, hapart⟩
    | _ => exact ⟨rfl, h⟩

/-- A run over fragments goes through just if all their properties are known and each section takes
what comes in; then it gets to all of them. -/
theorem Apart.addFragments_fault_iff (h : Apart marks names entries) {items : List Value}
    (hitems : ∀ e ∈ items.flatMap Value.entries, Enters marks names e) (m : Option Mark) :
    ((addFragments (.object m entries) items).fault = none ↔
        (∀ item ∈ items, isSupported item = true) ∧
          Assoc.Admits Fits joinSection entries (stepsOf (items.flatMap Value.entries))) ∧
      ((addFragments (.object m entries) items).fault = none →
        reachedFragments (.object m entries) items = items.flatMap Value.entries) := by
  induction items generalizing entries with
  | nil => exact ⟨⟨fun _ => ⟨fun item hitem => absurd hitem List.not_mem_nil, trivial⟩,
      fun _ => rfl⟩, fun _ => rfl⟩
  | cons item items ih =>
    obtain ⟨hitem, hrest⟩ := List.forall_mem_append.1 (List.flatMap_cons ▸ hitems)
    rw [List.forall_mem_cons, List.flatMap_cons]
    cases item with
    | object m' ps =>
      have hps : ∀ e ∈ ps, Enters marks names e := hitem
      obtain ⟨hvalue, hapart⟩ := h.addProperties_value hps m
      obtain ⟨hiff, hall⟩ := h.addProperties_fault_iff hps m
      have hsupported : isSupported (.object m' ps) = true ↔
          ∀ e ∈ ps, (propertyOf? e.1).isSome = true := List.all_eq_true
      rw [addFragments, reachedFragments, stepsOf_append, Assoc.admits_append, hsupported]
      generalize addProperties (.object m entries) ps = run at hvalue hiff hall ⊢
      obtain ⟨document, fault⟩ := run
      obtain rfl : document = _ := hvalue
      cases fault with
      | none =>
        -- the fragment is merged in whole, and the run goes on with what became of the document
        obtain ⟨hknown, hadmits⟩ := hiff.1 rfl
        rw [hall rfl] at hapart ⊢
        obtain ⟨hiff', hall'⟩ := ih hapart hrest
        refine ⟨?_, fun hnone => congrArg (ps ++ ·) (hall' hnone)⟩
        refine hiff'.trans ⟨fun h => ⟨⟨hknown, h.1⟩, hadmits, h.2⟩, fun h => ⟨h.1.2, h.2.2⟩⟩
      | some fault =>
        have hnot : ¬((∀ e ∈ ps, (propertyOf? e.1).isSome = true) ∧
            Assoc.Admits Fits joinSection entries (stepsOf ps)) :=
          fun h => Option.some_ne_none _ (hiff.2 h)
        exact ⟨⟨fun h => absurd h (Option.some_ne_none _),
          fun h => absurd ⟨h.1.1, h.2.1⟩ hnot⟩, fun h => absurd h (Option.some_ne_none _)⟩
    | _ =>
      exact ⟨⟨fun h => absurd h (Option.some_ne_none _), fun h => absurd h.1.1 Bool.false_ne_true⟩,
        fun h => absurd h (Option.some_ne_none _)⟩

/-! ## The whole merge -/

/-- Whether a value is an enumeration of objects whose properties are all known. -/
def areSupported (fragments : Value) : Bool :=
  !fragments.isNull && fragments.elements?.isSome && (fragmentsOf fragments).all isSupported

/-- A fragment is one of what an enumeration gives. -/
theorem exists_of_mem_fragmentsOf {fragments item : Value} (h : item ∈ fragmentsOf fragments) :
    ∃ items, fragments.elements? = some items ∧ item ∈ items := by
  rw [fragmentsOf] at h
  split at h
  · exact absurd h List.not_mem_nil
  · cases helements : fragments.elements? with
    | none =>
      rw [helements] at h
      exact absurd h List.not_mem_nil
    | some items =>
      rw [helements] at h
      exact ⟨items, rfl, h⟩

/-- An enumeration of fragments is merged fragment by fragment. -/
theorem add_of_elements? {fragments : Value} (hnull : fragments.isNull = false) {items : List Value}
    (hitems : fragments.elements? = some items) (m : Option Mark) (entries : List (Atom × Value)) :
    fragmentsOf fragments = items ∧
      add (.object m entries) fragments = addFragments (.object m entries) items := by
  rw [fragmentsOf, add, hnull, hitems]
  exact ⟨rfl, rfl⟩

/-- Nothing is merged in by what is no enumeration. -/
theorem add_of_not_elements? {fragments : Value}
    (h : fragments.isNull = true ∨ fragments.elements? = none) (m : Option Mark)
    (entries : List (Atom × Value)) :
    fragmentsOf fragments = [] ∧ areSupported fragments = false ∧
      ∃ fault, add (.object m entries) fragments = ⟨.object m entries, some fault⟩ := by
  rw [fragmentsOf, areSupported, add]
  rcases h with hnull | hnone
  · rw [hnull]
    exact ⟨rfl, rfl, _, rfl⟩
  · rw [hnone]
    cases hnull : fragments.isNull with
    | true => exact ⟨rfl, rfl, _, rfl⟩
    | false => exact ⟨rfl, rfl, _, rfl⟩

/-- The document after fragments were added: what the run got to is merged in, section by
section. -/
theorem Apart.add_value (h : Apart marks names entries) {fragments : Value}
    (hfragments : ∀ e ∈ propertiesOf fragments, Enters marks names e) (m : Option Mark) :
    (add (.object m entries) fragments).value = .object m (Assoc.mergeWith joinSection entries
        (stepsOf (reached (.object m entries) fragments))) ∧
      Apart marks names (Assoc.mergeWith joinSection entries
        (stepsOf (reached (.object m entries) fragments))) := by
  by_cases hnone : fragments.isNull = true ∨ fragments.elements? = none
  · obtain ⟨hnil, -, fault, hadd⟩ := add_of_not_elements? hnone m entries
    rw [hadd, reached, hnil]
    exact ⟨rfl, h⟩
  · rw [not_or, Bool.not_eq_true, ← ne_eq, Option.ne_none_iff_exists'] at hnone
    obtain ⟨hnull, items, hitems⟩ := hnone
    obtain ⟨heq, hadd⟩ := add_of_elements? hnull hitems m entries
    rw [propertiesOf, heq] at hfragments
    rw [hadd, reached, heq]
    exact h.addFragments_value hfragments m

/-- Adding fragments goes through just if all their properties are known and each section takes
what comes in; then all is merged in. -/
theorem Apart.add_fault_iff (h : Apart marks names entries) {fragments : Value}
    (hfragments : ∀ e ∈ propertiesOf fragments, Enters marks names e) (m : Option Mark) :
    ((add (.object m entries) fragments).fault = none ↔ areSupported fragments = true ∧
        Assoc.Admits Fits joinSection entries (stepsOf (propertiesOf fragments))) ∧
      ((add (.object m entries) fragments).fault = none →
        reached (.object m entries) fragments = propertiesOf fragments) := by
  by_cases hnone : fragments.isNull = true ∨ fragments.elements? = none
  · obtain ⟨-, hnot, fault, hadd⟩ := add_of_not_elements? hnone m entries
    rw [hadd, hnot]
    exact ⟨⟨nofun, fun h => absurd h.1 nofun⟩, nofun⟩
  · rw [not_or, Bool.not_eq_true, ← ne_eq, Option.ne_none_iff_exists'] at hnone
    obtain ⟨hnull, items, hitems⟩ := hnone
    obtain ⟨heq, hadd⟩ := add_of_elements? hnull hitems m entries
    have hsupported : areSupported fragments = true ↔ ∀ item ∈ items, isSupported item = true := by
      rw [areSupported, hnull, hitems, heq]
      exact List.all_eq_true
    rw [propertiesOf, heq] at hfragments
    rw [hadd, reached, propertiesOf, heq, hsupported]
    exact h.addFragments_fault_iff hfragments m

/-! ## One section -/

/-- The section that a property is for: a singular name stands for the plural one. -/
def sectionNamed : Atom → Atom
  | .text name => .text (pluralKey name)
  | name => name

/-- What properties have for a section, in order. -/
def valuesFor (key : Atom) (properties : List (Atom × Value)) : List Value :=
  Assoc.given key (properties.map fun e => (sectionNamed e.1, e.2))

/-- A property is known by the name of its section, in the plural. -/
theorem propertyOf?_eq_some_iff {name : Atom} {key : String} {kind : SectionKind} :
    propertyOf? name = some (key, kind) ↔
      sectionNamed name = .text key ∧ sectionKind? key = some kind := by
  cases name with
  | text name =>
    simp only [propertyOf?, sectionNamed, Option.map_eq_some_iff, Prod.mk.injEq, Atom.text.injEq]
    constructor
    · rintro ⟨_, hkind, rfl, rfl⟩
      exact ⟨rfl, hkind⟩
    · rintro ⟨rfl, hkind⟩
      exact ⟨kind, hkind, rfl, rfl⟩
  | _ => simp [propertyOf?, sectionNamed]

/-- What comes in under the name of a section is what properties have for it. -/
theorem given_stepsOf {key : String} {kind : SectionKind} (hkind : sectionKind? key = some kind)
    (ps : List (Atom × Value)) :
    Assoc.given (.text key) (stepsOf ps) = (valuesFor (.text key) ps).map fun v => (kind, v) := by
  induction ps with
  | nil => rfl
  | cons e ps ih =>
    obtain ⟨name, value⟩ := e
    have hvalues : valuesFor (.text key) ((name, value) :: ps) =
        Assoc.given (.text key) ((sectionNamed name, value) ::
          ps.map fun e => (sectionNamed e.1, e.2)) := rfl
    rw [hvalues]
    -- a property of the section is of its kind, since the kind is told by the name
    by_cases hname : sectionNamed name = .text key
    · have hbeq : (sectionNamed name == Atom.text key) = true := (Atom.isExact_text key _).2 hname
      have hself : (Atom.text key == Atom.text key) = true := (Atom.isExact_text key).beq_self
      rw [stepsOf_cons (propertyOf?_eq_some_iff.2 ⟨hname, hkind⟩), Assoc.given_cons_of_beq hself,
        Assoc.given_cons_of_beq hbeq, ih, List.map_cons]
      rfl
    · have hbeq : ¬(sectionNamed name == Atom.text key) = true :=
        fun h => hname ((Atom.isExact_text key _).1 h)
      rw [Assoc.given_cons_of_not_beq hbeq]
      cases hproperty : propertyOf? name with
      | none =>
        rw [stepsOf, List.filterMap_cons_none (by simp only [hproperty, Option.map_none])]
        exact ih
      | some s =>
        obtain ⟨key', kind'⟩ := s
        obtain ⟨hname', -⟩ := propertyOf?_eq_some_iff.1 hproperty
        rw [stepsOf_cons hproperty, Assoc.given_cons_of_not_beq (hname' ▸ hbeq), ih]
        rfl

/-- Nothing comes in under a name that no property is for. -/
theorem given_stepsOf_eq_nil {key : Atom} {ps : List (Atom × Value)}
    (h : ∀ e ∈ ps, (sectionNamed e.1 == key) = false) : Assoc.given key (stepsOf ps) = [] := by
  rw [List.eq_nil_iff_forall_not_mem]
  intro c hc
  obtain ⟨k, hmem, hk⟩ := Assoc.mem_given.1 hc
  obtain ⟨e, he, hstep⟩ := List.mem_filterMap.1 hmem
  obtain ⟨⟨_, _⟩, hs, heq⟩ := Option.map_eq_some_iff.1 hstep
  obtain ⟨rfl, -⟩ := Prod.mk.inj heq
  obtain ⟨hname, -⟩ := propertyOf?_eq_some_iff.1 hs
  rw [← hname, h e he] at hk
  cases hk

/-- What has become of a section: it was combined with all that the properties have for it. -/
theorem get?_mergeWith_stepsOf {key : String} {kind : SectionKind}
    (hkind : sectionKind? key = some kind) (entries ps : List (Atom × Value)) :
    Assoc.get? (.text key) (Assoc.mergeWith joinSection entries (stepsOf ps)) =
      Assoc.combine (fun x v => joinSection x (kind, v)) (Assoc.get? (.text key) entries)
        (valuesFor (.text key) ps) := by
  rw [Assoc.get?_mergeWith, given_stepsOf hkind, Assoc.combine_map]

/-- Whether a section takes values one after another. -/
def Takes (kind : SectionKind) : Option Value → List Value → Prop :=
  Assoc.Accepts (fun x v => Fits x (kind, v)) fun x v => joinSection x (kind, v)

/-- A section takes values just if it takes the first, and then the others. -/
theorem takes_cons {kind : SectionKind} {x : Option Value} {v : Value} {vs : List Value} :
    Takes kind x (v :: vs) ↔ Fits x (kind, v) ∧ Takes kind (some (joinSection x (kind, v))) vs :=
  Iff.rfl

/-- A section that is not there is an empty one. -/
theorem takes_none_iff {kind : SectionKind} {vs : List Value} :
    Takes kind none vs ↔ Takes kind (some (emptySection kind)) vs := by
  cases vs <;> exact Iff.rfl

/-- A section that is not there takes values as an empty one does. -/
theorem combine_none_eq {kind : SectionKind} {vs : List Value} (hvs : vs ≠ []) :
    Assoc.combine (fun x v => joinSection x (kind, v)) none vs =
      Assoc.combine (fun x v => joinSection x (kind, v)) (some (emptySection kind)) vs := by
  cases vs with
  | nil => exact absurd rfl hvs
  | cons v vs => rfl

/-- Each section takes what comes in just if each takes what the properties have for it. -/
theorem admits_stepsOf_iff {entries ps : List (Atom × Value)} :
    Assoc.Admits Fits joinSection entries (stepsOf ps) ↔
      ∀ key kind, sectionKind? key = some kind →
        Takes kind (Assoc.get? (.text key) entries) (valuesFor (.text key) ps) := by
  have haccepts : ∀ key kind, sectionKind? key = some kind →
      (Assoc.Accepts Fits joinSection (Assoc.get? (.text key) entries)
          (Assoc.given (.text key) (stepsOf ps)) ↔
        Takes kind (Assoc.get? (.text key) entries) (valuesFor (.text key) ps)) := by
    intro key kind hkind
    rw [given_stepsOf hkind]
    exact Assoc.accepts_map
  rw [Assoc.admits_iff]
  constructor
  · intro h key kind hkind
    rw [← haccepts key kind hkind]
    cases hgiven : Assoc.given (.text key) (stepsOf ps) with
    | nil => trivial
    | cons c cs =>
      obtain ⟨k, hmem, hk⟩ := Assoc.mem_given.1 (hgiven ▸ List.mem_cons_self)
      obtain rfl : k = .text key := (Atom.isExact_text key k).1 hk
      exact hgiven ▸ h _ hmem
  · intro h e he
    obtain ⟨_, -, hstep⟩ := List.mem_filterMap.1 he
    obtain ⟨⟨key, kind⟩, hs, rfl⟩ := Option.map_eq_some_iff.1 hstep
    obtain ⟨-, hkind⟩ := propertyOf?_eq_some_iff.1 hs
    exact (haccepts key kind hkind).2 (h key kind hkind)

/-- After a merge that goes through, all that the fragments have is merged in, and each section has
taken it. -/
theorem Separate.add_ok {fragments : Value} (h : Separate entries (propertiesOf fragments))
    {m : Option Mark} (hok : (add (.object m entries) fragments).fault = none) :
    (add (.object m entries) fragments).value = .object m
        (Assoc.mergeWith joinSection entries (stepsOf (propertiesOf fragments))) ∧
      ∀ key kind, sectionKind? key = some kind → Takes kind (Assoc.get? (.text key) entries)
        (valuesFor (.text key) (propertiesOf fragments)) := by
  obtain ⟨hvalue, -⟩ := h.apart.add_value h.enters m
  obtain ⟨hiff, hall⟩ := h.apart.add_fault_iff h.enters m
  rw [hall hok] at hvalue
  exact ⟨hvalue, admits_stepsOf_iff.1 (hiff.1 hok).2⟩

/-- If the objects in fragments have different keys, so have those in all that they have for a
section. -/
theorem isKeyed_valuesFor {fragments : Value} (h : fragments.isKeyed = true) (key : Atom) :
    ∀ v ∈ valuesFor key (propertiesOf fragments), v.isKeyed = true := by
  intro v hv
  obtain ⟨_, hmem, -⟩ := Assoc.mem_given.1 hv
  obtain ⟨e, he, heq⟩ := List.mem_map.1 hmem
  obtain ⟨-, rfl⟩ := Prod.mk.inj heq
  obtain ⟨fragment, hfragment, he⟩ := List.mem_flatMap.1 he
  obtain ⟨items, hitems, hin⟩ := exists_of_mem_fragmentsOf hfragment
  exact isKeyed_part (isKeyed_part h (mem_parts_of_elements? hitems hin he))
    (mem_parts_of_mem_entries he)

end Document

end ApiDoc
