import ApiDoc.Proofs.Document.Sections
import ApiDoc.Proofs.Fragment.Values
import ApiDoc.Proofs.Value.Plain

/-!
# Merging one fragment

A fragment is merged into a document in three steps: its paths, its groups, its definitions. Each
step changes one section, and the first one that fails is the last one (`add_fragment`).
-/

namespace ApiDoc

open Value

namespace Document

/-! ## One step -/

/-- The section under a key, an empty one if there is none. -/
def sectionOf (key : String) (kind : SectionKind) (entries : List (Atom × Value)) : Value :=
  (Assoc.get? (.text key) entries).getD (emptySection kind)

/-- The entries of a document with a value merged into one section. -/
def mergeInto (key : String) (kind : SectionKind) (value : Value) (entries : List (Atom × Value)) :
    List (Atom × Value) :=
  putSection key (sectionOf key kind entries)
    (mergeSection kind (sectionOf key kind entries) value).value entries

/-- The fault of merging a value into one section. -/
def faultInto (key : String) (kind : SectionKind) (value : Value) (entries : List (Atom × Value)) :
    Option MergeFault :=
  (mergeSection kind (sectionOf key kind entries) value).fault

/-- A property is merged into the section that it is for. -/
theorem addProperty_object (m : Option Mark) (entries : List (Atom × Value)) (key : String)
    (kind : SectionKind) (value : Value) :
    addProperty (.object m entries) key kind value =
      ⟨.object m (mergeInto key kind value entries), faultInto key kind value entries⟩ :=
  rfl

/-- A section that is there is the one that is merged into. -/
theorem sectionOf_eq {key : String} {kind : SectionKind} {entries : List (Atom × Value)} {v : Value}
    (h : Assoc.get? (.text key) entries = some v) : sectionOf key kind entries = v := by
  rw [sectionOf, h, Option.getD_some]

/-- A section that is there is changed by what is merged in. -/
theorem mergeInto_eq {key : String} {entries : List (Atom × Value)} {old : Value}
    (h : Assoc.get? (.text key) entries = some old) (kind : SectionKind) (value : Value) :
    mergeInto key kind value entries =
      putSection key old (mergeSection kind old value).value entries := by
  rw [mergeInto, sectionOf_eq h]

/-- Sound entries stay so when something new is merged into a section. -/
theorem Sound.mergeInto {heap : Nat → Value} {entries : List (Atom × Value)}
    (h : Sound heap entries) {value : Value} (hvalue : value.IsNew) (key : String)
    (kind : SectionKind) :
    ∃ heap', Sound heap' (mergeInto key kind value entries) := by
  obtain ⟨hfollows, hnum⟩ := h.getD (.text key) kind
  exact ⟨_, h.putSection hfollows hnum (mergeSection_change kind hvalue) key⟩

/-- A step that leaves its section as it is leaves the document as it is. -/
theorem Sound.mergeInto_eq_self {heap : Nat → Value} {entries : List (Atom × Value)}
    (h : Sound heap entries) {key : String} {old : Value}
    (hget : Assoc.get? (.text key) entries = some old) {kind : SectionKind} {value : Value}
    (hsame : (mergeSection kind old value).value = old) :
    Document.mergeInto key kind value entries = entries := by
  rw [mergeInto_eq hget, hsame]
  exact h.putSection_self hget

/-- A step leaves all sections in the document. -/
theorem isSome_get?_mergeInto {key : String} {entries : List (Atom × Value)} {name : String}
    (h : (Assoc.get? (.text name) entries).isSome) (kind : SectionKind) (value : Value) :
    (Assoc.get? (.text name) (mergeInto key kind value entries)).isSome := by
  rw [mergeInto, putSection_eq, Assoc.get?_mapValues, Option.isSome_map,
    Assoc.isSome_get?_iff (Atom.isExact_text name), Assoc.map_fst_insert]
  rw [Assoc.isSome_get?_iff (Atom.isExact_text name)] at h
  exact List.mem_append_left _ h

/-! ## Three steps -/

/-- The entries of a document with paths, groups and definitions merged in, up to the first
fault. -/
def mergeParts (paths groups definitions : Value) (entries : List (Atom × Value)) :
    List (Atom × Value) × Option MergeFault :=
  let withPaths := mergeInto "paths" .paths paths entries
  match faultInto "paths" .paths paths entries with
  | some fault => (withPaths, some fault)
  | none =>
    let withGroups := mergeInto "tags" .groups groups withPaths
    match faultInto "tags" .groups groups withPaths with
    | some fault => (withGroups, some fault)
    | none =>
      (mergeInto "definitions" .map definitions withGroups,
        faultInto "definitions" .map definitions withGroups)

/-- Sound entries stay so when new parts are merged in. -/
theorem Sound.mergeParts {heap : Nat → Value} {entries : List (Atom × Value)}
    (h : Sound heap entries) {paths groups definitions : Value}
    (hpaths : paths.IsNew) (hgroups : groups.IsNew) (hdefinitions : definitions.IsNew) :
    ∃ heap', Sound heap' (mergeParts paths groups definitions entries).1 := by
  obtain ⟨heap₁, h₁⟩ := h.mergeInto hpaths "paths" .paths
  obtain ⟨heap₂, h₂⟩ := h₁.mergeInto hgroups "tags" .groups
  unfold Document.mergeParts
  simp only
  split
  · exact ⟨heap₁, h₁⟩
  · split
    · exact ⟨heap₂, h₂⟩
    · exact h₂.mergeInto hdefinitions "definitions" .map

/-- A value with the parts of a fragment. -/
def fragmentOf (m : Option Mark) (paths groups definitions : Value) : Value :=
  .object m [(.text "paths", paths), (.text "tags", groups), (.text "definitions", definitions)]

/-- A known property is merged in, and the others if that has no fault. -/
theorem addProperties_cons {name : Atom} {key : String} {kind : SectionKind}
    (h : propertyOf? name = some (key, kind)) (m : Option Mark) (entries : List (Atom × Value))
    (value : Value) (rest : List (Atom × Value)) :
    addProperties (.object m entries) ((name, value) :: rest) =
      match faultInto key kind value entries with
      | none => addProperties (.object m (mergeInto key kind value entries)) rest
      | some fault => ⟨.object m (mergeInto key kind value entries), some fault⟩ := by
  rw [addProperties]
  simp only [h, addProperty_object]
  cases faultInto key kind value entries with
  | none => rfl
  | some fault => rfl

/-- The properties of a fragment are merged in up to the first fault. -/
theorem addProperties_fragment (m : Option Mark) (entries : List (Atom × Value))
    (paths groups definitions : Value) :
    addProperties (.object m entries)
        [(.text "paths", paths), (.text "tags", groups), (.text "definitions", definitions)] =
      ⟨.object m (mergeParts paths groups definitions entries).1,
        (mergeParts paths groups definitions entries).2⟩ := by
  have hpaths : propertyOf? (.text "paths") = some ("paths", .paths) := by decide
  have htags : propertyOf? (.text "tags") = some ("tags", .groups) := by decide
  have hdefinitions : propertyOf? (.text "definitions") = some ("definitions", .map) := by decide
  rw [addProperties_cons hpaths, mergeParts]
  cases faultInto "paths" .paths paths entries with
  | some fault => rfl
  | none =>
    simp only
    rw [addProperties_cons htags]
    cases faultInto "tags" .groups groups (mergeInto "paths" .paths paths entries) with
    | some fault => rfl
    | none =>
      simp only
      rw [addProperties_cons hdefinitions]
      cases faultInto "definitions" .map definitions
        (mergeInto "tags" .groups groups (mergeInto "paths" .paths paths entries)) <;> rfl

/-- A fragment is merged by three steps into the entries of a document. -/
theorem add_fragment (m m' : Option Mark) (entries : List (Atom × Value))
    (paths groups definitions : Value) :
    add (.object m entries) (.array [fragmentOf m' paths groups definitions]) =
      ⟨.object m (mergeParts paths groups definitions entries).1,
        (mergeParts paths groups definitions entries).2⟩ := by
  simp only [add, isNull, Bool.or_self, Bool.false_eq_true, if_false, elements?, addFragments,
    fragmentOf, addProperties_fragment]
  cases (mergeParts paths groups definitions entries).2 <;> rfl

end Document

/-! ## Values of fragments -/

namespace Fragment

/-- A value of a fragment: it has the content of the fragment, and no node that was read. -/
structure Denotes (f : Fragment) (v : Value) : Prop where
  content : v.plain = f.toValue.plain
  new : v.IsNew

/-- A fragment without definitions is written with an empty object for them. -/
theorem toValue_of_definitions_eq_nil {f : Fragment} (h : f.definitions = []) :
    f.toValue =
      Document.fragmentOf none (valueOfPaths f.paths) (groupsValue f.groups) (.map []) := by
  rw [← pathsValue_eq, toValue, definitionsValue, h]
  rfl

/-- A fragment denotes itself as a value. -/
theorem denotes_toValue {markOf : String → Option Mark}
    (hmark : ∀ code i, markOf code ≠ some (.node i)) {b : Block} {f : Fragment}
    (h : ofBlock markOf b = .ok f) : f.Denotes f.toValue := by
  refine ⟨rfl, toValue_marked ?_ h⟩
  rintro code mark x hcode i rfl
  exact hmark code i hcode

/-- A fragment denotes its value with any numbers. -/
theorem Denotes.numbered {f : Fragment} {v : Value} (h : f.Denotes v) (block next : Nat) :
    f.Denotes (v.numbered block next).1 :=
  ⟨(plain_numbered block next v).trans h.content, h.new.numbered block next⟩

/-- A value of a fragment has the parts of a fragment, each with its content. -/
theorem Denotes.parts {f : Fragment} {v : Value} (h : f.Denotes v) :
    ∃ m paths groups definitions, v = Document.fragmentOf m paths groups definitions ∧
      (paths.plain = f.pathsValue.plain ∧ paths.IsNew) ∧
      (groups.plain = (groupsValue f.groups).plain ∧ groups.IsNew) ∧
      definitions.plain = f.definitionsValue.plain ∧ definitions.IsNew := by
  obtain ⟨m, entries, rfl, hentries⟩ := eq_object_of_plain h.content
  have hnew : MarkedEntries _ entries := h.new.entries
  obtain ⟨⟨_, paths⟩, rest, rfl, hpaths, hrest⟩ := List.map_eq_cons_iff.1 hentries
  obtain ⟨⟨_, groups⟩, rest, rfl, hgroups, hrest⟩ := List.map_eq_cons_iff.1 hrest
  obtain ⟨⟨_, definitions⟩, rest, rfl, hdefinitions, hrest⟩ := List.map_eq_cons_iff.1 hrest
  obtain rfl := List.map_eq_nil_iff.1 hrest
  obtain ⟨rfl, hpaths⟩ := Prod.mk.inj hpaths
  obtain ⟨rfl, hgroups⟩ := Prod.mk.inj hgroups
  obtain ⟨rfl, hdefinitions⟩ := Prod.mk.inj hdefinitions
  have hvalues := hnew.values
  simp only [List.forall_mem_cons] at hvalues
  exact ⟨m, paths, groups, definitions, rfl, ⟨hpaths, hvalues.1⟩, ⟨hgroups, hvalues.2.1⟩,
    hdefinitions, hvalues.2.2.1⟩

end Fragment

end ApiDoc
