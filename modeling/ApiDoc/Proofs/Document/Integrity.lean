import ApiDoc.Proofs.Document.Redocumentation
import ApiDoc.Proofs.Document.Skipping
import ApiDoc.Proofs.Fragment.Integrity

/-!
# Integrity of documents

A document that starts without paths has whole operations at all times: each has parameters,
responses and a group that is among the groups of the document, and references have the form
`#/definitions/` and a name, in operations and in new definitions (`generate_hasIntegrity`). Two
sections are tied together here, the paths and the groups. A block that brings an operation brings
its group with it, and groups that are there are kept, though a group may be the same object as
another section.
-/

namespace ApiDoc

open Value

namespace Document

variable {heap : Nat → Value} {entries : List (Atom × Value)} {names names' : String → Prop}

/-! ## Operations -/

/-- An object of methods, each of them with an operation that satisfies a predicate. -/
def HoldsMethods (P : Value → Prop) (v : Value) : Prop :=
  ∃ m methods, v = .object m methods ∧ ∀ e ∈ methods, P e.2

/-- Paths all of whose operations satisfy a predicate. -/
def HoldOperations (P : Value → Prop) (paths : List (Atom × Value)) : Prop :=
  ∀ e ∈ paths, HoldsMethods P e.2

/-- Operations that satisfy a predicate satisfy a weaker one. -/
theorem HoldOperations.mono {P Q : Value → Prop} {paths : List (Atom × Value)}
    (h : HoldOperations P paths) (hPQ : ∀ v, P v → Q v) : HoldOperations Q paths := by
  intro e he
  obtain ⟨m, methods, heq, hops⟩ := h e he
  exact ⟨m, methods, heq, fun e' he' => hPQ e'.2 (hops e' he')⟩

/-- Every operation has the fields that make it one, so on top of another it is still one. -/
theorem isOperation_overlay {o : Value} (h : o.IsOperation names)
    (ho : IsRecord (fun _ => True) o) (x : Option Value) :
    (overlay x o).IsOperation names := by
  obtain ⟨mo, fields, rfl, hfilled, -⟩ := ho
  have hfield : ∀ {key : String} {w : Value}, (Value.object mo fields).field? key = some w →
      (overlay x (.object mo fields)).field? key = some w := by
    intro key w hw
    rw [field?_overlay hfilled.distinct]
    rw [field?] at hw
    rw [hw, Option.some_or]
  obtain ⟨m, items, hitems, hparameters⟩ := h.parameters
  obtain ⟨mr, es, hes, hresponses⟩ := h.responses
  obtain ⟨mg, name, htags, hname⟩ := h.group
  exact ⟨⟨m, items, hfield hitems, hparameters⟩, ⟨mr, es, hfield hes, hresponses⟩,
    ⟨mg, name, hfield htags, hname⟩⟩

/-- Operations merged into others are operations. -/
theorem HoldOperations.mergeWith {uris : List String} {paths new : List (Atom × Value)}
    (h : HoldOperations (IsOperation names) paths) (hnew : HoldOperations (IsOperation names) new)
    (hentries : PathEntries uris new) :
    HoldOperations (IsOperation names) (Assoc.mergeWith joinPath paths new) := by
  refine Assoc.forall_mem_mergeWith (p := HoldsMethods (IsOperation names)) h fun e he x hx => ?_
  obtain ⟨m, methods, heq, hops⟩ := hnew e he
  obtain ⟨mr, records, heq', -, hrecords⟩ := hentries.records e he
  obtain ⟨-, rfl⟩ := Value.object.inj (heq.symm.trans heq')
  refine ⟨none, _, rfl, ?_⟩
  rw [heq]
  refine Assoc.forall_mem_mergeWith (p := IsOperation names) ?_ fun e' he' y _ => ?_
  · cases x with
    | none => exact fun e' he' => absurd he' List.not_mem_nil
    | some v =>
      obtain ⟨mv, old, rfl, hold⟩ := hx v rfl
      exact hold
  · exact isOperation_overlay (hops e' he') (hrecords e' he') y

/-! ## Names of groups -/

/-- A change of a section that keeps the names it has as a group keeps the names of all groups. -/
theorem isNamed_patch_of_kept {p p' : Value} (hp : p.Follows heap) (hnum : p.IsNumbered)
    (hchange : Change heap p p') {name : String}
    (hkept : isNamed name p = true → isNamed name p' = true) {item : Value}
    (hitem : item.Follows heap) (h : isNamed name item = true) :
    isNamed name (patch p p' item) = true := by
  by_cases heq : item = p
  · subst heq
    cases hmark : item.mark? with
    | none =>
      rw [patch_of_mark?_eq_none hmark]
      exact h
    | some mark =>
      rw [patch_of_mark?_eq_some hmark, hchange.regrown.refresh_eq hmark]
      exact hkept h
  · rw [Follows.patch_eq_mapParts hitem hp hnum heq]
    cases item with
    | object m es =>
      rw [mapParts, isNamed, entries, groupName, Assoc.get?_mapValues]
      rw [isNamed, entries, groupName] at h
      cases hget : Assoc.get? (.text "name") es with
      | none => rw [hget] at h; cases h
      | some w =>
        obtain ⟨k, hk⟩ := Assoc.mem_of_get? hget
        rw [hget] at h
        have hregrown := hchange.patch_regrown hp hnum (hitem.part (snd_mem_parts hk))
        exact (hregrown.same_text name).trans h
    | _ => cases h

/-- A group has a name just if that is its field `name`. -/
theorem isNamed_iff {name : String} {item : Value} :
    isNamed name item = true ↔ item.field? "name" = some (.text name) := by
  rw [isNamed, same_text_iff, groupName]
  cases item with
  | object m es =>
    rw [entries, field?]
    cases Assoc.get? (.text "name") es with
    | none => exact iff_of_false (fun h => by cases h) (fun h => by cases h)
    | some w => rw [Option.getD_some, Option.some.injEq]
  | _ => exact iff_of_false (fun h => by cases h) (fun h => by cases h)

/-- What has the content of a group has its name, and so has what has the same name as that. -/
theorem isNamed_of_group {g : Group} {u : Value} (hu : u.plain = (Fragment.groupValue g).plain) :
    isNamed g.name u = true ∧ ∀ item, sameName item u = true → isNamed g.name item = true := by
  obtain ⟨m, es, rfl, hname⟩ := eq_object_of_group hu
  simp only [sameName, isNamed, entries, hname, same_text_iff, imp_self, implies_true, and_self]

/-! ## The invariant of a run -/

/-- The entries of a document whose paths hold operations of groups with some names and nothing that
was read, and whose definitions are kept ones or new ones. -/
structure Tidy (kept : Atom → Prop) (names : String → Prop) (entries : List (Atom × Value)) :
    Prop where
  isOpen : Open entries
  sections : ∃ mp paths md definitions,
    Assoc.get? (.text "paths") entries = some (.object mp paths) ∧
    Assoc.get? (.text "definitions") entries = some (.object md definitions) ∧
    (∀ mark, mp = some mark → md ≠ some mark) ∧
    MarkedEntries (fun mark _ => ∀ i, mark ≠ .node i) paths ∧
    HoldOperations (IsOperation names) paths ∧
    ∀ e ∈ definitions, kept e.1 ∨ e.2.IsNew ∧ e.2.IsDefinition

/-- The entries of a document with groups of some names. -/
def HasNames (names : String → Prop) (entries : List (Atom × Value)) : Prop :=
  ∃ m items, Assoc.get? (.text "tags") entries = some (.list m items) ∧
    ∀ name, names name → ∃ item ∈ items, isNamed name item = true

variable {kept : Atom → Prop}

/-- Paths with nothing that was read stay as they are when another object changes. -/
theorem patch_new_entries {old new : Value} (hnum : old.IsNumbered) {mp : Option Mark}
    {paths : List (Atom × Value)} (hmarks : ∀ mark, old.mark? = some mark → mp ≠ some mark)
    (hpaths : MarkedEntries (fun mark _ => ∀ i, mark ≠ .node i) paths) :
    patch old new (.object mp paths) = .object mp paths := by
  rw [patch_eq_mapParts hmarks, mapParts,
    Assoc.mapValues_eq_self fun e he => IsNew.patch_eq (hpaths.values e he) hnum]

/-- Definitions are kept ones or new ones also after a change of another object. -/
theorem patch_definitions {old : Value} (new : Value) (hnum : old.IsNumbered) {md : Option Mark}
    {definitions : List (Atom × Value)} (hmarks : ∀ mark, old.mark? = some mark → md ≠ some mark)
    (hdefinitions : ∀ e ∈ definitions, kept e.1 ∨ e.2.IsNew ∧ e.2.IsDefinition) :
    patch old new (.object md definitions) =
        .object md (Assoc.mapValues (patch old new) definitions) ∧
      ∀ e ∈ Assoc.mapValues (patch old new) definitions,
        kept e.1 ∨ e.2.IsNew ∧ e.2.IsDefinition := by
  refine ⟨patch_eq_mapParts hmarks, List.forall_mem_map.2 fun e he => ?_⟩
  rcases hdefinitions e he with hkept | hnew
  · exact .inl hkept
  · right
    show (patch old new e.2).IsNew ∧ (patch old new e.2).IsDefinition
    rw [IsNew.patch_eq hnew.1 hnum]
    exact hnew

/-- The groups keep their names when another section changes that keeps the name it has. -/
theorem HasNames.putSection (h : HasNames names entries) (hsound : Sound heap entries)
    {key : String} (hkey : key ≠ "tags") {old new : Value}
    (hget : Assoc.get? (.text key) entries = some old)
    (hobject : old.isObject = true) (hchange : Change heap old new)
    (hkept : ∀ name, isNamed name old = true → isNamed name new = true) :
    HasNames names (putSection key old new entries) := by
  obtain ⟨m, items, htags, hnames⟩ := h
  obtain ⟨hold, hnum⟩ := hsound.get? hget
  obtain ⟨hlist, -⟩ := hsound.get? htags
  have hne : Value.list m items ≠ old := by
    rintro rfl
    exact Bool.false_ne_true hobject
  refine ⟨m, items.map (patch old new), ?_, fun name hname => ?_⟩
  · rw [get?_putSection_of_get? hkey htags, Follows.patch_eq_mapParts hlist hold hnum hne, mapParts]
  · obtain ⟨item, hitem, hitemName⟩ := hnames name hname
    exact ⟨_, List.mem_map_of_mem hitem, isNamed_patch_of_kept hold hnum hchange (hkept name)
      (hlist.part hitem) hitemName⟩

/-! ## Three steps -/

/-- Merging operations of groups leaves a tidy document, and the groups that it has. -/
theorem Tidy.mergePaths (h : Tidy kept names entries) (hnames : HasNames names entries)
    (hle : ∀ name, names name → names' name) {uris : List String} {mn : Option Mark}
    {new : List (Atom × Value)} (hentries : PathEntries uris new)
    (hnew : (Value.object mn new).IsNew) (hops : HoldOperations (IsOperation names') new)
    (hopen : Open (mergeInto "paths" .paths (.object mn new) entries)) :
    Tidy kept names' (mergeInto "paths" .paths (.object mn new) entries) ∧
      HasNames names (mergeInto "paths" .paths (.object mn new) entries) := by
  obtain ⟨mp, paths, md, definitions, hpget, hdget, hapart, hpnew, hpops, hdefs⟩ := h.sections
  obtain ⟨heap, hsound⟩ := h.isOpen.sound
  obtain ⟨p, hp, hpobject, hpobjects⟩ := h.isOpen.shaped.paths
  obtain rfl := Option.some.inj (hp.symm.trans hpget)
  have hmerged : (mergeSection .paths (.object mp paths) (.object mn new)).value =
      .object mp (Assoc.mergeWith joinPath paths new) :=
    congrArg Merged.value (mergePaths_of_objects mp mn (holdsObjects_object.1 hpobjects)
      hentries.isObject)
  have hgain : Gain _ (.object mp paths)
      (mergeSection .paths (.object mp paths) (.object mn new)).value :=
    mergeSection_gain .paths hnew
  have hchange : Change heap (.object mp paths)
      (mergeSection .paths (.object mp paths) (.object mn new)).value :=
    mergeSection_change .paths hnew
  rw [mergeInto_eq hpget] at hopen ⊢
  rw [hmerged] at hopen hgain hchange ⊢
  obtain ⟨-, hnum⟩ := hsound.get? hpget
  -- the definitions are another object, so the change does not show in them
  obtain ⟨hpatch, hdefs'⟩ := patch_definitions (.object mp (Assoc.mergeWith joinPath paths new))
    hnum (fun mark hmark => hapart mark hmark) hdefs
  constructor
  · refine ⟨hopen, mp, _, md, _, get?_putSection_self (.object mp _ _) "paths", ?_, hapart, ?_, ?_,
      hdefs'⟩
    · rw [get?_putSection_of_get? (by decide) hdget, hpatch]
    · exact markedEntries_iff.2 (hgain.marked (markedEntries_iff.1 hpnew))
    · exact (hpops.mono fun v hv => hv.mono hle).mergeWith hops hentries
  · -- paths of objects have no text for a name, so no group is lost if one is the paths
    refine hnames.putSection hsound (by decide) hpget rfl hchange fun name hname => ?_
    rw [isNamed_of_holdsObjects rfl hpobjects] at hname
    cases hname

/-- Merging the group of a block leaves a tidy document, and the group is there. -/
theorem Tidy.mergeGroups (h : Tidy kept names entries) {g : Group} {mg : Option Mark}
    {groups : List Value} (hgroups : ∀ u ∈ groups, u.plain = (Fragment.groupValue g).plain)
    (hnames : HasNames names' entries)
    (hle : ∀ name, names name → names' name ∨ groups ≠ [] ∧ name = g.name)
    (hopen : Open (mergeInto "tags" .groups (.list mg groups) entries)) :
    Tidy kept names (mergeInto "tags" .groups (.list mg groups) entries) ∧
      HasNames names (mergeInto "tags" .groups (.list mg groups) entries) := by
  obtain ⟨mp, paths, md, definitions, hpget, hdget, hapart, hpnew, hpops, hdefs⟩ := h.sections
  obtain ⟨heap, hsound⟩ := h.isOpen.sound
  obtain ⟨m, items, htget, hthere⟩ := hnames
  obtain ⟨t, ht, -, htobjects⟩ := h.isOpen.shaped.tags
  obtain rfl := Option.some.inj (ht.symm.trans htget)
  have hitems : ∀ item ∈ items, item.isObject = true := holdsObjects_iff.1 htobjects
  obtain ⟨added, hmerged, hadded⟩ := addGroups_appended m hitems fun u hu => by
    obtain ⟨_, _, rfl, -⟩ := eq_object_of_group (hgroups u hu)
    rfl
  have hvalue : (mergeSection .groups (.list m items) (.list mg groups)).value =
      .list m (items ++ added) :=
    congrArg Merged.value hmerged
  obtain ⟨hfollows, hnum⟩ := hsound.get? htget
  have hmarks : ∀ {mo : Option Mark} {es : List (Atom × Value)} {key : String},
      Assoc.get? (.text key) entries = some (.object mo es) →
      ∀ mark, (Value.list m items).mark? = some mark → mo ≠ some mark := by
    intro mo es key hget
    exact mark?_ne_of_ne (hsound.get? hget).1 hfollows hnum nofun
  rw [mergeInto_eq htget, hvalue] at hopen ⊢
  obtain ⟨hpatch, hdefs'⟩ := patch_definitions (.list m (items ++ added)) hnum (hmarks hdget) hdefs
  constructor
  · refine ⟨hopen, mp, paths, md, _, ?_, ?_, hapart, hpnew, hpops, hdefs'⟩
    · rw [get?_putSection_of_get? (by decide) hpget, patch_new_entries hnum (hmarks hpget) hpnew]
    · rw [get?_putSection_of_get? (by decide) hdget, hpatch]
  · refine ⟨m, items ++ added, get?_putSection_self (.list m _ _) "tags", fun name hname => ?_⟩
    rcases hle name hname with hold | ⟨hne, rfl⟩
    · obtain ⟨item, hitem, hitemName⟩ := hthere name hold
      exact ⟨item, List.mem_append_left _ hitem, hitemName⟩
    · obtain ⟨u, hu⟩ := List.exists_mem_of_ne_nil groups hne
      obtain ⟨hself, hsame⟩ := isNamed_of_group (hgroups u hu)
      rcases hadded.complete u hu (isTruthy_of_group (hgroups u hu)) with hin | ⟨s, hs, hname⟩
      · exact ⟨u, List.mem_append_right items hin, hself⟩
      · exact ⟨s, hs, hsame s hname⟩

/-- New entries leave what is there. -/
theorem get?_addNew {key : String} {v : Value} {old new : List (Atom × Value)}
    (h : Assoc.get? (.text key) old = some v) :
    Assoc.get? (.text key) (addNew old new) = some v := by
  induction new generalizing old with
  | nil => exact h
  | cons e new ih =>
    apply ih
    rw [Assoc.get?_insertNew (Atom.isExact_text key), h, Option.some_or]

/-- Merging new definitions leaves a tidy document, and the groups that it has. -/
theorem Tidy.mergeDefinitions (h : Tidy kept names entries) (hnames : HasNames names entries)
    {mn : Option Mark} {new : List (Atom × Value)} (hnew : (Value.object mn new).IsNew)
    (hdefinitions : ∀ e ∈ new, e.2.IsDefinition)
    (hopen : Open (mergeInto "definitions" .map (.object mn new) entries)) :
    Tidy kept names (mergeInto "definitions" .map (.object mn new) entries) ∧
      HasNames names (mergeInto "definitions" .map (.object mn new) entries) := by
  obtain ⟨mp, paths, md, definitions, hpget, hdget, hapart, hpnew, hpops, hdefs⟩ := h.sections
  obtain ⟨heap, hsound⟩ := h.isOpen.sound
  have hchange : Change heap (.object md definitions)
      (mergeSection .map (.object md definitions) (.object mn new)).value :=
    mergeSection_change .map hnew
  have hvalue : (mergeSection .map (.object md definitions) (.object mn new)).value =
      .object md (addNew definitions new) :=
    rfl
  obtain ⟨-, hnum⟩ := hsound.get? hdget
  rw [mergeInto_eq hdget] at hopen ⊢
  rw [hvalue] at hopen hchange ⊢
  constructor
  · refine ⟨hopen, mp, paths, md, _, ?_, get?_putSection_self (.object md _ _) "definitions",
      hapart, hpnew, hpops, fun e he => ?_⟩
    · have hmarks : ∀ mark, (Value.object md definitions).mark? = some mark → mp ≠ some mark :=
        fun mark hmark hmp => hapart mark hmp hmark
      rw [get?_putSection_of_get? (by decide) hpget, patch_new_entries hnum hmarks hpnew]
    · rcases mem_addNew he with hold | hin
      · exact hdefs e hold
      · exact .inr ⟨hnew.part (snd_mem_parts hin), hdefinitions e hin⟩
  · refine hnames.putSection hsound (by decide) hdget rfl hchange fun name hname => ?_
    rw [isNamed_iff] at hname ⊢
    exact get?_addNew hname

/-! ## The run -/

/-- The paths of a fragment hold operations of the group of its block. -/
theorem holdOperations_of_plain {markOf : String → Option Mark} {b : Block} {f : Fragment}
    (hf : Fragment.ofBlock markOf b = .ok f) {mn : Option Mark} {new : List (Atom × Value)}
    (h : (Value.object mn new).plain = (Fragment.valueOfPaths f.paths).plain) :
    HoldOperations (IsOperation fun name => f.groups ≠ [] ∧ name = (Group.ofTags b.tags).name)
      new := by
  intro e he
  obtain ⟨path, hpath, -, hplain⟩ := exists_path_of_plain h he
  have hgroups : f.groups ≠ [] :=
    Fragment.ofBlock_groups_ne_nil hf (List.ne_nil_of_mem hpath)
  obtain ⟨m, methods, heq, hmethods⟩ := eq_object_of_plain hplain
  refine ⟨m, methods, heq, fun e' he' => ?_⟩
  obtain ⟨e'', he'', -, hop⟩ := exists_mem_of_plain hmethods he'
  rw [Assoc.mapValues_texts] at he''
  obtain ⟨method, hmethod, rfl⟩ := List.mem_map.1 he''
  have hisOperation := (Fragment.ofBlock_methodsOf hf path hpath method hmethod).isOperation
  exact (hisOperation.of_plain hop).mono fun name hname => ⟨hgroups, hname⟩

/-- A fragment leaves a tidy document whose groups are there. -/
theorem Tidy.addFragment (h : Tidy kept names entries) (hnames : HasNames names entries)
    (m : Option Mark) {markOf : String → Option Mark} {b : Block} {f : Fragment}
    (hf : Fragment.ofBlock markOf b = .ok f) {v : Value} (hv : f.Denotes v) :
    ∃ names' entries', Document.addFragment (.object m entries) v = .object m entries' ∧
      Tidy kept names' entries' ∧ HasNames names' entries' := by
  obtain ⟨paths, groups, definitions, withPaths, withGroups, withDefinitions, ⟨hpcontent, hpnew⟩,
    ⟨hgcontent, hgnew⟩, ⟨hdcontent, hdnew⟩, ⟨hwp, hpopen⟩, ⟨hwg, hgopen⟩, ⟨hwd, hdopen⟩, hadd⟩ :=
    h.isOpen.addSteps m hv
  -- the parts of the fragment, one by one
  rw [Fragment.pathsValue_eq] at hpcontent
  obtain ⟨mn, new, rfl, hentries⟩ :=
    PathEntries.of_plain (Fragment.ofBlock_pathsFilled hf) hpcontent
  have hops := holdOperations_of_plain hf hpcontent
  obtain ⟨mg, items, rfl, hitems⟩ := eq_list_of_plain hgcontent
  have hitems' : ∀ u ∈ items, u.plain = (Fragment.groupValue (Group.ofTags b.tags)).plain := by
    intro u hu
    obtain ⟨w, hw, hplain⟩ := exists_part_of_plain hgcontent hu
    obtain ⟨g, hg, rfl⟩ := List.mem_map.1 hw
    rw [← hplain, (ofBlock_groups hf).1 g hg]
  obtain ⟨md, defs, rfl, hdefs⟩ := eq_object_of_plain hdcontent
  have hdefs' : ∀ e ∈ defs, e.2.IsDefinition := by
    intro e he
    obtain ⟨e', he', -, hplain⟩ := exists_mem_of_plain hdefs he
    obtain ⟨d, hd, rfl⟩ := List.mem_map.1 he'
    exact (Fragment.ofBlock_isDefinition hf d hd).of_plain hplain
  have hne : f.groups ≠ [] → items ≠ [] := by
    rintro hgroups' rfl
    exact hgroups' (List.map_eq_nil_iff.1 (List.map_eq_nil_iff.1 hitems.symm))
  -- the document after each step
  subst hwp hwg hwd
  have hwithPaths : Tidy kept (fun name => names name ∨
      f.groups ≠ [] ∧ name = (Group.ofTags b.tags).name) _ ∧ HasNames names _ :=
    h.mergePaths hnames (fun _ => .inl) hentries hpnew
      (hops.mono fun v hv => hv.mono fun _ => .inr) hpopen
  obtain ⟨hgtidy, hgnames⟩ := hwithPaths.1.mergeGroups hitems' hwithPaths.2
    (fun name hname => hname.imp_right fun hg => ⟨hne hg.1, hg.2⟩) hgopen
  obtain ⟨hdtidy, hdnames⟩ := hgtidy.mergeDefinitions hgnames hdnew hdefs' hdopen
  refine ⟨_, _, ?_, hdtidy, hdnames⟩
  rw [Document.addFragment, hadd]

/-- A block leaves a tidy document whose groups are there. -/
theorem Tidy.runBlocks (h : Tidy kept names entries) (hnames : HasNames names entries)
    (m : Option Mark) (number : Nat) (blocks : List (String × Block)) :
    ∃ names' entries', (runBlocks number (.object m entries) blocks).document = .object m entries' ∧
      Tidy kept names' entries' ∧ HasNames names' entries' := by
  induction blocks generalizing names entries number with
  | nil => exact ⟨names, entries, rfl, h, hnames⟩
  | cons head blocks ih =>
    obtain ⟨path, b⟩ := head
    rw [Document.runBlocks]
    rcases addBlock_cases path number (.object m entries) b with
      ⟨fault, -, hsame⟩ | ⟨f, v, hread, hv, hadd⟩
    · rw [hsame]
      exact ih h hnames (number + 1)
    · obtain ⟨names', entries', hadd', htidy, hthere⟩ := h.addFragment hnames m hread hv
      rw [hadd, hadd']
      exact ih htidy hthere (number + 1)

/-! ## Documents of source files -/

/-- A seed without paths: it has none, or an empty object for them that is not its definitions as
well. -/
structure HasNoPaths (seed : Value) : Prop where
  empty : ∀ v, seed.field? "paths" = some v → ∃ m, v = .object m []
  apart : ∀ v w mark, seed.field? "paths" = some v → seed.field? "definitions" = some w →
    v.mark? = some mark → w.mark? ≠ some mark

/-- The names of the groups of a document. -/
def HasGroupNamed (document : Value) (name : String) : Prop :=
  ∃ m items, document.field? "tags" = some (.list m items) ∧
    ∃ item ∈ items, item.field? "name" = some (.text name)

/-- Whether a seed has a definition under a key. -/
def Defines (seed : Value) (key : Atom) : Prop :=
  ∃ definitions, seed.field? "definitions" = some definitions ∧
    key ∈ definitions.entries.map Prod.fst

/-- A document whose operations are whole, each with a group that the document has, and whose
definitions have references of the right form, but for those of a seed. -/
structure HasIntegrity (seed document : Value) : Prop where
  operations : ∃ m paths, document.field? "paths" = some (.object m paths) ∧
    HoldOperations (IsOperation (HasGroupNamed document)) paths
  definitions : ∃ m definitions, document.field? "definitions" = some (.object m definitions) ∧
    ∀ e ∈ definitions, Defines seed e.1 ∨ e.2.IsDefinition

/-- Tidy entries with groups of all names are those of a document with integrity. -/
theorem Tidy.hasIntegrity {seed : Value} (h : Tidy (Defines seed) names entries)
    (hnames : HasNames names entries) (m : Option Mark) :
    HasIntegrity seed (.object m entries) := by
  obtain ⟨mp, paths, md, definitions, hpget, hdget, -, -, hops, hdefs⟩ := h.sections
  obtain ⟨mt, items, htget, hthere⟩ := hnames
  refine ⟨⟨mp, paths, hpget, hops.mono fun v hv => hv.mono fun name hname => ?_⟩,
    md, definitions, hdget, fun e he => (hdefs e he).imp_right And.right⟩
  obtain ⟨item, hitem, hitemName⟩ := hthere name hname
  exact ⟨mt, items, htget, item, hitem, isNamed_iff.1 hitemName⟩

/-- A seed without paths starts a tidy document. -/
theorem ofSeed_tidy {seed : Value} {m : Option Mark} (hread : seed.IsRead) (hshape : HasShape seed)
    (hpaths : HasNoPaths seed) (h : ofSeed seed = .ok (.object m entries)) :
    Tidy (Defines seed) (fun _ => False) entries ∧ HasNames (fun _ => False) entries := by
  have hopen := ofSeed_open hread hshape h
  obtain ⟨m', old, entries', rfl, heq⟩ := eq_object_of_ofSeed h
  obtain ⟨d, hdget, hdobject⟩ := hopen.shaped.definitions
  obtain ⟨t, htget, htlist, -⟩ := hopen.shaped.tags
  obtain ⟨md, definitions, rfl⟩ := isObject_iff.1 hdobject
  obtain ⟨mt, items, rfl⟩ := isList_iff.1 htlist
  have hdefs : ∀ e ∈ definitions, Defines (.object m' old) e.1 ∨ e.2.IsNew ∧ e.2.IsDefinition := by
    intro e he
    rw [get?_ofSeed h (by decide)] at hdget
    cases hfield : (Value.object m' old).field? "definitions" with
    | none =>
      rw [hfield] at hdget
      cases hdget
      exact absurd he List.not_mem_nil
    | some w =>
      rw [hfield] at hdget
      cases hdget
      exact .inl ⟨_, hfield, List.mem_map_of_mem he⟩
  -- an empty object for the paths is not the object of the definitions
  have hpget : ∃ mp, Assoc.get? (.text "paths") entries = some (.object mp []) ∧
      ∀ mark, mp = some mark → md ≠ some mark := by
    rw [get?_ofSeed h (by decide)]
    cases hfield : (Value.object m' old).field? "paths" with
    | none => exact ⟨none, rfl, fun mark hmark => by cases hmark⟩
    | some w =>
      obtain ⟨mp, rfl⟩ := hpaths.empty w hfield
      refine ⟨mp, rfl, fun mark hmark => ?_⟩
      rw [get?_ofSeed h (by decide)] at hdget
      cases hfield' : (Value.object m' old).field? "definitions" with
      | none =>
        rw [hfield'] at hdget
        cases hdget
        exact nofun
      | some w =>
        rw [hfield'] at hdget
        cases hdget
        exact hpaths.apart _ _ mark hfield hfield' hmark
  obtain ⟨mp, hpget, hapart⟩ := hpget
  refine ⟨⟨hopen, mp, [], md, definitions, hpget, hdget, hapart, markedEntries_nil, ?_, hdefs⟩,
    mt, items, htget, fun _ => False.elim⟩
  exact fun e he => absurd he List.not_mem_nil

end Document

open Document

/-- If a seed has no paths, its groups are a list of objects and its definitions an object, then
after every block of source files every operation has a list of parameters, an object of responses
and one group, whose name is that of a group of the document; every parameter has a bare type or a
schema and not both, and values to choose from only with a bare type; every response has a
description; and references in schemas and in new definitions have the form `#/definitions/` and a
name. -/
theorem Options.generate_hasIntegrity (tree : FileTree) (options : Options)
    {places : List (List String)} (hglob : tree.glob options.basedir options.files = .ok places)
    (hread : (Value.map options.definition).IsRead) (hshape : HasShape (.map options.definition))
    (hpaths : HasNoPaths (.map options.definition)) :
    ∃ start, ofSeed (.map options.definition) = .ok start ∧
      (options.generate tree).document =
        .ok (runBlocks 0 start (blocksOf (tree.sources places))).document ∧
      ∀ before after, blocksOf (tree.sources places) = before ++ after →
        HasIntegrity (.map options.definition) (runBlocks 0 start before).document := by
  obtain ⟨entries, hseed⟩ := ofSeed_object none options.definition
  refine ⟨_, hseed, (generate_eq_runBlocks tree options hglob hseed).1, fun before _ _ => ?_⟩
  obtain ⟨htidy, hnames⟩ := ofSeed_tidy hread hshape hpaths hseed
  obtain ⟨names, entries', heq, htidy', hnames'⟩ := htidy.runBlocks hnames none 0 before
  rw [heq]
  exact htidy'.hasIntegrity hnames' none

/-- Options whose paths are an empty object that is one of the groups as well. -/
def groupedOptions : Options where
  definition :=
    [(.text "paths", .object (some (.node 0)) []),
      (.text "tags",
        .array [.record [("name", .text "pets")], .object (some (.node 0)) []])]
  files := ["*.js"]
  basedir := ⟨.here, []⟩
  route := {}

/-- A file with an operation and a definition. -/
def groupedTree : FileTree :=
  ⟨[(["pets.js"], .file ("/** @route GET /pets\n * @group pets\n * @param {string} name.query\n" ++
    " * @returns {Pet.model} 200 - Found */\n" ++
    "/** @typedef Pet\n * @property {Array.<Pet>} friends */").toUTF8)], []⟩

/-- Such a seed is one that is read from a text. -/
theorem groupedOptions_isRead : (Value.map groupedOptions.definition).IsRead := by
  refine ⟨fun _ => .object (some (.node 0)) [], ?_⟩
  have hpaths : (Value.object (some (.node 0)) []).Marked fun mark x =>
      ∃ i, mark = .node i ∧ x = .object (some (.node 0)) [] := by
    refine marked_iff.2 ⟨?_, fun w hw => absurd hw List.not_mem_nil⟩
    intro mark hmark
    exact ⟨0, (Option.some.inj hmark).symm, rfl⟩
  have hgroup : (Value.record [("name", .text "pets")]).Marked fun mark x =>
      ∃ i, mark = .node i ∧ x = .object (some (.node 0)) [] :=
    record_marked (List.forall_mem_singleton.2 (marked_atom rfl))
  refine MarkedEntries.map ⟨?_, ?_⟩
  · exact List.forall_mem_cons.2 ⟨marked_atom rfl, List.forall_mem_singleton.2 (marked_atom rfl)⟩
  · refine List.forall_mem_cons.2 ⟨hpaths, List.forall_mem_singleton.2 (array_marked ?_)⟩
    exact List.forall_mem_cons.2 ⟨hgroup, List.forall_mem_singleton.2 hpaths⟩

/-- Such a seed has the shape of a document. -/
theorem groupedOptions_shaped : HasShape (.map groupedOptions.definition) := by
  refine ⟨?_, ?_, ?_⟩
  · intro v hv
    cases hv
    decide
  · intro v hv
    cases hv
    decide
  · intro v hv
    cases hv

/-- Such a seed has no paths. -/
theorem groupedOptions_hasNoPaths : HasNoPaths (.map groupedOptions.definition) := by
  refine ⟨?_, ?_⟩
  · intro v hv
    cases hv
    exact ⟨_, rfl⟩
  · intro v w mark _ hw
    cases hw

/-- The document has the operation of the file, and its integrity. -/
theorem Options.generate_hasIntegrity_grouped :
    groupedTree.glob groupedOptions.basedir groupedOptions.files = .ok [["pets.js"]] ∧
      ∃ document, (groupedOptions.generate groupedTree).document = .ok document ∧
        HasIntegrity (.map groupedOptions.definition) document ∧
        (fieldAt? ⟨"get", "/pets"⟩ "responses" document).isSome := by
  have hglob : groupedTree.glob groupedOptions.basedir groupedOptions.files =
      .ok [["pets.js"]] := by
    decide +kernel
  obtain ⟨start, -, hdocument, hintegrity⟩ := generate_hasIntegrity groupedTree groupedOptions hglob
    groupedOptions_isRead groupedOptions_shaped groupedOptions_hasNoPaths
  refine ⟨hglob, _, hdocument, hintegrity _ [] (List.append_nil _).symm, ?_⟩
  have hthere : (groupedOptions.generate groupedTree).document.toOption.any
      (fun document => (fieldAt? ⟨"get", "/pets"⟩ "responses" document).isSome) = true := by
    decide +kernel
  rw [hdocument] at hthere
  exact hthere

end ApiDoc
