import ApiDoc.Proofs.Document.ClosedForm

/-!
# Names of groups over whole runs

Fragments are added to a document call after call; a call that fails leaves what it had merged by
then. If the sections that the fragments are for stand in one place each, the list of groups only
grows, at its end: no two groups have one name, and each new group is the first one with its name
that a merge reached (`groups_addAll`). A group that is also a section may get the name of another
one (`names_agree_after_definition`).
-/

namespace ApiDoc

namespace Document

open Value

variable {items : List Value}

/-! ## Calls -/

/-- A document after fragments were added to it by several calls, each of which may fail. -/
def addAll (document : Value) (calls : List Value) : Value :=
  calls.foldl (fun document fragments => (add document fragments).value) document

/-- Calls in a row are made one part after the other. -/
theorem addAll_append (document : Value) (before after : List Value) :
    addAll document (before ++ after) = addAll (addAll document before) after :=
  List.foldl_append

/-- The groups that properties offer to a document. -/
def groupsIn (properties : List (Atom × Value)) : List Value :=
  (valuesFor (.text "tags") properties).flatMap itemsOrSelf

/-- The groups that the merges of several calls reach. -/
def reachedGroups (document : Value) : List Value → List Value
  | [] => []
  | fragments :: calls =>
    groupsIn (Document.reached document fragments) ++
      reachedGroups (add document fragments).value calls

/-- The properties that a merge reaches are among those that it was given. -/
theorem reachedProperties_subset (document : Value) (ps : List (Atom × Value)) :
    ∀ e ∈ reachedProperties document ps, e ∈ ps := by
  induction ps generalizing document with
  | nil => exact fun e he => he
  | cons e' ps ih =>
    obtain ⟨name, value⟩ := e'
    intro e he
    rw [reachedProperties] at he
    split at he
    · exact absurd he List.not_mem_nil
    · rcases List.mem_cons.1 he with rfl | he
      · exact List.mem_cons_self
      · split at he
        · exact List.mem_cons_of_mem _ (ih _ e he)
        · exact absurd he List.not_mem_nil

/-- What a run over fragments gets to are properties of theirs. -/
theorem reachedFragments_subset (document : Value) (fragments : List Value) :
    ∀ e ∈ reachedFragments document fragments, e ∈ fragments.flatMap Value.entries := by
  induction fragments generalizing document with
  | nil => exact fun e he => he
  | cons fragment fragments ih =>
    intro e he
    rw [List.flatMap_cons]
    cases fragment with
    | object m ps =>
      rw [reachedFragments] at he
      rcases List.mem_append.1 he with he | he
      · exact List.mem_append_left _ (reachedProperties_subset document ps e he)
      · split at he
        · exact List.mem_append_right _ (ih _ e he)
        · exact absurd he List.not_mem_nil
    | _ => exact absurd he List.not_mem_nil

/-- The groups that a merge reaches are among those that it was given. -/
theorem mem_groupsIn_of_reached {document fragments : Value} :
    ∀ g ∈ groupsIn (Document.reached document fragments),
      g ∈ groupsIn (propertiesOf fragments) := by
  intro g hg
  obtain ⟨v, hv, hg⟩ := List.mem_flatMap.1 hg
  obtain ⟨k, hk, hkey⟩ := Assoc.mem_given.1 hv
  obtain ⟨e, he, heq⟩ := List.mem_map.1 hk
  have he := reachedFragments_subset document (fragmentsOf fragments) e he
  exact List.mem_flatMap.2 ⟨v, Assoc.mem_given.2 ⟨k, List.mem_map.2 ⟨e, he, heq⟩, hkey⟩, hg⟩

/-- A list of objects takes in groups that are objects. -/
theorem combine_groups (m : Option Mark) {vs : List Value}
    (hitems : ∀ item ∈ items, item.isObject = true)
    (hvs : ∀ g ∈ vs.flatMap itemsOrSelf, g.isObject = true) :
    Takes .groups (some (.list m items)) vs ∧
      Assoc.combine (fun x v => joinSection x (.groups, v)) (some (.list m items)) vs =
        some (.list m ((vs.flatMap itemsOrSelf).foldl addGroup items)) := by
  induction vs generalizing items with
  | nil => exact ⟨trivial, rfl⟩
  | cons v vs ih =>
    rw [List.flatMap_cons] at hvs ⊢
    obtain ⟨hv, hrest⟩ := List.forall_mem_append.1 hvs
    have hstep : joinSection (some (.list m items)) (.groups, v) =
        .list m (v.itemsOrSelf.foldl addGroup items) :=
      congrArg Merged.value (addGroups_objects m hitems hv)
    have hfits : Fits (some (.list m items)) (.groups, v) :=
      congrArg Merged.fault (addGroups_objects m hitems hv)
    obtain ⟨htakes, hcombine⟩ := ih (isObject_foldl_addGroup hitems hv) hrest
    rw [takes_cons, Assoc.combine_cons, hstep, List.foldl_append]
    exact ⟨⟨hfits, htakes⟩, hcombine⟩

/-- The groups after several calls: all that the merges reached was added, one after another. -/
theorem Apart.tags_addAll {marks : List Mark} {names : List String}
    {entries : List (Atom × Value)} (h : Apart marks names entries) {mark : Option Mark}
    (htags : Assoc.get? (.text "tags") entries = some (.list mark items))
    (hitems : ∀ item ∈ items, item.isObject = true) {calls : List Value}
    (hcalls : ∀ fragments ∈ calls, (∀ e ∈ propertiesOf fragments, Enters marks names e) ∧
      ∀ g ∈ groupsIn (propertiesOf fragments), g.isObject = true) (m : Option Mark) :
    ∃ entries', addAll (.object m entries) calls = .object m entries' ∧
      Apart marks names entries' ∧
      Assoc.get? (.text "tags") entries' =
        some (.list mark ((reachedGroups (.object m entries) calls).foldl addGroup items)) ∧
      ∀ item ∈ (reachedGroups (.object m entries) calls).foldl addGroup items,
        item.isObject = true := by
  induction calls generalizing entries items with
  | nil => exact ⟨entries, rfl, h, htags, hitems⟩
  | cons fragments calls ih =>
    obtain ⟨⟨henters, hoffered⟩, hrest⟩ := List.forall_mem_cons.1 hcalls
    have hreached : ∀ g ∈ groupsIn (Document.reached (.object m entries) fragments),
        g.isObject = true := fun g hg => hoffered g (mem_groupsIn_of_reached g hg)
    obtain ⟨hvalue, hapart⟩ := h.add_value henters m
    have hkind : sectionKind? "tags" = some .groups := by decide
    have htags' : Assoc.get? (.text "tags") (Assoc.mergeWith joinSection entries
        (stepsOf (Document.reached (.object m entries) fragments))) = some (.list mark
          ((groupsIn (Document.reached (.object m entries) fragments)).foldl addGroup items)) := by
      rw [get?_mergeWith_stepsOf hkind, htags]
      exact (combine_groups mark hitems hreached).2
    have hrun := ih hapart htags' (isObject_foldl_addGroup hitems hreached) hrest
    rw [← hvalue, ← List.foldl_append] at hrun
    exact hrun

/-- Over any run of calls, each of which may fail, the list of groups only grows at its end, no two
groups have one name, and each new group is the first one that counts as something, has its name and
was reached by a merge; no group had its name before. -/
theorem groups_addAll {m mark : Option Mark} {entries : List (Atom × Value)}
    {before after : List Value}
    (hseparate : Separate entries ((before ++ after).flatMap propertiesOf))
    (htags : Assoc.get? (.text "tags") entries = some (.list mark items))
    (hitems : ∀ item ∈ items, item.isObject = true) (hdiffer : NamesDiffer items)
    (hoffered : ∀ fragments ∈ before ++ after, ∀ g ∈ groupsIn (propertiesOf fragments),
      g.isObject = true) :
    ∃ earlier appended,
      (addAll (.object m entries) before).lookup? (.text "tags") = some (.list mark earlier) ∧
      (addAll (.object m entries) (before ++ after)).lookup? (.text "tags") =
        some (.list mark (earlier ++ appended)) ∧
      NamesDiffer earlier ∧ NamesDiffer (earlier ++ appended) ∧
      Appended earlier (reachedGroups (addAll (.object m entries) before) after) appended := by
  have hcalls : ∀ fragments ∈ before ++ after, (∀ e ∈ propertiesOf fragments, Enters
      (marksUnder (sectionsOf ((before ++ after).flatMap propertiesOf)) entries)
      (sectionsOf ((before ++ after).flatMap propertiesOf)) e) ∧
        ∀ g ∈ groupsIn (propertiesOf fragments), g.isObject = true :=
    fun fragments hin => ⟨fun e he => hseparate.enters e (List.mem_flatMap.2 ⟨fragments, hin, he⟩),
      hoffered fragments hin⟩
  -- the run is cut in two: what the first part leaves is what the second one starts from
  obtain ⟨hbefore, hafter⟩ := List.forall_mem_append.1 hcalls
  obtain ⟨entries₁, hadd₁, hapart₁, htags₁, hitems₁⟩ :=
    hseparate.apart.tags_addAll htags hitems hbefore m
  obtain ⟨entries₂, hadd₂, -, htags₂, -⟩ := hapart₁.tags_addAll htags₁ hitems₁ hafter m
  obtain ⟨appended₁, hfold₁, happended₁⟩ :=
    foldl_addGroup items (reachedGroups (.object m entries) before)
  obtain ⟨appended, hfold₂, happended⟩ := foldl_addGroup
    ((reachedGroups (.object m entries) before).foldl addGroup items)
    (reachedGroups (.object m entries₁) after)
  have hearlier : NamesDiffer ((reachedGroups (.object m entries) before).foldl addGroup items) :=
    hfold₁ ▸ happended₁.namesDiffer hdiffer
  have hall : addAll (.object m entries) (before ++ after) = .object m entries₂ := by
    rw [addAll_append, hadd₁, hadd₂]
  rw [hall, hadd₁]
  exact ⟨_, appended, htags₁, htags₂.trans (by rw [hfold₂]), hearlier,
    happended.namesDiffer hearlier, happended⟩

/-- A group with a name. -/
def namedGroup (name : String) : Value := .map [(.text "name", .text name)]

/-- A group without a name. -/
def namelessGroup : Value := .map [(.text "description", .text "Anything else")]

/-- Fragments whose paths are no object, between groups. -/
def failingCall : Value := .array
  [.map [(.text "tags", .array [namedGroup "pets", namedGroup "dogs"]),
    (.text "paths", .text "none"), (.text "tag", namedGroup "cats")]]

/-- Fragments with two groups without a name, one of which is empty, and a name that is there. -/
def furtherCall : Value := .array
  [.map [(.text "tag", .map [])], .map [(.text "tag", namelessGroup)],
    .map [(.text "tags", .array [namedGroup "dogs", .map [(.text "name", .null)]])]]

/-- The first call fails behind two groups, one of which is new; the second one adds the group
without a name once. -/
theorem groups_addAll_failing :
    (add (.map [(.text "tags", .array [namedGroup "pets"])]) failingCall).fault = some .lacking ∧
      (addAll (.map [(.text "tags", .array [namedGroup "pets"])]) [failingCall]).lookup?
        (.text "tags") = some (.array [namedGroup "pets", namedGroup "dogs"]) ∧
      (addAll (.map [(.text "tags", .array [namedGroup "pets"])])
        [failingCall, furtherCall]).lookup? (.text "tags") =
          some (.array ([namedGroup "pets", namedGroup "dogs"] ++ [namelessGroup])) ∧
      NamesDiffer ([namedGroup "pets", namedGroup "dogs"] ++ [namelessGroup]) ∧
      Appended [namedGroup "pets", namedGroup "dogs"]
        [.map [], namelessGroup, namedGroup "dogs", .map [(.text "name", .null)]]
        [namelessGroup] := by
  have hoffered : ([failingCall] ++ [furtherCall]).all
      (fun fragments => (groupsIn (propertiesOf fragments)).all isObject) = true := rfl
  have hseparate : Separate [(.text "tags", .array [namedGroup "pets"])]
      (([failingCall] ++ [furtherCall]).flatMap propertiesOf) := separate_of_marksUnder rfl
  have htags : Assoc.get? (Atom.text "tags") [(Atom.text "tags", array [namedGroup "pets"])] =
      some (.list none [namedGroup "pets"]) := rfl
  obtain ⟨earlier, appended, hbefore, hafter, -, hdiffer, happended⟩ := groups_addAll (m := none)
    hseparate htags (List.forall_mem_singleton.2 rfl) (List.pairwise_singleton _ _)
    fun fragments hin => List.all_eq_true.1 (List.all_eq_true.1 hoffered fragments hin)
  obtain rfl : [namedGroup "pets", namedGroup "dogs"] = earlier :=
    (Value.list.inj (Option.some.inj hbefore)).2
  obtain rfl : [namelessGroup] = appended :=
    List.append_cancel_left (Value.list.inj (Option.some.inj hafter)).2
  exact ⟨rfl, hbefore, hafter, hdiffer, happended⟩

/-- The entries of a seed whose first group is the object of its definitions, and whose second group
has a definition for a name. -/
def sharedGroup : List (Atom × Value) :=
  [(.text "definitions", .object (some (.node 0)) []),
    (.text "tags", .array [.object (some (.node 0)) [],
      .map [(.text "name", .map [(.text "required", .array []), (.text "properties", .map [])])]])]

/-- A definition with the name `name` gives the group that is the object of the definitions the name
of another one, though no fragment offers a group. -/
theorem names_agree_after_definition :
    ∃ entries f items items', ofSeed (.map sharedGroup) = .ok (.object none entries) ∧
      Fragment.ofBlock (fun _ => none) (typedefBlock "name") = .ok f ∧
      Assoc.get? (.text "tags") entries = some (.list none items) ∧
      (∀ item ∈ items, item.isObject = true) ∧ NamesDiffer items ∧
      (∀ g ∈ groupsIn (propertiesOf (.array [f.toValue])), g.isObject = true) ∧
      (addAll (.object none entries) [.array [f.toValue]]).lookup? (.text "tags") =
        some (.list none items') ∧ ¬NamesDiffer items' := by
  refine ⟨_, _, _, _, rfl, ofBlock_typedefBlock (by decide) _, rfl, List.all_eq_true.1 rfl, ?_,
    List.all_eq_true.1 rfl, rfl, ?_⟩
  · exact List.pairwise_pair.2 rfl
  · exact fun hdiffer => absurd (List.pairwise_pair.1 hdiffer) nofun

end Document

end ApiDoc
