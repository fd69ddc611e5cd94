import ApiDoc.Proofs.Document.Groups

/-!
# Adding the same fragments again

Fragments that were added to a document without fault can be added again, and the document keeps
its content, with the order of all keys and items (`add_add_self`). The second time is not a row of
steps that do nothing: a field that several fragments set goes through all their values once more
before it is back at the last one. So the argument follows the data and not the steps. At each
level, from the document down to the fields, a merge can be repeated if what comes in under one key
can be (`Assoc.mergeWith_repeats`); lists and groups are repeated item by item (`Itemwise`).
-/

namespace ApiDoc

namespace Document

open Value

/-! ## Operations -/

/-- An operation that is no object replaces what is there. -/
theorem overlay_eq_of_not_isObject {operation : Value} (h : operation.isObject = false)
    (x : Option Value) : overlay x operation = operation := by
  cases operation with
  | object m entries => exact absurd h nofun
  | _ =>
    cases x with
    | none => rfl
    | some v => cases v <;> rfl

/-- An operation that is no object replaces all that was there. -/
theorem combine_overlay_of_not_isObject {ops : List Value} {op : Value} (hop : op ∈ ops)
    (h : op.isObject = false) (x x' : Option Value) :
    Assoc.combine overlay x ops = Assoc.combine overlay x' ops := by
  induction ops generalizing x x' with
  | nil => exact absurd hop List.not_mem_nil
  | cons op' ops ih =>
    rw [Assoc.combine_cons, Assoc.combine_cons]
    rcases List.mem_cons.1 hop with rfl | hop
    · rw [overlay_eq_of_not_isObject h, overlay_eq_of_not_isObject h]
    · exact ih hop _ _

/-- What comes in under a key has objects with different keys if all that comes in has. -/
theorem isKeyed_given {vs : List Value} (hkeyed : ∀ v ∈ vs, v.isKeyed = true) (key : Atom) :
    ∀ c ∈ Assoc.given key (vs.flatMap entries), c.isKeyed = true := by
  rw [given_flatMap_entries fun v hv => different_entries (hkeyed v hv)]
  exact isKeyed_filterMap_lookup? hkeyed key

/-- Operations on one method can be laid on again, objects or not. -/
theorem repeats_overlay {ops : List Value} (hkeyed : ∀ op ∈ ops, op.isKeyed = true) :
    Assoc.Repeats (fun _ _ => True) overlay plain ops where
  accepts _ _ := Assoc.accepts_true overlay _ ops
  settled := by
    intro x y z _ hy hz
    have hdifferent : ∀ op ∈ ops, Assoc.Different op.entries :=
      fun op hop => different_entries (hkeyed op hop)
    by_cases hobjects : ∀ op ∈ ops, op.isObject = true
    · by_cases hops : ops = []
      · subst hops
        rw [Assoc.combine_nil, Option.some.injEq] at hz
        rw [hz]
      · -- the fields are updated twice with the same ones
        obtain ⟨m, hfirst⟩ := combine_overlay_objects hops hobjects hdifferent x
        obtain rfl : _ = y := Option.some.inj (hfirst.symm.trans hy)
        obtain ⟨m', hsecond⟩ := combine_overlay_objects hops hobjects hdifferent (some (.object m
          (Assoc.update ((x.map entries).getD []) (ops.flatMap entries))))
        obtain rfl : _ = z := Option.some.inj (hsecond.symm.trans hz)
        rw [plain_object, plain_object]
        congr 2
        exact Assoc.update_update_self _ _
    · -- one of the operations is no object, so what was there before does not matter
      rw [not_forall] at hobjects
      obtain ⟨op, hnot⟩ := hobjects
      rw [Classical.not_imp, Bool.not_eq_true] at hnot
      have hsame := combine_overlay_of_not_isObject hnot.1 hnot.2 (some y) x
      rw [hz, hy, Option.some.injEq] at hsame
      rw [hsame]

/-! ## Paths -/

/-- A path that takes methods takes any number of objects: from the first one on it is an object. -/
theorem accepts_of_opens {x : Option Value} (hx : opens x = true) {cs : List Value}
    (hcs : ∀ c ∈ cs, c.isObject = true) : Assoc.Accepts TakesMethods joinPath x cs := by
  induction cs generalizing x with
  | nil => trivial
  | cons c cs ih =>
    obtain ⟨hc, hcs⟩ := List.forall_mem_cons.1 hcs
    exact ⟨⟨hx, hc⟩, ih rfl hcs⟩

/-- Methods on one path can be merged again: from the first time on the path is an object. -/
theorem repeats_joinPath {cs : List Value} (hkeyed : ∀ c ∈ cs, c.isKeyed = true) :
    Assoc.Repeats TakesMethods joinPath plain cs where
  accepts := by
    intro x y hx hy
    by_cases hcs : cs = []
    · subst hcs
      trivial
    · rw [combine_joinPath x hcs] at hy
      cases hy
      exact accepts_of_opens rfl (hx.forall_mem fun _ _ h => h.2)
  settled := by
    intro x y z _ hy hz
    by_cases hcs : cs = []
    · subst hcs
      rw [Assoc.combine_nil, Option.some.injEq] at hz
      rw [hz]
    · rw [combine_joinPath x hcs] at hy
      cases hy
      rw [combine_joinPath _ hcs] at hz
      cases hz
      -- both times the methods are merged into an object, the second time into the first result
      have hrepeats := (Assoc.mergeWith_repeats (m := methodsOf x)
        (fun e _ => repeats_overlay (isKeyed_given hkeyed e.1))
        (Assoc.admits_true overlay (methodsOf x) _)).2
      rw [Value.map, Value.map, plain_object, plain_object]
      exact congrArg (Value.object none) hrepeats

/-! ## Sections that are merged entry by entry -/

variable {kind : SectionKind} {ok : Option Value → Value → Prop}
  {f : Option Value → Value → Value}

/-- An object takes in values just if they are objects with entries that can be combined. -/
theorem Entrywise.takes_object_iff (h : Entrywise kind ok f) {m : Option Mark}
    {entries : List (Atom × Value)} {vs : List Value} :
    Takes kind (some (.object m entries)) vs ↔
      (∀ v ∈ vs, v.isObject = true) ∧ Assoc.Admits ok f entries (vs.flatMap Value.entries) := by
  induction vs generalizing entries with
  | nil => exact ⟨fun _ => ⟨fun v hv => absurd hv List.not_mem_nil, trivial⟩, fun _ => trivial⟩
  | cons v vs ih =>
    rw [takes_cons, List.forall_mem_cons, List.flatMap_cons, Assoc.admits_append]
    constructor
    · rintro ⟨hfits, hrest⟩
      rw [h.object hfits, ih] at hrest
      obtain ⟨hv, hadmits⟩ := h.fits.1 hfits
      exact ⟨⟨hv, hrest.1⟩, hadmits, hrest.2⟩
    · rintro ⟨⟨hv, hvs⟩, hadmits, hrest⟩
      have hfits : Fits (some (.object m entries)) (kind, v) := h.fits.2 ⟨hv, hadmits⟩
      rw [h.object hfits, ih]
      exact ⟨hfits, hvs, hrest⟩

/-- Whether what was merged into a section can be merged again. -/
abbrev MergesAgain (kind : SectionKind) : List Value → Prop :=
  Assoc.Repeats (fun x v => Fits x (kind, v)) (fun x v => joinSection x (kind, v)) plain

/-- A section that is there is all that counts: one that is not there is an empty one. -/
theorem mergesAgain_of_some {vs : List Value}
    (h : ∀ x y, Takes kind (some x) vs →
      Assoc.combine (fun x v => joinSection x (kind, v)) (some x) vs = some y →
      Takes kind (some y) vs ∧ ∀ z,
        Assoc.combine (fun x v => joinSection x (kind, v)) (some y) vs = some z →
        z.plain = y.plain) : MergesAgain kind vs := by
  have hall : ∀ x y, Takes kind x vs →
      Assoc.combine (fun x v => joinSection x (kind, v)) x vs = some y →
      Takes kind (some y) vs ∧ ∀ z,
        Assoc.combine (fun x v => joinSection x (kind, v)) (some y) vs = some z →
        z.plain = y.plain := by
    intro x y hx hy
    cases x with
    | some x => exact h x y hx hy
    | none =>
      by_cases hvs : vs = []
      · subst hvs
        cases hy
      · rw [takes_none_iff] at hx
        rw [combine_none_eq hvs] at hy
        exact h _ y hx hy
  exact ⟨fun hx hy => (hall _ _ hx hy).1, fun hx hy hz => (hall _ _ hx hy).2 _ hz⟩

/-- A section of entries can be merged again if each entry can. -/
theorem Entrywise.mergesAgain (h : Entrywise kind ok f) {vs : List Value}
    (hkeyed : ∀ v ∈ vs, v.isKeyed = true)
    (hrepeats : ∀ cs : List Value, (∀ c ∈ cs, c.isKeyed = true) → Assoc.Repeats ok f plain cs) :
    MergesAgain kind vs := by
  refine mergesAgain_of_some fun x y hx hy => ?_
  by_cases hobject : x.isObject = true
  · obtain ⟨m, entries, rfl⟩ := isObject_iff.1 hobject
    rw [h.combine_object hx] at hy
    cases hy
    obtain ⟨hvs, hadmits⟩ := h.takes_object_iff.1 hx
    obtain ⟨hagain, hsame⟩ := Assoc.mergeWith_repeats
      (fun e _ => hrepeats _ (isKeyed_given hkeyed e.1)) hadmits
    have htakes := (h.takes_object_iff (m := m)).2 ⟨hvs, hagain⟩
    refine ⟨htakes, fun z hz => ?_⟩
    rw [h.combine_object htakes] at hz
    cases hz
    rw [plain_object, plain_object, hsame]
  · -- nothing comes into a section that is no object
    rw [Bool.not_eq_true] at hobject
    rw [(h.combine_other hobject hx).1] at hy
    cases hy
    refine ⟨hx, fun z hz => ?_⟩
    rw [(h.combine_other hobject hx).1] at hz
    cases hz
    rfl

/-! ## Sections that are merged item by item -/

/-- A value with the items that it does not have yet. -/
def addEach (has : Value → Value → Except MergeFault Bool) (target : Value) : List Value → Merged
  | [] => ⟨target, none⟩
  | item :: rest =>
    match has target item with
    | .error fault => ⟨target, some fault⟩
    | .ok true => addEach has target rest
    | .ok false =>
      match append target item with
      | .error fault => ⟨target, some fault⟩
      | .ok target => addEach has target rest

/-- Lists take in the items that they do not contain. -/
theorem addItems_eq_addEach (target : Value) (items : List Value) :
    addItems target items = addEach contains target items := by
  induction items generalizing target with
  | nil => rfl
  | cons item items ih =>
    rw [addItems, addEach]
    cases contains target item with
    | error fault => rfl
    | ok found =>
      cases found with
      | true => exact ih target
      | false =>
        cases append target item with
        | error fault => rfl
        | ok target => exact ih target

/-- Groups take in those that are truthy and whose names are not there. -/
theorem addGroups_eq_addEach (target : Value) (groups : List Value) :
    addGroups target groups = addEach hasGroup target (groups.filter isTruthy) := by
  induction groups generalizing target with
  | nil => rfl
  | cons group groups ih =>
    rw [addGroups, List.filter_cons]
    cases group.isTruthy with
    | false => exact ih target
    | true =>
      rw [if_pos rfl, if_pos rfl, addEach]
      cases hasGroup target group with
      | error fault => rfl
      | ok found =>
        cases found with
        | true => exact ih target
        | false =>
          cases append target group with
          | error fault => rfl
          | ok target => exact ih target

/-- A kind of section that is merged item by item: `has` says whether it has an item, and `items`
what comes in. What is there stays there when something is appended, and a good item is there once
it was appended. -/
structure Itemwise (kind : SectionKind) (has : Value → Value → Except MergeFault Bool)
    (items : Value → List Value) (good : Value → Prop) : Prop where
  merge : ∀ target v, mergeSection kind target v = addEach has target (items v)
  keeps : ∀ {target target' item item'}, has target item = .ok true →
    append target item' = .ok target' → has target' item = .ok true
  gains : ∀ {target target' item}, good item → has target item = .ok false →
    append target item = .ok target' → has target' item = .ok true

variable {has : Value → Value → Except MergeFault Bool} {items : Value → List Value}
  {good : Value → Prop}

/-- What is there stays there. -/
theorem Itemwise.addEach_keeps (h : Itemwise kind has items good) {target item : Value}
    (hitem : has target item = .ok true) (new : List Value) :
    has (addEach has target new).value item = .ok true := by
  induction new generalizing target with
  | nil => exact hitem
  | cons item' new ih =>
    rw [addEach]
    split
    · exact hitem
    · exact ih hitem
    · split
      · exact hitem
      · rename_i happend
        exact ih (h.keeps hitem happend)

/-- What was added without fault is there. -/
theorem Itemwise.addEach_gains (h : Itemwise kind has items good) {target : Value}
    {new : List Value} (hnew : ∀ item ∈ new, good item)
    (hok : (addEach has target new).fault = none) :
    ∀ item ∈ new, has (addEach has target new).value item = .ok true := by
  induction new generalizing target with
  | nil => exact fun item hitem => absurd hitem List.not_mem_nil
  | cons item new ih =>
    obtain ⟨hgood, hrest⟩ := List.forall_mem_cons.1 hnew
    rw [List.forall_mem_cons]
    rw [addEach] at hok ⊢
    cases hhas : has target item with
    | error fault =>
      simp only [hhas] at hok
      cases hok
    | ok there =>
      -- an item is there after its own step, and later steps only add
      cases there with
      | true =>
        simp only [hhas] at hok ⊢
        exact ⟨h.addEach_keeps hhas new, ih hrest hok⟩
      | false =>
        cases happend : append target item with
        | error fault =>
          simp only [hhas, happend] at hok
          cases hok
        | ok target' =>
          simp only [hhas, happend] at hok ⊢
          exact ⟨h.addEach_keeps (h.gains hgood hhas happend) new, ih hrest hok⟩

/-- Nothing is added if all is there. -/
theorem addEach_eq_self {target : Value} {new : List Value}
    (h : ∀ item ∈ new, has target item = .ok true) : addEach has target new = ⟨target, none⟩ := by
  induction new with
  | nil => rfl
  | cons item new ih =>
    obtain ⟨hitem, hrest⟩ := List.forall_mem_cons.1 h
    rw [addEach]
    simp only [hitem, ih hrest]

/-- A section of items takes in the items of a value. -/
theorem Itemwise.joinSection_eq (h : Itemwise kind has items good) (x v : Value) :
    joinSection (some x) (kind, v) = (addEach has x (items v)).value :=
  congrArg Merged.value (h.merge x v)

/-- A value fits just if its items are taken in without a fault. -/
theorem Itemwise.fits_iff (h : Itemwise kind has items good) {x v : Value} :
    Fits (some x) (kind, v) ↔ (addEach has x (items v)).fault = none := by
  rw [← h.merge]
  rfl

/-- An item stays when further values come in. -/
theorem Itemwise.combine_keeps (h : Itemwise kind has items good) {x y item : Value}
    (hitem : has x item = .ok true) {vs : List Value}
    (hy : Assoc.combine (fun x v => joinSection x (kind, v)) (some x) vs = some y) :
    has y item = .ok true := by
  induction vs generalizing x with
  | nil =>
    cases hy
    exact hitem
  | cons v vs ih =>
    rw [Assoc.combine_cons, h.joinSection_eq] at hy
    exact ih (h.addEach_keeps hitem (items v)) hy

/-- All good items that came in are there afterwards. -/
theorem Itemwise.combine_gains (h : Itemwise kind has items good) {x y : Value} {vs : List Value}
    (hvs : ∀ v ∈ vs, ∀ item ∈ items v, good item) (hx : Takes kind (some x) vs)
    (hy : Assoc.combine (fun x v => joinSection x (kind, v)) (some x) vs = some y) :
    ∀ v ∈ vs, ∀ item ∈ items v, has y item = .ok true := by
  induction vs generalizing x with
  | nil => exact fun v hv => absurd hv List.not_mem_nil
  | cons v vs ih =>
    obtain ⟨hv, hvs⟩ := List.forall_mem_cons.1 hvs
    obtain ⟨hfits, hrest⟩ := takes_cons.1 hx
    rw [Assoc.combine_cons] at hy
    refine List.forall_mem_cons.2 ⟨fun item hitem => ?_, ih hvs hrest hy⟩
    rw [h.joinSection_eq] at hy
    exact h.combine_keeps (h.addEach_gains hv (h.fits_iff.1 hfits) item hitem) hy

/-- Where all items are there, values that have them change nothing. -/
theorem Itemwise.combine_eq_self (h : Itemwise kind has items good) {y : Value} {vs : List Value}
    (hvs : ∀ v ∈ vs, ∀ item ∈ items v, has y item = .ok true) :
    Takes kind (some y) vs ∧
      Assoc.combine (fun x v => joinSection x (kind, v)) (some y) vs = some y := by
  induction vs with
  | nil => exact ⟨trivial, rfl⟩
  | cons v vs ih =>
    obtain ⟨hv, hvs⟩ := List.forall_mem_cons.1 hvs
    have hadd : addEach has y (items v) = ⟨y, none⟩ := addEach_eq_self hv
    have hjoin : joinSection (some y) (kind, v) = y := by rw [h.joinSection_eq, hadd]
    rw [takes_cons, Assoc.combine_cons, hjoin, h.fits_iff, hadd]
    exact ⟨⟨rfl, (ih hvs).1⟩, (ih hvs).2⟩

/-- A section of items can be merged again if the items are good. -/
theorem Itemwise.mergesAgain (h : Itemwise kind has items good) {vs : List Value}
    (hvs : ∀ v ∈ vs, ∀ item ∈ items v, good item) : MergesAgain kind vs := by
  refine mergesAgain_of_some fun x y hx hy => ?_
  obtain ⟨htakes, hsame⟩ := h.combine_eq_self (h.combine_gains hvs hx hy)
  refine ⟨htakes, fun z hz => ?_⟩
  rw [hsame, Option.some.injEq] at hz
  rw [hz]

/-- What can be appended to is a list. -/
theorem append_eq_ok_iff {target item target' : Value} : append target item = .ok target' ↔
    ∃ m items, target = .list m items ∧ target' = .list m (items ++ [item]) := by
  cases target with
  | list m items => simp [append, eq_comm]
  | _ => simp [append]

/-- Lists are merged item by item, and an item is there once it was appended. -/
theorem itemwise_list : Itemwise .list contains itemsOrSelf fun item => item.isKeyed = true where
  merge target v := addItems_eq_addEach target v.itemsOrSelf
  keeps := by
    intro target target' item item' hitem happend
    obtain ⟨m, items, rfl, rfl⟩ := append_eq_ok_iff.1 happend
    rw [contains, Except.ok.injEq] at hitem ⊢
    rw [List.any_append, hitem, Bool.true_or]
  gains := by
    intro target target' item hkeyed _ happend
    obtain ⟨m, items, rfl, rfl⟩ := append_eq_ok_iff.1 happend
    rw [contains, List.any_append, List.any_cons, alike_self hkeyed, Bool.true_or, Bool.or_true]

/-- The name of a group has objects with different keys if the group has. -/
theorem isKeyed_groupName {group : Value} (h : group.isKeyed = true) :
    (groupName group.entries).isKeyed = true := by
  rw [groupName]
  cases hget : Assoc.get? (.text "name") group.entries with
  | none => rfl
  | some name => exact isKeyed_lookup? h hget

/-- Groups are merged item by item, and one that is an object is there once it was appended, unless
its name is NaN. -/
theorem itemwise_groups : Itemwise .groups hasGroup (fun v => v.itemsOrSelf.filter isTruthy)
    fun group => group.isObject = true ∧ group.isKeyed = true ∧
      (groupName group.entries).isNaN = false where
  merge target v := addGroups_eq_addEach target v.itemsOrSelf
  keeps := by
    intro target target' group group' hgroup happend
    obtain ⟨m, items, rfl, rfl⟩ := append_eq_ok_iff.1 happend
    exact (anyNamed_append group items [group']).1 hgroup
  gains := by
    rintro target target' group ⟨hobject, hkeyed, hname⟩ hgroup happend
    obtain ⟨m, items, rfl, rfl⟩ := append_eq_ok_iff.1 happend
    obtain ⟨m', gs, rfl⟩ := isObject_iff.1 hobject
    have hself : anyNamed (.object m' gs) [.object m' gs] = .ok true := by
      rw [anyNamed]
      exact if_pos (same_self (isKeyed_groupName hkeyed) hname)
    exact ((anyNamed_append _ items _).2 hgroup).trans hself

/-! ## The whole document -/

/-- The only section of groups is that of tags. -/
theorem eq_tags_of_sectionKind? {key : String} (h : sectionKind? key = some .groups) :
    key = "tags" := by
  obtain ⟨s, hs, hkind⟩ := Option.map_eq_some_iff.1 h
  have hname := List.find?_some hs
  rw [beq_iff_eq] at hname
  have htags : ∀ s ∈ sectionKinds, s.2 = .groups → s.1 = "tags" := by decide
  rw [← hname]
  exact htags s (List.mem_of_find?_eq_some hs) hkind

/-- The items of a value have objects with different keys if the value has. -/
theorem isKeyed_itemsOrSelf {v : Value} (h : v.isKeyed = true) :
    ∀ item ∈ v.itemsOrSelf, item.isKeyed = true := by
  unfold itemsOrSelf
  split
  · exact fun item hitem => isKeyed_part h hitem
  · exact List.forall_mem_singleton.2 h

/-- What fragments have for a section can be merged again, whatever the kind of the section. -/
theorem mergesAgain_valuesFor {fragments : Value} (hkeyed : fragments.isKeyed = true)
    (hoffered : ∀ g ∈ groupsIn (propertiesOf fragments), g.isObject = true)
    (hnames : ∀ g ∈ groupsIn (propertiesOf fragments), g.isTruthy = true →
      (groupName g.entries).isNaN = false) {key : String} (hkind : sectionKind? key = some kind) :
    MergesAgain kind (valuesFor (.text key) (propertiesOf fragments)) := by
  have hvalues : ∀ v ∈ valuesFor (.text key) (propertiesOf fragments), v.isKeyed = true :=
    isKeyed_valuesFor hkeyed (.text key)
  cases kind with
  | map => exact entrywise_map.mergesAgain hvalues fun cs _ => Assoc.repeats_first plain cs
  | paths => exact entrywise_paths.mergesAgain hvalues fun cs hcs => repeats_joinPath hcs
  | list => exact itemwise_list.mergesAgain fun v hv => isKeyed_itemsOrSelf (hvalues v hv)
  | groups =>
    obtain rfl := eq_tags_of_sectionKind? hkind
    refine itemwise_groups.mergesAgain fun v hv group hgroup => ?_
    obtain ⟨hin, htruthy⟩ := List.mem_filter.1 hgroup
    have hgroups : group ∈ groupsIn (propertiesOf fragments) := List.mem_flatMap.2 ⟨v, hv, hin⟩
    exact ⟨hoffered group hgroups, isKeyed_itemsOrSelf (hvalues v hv) group hin,
      hnames group hgroups htruthy⟩

/-- Fragments that were added without fault can be added again, and the document keeps its content,
the order of its keys and items included. The sections that the fragments are for stand in one place
each, and no group that is offered and counts as something has NaN for a name. -/
theorem add_add_self {m : Option Mark} {entries : List (Atom × Value)} {fragments : Value}
    (hseparate : Separate entries (propertiesOf fragments)) (hkeyed : fragments.isKeyed = true)
    (hoffered : ∀ g ∈ groupsIn (propertiesOf fragments), g.isObject = true)
    (hnames : ∀ g ∈ groupsIn (propertiesOf fragments), g.isTruthy = true →
      (groupName g.entries).isNaN = false)
    (hok : (add (.object m entries) fragments).fault = none) :
    (add (add (.object m entries) fragments).value fragments).fault = none ∧
      (add (add (.object m entries) fragments).value fragments).value.plain =
        (add (.object m entries) fragments).value.plain := by
  obtain ⟨hiff, hall⟩ := hseparate.apart.add_fault_iff hseparate.enters m
  obtain ⟨hvalue, hapart⟩ := hseparate.apart.add_value hseparate.enters m
  rw [hall hok] at hvalue hapart
  obtain ⟨hsupported, hadmits⟩ := hiff.1 hok
  have hrepeats : ∀ e ∈ stepsOf (propertiesOf fragments), Assoc.Repeats Fits joinSection plain
      (Assoc.given e.1 (stepsOf (propertiesOf fragments))) := by
    intro e he
    obtain ⟨_, -, hstep⟩ := List.mem_filterMap.1 he
    obtain ⟨⟨key, kind⟩, hs, rfl⟩ := Option.map_eq_some_iff.1 hstep
    obtain ⟨-, hkind⟩ := propertyOf?_eq_some_iff.1 hs
    rw [given_stepsOf hkind]
    exact Assoc.repeats_map (mergesAgain_valuesFor hkeyed hoffered hnames hkind)
  obtain ⟨hagain, hsame⟩ := Assoc.mergeWith_repeats hrepeats hadmits
  obtain ⟨hiff', hall'⟩ := hapart.add_fault_iff hseparate.enters m
  obtain ⟨hvalue', -⟩ := hapart.add_value hseparate.enters m
  have hok' := hiff'.2 ⟨hsupported, hagain⟩
  rw [hall' hok'] at hvalue'
  rw [hvalue, hvalue', plain_object, plain_object, hsame]
  exact ⟨hok', rfl⟩

/-- Two fragments that set one field each in turn, and one method to a text and to an object. Among
what they consume and in a parameter is NaN. -/
def mixedFragments : Value := .array
  [.map [
    (.text "paths", .map [(.text "/pets", .map
      [(.text "get", .map [(.text "summary", .text "All pets")]), (.text "post", .text "none")])]),
    (.text "tags", .array [namedGroup "pets", namedGroup "pets"]),
    (.text "consumes", .array [.atom (.float .nan), .text "text/plain"])],
  .map [
    (.text "path", .map [(.text "/pets", .map
      [(.text "get", .map [(.text "summary", .text "List pets")]),
        (.text "post", .map [(.text "summary", .text "Add a pet")])])]),
    (.text "tag", namedGroup "dogs"),
    (.text "parameter", .map [(.text "limit", .atom (.float .nan))]),
    (.text "consume", .text "text/plain")]]

/-- The summary is the first one again, and the method a text again, before both are as they
were. -/
theorem add_add_self_mixed :
    (add (.object none shopEntries) mixedFragments).fault = none ∧
      (add (add (.object none shopEntries) mixedFragments).value mixedFragments).fault = none ∧
      (add (add (.object none shopEntries) mixedFragments).value mixedFragments).value.plain =
        (add (.object none shopEntries) mixedFragments).value.plain := by
  have hok : (add (.object none shopEntries) mixedFragments).fault = none := rfl
  have hoffered : ∀ g ∈ groupsIn (propertiesOf mixedFragments), g.isObject = true :=
    List.all_eq_true.1 rfl
  have hnames : ∀ g ∈ groupsIn (propertiesOf mixedFragments), g.isTruthy = true →
      (groupName g.entries).isNaN = false := by
    have hall : (groupsIn (propertiesOf mixedFragments)).all
        (fun g => !(groupName g.entries).isNaN) = true := rfl
    simp only [List.all_eq_true, Bool.not_eq_true'] at hall
    exact fun g hg _ => hall g hg
  exact ⟨hok, add_add_self (separate_of_marksUnder rfl) rfl hoffered hnames hok⟩

/-- A fragment with a group whose name is NaN. -/
def nanGroup : Value :=
  .array [.map [(.text "tags", .array [.map [(.text "name", .atom (.float .nan))]])]]

/-- The entries of a document whose group is the object of its paths. -/
def sharedPaths : List (Atom × Value) :=
  [(.text "paths", .object (some (.node 0)) [(.text "name", .text "")]),
    (.text "tags", .array [.object (some (.node 0)) [(.text "name", .text "")]])]

/-- A fragment with a group whose name is empty, and one with a path that has the name `name`. -/
def renamingFragments : Value := .array
  [.map [(.text "tags", .array [namedGroup ""])],
    .map [(.text "paths", .map [(.text "name", .map [])])]]

/-- A group whose name is NaN has no name that is there, and is appended each time. A path that is
also the name of a group makes room for another group with the name that it had. -/
theorem add_again_appends :
    (nanGroup.isKeyed = true ∧
      (∀ g ∈ groupsIn (propertiesOf nanGroup), g.isObject = true) ∧
      (add (.map []) nanGroup).fault = none ∧
      (add (add (.map []) nanGroup).value nanGroup).value.plain ≠
        (add (.map []) nanGroup).value.plain) ∧
    renamingFragments.isKeyed = true ∧
      (∀ g ∈ groupsIn (propertiesOf renamingFragments), g.isObject = true) ∧
      (add (.map sharedPaths) renamingFragments).fault = none ∧
      (add (add (.map sharedPaths) renamingFragments).value renamingFragments).value.plain ≠
        (add (.map sharedPaths) renamingFragments).value.plain := by
  refine ⟨⟨rfl, List.all_eq_true.1 rfl, rfl, fun hsame => ?_⟩, rfl, List.all_eq_true.1 rfl, rfl,
    fun hsame => ?_⟩
  -- both times there are two groups where there was one
  all_goals
    have hlength := congrArg (fun v => (v.lookup? (.text "tags")).map (·.itemsOrSelf.length)) hsame
    exact absurd (Option.some.inj hlength) (by decide)

end Document

end ApiDoc
