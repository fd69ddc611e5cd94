import ApiDoc.Proofs.Document.Separation
import ApiDoc.Proofs.TypeExpr.Schema

/-!
# What a document has after fragments

Maps and paths are merged entry by entry (`Entrywise`), and the entries of paths are merged entry by
entry again, twice. So what a document has at a place after fragments depends on what it had there
and on what the fragments have there, in order (`add_closed_form`): of the fields of operations the
last one stays, of the entries of maps the first one, and nothing else comes in or is lost.
-/

namespace ApiDoc

/-! ## Places in a value -/

namespace Value

/-- What an object has under a key. -/
def lookup? (key : Atom) (v : Value) : Option Value := Assoc.get? key v.entries

/-- What a value has at a place: under a key, there under the next key, and so on. -/
def at? : List Atom → Value → Option Value
  | [], v => some v
  | key :: place, v => (v.lookup? key).bind (at? place)

/-- Whether a value is an object, its values are objects, and so on to a depth. -/
def isNested : Nat → Value → Bool
  | 0, _ => true
  | n + 1, v => v.isObject && v.entries.all fun e => isNested n e.2

theorem lookup?_object (key : Atom) (m : Option Mark) (entries : List (Atom × Value)) :
    (Value.object m entries).lookup? key = Assoc.get? key entries :=
  rfl

theorem lookup?_map (key : Atom) (entries : List (Atom × Value)) :
    (Value.map entries).lookup? key = Assoc.get? key entries :=
  rfl

/-- What an object has under a key is the value of one of its entries. -/
theorem mem_entries_of_lookup? {key : Atom} {v w : Value} (h : v.lookup? key = some w) :
    ∃ k, (k, w) ∈ v.entries :=
  Assoc.mem_of_get? h

/-- A value is nested to a depth just if its values are, one level less deep. -/
theorem isNested_succ {n : Nat} {v : Value} : v.isNested (n + 1) = true ↔
    v.isObject = true ∧ ∀ e ∈ v.entries, e.2.isNested n = true := by
  rw [isNested, Bool.and_eq_true, List.all_eq_true]

/-- What a nested value has under a key is nested one level less deep. -/
theorem isNested_lookup? {n : Nat} {key : Atom} {v w : Value} (h : v.isNested (n + 1) = true)
    (hw : v.lookup? key = some w) : w.isNested n = true := by
  obtain ⟨k, hk⟩ := mem_entries_of_lookup? hw
  exact (isNested_succ.1 h).2 _ hk

/-- What a keyed value has under a key is keyed. -/
theorem isKeyed_lookup? {key : Atom} {v w : Value} (h : v.isKeyed = true)
    (hw : v.lookup? key = some w) : w.isKeyed = true := by
  obtain ⟨k, hk⟩ := mem_entries_of_lookup? hw
  exact isKeyed_part h (mem_parts_of_mem_entries hk)

/-- The keys of a keyed value are different. -/
theorem different_entries {v : Value} (h : v.isKeyed = true) : Assoc.Different v.entries := by
  cases v with
  | object m entries => exact (isKeyed_object.1 h).1
  | _ => exact List.Pairwise.nil

/-- Objects with different keys give, one after another, what they have under a key. -/
theorem given_flatMap_entries {vs : List Value} (h : ∀ v ∈ vs, Assoc.Different v.entries)
    (key : Atom) : Assoc.given key (vs.flatMap entries) = vs.filterMap (lookup? key) := by
  rw [Assoc.given_flatMap, List.filterMap_eq_flatMap_toList]
  exact List.flatMap_congr fun v hv => Assoc.given_of_different (h v hv) key

/-- What keyed values have under a key is keyed. -/
theorem isKeyed_filterMap_lookup? {vs : List Value} (h : ∀ v ∈ vs, v.isKeyed = true)
    (key : Atom) : ∀ w ∈ vs.filterMap (lookup? key), w.isKeyed = true := by
  intro w hw
  obtain ⟨v, hv, hentry⟩ := List.mem_filterMap.1 hw
  exact isKeyed_lookup? (h v hv) hentry

end Value

namespace Document

open Value

/-! ## Sections that are merged entry by entry -/

/-- Adding new entries is the merge that keeps what is there. -/
theorem addNew_eq_mergeWith (entries new : List (Atom × Value)) :
    addNew entries new = Assoc.mergeWith (fun x v => x.getD v) entries new := by
  induction new generalizing entries with
  | nil => rfl
  | cons e new ih =>
    obtain ⟨k, v⟩ := e
    rw [addNew, ih, Assoc.insertNew_eq_alter, Assoc.mergeWith]

/-- A kind of section that is an object, merged entry by entry: `f` combines what is there with what
comes in, if `ok` says that it can. -/
structure Entrywise (kind : SectionKind) (ok : Option Value → Value → Prop)
    (f : Option Value → Value → Value) : Prop where
  empty : emptySection kind = .map []
  fits : ∀ {m entries v}, Fits (some (.object m entries)) (kind, v) ↔
    v.isObject = true ∧ Assoc.Admits ok f entries v.entries
  object : ∀ {m entries v}, Fits (some (.object m entries)) (kind, v) →
    joinSection (some (.object m entries)) (kind, v) =
      .object m (Assoc.mergeWith f entries v.entries)

/-- Maps take in entry by entry, and an entry that is there stays. -/
theorem entrywise_map : Entrywise .map (fun _ _ => True) fun x v => x.getD v where
  empty := rfl
  fits := by
    intro m entries v
    cases v with
    | object m' new => exact ⟨fun _ => ⟨rfl, Assoc.admits_true _ entries new⟩, fun _ => rfl⟩
    | _ => exact ⟨nofun, fun h => absurd h.1 nofun⟩
  object := by
    intro m entries v h
    cases v with
    | object m' new => exact congrArg (Value.object m) (addNew_eq_mergeWith entries new)
    | _ => cases h

/-- Paths take in entry by entry, and the methods of a path are joined. -/
theorem entrywise_paths : Entrywise .paths TakesMethods joinPath where
  empty := rfl
  fits := by
    intro m paths v
    cases v with
    | object m' new =>
      exact (addPaths_fault_iff m paths new).1.trans ⟨fun h => ⟨rfl, h⟩, fun h => h.2⟩
    | _ => exact ⟨nofun, fun h => absurd h.1 nofun⟩
  object := by
    intro m paths v h
    cases v with
    | object m' new => exact (addPaths_fault_iff m paths new).2 h
    | _ => cases h

variable {kind : SectionKind} {ok : Option Value → Value → Prop}
  {f : Option Value → Value → Value}

/-- A section that is no object stays as it is, and takes only what has no entries. -/
theorem Entrywise.join_other (h : Entrywise kind ok f) {x : Value} (hx : x.isObject = false)
    (v : Value) : joinSection (some x) (kind, v) = x ∧
      (Fits (some x) (kind, v) → v.entries = []) := by
  have hempty := h.empty
  cases kind with
  | list | groups => cases hempty
  | map | paths =>
    cases x with
    | object m entries => exact absurd hx nofun
    | _ =>
      cases v with
      | object m new =>
        cases new with
        | nil => exact ⟨rfl, fun _ => rfl⟩
        | cons e new => exact ⟨rfl, nofun⟩
      | _ => exact ⟨rfl, nofun⟩

/-- A section that is an object takes in the entries of all that is merged into it. -/
theorem Entrywise.combine_object (h : Entrywise kind ok f) {m : Option Mark}
    {entries : List (Atom × Value)} {vs : List Value}
    (hvs : Takes kind (some (.object m entries)) vs) :
    Assoc.combine (fun x v => joinSection x (kind, v)) (some (.object m entries)) vs =
      some (.object m (Assoc.mergeWith f entries (vs.flatMap Value.entries))) := by
  induction vs generalizing entries with
  | nil => rfl
  | cons v vs ih =>
    obtain ⟨hfits, hrest⟩ := takes_cons.1 hvs
    have hstep := h.object hfits
    rw [hstep] at hrest
    rw [Assoc.combine_cons, hstep, List.flatMap_cons, Assoc.mergeWith_append, ih hrest]

/-- A section that is no object stays as it is, and nothing comes in. -/
theorem Entrywise.combine_other (h : Entrywise kind ok f) {x : Value} (hx : x.isObject = false)
    {vs : List Value} (hvs : Takes kind (some x) vs) :
    Assoc.combine (fun x v => joinSection x (kind, v)) (some x) vs = some x ∧
      vs.flatMap Value.entries = [] := by
  induction vs with
  | nil => exact ⟨rfl, rfl⟩
  | cons v vs ih =>
    obtain ⟨hfits, hrest⟩ := takes_cons.1 hvs
    obtain ⟨hstep, hnothing⟩ := h.join_other hx v
    rw [hstep] at hrest
    rw [Assoc.combine_cons, hstep, List.flatMap_cons, hnothing hfits]
    exact ih hrest

/-- What a section has under a key afterwards: what it had, combined with what came in under it. -/
theorem Entrywise.lookup?_combine (h : Entrywise kind ok f) {x : Option Value} {vs : List Value}
    (hvs : Takes kind x vs) (key : Atom) :
    (Assoc.combine (fun x v => joinSection x (kind, v)) x vs).bind (lookup? key) =
      Assoc.combine f (x.bind (lookup? key)) (Assoc.given key (vs.flatMap Value.entries)) := by
  cases x with
  | none =>
    by_cases hnil : vs = []
    · subst hnil
      rfl
    · rw [takes_none_iff, h.empty] at hvs
      rw [combine_none_eq hnil, h.empty, h.combine_object hvs, Option.bind_some]
      exact Assoc.get?_mergeWith f key [] _
  | some x =>
    by_cases hx : x.isObject = true
    · obtain ⟨m, entries, rfl⟩ := isObject_iff.1 hx
      rw [h.combine_object hvs]
      exact Assoc.get?_mergeWith f key entries _
    · rw [Bool.not_eq_true] at hx
      obtain ⟨hsame, hnothing⟩ := h.combine_other hx hvs
      rw [hsame, hnothing]
      rfl

/-! ## Methods and fields -/

/-- From the first methods on, a path is an object that takes in the methods of all that comes. -/
theorem combine_joinPath (x : Option Value) {cs : List Value} (hcs : cs ≠ []) :
    Assoc.combine joinPath x cs =
      some (.map (Assoc.mergeWith overlay (methodsOf x) (cs.flatMap Value.entries))) := by
  induction cs generalizing x with
  | nil => exact absurd rfl hcs
  | cons c cs ih =>
    rw [Assoc.combine_cons, List.flatMap_cons, Assoc.mergeWith_append]
    by_cases hrest : cs = []
    · subst hrest
      rfl
    · rw [ih (some (joinPath x c)) hrest]
      rfl

/-- What a method has after paths were joined: one operation on top of another. -/
theorem lookup?_combine_joinPath {x : Option Value} (hx : ∀ v, x = some v → v.isObject = true)
    (cs : List Value) (key : Atom) :
    (Assoc.combine joinPath x cs).bind (lookup? key) =
      Assoc.combine overlay (x.bind (lookup? key)) (Assoc.given key (cs.flatMap entries)) := by
  by_cases hcs : cs = []
  · subst hcs
    rfl
  · have hmethods : Assoc.get? key (methodsOf x) = x.bind (lookup? key) := by
      cases x with
      | none => rfl
      | some v =>
        obtain ⟨m, entries, rfl⟩ := isObject_iff.1 (hx v rfl)
        rfl
    rw [combine_joinPath x hcs, Option.bind_some, lookup?_map, Assoc.get?_mergeWith, hmethods]

/-- An object lies on what was there as an update, also on what is no object. -/
theorem overlay_object {operation : Value} (hobject : operation.isObject = true)
    (hdifferent : Assoc.Different operation.entries) (x : Option Value) :
    ∃ m, overlay x operation =
      .object m (Assoc.update ((x.map entries).getD []) operation.entries) := by
  obtain ⟨m, new, rfl⟩ := isObject_iff.1 hobject
  have hnil : Assoc.update [] new = new := Assoc.update_eq_append hdifferent
  cases x with
  | none => exact ⟨m, congrArg (Value.object m) hnil.symm⟩
  | some v =>
    cases v with
    | object m' old => exact ⟨none, rfl⟩
    | _ => exact ⟨m, congrArg (Value.object m) hnil.symm⟩

/-- From the first operation on, the fields are updated by all that come, each an object. -/
theorem combine_overlay_objects {ops : List Value} (hops : ops ≠ [])
    (hobjects : ∀ op ∈ ops, op.isObject = true)
    (hdifferent : ∀ op ∈ ops, Assoc.Different op.entries) (x : Option Value) :
    ∃ m, Assoc.combine overlay x ops =
      some (.object m (Assoc.update ((x.map entries).getD []) (ops.flatMap entries))) := by
  induction ops generalizing x with
  | nil => exact absurd rfl hops
  | cons op ops ih =>
    obtain ⟨hobject, hobjects⟩ := List.forall_mem_cons.1 hobjects
    obtain ⟨hop, hdifferent⟩ := List.forall_mem_cons.1 hdifferent
    obtain ⟨m, hoverlay⟩ := overlay_object hobject hop x
    rw [Assoc.combine_cons, hoverlay, List.flatMap_cons, Assoc.update_append]
    by_cases hrest : ops = []
    · subst hrest
      exact ⟨m, rfl⟩
    · exact ih hrest hobjects hdifferent _

/-- Of the operations for a method, each an object, the last one that has a field sets it. -/
theorem lookup?_combine_overlay {ops : List Value} (hobjects : ∀ op ∈ ops, op.isObject = true)
    (hdifferent : ∀ op ∈ ops, Assoc.Different op.entries) (x : Option Value) (key : Atom) :
    (Assoc.combine overlay x ops).bind (lookup? key) =
      (ops.filterMap (lookup? key)).getLast?.or (x.bind (lookup? key)) := by
  by_cases hops : ops = []
  · subst hops
    rfl
  · have hbase : Assoc.get? key ((x.map entries).getD []) = x.bind (lookup? key) := by
      cases x <;> rfl
    obtain ⟨m, hcombine⟩ := combine_overlay_objects hops hobjects hdifferent x
    rw [hcombine, Option.bind_some, ← hbase, ← given_flatMap_entries hdifferent]
    exact Assoc.get?_update_eq_or key _ _

/-! ## The whole document -/

/-- Nested maps: the last setting of a field stays, of all paths that are merged in. -/
theorem at?_combine_paths {x : Option Value} {vs : List Value} (hvs : Takes .paths x vs)
    (hx : ∀ v, x = some v → v.isNested 2 = true) (hnested : ∀ v ∈ vs, v.isNested 3 = true)
    (hkeyed : ∀ v ∈ vs, v.isKeyed = true) (uri method field : Atom) :
    (Assoc.combine (fun x v => joinSection x (.paths, v)) x vs).bind (at? [uri, method, field]) =
      (vs.filterMap (at? [uri, method, field])).getLast?.or
        (x.bind (at? [uri, method, field])) := by
  have hat : ∀ y : Option Value, y.bind (at? [uri, method, field]) =
      ((y.bind (lookup? uri)).bind (lookup? method)).bind (lookup? field) := by
    intro y
    simp only [at?, Option.bind_assoc, Option.bind_fun_some]
  have hpath : ∀ v, x.bind (lookup? uri) = some v → v.isObject = true := by
    intro v hv
    obtain ⟨w, hw, hentry⟩ := Option.bind_eq_some_iff.1 hv
    exact (isNested_succ.1 (isNested_lookup? (hx w hw) hentry)).1
  -- the methods that come in for the path, and the operations that come in for the method
  have hmethods := isKeyed_filterMap_lookup? hkeyed uri
  have hoperations := isKeyed_filterMap_lookup? hmethods method
  have hgiven : ∀ {ws : List Value}, (∀ w ∈ ws, w.isKeyed = true) →
      ∀ w ∈ ws, Assoc.Different w.entries := fun h w hw => different_entries (h w hw)
  have hobjects : ∀ op ∈ (vs.filterMap (lookup? uri)).filterMap (lookup? method),
      op.isObject = true := by
    intro op hop
    obtain ⟨c, hc, hentry'⟩ := List.mem_filterMap.1 hop
    obtain ⟨v, hv, hentry⟩ := List.mem_filterMap.1 hc
    have hc' := isNested_lookup? (hnested v hv) hentry
    exact (isNested_succ.1 (isNested_lookup? hc' hentry')).1
  have hfields :
      ((vs.filterMap (lookup? uri)).filterMap (lookup? method)).filterMap (lookup? field) =
        vs.filterMap (at? [uri, method, field]) := by
    rw [List.filterMap_filterMap, List.filterMap_filterMap]
    refine List.filterMap_congr fun v _ => ?_
    simp only [at?, Option.bind_fun_some]
  rw [hat, hat, entrywise_paths.lookup?_combine hvs, given_flatMap_entries (hgiven hkeyed),
    lookup?_combine_joinPath hpath, given_flatMap_entries (hgiven hmethods),
    lookup?_combine_overlay hobjects (hgiven hoperations), hfields]

/-- What a name has after maps were joined: what it had, or else the first that came in. -/
theorem lookup?_combine_map {x : Option Value} {vs : List Value} (hvs : Takes .map x vs)
    (hkeyed : ∀ v ∈ vs, v.isKeyed = true) (name : Atom) :
    (Assoc.combine (fun x v => joinSection x (.map, v)) x vs).bind (lookup? name) =
      (x.bind (lookup? name)).or (vs.filterMap (lookup? name)).head? := by
  rw [entrywise_map.lookup?_combine hvs,
    given_flatMap_entries fun v hv => different_entries (hkeyed v hv), Assoc.combine_first]

/-- Something is kept just if something can be. -/
theorem filterMap_ne_nil_iff {α β : Type} {g : α → Option β} {l : List α} :
    l.filterMap g ≠ [] ↔ ∃ a ∈ l, (g a).isSome = true := by
  simp only [ne_eq, List.filterMap_eq_nil_iff, not_forall, exists_prop, Option.isSome_iff_ne_none]

/-- What a document has after fragments were added. A field of an operation is as the last of the
fragments sets it, an entry of a map as it was or else as the first of the fragments has it. So each
is there just if it was there or some fragment has it. A section that no fragment names is as it
was. -/
theorem add_closed_form {m : Option Mark} {entries : List (Atom × Value)} {fragments : Value}
    (hseparate : Separate entries (propertiesOf fragments)) (hkeyed : fragments.isKeyed = true)
    (hpaths : ∀ v, Assoc.get? (.text "paths") entries = some v → v.isNested 2 = true)
    (hnested : ∀ v ∈ valuesFor (.text "paths") (propertiesOf fragments), v.isNested 3 = true)
    (hok : (add (.object m entries) fragments).fault = none) :
    (∀ uri method field,
      (add (.object m entries) fragments).value.at? [.text "paths", uri, method, field] =
          ((valuesFor (.text "paths") (propertiesOf fragments)).filterMap
            (at? [uri, method, field])).getLast?.or
              ((Value.object m entries).at? [.text "paths", uri, method, field]) ∧
        (((add (.object m entries) fragments).value.at?
            [.text "paths", uri, method, field]).isSome = true ↔
          ((Value.object m entries).at? [.text "paths", uri, method, field]).isSome = true ∨
            ∃ v ∈ valuesFor (.text "paths") (propertiesOf fragments),
              (v.at? [uri, method, field]).isSome = true)) ∧
    (∀ key, sectionKind? key = some .map → ∀ name,
      (add (.object m entries) fragments).value.at? [.text key, name] =
          ((Value.object m entries).at? [.text key, name]).or
            ((valuesFor (.text key) (propertiesOf fragments)).filterMap (lookup? name)).head? ∧
        (((add (.object m entries) fragments).value.at? [.text key, name]).isSome = true ↔
          ((Value.object m entries).at? [.text key, name]).isSome = true ∨
            ∃ v ∈ valuesFor (.text key) (propertiesOf fragments),
              (v.lookup? name).isSome = true)) ∧
    ∀ key, (∀ e ∈ propertiesOf fragments, (sectionNamed e.1 == key) = false) →
      (add (.object m entries) fragments).value.lookup? key =
        (Value.object m entries).lookup? key := by
  obtain ⟨hvalue, htakes⟩ := hseparate.add_ok hok
  rw [hvalue]
  refine ⟨fun uri method field => ?_, fun key hkind name => ?_, fun key hkey => ?_⟩
  · have hkind : sectionKind? "paths" = some .paths := by decide
    have hat : ∀ es : List (Atom × Value),
        (Value.object m es).at? [.text "paths", uri, method, field] =
          (Assoc.get? (.text "paths") es).bind (at? [uri, method, field]) := fun es => rfl
    have hclosed := at?_combine_paths (htakes "paths" .paths hkind) hpaths hnested
      (isKeyed_valuesFor hkeyed (.text "paths")) uri method field
    rw [← get?_mergeWith_stepsOf hkind, ← hat, ← hat] at hclosed
    refine ⟨hclosed, ?_⟩
    rw [hclosed, Option.isSome_or, Bool.or_eq_true, List.getLast?_isSome, filterMap_ne_nil_iff,
      or_comm]
  · have hat : ∀ es : List (Atom × Value), (Value.object m es).at? [.text key, name] =
        (Assoc.get? (.text key) es).bind (lookup? name) := by
      intro es
      simp only [at?, Option.bind_fun_some]
      rfl
    have hclosed := lookup?_combine_map (htakes key .map hkind)
      (isKeyed_valuesFor hkeyed (.text key)) name
    rw [← get?_mergeWith_stepsOf hkind, ← hat, ← hat] at hclosed
    refine ⟨hclosed, ?_⟩
    rw [hclosed, Option.isSome_or, Bool.or_eq_true, List.isSome_head?, filterMap_ne_nil_iff]
  · change Assoc.get? key (Assoc.mergeWith joinSection entries _) = Assoc.get? key entries
    rw [Assoc.get?_mergeWith, given_stepsOf_eq_nil hkey, Assoc.combine_nil]

/-- The entries of a document with one operation, one definition and a host. Its title is in two
places as one object. -/
def shopEntries : List (Atom × Value) :=
  [(.text "host", .text "shop.example"),
    (.text "info", .object (some (.node 0)) [(.text "title", .text "Shop")]),
    (.text "x-info", .object (some (.node 0)) [(.text "title", .text "Shop")]),
    (.text "paths", .map [(.text "/pets", .map [(.text "get", .map
      [(.text "summary", .text "Pets"), (.text "operationId", .text "pets")])])]),
    (.text "definitions", .map [(.text "Pet", .map [(.text "type", .text "object")])])]

/-- Two fragments with the same operation and the same definition, the second one with singular
names. -/
def shopFragments : Value := .array
  [.map [
    (.text "paths", .map [(.text "/pets", .map [(.text "get", .map
      [(.text "summary", .text "All pets"), (.text "deprecated", .text "yes")])])]),
    (.text "definitions", .map [(.text "Pet", .text "a pet"), (.text "Dog", .text "a dog")])],
  .map [
    (.text "path", .map [(.text "/pets", .map [(.text "get", .map
      [(.text "summary", .text "List pets")])])]),
    (.text "definition", .map [(.text "Dog", .text "another dog")])]]

/-- Both fragments set the summary, and the second one wins; both define a dog, and the first one
wins; the other fields, the pet and the host stay. -/
theorem add_closed_form_shop :
    (add (.object none shopEntries) shopFragments).fault = none ∧
      (add (.object none shopEntries) shopFragments).value.at?
        [.text "paths", .text "/pets", .text "get", .text "summary"] = some (.text "List pets") ∧
      (add (.object none shopEntries) shopFragments).value.at?
        [.text "paths", .text "/pets", .text "get", .text "operationId"] = some (.text "pets") ∧
      (add (.object none shopEntries) shopFragments).value.at?
        [.text "definitions", .text "Dog"] = some (.text "a dog") ∧
      (add (.object none shopEntries) shopFragments).value.at?
        [.text "definitions", .text "Pet"] = some (.map [(.text "type", .text "object")]) ∧
      (add (.object none shopEntries) shopFragments).value.lookup? (.text "host") =
        some (.text "shop.example") := by
  have hok : (add (.object none shopEntries) shopFragments).fault = none := by rfl
  have hpaths : ∀ v, Assoc.get? (.text "paths") shopEntries = some v → v.isNested 2 = true := by
    intro v hv
    cases hv
    rfl
  have hnested : ∀ v ∈ valuesFor (.text "paths") (propertiesOf shopFragments),
      v.isNested 3 = true := List.all_eq_true.1 rfl
  have hhost : ∀ e ∈ propertiesOf shopFragments,
      (sectionNamed e.1 == Atom.text "host") = false := by
    simp only [← Bool.not_eq_true']
    exact List.all_eq_true.1 rfl
  obtain ⟨hfields, hmaps, hothers⟩ :=
    add_closed_form (separate_of_marksUnder rfl) rfl hpaths hnested hok
  exact ⟨hok, (hfields _ _ _).1, (hfields _ _ _).1, (hmaps "definitions" rfl _).1,
    (hmaps "definitions" rfl _).1, hothers _ hhost⟩

/-- The entries of a seed whose parameters are the same object as its definitions. -/
def sharedDefinitions : List (Atom × Value) :=
  [(.text "definitions", .object (some (.node 0)) []),
    (.text "parameters", .object (some (.node 0)) [])]

/-- A block that defines a type without properties. -/
def typedefBlock (name : String) : Block where
  tags := [{ title := "typedef", name := some name }]

/-- The fragment of such a block has the definition only. -/
theorem ofBlock_typedefBlock {name : String} (h : name ≠ "") (markOf : String → Option Mark) :
    Fragment.ofBlock markOf (typedefBlock name) =
      .ok { definitions := [(name, ⟨none, [], []⟩)] } := by
  have hkind : ({ title := "typedef", name := some name } : Tag).kind? = some .typedef := rfl
  have hname : nonempty? (some name) = some name := nonempty?_eq_some_iff.2 ⟨rfl, h⟩
  rw [Fragment.ofBlock, typedefBlock]
  simp only [hkind, beq_self_eq_true, if_true, Definition.ofTags, hname]
  rfl

/-- A definition shows in the parameters too if they are the same object as the definitions, though
no fragment names the parameters. -/
theorem add_shared_definitions :
    ∃ entries f, ofSeed (.map sharedDefinitions) = .ok (.object none entries) ∧
      Fragment.ofBlock (fun _ => none) (typedefBlock "Pet") = .ok f ∧
      (Value.array [f.toValue]).isKeyed = true ∧
      (∀ v, Assoc.get? (.text "paths") entries = some v → v.isNested 2 = true) ∧
      (∀ v ∈ valuesFor (.text "paths") (propertiesOf (.array [f.toValue])), v.isNested 3 = true) ∧
      (add (.object none entries) (.array [f.toValue])).fault = none ∧
      (∀ e ∈ propertiesOf (.array [f.toValue]), (sectionNamed e.1 == .text "parameters") = false) ∧
      (add (.object none entries) (.array [f.toValue])).value.lookup? (.text "parameters") ≠
        (Value.object none entries).lookup? (.text "parameters") := by
  refine ⟨_, _, rfl, ofBlock_typedefBlock (by decide) _, rfl, ?_, List.all_eq_true.1 rfl, rfl, ?_,
    fun hsame => ?_⟩
  · rintro v ⟨⟩
    rfl
  · simp only [← Bool.not_eq_true']
    exact List.all_eq_true.1 rfl
  · have hlength := congrArg (Option.map fun v => v.entries.length) hsame
    exact absurd (Option.some.inj hlength) Nat.one_ne_zero

end Document

end ApiDoc
