import ApiDoc.Proofs.Document.Commutation
import ApiDoc.Proofs.Document.Seed
import ApiDoc.Proofs.Fragment.Fields

/-!
# Documenting a route twice

A second block for a route wins with the fields that it has. Besides the fields that it has tags
for, these are parameters, groups and responses, which every operation has: they are blank again
after a second block that has no tags for them, and all other fields stay as they are
(`redocumented_field`).
-/

namespace ApiDoc

open Value

namespace Document

variable {heap : Nat → Value} {entries : List (Atom × Value)} {route : Route} {key : String}
  {v : Value}

/-! ## One step -/

/-- The field of one operation on top of another. -/
theorem field?_overlay {mo : Option Mark} {fields : List (Atom × Value)}
    (hfields : Assoc.Distinct fields) (x : Option Value) (key : String) :
    (overlay x (.object mo fields)).field? key =
      (Assoc.get? (.text key) fields).or (x.bind (Value.field? key)) := by
  have hnone : ∀ y : Option Value, y = none →
      (Value.object mo fields).field? key = (Assoc.get? (.text key) fields).or y := by
    rintro y rfl
    rw [Option.or_none]
    rfl
  cases x with
  | none => exact hnone _ rfl
  | some u =>
    cases u with
    | object m old => exact Assoc.get?_update (Atom.isExact_text key) hfields old
    | _ => exact hnone _ rfl

/-- Merging the paths of one operation changes the methods of its path. -/
theorem get?_mergeInto_addOperation {op : Operation} {m : Option Mark} {paths : List (Atom × Value)}
    (hget : Assoc.get? (.text "paths") entries = some (.object m paths))
    (hopens : opens (Assoc.get? (.text op.route.uri) paths) = true) :
    Assoc.get? (.text "paths") (mergeInto "paths" .paths
        (Fragment.valueOfPaths (Fragment.addOperation [] op)) entries) =
      some (.object m (Assoc.alter (.text op.route.uri) (fun x => joinPath x
        (Fragment.methodsValue [(op.route.method, Assoc.ofList op.fields)])) paths)) := by
  have hvalue : (mergeSection .paths (.object m paths)
      (Fragment.valueOfPaths (Fragment.addOperation [] op))).value =
        .object m (Assoc.alter (.text op.route.uri) (fun x => joinPath x
          (Fragment.methodsValue [(op.route.method, Assoc.ofList op.fields)])) paths) := by
    change (addPaths m paths [(.text op.route.uri, _)]).value = _
    rw [addPaths, mergePath_of_takesMethods ⟨hopens, rfl⟩]
    rfl
  rw [mergeInto_eq hget, hvalue, get?_putSection_self (.object m _ _)]

/-- A route has the fields of an operation after merging it, and the fields that it had besides. -/
theorem fieldAt?_mergeInto_addOperation {op : Operation} {m m' : Option Mark}
    {paths : List (Atom × Value)}
    (hget : Assoc.get? (.text "paths") entries = some (.object m paths))
    (hopens : opens (Assoc.get? (.text op.route.uri) paths) = true) (key : String) :
    fieldAt? op.route key (.object m' (mergeInto "paths" .paths
        (Fragment.valueOfPaths (Fragment.addOperation [] op)) entries)) =
      (op.field? key).or ((Assoc.get? (.text op.route.method)
        (methodsOf (Assoc.get? (.text op.route.uri) paths))).bind (Value.field? key)) := by
  have hdistinct : Assoc.Distinct (Assoc.ofList op.fields) :=
    Assoc.distinct_nil.update op.isExact_fields
  have hmethods : ∀ x, (joinPath x
      (Fragment.methodsValue [(op.route.method, Assoc.ofList op.fields)])).field? op.route.method =
        some (overlay (Assoc.get? (.text op.route.method) (methodsOf x))
          (.map (Assoc.ofList op.fields))) :=
    fun x => Assoc.get?_alter_self (Atom.isExact_text op.route.method)
      (fun y => overlay y (.map (Assoc.ofList op.fields))) (methodsOf x)
  have hpath := Assoc.get?_alter_self (Atom.isExact_text op.route.uri) (fun x => joinPath x
    (Fragment.methodsValue [(op.route.method, Assoc.ofList op.fields)])) paths
  have hpaths := get?_mergeInto_addOperation hget hopens
  simp only [fieldAt?, field?] at hpaths ⊢
  rw [hpaths, Option.bind_some]
  simp only [field?]
  rw [hpath, Option.bind_some, hmethods, Option.bind_some, field?_overlay hdistinct]
  rfl

/-- A new field stays when a section is merged that is no object or does not change. -/
theorem fieldAt?_putSection (h : Sound heap entries) (hv : v.IsNew) {m : Option Mark}
    (hfield : fieldAt? route key (.object m entries) = some v) {name : String}
    (hname : name ≠ "paths") {old new : Value} (hold : old.Follows heap) (hnum : old.IsNumbered)
    (hchange : Change heap old new) (hkind : old.isList = true ∨ new = old) :
    fieldAt? route key (.object m (putSection name old new entries)) = some v := by
  obtain ⟨m₁, paths, m₂, methods, m₃, fields, hpaths, hmethods, hop, hget⟩ :=
    (fieldAt?_eq_some_iff m).1 hfield
  obtain ⟨hfollows, -⟩ := h.get? hpaths
  have hpaths' := get?_putSection_of_get? hname hpaths old new
  rcases hkind with hlist | rfl
  · -- the paths are no list, so the change goes on to the objects inside them
    have hacts := hchange.actsOnParts hold hnum hlist
    have hpart : ∀ {m es} {k : Atom} {w : Value}, (Value.object m es).Follows heap →
        Assoc.get? k es = some w → w.Follows heap :=
      fun hes hw => hes.entries.get? hw
    have hmfollows := hpart hfollows hmethods
    have hofollows := hpart hmfollows hop
    rw [hacts.object hfollows] at hpaths'
    refine (fieldAt?_eq_some_iff m).2 ⟨m₁, _, m₂, Assoc.mapValues (patch old new) methods, m₃,
      Assoc.mapValues (patch old new) fields, hpaths', ?_, ?_, ?_⟩
    · rw [Assoc.get?_mapValues, hmethods, Option.map_some, hacts.object hmfollows]
    · rw [Assoc.get?_mapValues, hop, Option.map_some, hacts.object hofollows]
    · rw [Assoc.get?_mapValues, hget, Option.map_some, hacts.new hv]
  · rw [Follows.patch_self hfollows hold hnum] at hpaths'
    exact (fieldAt?_eq_some_iff m).2
      ⟨m₁, paths, m₂, methods, m₃, fields, hpaths', hmethods, hop, hget⟩

/-- Only a list can be appended to. -/
theorem append_of_not_isList {target : Value} (h : target.isList = false) (item : Value) :
    append target item = .error .lacking := by
  cases target with
  | list m items => cases h
  | _ => rfl

/-- Only a list takes groups. -/
theorem addGroups_value_of_not_isList {target : Value} (h : target.isList = false)
    (groups : List Value) : (addGroups target groups).value = target := by
  induction groups with
  | nil => rfl
  | cons group groups ih =>
    unfold addGroups
    split
    · split
      · rfl
      · exact ih
      · rw [append_of_not_isList h]
    · exact ih

/-- A new field that is there after the paths of a fragment is there after the whole fragment. -/
theorem fieldAt?_mergeParts (h : Sound heap entries) {paths groups : Value} (hpaths : paths.IsNew)
    (hgroups : groups.IsNew) {md : Option Mark} (hdefinitions : (Value.object md []).IsNew)
    (hv : v.IsNew) {m : Option Mark}
    (hfield : fieldAt? route key (.object m (mergeInto "paths" .paths paths entries)) = some v) :
    fieldAt? route key (.object m (mergeParts paths groups (.object md []) entries).1) =
      some v := by
  have hlist : ∀ old : Value,
      old.isList = true ∨ (mergeSection .groups old groups).value = old := by
    intro old
    cases hlist : old.isList with
    | true => exact .inl rfl
    | false => exact .inr (addGroups_value_of_not_isList hlist _)
  have hsame : ∀ old : Value, (mergeSection .map old (.object md [])).value = old := by
    intro old
    cases old <;> rfl
  obtain ⟨heap₁, h₁⟩ := h.mergeInto hpaths "paths" .paths
  obtain ⟨heap₂, h₂⟩ := h₁.mergeInto hgroups "tags" .groups
  have hfield₂ : fieldAt? route key (.object m (mergeInto "tags" .groups groups
      (mergeInto "paths" .paths paths entries))) = some v := by
    obtain ⟨hfollows, hnum⟩ := h₁.getD (.text "tags") .groups
    exact fieldAt?_putSection h₁ hv hfield (by decide) hfollows hnum
      (mergeSection_change .groups hgroups) (hlist _)
  have hfield₃ : fieldAt? route key (.object m (mergeInto "definitions" .map (.object md [])
      (mergeInto "tags" .groups groups (mergeInto "paths" .paths paths entries)))) = some v := by
    obtain ⟨hfollows, hnum⟩ := h₂.getD (.text "definitions") .map
    exact fieldAt?_putSection h₂ hv hfield₂ (by decide) hfollows hnum
      (mergeSection_change .map hdefinitions) (.inr (hsame _))
  -- the field is there after each step, whichever of them is the last one
  unfold mergeParts
  simp only
  split
  · exact hfield
  · split
    · exact hfield₂
    · exact hfield₃

/-! ## One block after another -/

/-- A route has a field after the merging of a fragment with one operation, if the operation has it,
or the route had it and the operation has not. -/
theorem fieldAt?_add (h : Sound heap entries) {m m₁ : Option Mark} {paths : List (Atom × Value)}
    {op : Operation} (hop : op.IsMarked fun mark _ => ∀ i, mark ≠ .node i) (g : Group)
    (hget : Assoc.get? (.text "paths") entries = some (.object m₁ paths))
    (hopens : opens (Assoc.get? (.text op.route.uri) paths) = true) (hv : v.IsNew)
    (hfield : (op.field? key).or ((Assoc.get? (.text op.route.method)
      (methodsOf (Assoc.get? (.text op.route.uri) paths))).bind (Value.field? key)) = some v) :
    ∃ heap' entries', Sound heap' entries' ∧
      (add (.object m entries)
        (.array [(⟨Fragment.addOperation [] op, [g], []⟩ : Fragment).toValue])).value =
          .object m entries' ∧
      fieldAt? op.route key (.object m entries') = some v := by
  have hpaths : (Fragment.valueOfPaths (Fragment.addOperation [] op)).IsNew :=
    (Fragment.PathsMarked.addOperation Assoc.every_nil hop).valueOfPaths
  have hgroups : (Fragment.groupsValue [g]).IsNew := Fragment.groupsValue_marked [g]
  obtain ⟨heap', hsound⟩ := h.mergeParts hpaths hgroups markedEntries_nil.map
  rw [Fragment.toValue_of_definitions_eq_nil rfl, add_fragment]
  refine ⟨heap', _, hsound, rfl, fieldAt?_mergeParts h hpaths hgroups markedEntries_nil.map hv ?_⟩
  rw [fieldAt?_mergeInto_addOperation hget hopens, hfield]

/-- A fragment with one operation has its fields. -/
theorem fieldAt?_toValue (op : Operation) (g : Group) (key : String) :
    fieldAt? op.route key (⟨Fragment.addOperation [] op, [g], []⟩ : Fragment).toValue =
      op.field? key := by
  have hone : ∀ (k : String) (u : Value), (Value.map [(.text k, u)]).field? k = some u :=
    fun k u => Assoc.get?_insert_self (Atom.isExact_text k) u []
  have hpaths : (⟨Fragment.addOperation [] op, [g], []⟩ : Fragment).toValue.field? "paths" =
      some (.map [(.text op.route.uri,
        .map [(.text op.route.method, .map (Assoc.ofList op.fields))])]) :=
    rfl
  rw [fieldAt?, hpaths, Option.bind_some, hone, Option.bind_some, hone, Option.bind_some]
  rfl

/-- After a second block for a route, its fields are those of the first one, apart from parameters,
groups and responses: without tags for them in the second block they are blank. A field is lost just
if it was not blank before. -/
theorem redocumented_field {seed document : Value} (hread : seed.IsRead)
    (hdocument : ofSeed seed = .ok document) (htakes : takes document route.uri = true)
    {a b : Block} (ha : Fragment.Documents a route) (hb : Fragment.Documents b route)
    {f g : Fragment} (hf : Fragment.ofBlock (fun _ => none) a = .ok f)
    (hg : Fragment.ofBlock (fun _ => none) b = .ok g)
    (hv : fieldAt? route key f.toValue = some v) (hkey : Fragment.declares b key = false) :
    fieldAt? route key (add (add document (.array [f.toValue])).value (.array [g.toValue])).value =
        some ((Operation.blankField? key).getD v) ∧
      (fieldAt? route key
          (add (add document (.array [f.toValue])).value (.array [g.toValue])).value = some v ↔
        ∀ blank, Operation.blankField? key = some blank → v = blank) := by
  have hmarks : ∀ (code : String) (mark : Mark) (x : Value), none = some mark →
      ∀ i, mark ≠ .node i :=
    fun _ _ _ h => by cases h
  obtain ⟨op, rfl, hop, rfl, -⟩ := Fragment.ofBlock_documents hmarks ha hf
  obtain ⟨op', hroute, hop', rfl, hblank⟩ := Fragment.ofBlock_documents hmarks hb hg
  obtain ⟨m, old, entries, rfl, rfl⟩ := eq_object_of_ofSeed hdocument
  obtain ⟨heap, hsound⟩ := ofSeed_sound hread hdocument
  obtain ⟨m₁, paths, hget, hopens⟩ := takes_object htakes
  rw [fieldAt?_toValue] at hv
  have hnew : v.IsNew := hop.field? hv
  -- the first block leaves its field, in an object that takes the second one
  obtain ⟨heap', entries', hsound', hvalue, hfield⟩ :=
    fieldAt?_add hsound hop (Group.ofTags a.tags) hget hopens hnew (by rw [hv, Option.some_or])
  obtain ⟨m₂, paths', m₃, methods, m₄, fields, hget', hmethods, hoperation, hold⟩ :=
    (fieldAt?_eq_some_iff m).1 hfield
  rw [← hroute] at hmethods hoperation
  have hopens' : opens (Assoc.get? (.text op'.route.uri) paths') = true := by
    rw [hmethods]
    rfl
  have hmerged : (op'.field? key).or ((Assoc.get? (.text op'.route.method)
      (methodsOf (Assoc.get? (.text op'.route.uri) paths'))).bind (Value.field? key)) =
        some ((Operation.blankField? key).getD v) := by
    rw [hmethods, methodsOf_object, hoperation, Option.bind_some, field?, hold, hblank key hkey]
    cases Operation.blankField? key <;> rfl
  -- what the second block leaves is new too, so its own groups do not change it
  have hnew' : ((Operation.blankField? key).getD v).IsNew := by
    cases hblank' : Operation.blankField? key with
    | none => exact hnew
    | some blank => exact hop'.field? ((hblank key hkey).trans hblank')
  obtain ⟨_, entries'', -, hvalue', hfield'⟩ :=
    fieldAt?_add hsound' hop' (Group.ofTags b.tags) hget' hopens' hnew' hmerged
  rw [hvalue, hvalue', ← hroute, hfield']
  refine ⟨rfl, ?_⟩
  cases Operation.blankField? key with
  | none => simp
  | some blank => simp [eq_comm]

/-- A route with a parameter. -/
def limitBlock : Block where
  tags := [{ title := "route", description := some "GET /pets" },
    { title := "param", name := some "limit.query", description := some "How many pets to return",
      type := some (.named "integer") }]

/-- The same route with a summary. -/
def summaryBlock : Block where
  tags := [{ title := "route", description := some "GET /pets" },
    { title := "summary", description := some "List pets" }]

/-- The two blocks have one route each, the same. -/
theorem documents_pets : Fragment.Documents limitBlock ⟨"get", "/pets"⟩ ∧
    Fragment.Documents summaryBlock ⟨"get", "/pets"⟩ :=
  ⟨⟨fun head hhead => by cases hhead; decide +kernel, by decide +kernel⟩,
    ⟨fun head hhead => by cases hhead; decide +kernel, by decide +kernel⟩⟩

/-- The summary is kept by a block without one. -/
theorem redocumented_summary :
    ∃ f g document v, ofSeed (.map []) = .ok document ∧
      Fragment.ofBlock (fun _ => none) summaryBlock = .ok f ∧
      Fragment.ofBlock (fun _ => none) limitBlock = .ok g ∧
      fieldAt? ⟨"get", "/pets"⟩ "summary" f.toValue = some v ∧
      fieldAt? ⟨"get", "/pets"⟩ "summary"
        (add (add document (.array [f.toValue])).value (.array [g.toValue])).value = some v := by
  obtain ⟨f, hf⟩ : ∃ f, Fragment.ofBlock (fun _ => none) summaryBlock = .ok f :=
    exists_ok_of_isSome_toOption (by decide +kernel)
  obtain ⟨g, hg⟩ : ∃ g, Fragment.ofBlock (fun _ => none) limitBlock = .ok g :=
    exists_ok_of_isSome_toOption (by decide +kernel)
  have hsome : ((Fragment.ofBlock (fun _ => none) summaryBlock).toOption.bind fun f =>
      fieldAt? ⟨"get", "/pets"⟩ "summary" f.toValue).isSome = true := by
    decide +kernel
  rw [hf] at hsome
  obtain ⟨v, hv⟩ := Option.isSome_iff_exists.1 hsome
  have hread : (Value.map []).IsRead := isRead_of_one_object (by decide) (by simp)
  have hdocument : ofSeed (.map []) = .ok _ := rfl
  have hmerged := (redocumented_field hread hdocument (by decide +kernel) documents_pets.2
    documents_pets.1 hf hg hv (by decide +kernel)).1
  exact ⟨f, g, _, v, hdocument, hf, hg, hv, hmerged⟩

/-- The parameters are lost by a block without any. -/
theorem parameters_not_kept :
    ∃ f g document v, ofSeed (.map []) = .ok document ∧
      Fragment.ofBlock (fun _ => none) limitBlock = .ok f ∧
      Fragment.ofBlock (fun _ => none) summaryBlock = .ok g ∧
      Fragment.declares summaryBlock "parameters" = false ∧
      fieldAt? ⟨"get", "/pets"⟩ "parameters" f.toValue = some v ∧
      fieldAt? ⟨"get", "/pets"⟩ "parameters"
        (add (add document (.array [f.toValue])).value (.array [g.toValue])).value ≠ some v := by
  obtain ⟨f, hf⟩ : ∃ f, Fragment.ofBlock (fun _ => none) limitBlock = .ok f :=
    exists_ok_of_isSome_toOption (by decide +kernel)
  obtain ⟨g, hg⟩ : ∃ g, Fragment.ofBlock (fun _ => none) summaryBlock = .ok g :=
    exists_ok_of_isSome_toOption (by decide +kernel)
  have hdocument : ofSeed (.map []) = .ok _ := rfl
  -- one parameter before the second block, none after it
  have hbefore : ((Fragment.ofBlock (fun _ => none) limitBlock).toOption.bind fun f =>
      fieldAt? ⟨"get", "/pets"⟩ "parameters" f.toValue).map (·.itemsOrSelf.length) = some 1 := by
    decide +kernel
  have hafter : ((Fragment.ofBlock (fun _ => none) limitBlock).toOption.bind fun f =>
      (Fragment.ofBlock (fun _ => none) summaryBlock).toOption.bind fun g =>
        (ofSeed (.map [])).toOption.bind fun document =>
          fieldAt? ⟨"get", "/pets"⟩ "parameters" (add (add document (.array [f.toValue])).value
            (.array [g.toValue])).value).map (·.itemsOrSelf.length) = some 0 := by
    decide +kernel
  rw [hf] at hbefore
  rw [hf, hg, hdocument] at hafter
  obtain ⟨v, hv, hlength⟩ := Option.map_eq_some_iff.1 hbefore
  refine ⟨f, g, _, v, hdocument, hf, hg, by decide +kernel, hv, fun hkept => ?_⟩
  have hsame : (some v).map (·.itemsOrSelf.length) = some 0 := hkept ▸ hafter
  rw [Option.map_some, hlength] at hsame
  cases hsame

end Document

end ApiDoc
