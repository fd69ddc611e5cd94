import ApiDoc.Definition
import ApiDoc.Proofs.Assoc
import ApiDoc.Proofs.Except
import ApiDoc.Proofs.Text.Lines
import ApiDoc.Proofs.TypeExpr.Schema
import Mathlib.Data.List.Forall2

/-!
# Declarations of properties

A tag behind a typedef is passed over, has no name where it needs one, or declares a property:
`Tag.role`. A definition is told by the roles of its tags alone (`Definition.addTags_cons`), and two
facts follow.

* Every required name is the name of a property. It occurs once, unless more than one tag declares
  it required (`Definition.ofTags_required_iff`).
* The order and the number of the modifiers do not matter, nor do words that are no modifiers
  (`Definition.ofTags_eq_of_renames`).
-/

namespace ApiDoc

open Text

/-! ## Roles of tags -/

/-- What a property tag declares. -/
structure Declaration where
  name : String
  required : Bool
  property : Property

/-- What a tag declares under a name with modifiers. -/
def Declaration.ofTag (name : String) (tag : Tag) : Declaration where
  name := (propertyName name).1
  required := (propertyName name).2.contains "required"
  property := .ofTag ((propertyName name).2.contains "readOnly") tag

/-- What a tag behind a typedef is for the definition. -/
inductive TagRole where
  | skipped
  | unnamed
  | declares (x : Declaration)

/-- The role of a tag. -/
def Tag.role (tag : Tag) : TagRole :=
  if tag.kind? == some .property then
    (nonempty? tag.name).elim .unnamed fun name => .declares (.ofTag name tag)
  else .skipped

/-- The declaration of a tag that makes one. -/
def Tag.declaration? (tag : Tag) : Option Declaration :=
  match tag.role with
  | .declares x => some x
  | _ => none

namespace Definition

variable {typedef : String} {d result : Definition} {tags : List Tag}

/-- The definition with one more declaration. -/
def declare (d : Definition) (x : Declaration) : Definition where
  base := d.base
  required := if x.required then d.required ++ [x.name] else d.required
  properties := Assoc.insert x.name x.property d.properties

/-- What becomes of a definition is told by the role of the next tag. -/
theorem addTags_cons (typedef : String) (d : Definition) (tag : Tag) (tags : List Tag) :
    d.addTags typedef (tag :: tags) =
      match tag.role with
      | .skipped => d.addTags typedef tags
      | .unnamed => .error (.propertyUnnamed typedef)
      | .declares x => (d.declare x).addTags typedef tags := by
  rw [addTags, Tag.role]
  split
  · cases nonempty? tag.name <;> rfl
  · rfl

/-- A definition that is made has all declarations, in the order of the tags. -/
theorem addTags_eq_foldl (h : d.addTags typedef tags = .ok result) :
    result = (tags.filterMap Tag.declaration?).foldl declare d := by
  induction tags generalizing d with
  | nil =>
    cases h
    rfl
  | cons tag tags ih =>
    rw [addTags_cons] at h
    cases hrole : tag.role with
    | skipped =>
      rw [hrole] at h
      rw [List.filterMap_cons_none (by rw [Tag.declaration?, hrole])]
      exact ih h
    | unnamed =>
      rw [hrole] at h
      cases h
    | declares x =>
      rw [hrole] at h
      rw [List.filterMap_cons_some (by rw [Tag.declaration?, hrole]), List.foldl_cons]
      exact ih h

/-- A definition that is made has the name of its typedef tag, and starts with nothing declared. -/
theorem ofTags_cases {head : Tag} {name : String} (h : ofTags head tags = .ok (name, d)) :
    nonempty? head.name = some name ∧
      d = (tags.filterMap Tag.declaration?).foldl declare ⟨baseOf head, [], []⟩ := by
  unfold ofTags at h
  split at h
  · cases h
  · next title htitle =>
    obtain ⟨d', hadd, hd⟩ := exists_of_bind_eq_ok h
    cases hd
    exact ⟨htitle, addTags_eq_foldl hadd⟩

/-- What a definition builds on is not declared. -/
theorem base_foldl_declare (xs : List Declaration) (d : Definition) :
    (xs.foldl declare d).base = d.base := by
  induction xs generalizing d with
  | nil => rfl
  | cons x xs ih => exact ih (d.declare x)

/-- The properties are those that are declared; of several with one name the last stays. -/
theorem properties_foldl_declare (xs : List Declaration) (d : Definition) :
    (xs.foldl declare d).properties =
      Assoc.update d.properties (xs.map fun x => (x.name, x.property)) := by
  induction xs generalizing d with
  | nil => rfl
  | cons x xs ih => exact ih (d.declare x)

end Definition

/-- A tag declares a property just if it is a property tag with a name. -/
theorem Tag.declaration?_eq_some_iff {tag : Tag} {x : Declaration} :
    tag.declaration? = some x ↔
      tag.kind? = some .property ∧ ∃ name, tag.name = some name ∧ name ≠ "" ∧
        Declaration.ofTag name tag = x := by
  rw [declaration?, role]
  by_cases hkind : tag.kind? = some .property
  · rw [if_pos (beq_iff_eq.2 hkind)]
    cases hname : nonempty? tag.name with
    | none =>
      rcases nonempty?_eq_none_iff.1 hname with h | h <;> simp [h]
    | some name =>
      obtain ⟨hsome, hne⟩ := nonempty?_eq_some_iff.1 hname
      simp [hkind, hsome, hne]
  · rw [if_neg (by simpa using hkind)]
    simp [hkind]

namespace Definition

/-- A definition that a typedef tag and property tags behind it make. -/
structure IsOf (head : Tag) (rest : List Tag) (d : Definition) : Prop where
  base : d.base = baseOf head
  properties : ∀ e ∈ d.properties, ∃ tag ∈ rest, ∃ readOnly, e.2 = .ofTag readOnly tag

/-- Every property of a definition is what one of its tags declares. -/
theorem ofTags_isOf {head : Tag} {rest : List Tag} {name : String} {d : Definition}
    (h : ofTags head rest = .ok (name, d)) :
    nonempty? head.name = some name ∧ d.IsOf head rest := by
  obtain ⟨htitle, rfl⟩ := ofTags_cases h
  refine ⟨htitle, base_foldl_declare _ _, ?_⟩
  rw [properties_foldl_declare]
  have hdeclared : ∀ e ∈ (rest.filterMap Tag.declaration?).map fun x => (x.name, x.property),
      ∃ tag ∈ rest, ∃ readOnly, e.2 = .ofTag readOnly tag := by
    intro e he
    obtain ⟨x, hx, rfl⟩ := List.mem_map.1 he
    obtain ⟨tag, htag, hdeclares⟩ := List.mem_filterMap.1 hx
    obtain ⟨-, name, -, -, rfl⟩ := Tag.declaration?_eq_some_iff.1 hdeclares
    exact ⟨tag, htag, _, rfl⟩
  exact Assoc.forall_entry_update (p := fun _ property => ∃ tag ∈ rest, ∃ readOnly,
    property = Property.ofTag readOnly tag) (fun e _ => Assoc.isExact_of_lawfulBEq e.1)
    (List.forall_mem_nil _) hdeclared

end Definition

/-! ## Required names -/

/-- The name of a declaration that makes it required. -/
def Declaration.requiredName? (x : Declaration) : Option String :=
  if x.required then some x.name else none

/-- Declarations add the names that they require, in order. -/
theorem Definition.required_foldl_declare (xs : List Declaration) (d : Definition) :
    (xs.foldl declare d).required = d.required ++ xs.filterMap Declaration.requiredName? := by
  induction xs generalizing d with
  | nil => simp
  | cons x xs ih => cases hx : x.required <;> simp [ih, declare, Declaration.requiredName?, hx]

/-- The name of a property is the first part of a text, and the others are modifiers. -/
theorem propertyName_eq {name : String} {first : List Char} {modifiers : List (List Char)}
    (h : splitAll '.' name.toList = first :: modifiers) :
    propertyName name = (String.ofList first, modifiers.map String.ofList) := by
  rw [propertyName, h]

/-- A word is among modifiers just if its characters are. -/
theorem contains_map_ofList {modifiers : List (List Char)} {word : String} :
    (modifiers.map String.ofList).contains word = true ↔ word.toList ∈ modifiers := by
  rw [List.contains_iff_mem, List.mem_map]
  constructor
  · rintro ⟨m, hm, rfl⟩
    rwa [String.toList_ofList]
  · intro h
    exact ⟨word.toList, h, String.ofList_toList⟩

/-- A tag declares a property of some name as required: the name of the property is the first part
of its name, and `required` is one of the parts behind. -/
def Tag.Requires (tag : Tag) (property : String) : Prop :=
  tag.kind? = some .property ∧ ∃ name modifiers, tag.name = some name ∧
    splitAll '.' name.toList = property.toList :: modifiers ∧ "required".toList ∈ modifiers

/-- The name that a tag requires is read off its declaration. -/
theorem Tag.bind_requiredName?_eq_some_iff {tag : Tag} {n : String} :
    tag.declaration?.bind Declaration.requiredName? = some n ↔ tag.Requires n := by
  simp only [Option.bind_eq_some_iff, Declaration.requiredName?, Option.ite_none_right_eq_some,
    Option.some.injEq]
  constructor
  · rintro ⟨x, hx, hrequired, rfl⟩
    obtain ⟨hkind, name, hname, -, rfl⟩ := declaration?_eq_some_iff.1 hx
    obtain ⟨first, modifiers, hsplit⟩ :=
      List.exists_cons_of_ne_nil (splitWhere_ne_nil (· == '.') name.toList)
    have hparts : propertyName name = _ := propertyName_eq hsplit
    rw [Declaration.ofTag, hparts] at hrequired
    refine ⟨hkind, name, modifiers, hname, ?_, contains_map_ofList.1 hrequired⟩
    rw [Declaration.ofTag, hparts, String.toList_ofList]
    exact hsplit
  · rintro ⟨hkind, name, modifiers, hname, hsplit, hrequired⟩
    -- an empty name has no modifiers
    have hne : name ≠ "" := by
      rintro rfl
      have hnil : [] = modifiers := (List.cons.inj hsplit).2
      exact absurd hrequired (hnil ▸ List.not_mem_nil)
    refine ⟨.ofTag name tag, declaration?_eq_some_iff.2 ⟨hkind, name, hname, hne, rfl⟩, ?_, ?_⟩
    · rw [Declaration.ofTag, propertyName_eq hsplit]
      exact contains_map_ofList.2 hrequired
    · rw [Declaration.ofTag, propertyName_eq hsplit]
      exact String.ofList_toList

namespace Definition

variable {head : Tag} {rest : List Tag} {name : String} {d : Definition}

/-- The required names of a definition, tag by tag. -/
theorem required_eq_filterMap (h : ofTags head rest = .ok (name, d)) :
    d.required = rest.filterMap fun tag => tag.declaration?.bind Declaration.requiredName? := by
  rw [(ofTags_cases h).2, required_foldl_declare, List.nil_append, List.filterMap_filterMap]

/-- A name is required just if a tag requires it. -/
theorem mem_required_iff (h : ofTags head rest = .ok (name, d)) {n : String} :
    n ∈ d.required ↔ ∃ tag ∈ rest, tag.Requires n := by
  simp only [required_eq_filterMap h, List.mem_filterMap, Tag.bind_requiredName?_eq_some_iff]

/-- What a tag requires it declares. -/
theorem mem_keys_of_requires (h : ofTags head rest = .ok (name, d)) {tag : Tag} (htag : tag ∈ rest)
    {n : String} (hn : tag.Requires n) : n ∈ d.properties.map Prod.fst := by
  have hexact : Assoc.IsExact n := Assoc.isExact_of_lawfulBEq n
  obtain ⟨x, hx, hrequired⟩ := Option.bind_eq_some_iff.1 (Tag.bind_requiredName?_eq_some_iff.2 hn)
  have hname : x.name = n := by
    rw [Declaration.requiredName?, Option.ite_none_right_eq_some] at hrequired
    exact Option.some.inj hrequired.2
  rw [(ofTags_cases h).2, properties_foldl_declare, ← Assoc.isSome_get?_iff hexact]
  refine Assoc.isSome_get?_update_of_mem hexact (v := x.property) ?_
  exact List.mem_map.2 ⟨x, List.mem_filterMap.2 ⟨tag, htag, hx⟩, by rw [hname]⟩

/-- The required names and the names of the properties are written in their order. -/
theorem toValue_names (d : Definition) :
    d.toValue.field? "required" = some (.array (d.required.map .text)) ∧
      ∃ properties, d.toValue.field? "properties" = some (.map properties) ∧
        properties.map Prod.fst = d.properties.map fun e => .text e.1 := by
  refine ⟨rfl, _, rfl, ?_⟩
  rw [List.map_map]
  rfl

/-- The required names of a definition are names of its properties, namely those that a tag
requires. None of them occurs twice just if no two tags require the same one. So it is with the
names that are written. -/
theorem ofTags_required_iff (h : ofTags head rest = .ok (name, d)) :
    (∀ n ∈ d.required, n ∈ d.properties.map Prod.fst) ∧
      (∀ n, n ∈ d.required ↔ ∃ tag ∈ rest, tag.Requires n) ∧
      (d.required.Nodup ↔ rest.Pairwise fun t u => ∀ n, t.Requires n → ¬ u.Requires n) ∧
      d.toValue.field? "required" = some (.array (d.required.map .text)) ∧
      ∃ properties, d.toValue.field? "properties" = some (.map properties) ∧
        properties.map Prod.fst = d.properties.map fun e => .text e.1 := by
  refine ⟨fun n hn => ?_, fun n => mem_required_iff h, ?_, d.toValue_names⟩
  · obtain ⟨tag, htag, hrequires⟩ := (mem_required_iff h).1 hn
    exact mem_keys_of_requires h htag hrequires
  · rw [required_eq_filterMap h, List.Nodup, List.pairwise_filterMap]
    simp only [Tag.bind_requiredName?_eq_some_iff]
    refine List.Pairwise.iff fun t u => ?_
    exact ⟨fun hne n ht hu => hne n ht n hu rfl, fun hne n ht m hu heq => hne n ht (heq ▸ hu)⟩

/-- A definition with a property that is declared three times, twice as required. -/
theorem ofTags_required_iff_thrice :
    let id : Tag := { title := "property", name := some "id.required" }
    let again : Tag := { title := "property", name := some "id" }
    let name : Tag := { title := "property", name := some "name.readOnly.required" }
    ∃ d, ofTags { title := "typedef", name := some "Pet" } [id, again, name, id] = .ok ("Pet", d) ∧
      d.required = ["id", "name", "id"] ∧
      (∀ n ∈ d.required, n ∈ d.properties.map Prod.fst) ∧
      (∀ n, n ∈ d.required ↔ ∃ tag ∈ [id, again, name, id], tag.Requires n) ∧
      (d.required.Nodup ↔
        [id, again, name, id].Pairwise fun t u => ∀ n, t.Requires n → ¬ u.Requires n) ∧
      d.toValue.field? "required" = some (.array (d.required.map .text)) ∧
      ∃ properties, d.toValue.field? "properties" = some (.map properties) ∧
        properties.map Prod.fst = d.properties.map fun e => .text e.1 := by
  intro id again name
  have h : ofTags { title := "typedef", name := some "Pet" } [id, again, name, id] =
    .ok ("Pet", _) := rfl
  exact ⟨_, h, by decide +kernel, ofTags_required_iff h⟩

/-- A name that two tags require occurs twice among the required names. -/
theorem required_twice :
    ∃ d, ofTags { title := "typedef", name := some "Pet" }
        [{ title := "property", name := some "id.required" },
          { title := "property", name := some "id.required" }] = .ok ("Pet", d) ∧
      d.required = ["id", "id"] ∧ ¬ d.required.Nodup :=
  ⟨_, rfl, by decide +kernel, by decide +kernel⟩

end Definition

/-! ## Modifiers -/

/-- The words that say something about a property. -/
def modifierWords : List (List Char) := ["required".toList, "readOnly".toList]

/-- Modifiers that say the same as others: they stand in another order, some stand there twice, or
words that say nothing stand among them. -/
inductive Restates : List (List Char) → List (List Char) → Prop where
  | perm {ms ms' : List (List Char)} (h : ms.Perm ms') : Restates ms ms'
  | duplicate {m : List Char} {ms : List (List Char)} (h : m ∈ ms) : Restates ms (m :: ms)
  | insert {word : List Char} (ms : List (List Char)) (hdot : '.' ∉ word)
      (hword : word ∉ modifierWords) : Restates ms (word :: ms)
  | trans {ms ms' ms'' : List (List Char)} (h : Restates ms ms') (h' : Restates ms' ms'') :
      Restates ms ms''

/-- The word that makes a property required says something. -/
theorem required_mem_modifierWords : "required".toList ∈ modifierWords := List.mem_cons_self

/-- The word that makes a property read-only says something. -/
theorem readOnly_mem_modifierWords : "readOnly".toList ∈ modifierWords :=
  List.mem_cons_of_mem _ List.mem_cons_self

namespace Restates

variable {ms ms' : List (List Char)}

/-- No word that says something is lost, and none is new. -/
theorem mem_iff (h : Restates ms ms') {m : List Char} (hm : m ∈ modifierWords) :
    m ∈ ms' ↔ m ∈ ms := by
  induction h with
  | perm h => exact h.mem_iff.symm
  | duplicate h => exact List.mem_cons.trans (or_iff_right_of_imp fun heq => heq ▸ h)
  | insert ms hdot hword =>
    exact List.mem_cons.trans (or_iff_right fun heq => hword (heq ▸ hm))
  | trans _ _ ih ih' => exact ih'.trans ih

/-- Modifiers that say the same have the same words that say something. -/
theorem contains_eq (h : Restates ms ms') {word : String} (hword : word.toList ∈ modifierWords) :
    (ms'.map String.ofList).contains word = (ms.map String.ofList).contains word := by
  rw [Bool.eq_iff_iff, contains_map_ofList, contains_map_ofList, h.mem_iff hword]

/-- Modifiers that say the same are as many at least. -/
theorem length_le (h : Restates ms ms') : ms.length ≤ ms'.length := by
  induction h with
  | perm h => exact h.length_eq.le
  | duplicate h | insert => exact Nat.le_succ _
  | trans _ _ ih ih' => exact ih.trans ih'

/-- Modifiers that say the same hold no dots either. -/
theorem dot_not_mem (h : Restates ms ms') (hms : ∀ m ∈ ms, '.' ∉ m) : ∀ m ∈ ms', '.' ∉ m := by
  induction h with
  | perm h => exact fun m hm => hms m (h.mem_iff.2 hm)
  | duplicate h => exact List.forall_mem_cons.2 ⟨hms _ h, hms⟩
  | insert ms hdot => exact List.forall_mem_cons.2 ⟨hdot, hms⟩
  | trans _ _ ih ih' => exact ih' (ih hms)

end Restates

/-- A tag, perhaps with another name: the first part is the same, and the parts behind say the
same. -/
inductive Tag.Renames : Tag → Tag → Prop where
  | refl (tag : Tag) : Renames tag tag
  | name {tag : Tag} {name : String} {first : List Char} {ms ms' : List (List Char)}
      (hname : tag.name = some name) (hne : name ≠ "")
      (hsplit : splitAll '.' name.toList = first :: ms) (h : Restates ms ms') :
      Renames tag { tag with name := some (String.ofList (join ['.'] (first :: ms'))) }

/-- The parts of a name that is written in another way. -/
theorem Restates.splitAll_join {name : String} {first : List Char} {ms ms' : List (List Char)}
    (hsplit : splitAll '.' name.toList = first :: ms) (h : Restates ms ms') :
    splitAll '.' (join ['.'] (first :: ms')) = first :: ms' := by
  have hdots : ∀ m ∈ first :: ms, '.' ∉ m := fun m hm => not_mem_of_mem_splitAll (hsplit ▸ hm)
  obtain ⟨hfirst, hms⟩ := List.forall_mem_cons.1 hdots
  exact Text.splitAll_join (List.cons_ne_nil _ _)
    (List.forall_mem_cons.2 ⟨hfirst, h.dot_not_mem hms⟩)

/-- A name that is not empty is not empty when it is written in another way. -/
theorem Restates.join_ne_nil {name : String} {first : List Char} {ms ms' : List (List Char)}
    (hne : name ≠ "") (hsplit : splitAll '.' name.toList = first :: ms) (h : Restates ms ms') :
    join ['.'] (first :: ms') ≠ [] := by
  intro hnil
  -- the empty name has one part only, and parts are never taken away
  have hparts : first :: ms' = [[]] := by
    rw [← h.splitAll_join hsplit, hnil]
    rfl
  obtain ⟨rfl, rfl⟩ := List.cons.inj hparts
  have hms : ms = [] := List.length_eq_zero_iff.1 (Nat.le_zero.1 h.length_le)
  refine hne (String.toList_eq_nil_iff.1 ?_)
  rw [← join_splitAll '.' name.toList, hsplit, hms]
  rfl

/-- What a tag declares does not depend on how its modifiers are written. -/
theorem Tag.Renames.role_eq {tag tag' : Tag} (h : Renames tag tag') : tag'.role = tag.role := by
  cases h with
  | refl => rfl
  | @name name first ms ms' hname hne hsplit h =>
    have hsplit' : splitAll '.' (String.ofList (join ['.'] (first :: ms'))).toList =
        first :: ms' := by
      rw [String.toList_ofList, h.splitAll_join hsplit]
    have hne' : String.ofList (join ['.'] (first :: ms')) ≠ "" := by
      simpa using h.join_ne_nil hne hsplit
    have hdeclares : Declaration.ofTag (String.ofList (join ['.'] (first :: ms')))
        { tag with name := some (String.ofList (join ['.'] (first :: ms'))) } =
          Declaration.ofTag name tag := by
      simp only [Declaration.ofTag, propertyName_eq hsplit', propertyName_eq hsplit,
        h.contains_eq required_mem_modifierWords, h.contains_eq readOnly_mem_modifierWords]
      rfl
    rw [role, role, nonempty?_eq_some_iff.2 ⟨hname, hne⟩, nonempty?_eq_some_iff.2 ⟨rfl, hne'⟩,
      Option.elim_some, Option.elim_some, hdeclares]
    rfl

namespace Definition

variable {tags tags' : List Tag}

/-- Tags whose names say the same make the same definition. -/
theorem addTags_eq_of_renames (typedef : String) (d : Definition)
    (h : List.Forall₂ Tag.Renames tags tags') :
    d.addTags typedef tags' = d.addTags typedef tags := by
  induction h generalizing d with
  | nil => rfl
  | @cons tag tag' tags tags' htag _ ih =>
    rw [addTags_cons, addTags_cons, htag.role_eq]
    cases tag.role with
    | skipped => exact ih d
    | unnamed => rfl
    | declares x => exact ih (d.declare x)

/-- However the modifiers of the properties are written, the definition is the same: the same
required names, the same properties in the same order, or the same fault. -/
theorem ofTags_eq_of_renames (head : Tag) {rest rest' : List Tag}
    (h : List.Forall₂ Tag.Renames rest rest') : ofTags head rest' = ofTags head rest := by
  unfold ofTags
  cases nonempty? head.name with
  | none => rfl
  | some name => simp only [addTags_eq_of_renames name _ h]

/-- The modifiers are swapped, one of them is written twice, and a word that says nothing comes
between them; the property without modifiers gets such a word as well. -/
theorem ofTags_eq_of_renames_swapped :
    ofTags { title := "typedef", name := some "Pet" }
        [{ title := "property", name := some "id.required.readOnly.old.required" },
          { title := "summary" }, { title := "property", name := some "nick.old" }] =
      ofTags { title := "typedef", name := some "Pet" }
        [{ title := "property", name := some "id.readOnly.required" },
          { title := "summary" }, { title := "property", name := some "nick" }] := by
  have hinsert (ms : List (List Char)) : Restates ms ("old".toList :: ms) :=
    .insert ms (by decide) (by decide)
  have hid : Restates ["readOnly".toList, "required".toList]
      ["required".toList, "readOnly".toList, "old".toList, "required".toList] :=
    .trans (.trans (hinsert _) (.duplicate (by decide))) (.perm (.cons _ (.swap _ _ _)))
  have hsplit : splitAll '.' "id.readOnly.required".toList =
      "id".toList :: ["readOnly".toList, "required".toList] := by decide
  have hnick : splitAll '.' "nick".toList = "nick".toList :: [] := by decide
  refine ofTags_eq_of_renames _ (.cons ?_ (.cons (.refl _) (.cons ?_ .nil)))
  · exact .name rfl (by decide) hsplit hid
  · exact .name rfl (by decide) hnick (hinsert [])

end Definition

end ApiDoc
