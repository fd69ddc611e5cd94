import ApiDoc.Proofs.Fragment.Values
import ApiDoc.Proofs.Text.Lower
import ApiDoc.Proofs.TypeExpr.Schema

/-!
# What the parts of a comment are written as

The values of schemas, parameters, headers, properties and groups are written with keys from one
short list, and apart from examples there is nothing in them but texts, truth values, lists and
objects (`Value.IsWritten`). Where a reference is written it has the name of a definition, which is
never empty: `schemaOf?_isNamed`, `firstItemOf?_isNamed`.
-/

namespace ApiDoc

/-! ## Names that are not empty -/

/-- A name that is kept is not empty. -/
theorem ne_empty_of_nonempty? {name : Option String} {s : String} (h : nonempty? name = some s) :
    s ≠ "" :=
  (nonempty?_eq_some_iff.1 h).2

namespace TypeExpr

/-- A type with a name has a type that is not empty. -/
theorem namedType_ne_empty {name : String} (h : name ≠ "") : namedType name ≠ "" := by
  unfold namedType
  cases hmodel : model? name with
  | some model => exact ne_empty_of_nonempty? hmodel
  | none =>
    simp only [Option.getD_none]
    split
    · exact Text.lower_ne_empty h
    · exact h

/-- The type of a name and a container is not empty. -/
theorem typeOfParts_ne_empty (name : Option String) (container : Option TypeExpr) :
    typeOfParts name container ≠ "" := by
  unfold typeOfParts
  split
  · rename_i hname
    exact namedType_ne_empty (ne_empty_of_nonempty? hname)
  · split
    · rename_i hcontainer
      exact Text.lower_ne_empty (ne_empty_of_nonempty? hcontainer)
    · decide

end TypeExpr

/-- A bare type is not empty. -/
theorem bareTypeOf_ne_empty (e : Option TypeExpr) : bareTypeOf e ≠ "" := by
  cases e with
  | none => decide
  | some e => exact TypeExpr.typeOfParts_ne_empty _ _

/-! ## Schemas whose references have names -/

namespace Schema

mutual

/-- A schema whose references all have names. -/
def IsNamed : Schema → Prop
  | .ref name => name ≠ ""
  | .plain _ => True
  | .container _ items => IsNamed items
  | .oneOf alternatives => AreNamed alternatives

/-- Schemas whose references all have names. -/
def AreNamed : List Schema → Prop
  | [] => True
  | s :: rest => IsNamed s ∧ AreNamed rest

end

end Schema

namespace TypeExpr

open Schema

/-- A schema of named items is named. -/
theorem schemaOfParts_isNamed {name : Option String} {type : String} {items : List Schema}
    (hitems : AreNamed items) {s : Schema} (h : schemaOfParts name type items = some s) :
    s.IsNamed := by
  unfold schemaOfParts at h
  split at h
  · obtain ⟨model, hmodel, rfl⟩ := Option.map_eq_some_iff.1 h
    exact ne_empty_of_nonempty? hmodel
  · split at h
    · cases h
    · cases h
      exact hitems.1
    · cases h
      exact hitems

/-- The schema of a name that is not empty is named. -/
theorem leafSchema_isNamed {name : String} (h : name ≠ "") : (leafSchema name).IsNamed := by
  unfold leafSchema
  split
  · trivial
  · change (model? name).getD name ≠ ""
    cases hmodel : model? name with
    | some model => exact ne_empty_of_nonempty? hmodel
    | none => exact h

mutual

/-- The schema of an item is named. -/
theorem itemSchema_isNamed (e : TypeExpr) : (itemSchema e).IsNamed := by
  match e with
  | mk name container arguments members =>
    rw [itemSchema_eq]
    match members with
    | some (m :: ms) => exact ⟨itemSchema_isNamed m, itemSchemas_areNamed ms⟩
    | some [] | none =>
      cases hnested : arguments.bind fun as =>
          schemaOfParts name (typeOfParts name container) (itemSchemas as) with
      | none =>
        refine leafSchema_isNamed ?_
        cases hname : nonempty? name with
        | some n => exact ne_empty_of_nonempty? hname
        | none => exact typeOfParts_ne_empty name container
      | some s =>
        match arguments with
        | none => cases hnested
        | some as => exact schemaOfParts_isNamed (itemSchemas_areNamed as) hnested

/-- The schemas of items are named. -/
theorem itemSchemas_areNamed (es : List TypeExpr) : AreNamed (itemSchemas es) := by
  match es with
  | [] =>
    rw [itemSchemas]
    trivial
  | e :: es =>
    rw [itemSchemas]
    exact ⟨itemSchema_isNamed e, itemSchemas_areNamed es⟩

end

end TypeExpr

/-- The schema of a type is named. -/
theorem schemaOf?_isNamed {e : Option TypeExpr} {s : Schema} (h : schemaOf? e = some s) :
    s.IsNamed := by
  obtain ⟨e, -, hschema⟩ := Option.bind_eq_some_iff.1 h
  exact TypeExpr.schemaOfParts_isNamed (TypeExpr.itemSchemas_areNamed _) hschema

/-- The schema of the first item of a type is named. -/
theorem firstItemOf?_isNamed {e : Option TypeExpr} {s : Schema} (h : firstItemOf? e = some s) :
    s.IsNamed := by
  obtain ⟨e, -, hitem⟩ := Option.bind_eq_some_iff.1 h
  unfold TypeExpr.firstItem? at hitem
  split at hitem
  · obtain ⟨_, -, rfl⟩ := Option.map_eq_some_iff.1 hitem
    exact TypeExpr.itemSchema_isNamed _
  · cases hitem

/-! ## Written values -/

namespace Value

/-- A reference to a definition that has a name. -/
def IsReference (v : Value) : Prop := ∃ name, name ≠ "" ∧ v = .text ("#/definitions/" ++ name)

/-- The keys that parts of comments are written with, besides that of references. -/
def writtenKeys : List String :=
  ["type", "items", "oneOf", "name", "in", "description", "required", "enum", "readOnly", "schema"]

/-- A value under a key as it is written. -/
def IsWrittenField (key : Atom) (v : Value) : Prop :=
  (∃ k ∈ writtenKeys, key = .text k) ∨ key = .text "$ref" ∧ v.IsReference

/-- Whether an atom is one that is written apart from examples. -/
def isWrittenAtom : Atom → Bool
  | .null | .bool _ | .text _ => true
  | _ => false

/-- A node as it is written. -/
def IsWritten : Value → Prop
  | .atom a => isWrittenAtom a = true
  | .list mark _ => mark = none
  | .object mark entries => mark = none ∧ ∀ e ∈ entries, IsWrittenField e.1 e.2
  | _ => False

/-- A text is a node as it is written. -/
theorem text_isWritten (s : String) : (text s).Every IsWritten := every_atom_iff.2 rfl

/-- A truth value is a node as it is written. -/
theorem bool_isWritten (b : Bool) : (bool b).Every IsWritten := every_atom_iff.2 rfl

/-- A list of written values is as it is written. -/
theorem array_isWritten {items : List Value} (h : ∀ v ∈ items, v.Every IsWritten) :
    (array items).Every IsWritten :=
  every_iff.2 ⟨rfl, h⟩

/-- Fields as they are written. -/
def AreWritten (fields : List (String × Value)) : Prop :=
  ∀ e ∈ fields, IsWrittenField (.text e.1) e.2 ∧ e.2.Every IsWritten

variable {v : Value} {fields fields' : List (String × Value)}

theorem areWritten_nil : AreWritten [] := fun _ he => absurd he List.not_mem_nil

/-- Written fields with one more under a key that is written. -/
theorem AreWritten.cons (h : AreWritten fields) (key : String) (hkey : key ∈ writtenKeys)
    (hv : v.Every IsWritten) : AreWritten ((key, v) :: fields) :=
  List.forall_mem_cons.2 ⟨⟨.inl ⟨key, hkey, rfl⟩, hv⟩, h⟩

/-- One field under a key that is written. -/
theorem areWritten_singleton (key : String) (hkey : key ∈ writtenKeys) (hv : v.Every IsWritten) :
    AreWritten [(key, v)] :=
  areWritten_nil.cons key hkey hv

/-- Written fields in a row. -/
theorem AreWritten.append (h : AreWritten fields) (h' : AreWritten fields') :
    AreWritten (fields ++ fields') :=
  List.forall_mem_append.2 ⟨h, h'⟩

/-- A field that may be left out. -/
theorem areWritten_elim {α : Type} {x : Option α} {f : α → Value} (key : String)
    (hkey : key ∈ writtenKeys) (h : ∀ a, x = some a → (f a).Every IsWritten) :
    AreWritten (x.elim [] fun a => [(key, f a)]) :=
  forall_mem_elim fun a ha => areWritten_singleton key hkey (h a ha)

/-- A record of written fields is as it is written. -/
theorem AreWritten.record (h : AreWritten fields) : (record fields).Every IsWritten := by
  refine EveryIn.object ⟨?_, ?_⟩ ⟨rfl, ?_⟩ <;> refine List.forall_mem_map.2 fun e he => ?_
  · exact rfl
  · exact (h e he).2
  · exact (h e he).1

end Value

open Value

/-- A reference to a name that is not empty is as it is written. -/
theorem definitionRef_isWritten {name : String} (h : name ≠ "") :
    (definitionRef name).Every IsWritten :=
  AreWritten.record (List.forall_mem_singleton.2 ⟨.inr ⟨rfl, name, h, rfl⟩, text_isWritten _⟩)

/-- A list of texts is as it is written. -/
theorem textsValue_isWritten (texts : List String) : (textsValue texts).Every IsWritten :=
  array_isWritten (List.forall_mem_map.2 fun s _ => text_isWritten s)

mutual

/-- A named schema is as it is written. -/
theorem Schema.IsNamed.isWritten {s : Schema} (h : s.IsNamed) : s.toValue.Every IsWritten := by
  match s with
  | .ref name =>
    rw [Schema.toValue]
    exact definitionRef_isWritten h
  | .plain type =>
    rw [Schema.toValue]
    exact (areWritten_singleton "type" (by decide) (text_isWritten type)).record
  | .container type items =>
    rw [Schema.toValue]
    have hitems := areWritten_singleton "items" (by decide)
      (Schema.IsNamed.isWritten (s := items) h)
    exact (hitems.cons "type" (by decide) (text_isWritten type)).record
  | .oneOf alternatives =>
    rw [Schema.toValue]
    have halternatives := array_isWritten (Schema.AreNamed.isWritten h)
    exact (areWritten_singleton "oneOf" (by decide) halternatives).record

/-- Named schemas are as they are written. -/
theorem Schema.AreNamed.isWritten {ss : List Schema} (h : Schema.AreNamed ss) :
    ∀ v ∈ Schema.toValues ss, v.Every IsWritten := by
  match ss with
  | [] => exact fun v hv => absurd hv List.not_mem_nil
  | s :: ss =>
    rw [Schema.toValues]
    exact List.forall_mem_cons.2 ⟨Schema.IsNamed.isWritten h.1, Schema.AreNamed.isWritten h.2⟩

end

/-! ## Parameters, headers, groups and properties -/

/-- The fields of an enumeration are as they are written. -/
theorem Enumeration.fields_areWritten (e : Enumeration) : AreWritten e.fields :=
  (areWritten_elim "enum" (by decide) fun vs _ => textsValue_isWritten vs).cons "type" (by decide)
    (text_isWritten e.type)

/-- The fields of the shape of a parameter are as they are written. -/
theorem ParameterShape.fields_areWritten (tag : Tag) :
    AreWritten (ParameterShape.ofTag tag).fields := by
  unfold ParameterShape.ofTag
  split
  · rename_i s hs
    exact areWritten_singleton "schema" (by decide) (schemaOf?_isNamed hs).isWritten
  · split <;> exact Enumeration.fields_areWritten _

/-- A parameter is as it is written. -/
theorem Parameter.ofTag_isWritten (tag : Tag) : (Parameter.ofTag tag).toValue.Every IsWritten := by
  have hlocation := areWritten_singleton "in" (by decide)
    (text_isWritten (Parameter.ofTag tag).field.location)
  have hname := hlocation.cons "name" (by decide)
    (text_isWritten (Parameter.ofTag tag).field.name)
  have hdescription := areWritten_elim (x := (Parameter.ofTag tag).description) "description"
    (by decide) fun d _ => text_isWritten d
  have hshape := (ParameterShape.fields_areWritten tag).cons "required" (by decide)
    (bool_isWritten (Parameter.ofTag tag).field.required)
  exact ((hname.append hdescription).append hshape).record

/-- A header is as it is written. -/
theorem Header.isWritten (h : Header) : h.toValue.Every IsWritten := by
  have hdescription := areWritten_elim (x := h.description) "description" (by decide)
    fun d _ => text_isWritten d
  exact (hdescription.cons "type" (by decide) (text_isWritten h.type)).record

/-- A group is as it is written. -/
theorem Fragment.groupValue_isWritten (g : Group) : (groupValue g).Every IsWritten := by
  have hdescription := areWritten_singleton "description" (by decide) (text_isWritten g.description)
  exact (hdescription.cons "name" (by decide) (text_isWritten g.name)).record

/-- An example is an atom. -/
theorem exampleValue_eq_atom (type : String) (text : List Char) :
    ∃ a, exampleValue type text = .atom a := by
  unfold exampleValue
  split
  · exact ⟨_, rfl⟩
  · split
    · split
      · exact ⟨_, rfl⟩
      · split <;> exact ⟨_, rfl⟩
    · exact ⟨_, rfl⟩

/-- The example that a property shows. -/
def Property.example? : Property → Option Value
  | .bare _ _ _ _ (some (.example v)) => some v
  | _ => none

/-- A property without an example is written with known keys, and an example is an atom behind
fields that are. -/
theorem Property.ofTag_cases (readOnly : Bool) (tag : Tag) :
    ((Property.ofTag readOnly tag).example? = none ∧
        (Property.ofTag readOnly tag).toValue.Every IsWritten) ∨
      ∃ fields a, AreWritten fields ∧
        (Property.ofTag readOnly tag).example? = some (.atom a) ∧
        (Property.ofTag readOnly tag).toValue = .record (fields ++ [("example", .atom a)]) := by
  -- the fields in front of the example or the values of an enumeration
  have hbare : ∀ type description : String,
      AreWritten ([("type", .text type), ("description", .text description)] ++
        ((firstItemOf? tag.type).elim [] fun s => [("items", s.toValue)]) ++
        (if readOnly then [("readOnly", .bool true)] else [])) := by
    intro type description
    have hdescription := areWritten_singleton "description" (by decide) (text_isWritten description)
    have hitems := areWritten_elim (x := firstItemOf? tag.type) "items" (by decide)
      fun s hs => (firstItemOf?_isNamed hs).isWritten
    refine ((hdescription.cons "type" (by decide) (text_isWritten type)).append hitems).append ?_
    split
    · exact areWritten_singleton "readOnly" (by decide) (bool_isWritten true)
    · exact areWritten_nil
  unfold Property.ofTag
  split
  · rename_i s hs
    exact .inl ⟨rfl, (schemaOf?_isNamed hs).isWritten⟩
  · simp only
    split
    · -- an enumeration has values in place of an example
      generalize Option.elim _ _ _ = e
      refine .inl ⟨by cases e.values <;> rfl, ((hbare e.type _).append ?_).record⟩
      cases e.values with
      | none => exact areWritten_nil
      | some values => exact areWritten_singleton "enum" (by decide) (textsValue_isWritten values)
    · generalize Option.filter _ _ = x
      cases x with
      | none => exact .inl ⟨rfl, ((hbare _ _).append areWritten_nil).record⟩
      | some t =>
        obtain ⟨a, ha⟩ := exampleValue_eq_atom (bareTypeOf tag.type) t
        simp only [Option.map_some, ha]
        exact .inr ⟨_, a, hbare _ _, rfl, rfl⟩

end ApiDoc
