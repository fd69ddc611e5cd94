import ApiDoc.Proofs.Fragment.Origin
import ApiDoc.Proofs.Value.Plain

/-!
# Shapes of operations and definitions

What a comment block makes has the shape that readers of a document rely on. An operation has a list
of parameters, each with a bare type or a schema, an object of responses, each with a description,
and one group: `MethodOf.isOperation`. References have the form `#/definitions/` and a name that is
not empty, in all schemas and in definitions: `Definition.IsOf.isDefinition`.

Shapes depend on the content of a value only, not on its marks.
-/

namespace ApiDoc

namespace Value

/-! ## References -/

/-- A node whose references are of the right form. -/
def RefersByName : Value → Prop
  | .object _ es => ∀ e ∈ es, e.1 = .text "$ref" → e.2.IsReference
  | _ => True

variable {u v w : Value}

/-- A node that is written has references of the right form. -/
theorem IsWritten.refersByName (h : v.IsWritten) : v.RefersByName := by
  cases v with
  | object m es =>
    intro e he hkey
    rcases h.2 e he with ⟨k, hk, hkey'⟩ | ⟨-, href⟩
    · -- the key of references is not on the list
      rw [hkey] at hkey'
      cases hkey'
      exact absurd hk (by decide)
    · exact href
  | _ => trivial

/-- Marks are no part of a reference. -/
theorem isReference_plain_iff : v.plain.IsReference ↔ v.IsReference :=
  exists_congr fun _ => and_congr_right fun _ => plain_eq_atom_iff

/-- Marks are no part of the form of references. -/
theorem refersByName_plain_iff : v.plain.RefersByName ↔ v.RefersByName := by
  cases v with
  | object m es =>
    rw [plain_object]
    refine Iff.trans List.forall_mem_map ?_
    exact forall₂_congr fun e _ => imp_congr_right fun _ => isReference_plain_iff
  | _ => simp [plain, RefersByName]

/-- A value all of whose references are of the right form. -/
def HasNamedReferences (v : Value) : Prop := v.Every RefersByName

/-- Values that differ in marks only have references of the right form together. -/
theorem HasNamedReferences.of_plain (h : v.HasNamedReferences) (heq : u.plain = v.plain) :
    u.HasNamedReferences := by
  have hplain : v.plain.Every RefersByName :=
    every_plain_iff.2 (h.mono fun x => refersByName_plain_iff.2)
  rw [← heq] at hplain
  exact (every_plain_iff.1 hplain).mono fun x => refersByName_plain_iff.1

/-- A value of written nodes has references of the right form. -/
theorem hasNamedReferences_of_isWritten (h : v.Every IsWritten) : v.HasNamedReferences :=
  h.mono fun _ => IsWritten.refersByName

/-- A record has under a key the field of that name. -/
theorem field?_record (fields : List (String × Value)) (key : String) :
    (record fields).field? key = Assoc.get? key fields :=
  Assoc.get?_texts key fields

/-! ## Parameters and responses -/

/-- A parameter: it has a bare type, which is not empty, or a schema, but not both, and values to
choose from only with a bare type. -/
structure IsParameter (v : Value) : Prop where
  shape : (∃ type, type ≠ "" ∧ v.field? "type" = some (.text type) ∧ v.field? "schema" = none) ∨
    ∃ schema, v.field? "schema" = some schema ∧ schema.HasNamedReferences ∧ v.field? "type" = none
  enum : ∀ values, v.field? "enum" = some values → ∃ type, v.field? "type" = some type

/-- A parameter is one whatever its marks are. -/
theorem IsParameter.of_plain (h : v.IsParameter) (heq : u.plain = v.plain) : u.IsParameter := by
  refine ⟨?_, fun values hvalues => ?_⟩
  · rcases h.shape with ⟨type, hne, htype, hnone⟩ | ⟨schema, hschema, hrefs, hnone⟩
    · exact .inl ⟨type, hne, field?_atom_of_plain heq htype, field?_eq_none_of_plain heq hnone⟩
    · obtain ⟨schema', hschema', hplain⟩ := exists_field?_of_plain heq hschema
      exact .inr ⟨schema', hschema', hrefs.of_plain hplain, field?_eq_none_of_plain heq hnone⟩
  · obtain ⟨values', hvalues', -⟩ := exists_field?_of_plain heq.symm hvalues
    obtain ⟨type, htype⟩ := h.enum values' hvalues'
    obtain ⟨type', htype', -⟩ := exists_field?_of_plain heq htype
    exact ⟨type', htype'⟩

/-- A response: it has a description, and a schema has references of the right form. -/
structure IsResponse (v : Value) : Prop where
  description : ∃ text, v.field? "description" = some (.text text)
  schema : ∀ schema, v.field? "schema" = some schema → schema.HasNamedReferences

/-- A response is one whatever its marks are. -/
theorem IsResponse.of_plain (h : v.IsResponse) (heq : u.plain = v.plain) : u.IsResponse := by
  obtain ⟨text, htext⟩ := h.description
  refine ⟨⟨text, field?_atom_of_plain heq htext⟩, fun schema hschema => ?_⟩
  obtain ⟨schema', hschema', hplain⟩ := exists_field?_of_plain heq.symm hschema
  exact (h.schema schema' hschema').of_plain hplain.symm

/-- An operation: it has a list of parameters, an object of responses and one group, whose name is
one of some names. -/
structure IsOperation (names : String → Prop) (v : Value) : Prop where
  parameters : ∃ m items, v.field? "parameters" = some (.list m items) ∧
    ∀ p ∈ items, p.IsParameter
  responses : ∃ m es, v.field? "responses" = some (.object m es) ∧ ∀ e ∈ es, e.2.IsResponse
  group : ∃ m name, v.field? "tags" = some (.list m [.text name]) ∧ names name

/-- An operation of one of some names is one of one of more names. -/
theorem IsOperation.mono {names names' : String → Prop} (h : v.IsOperation names)
    (hnames : ∀ name, names name → names' name) : v.IsOperation names' := by
  obtain ⟨m, name, htags, hname⟩ := h.group
  exact ⟨h.parameters, h.responses, m, name, htags, hnames name hname⟩

/-- An operation is one whatever its marks are. -/
theorem IsOperation.of_plain {names : String → Prop} (h : v.IsOperation names)
    (heq : u.plain = v.plain) : u.IsOperation names := by
  obtain ⟨m, items, hitems, hparameters⟩ := h.parameters
  obtain ⟨mr, es, hes, hresponses⟩ := h.responses
  obtain ⟨mg, name, htags, hname⟩ := h.group
  refine ⟨?_, ?_, ?_⟩
  · obtain ⟨w, hw, hplain⟩ := exists_field?_of_plain heq hitems
    obtain ⟨m', items', rfl, hitems'⟩ := eq_list_of_plain hplain
    refine ⟨m', items', hw, fun p hp => ?_⟩
    obtain ⟨q, hq, hpq⟩ := exists_part_of_plain hplain hp
    exact (hparameters q hq).of_plain hpq.symm
  · obtain ⟨w, hw, hplain⟩ := exists_field?_of_plain heq hes
    obtain ⟨m', es', rfl, hes'⟩ := eq_object_of_plain hplain
    refine ⟨m', es', hw, fun e he => ?_⟩
    obtain ⟨e', he', -, hplain'⟩ := exists_mem_of_plain hes' he
    exact (hresponses e' he').of_plain hplain'
  · obtain ⟨w, hw, hplain⟩ := exists_field?_of_plain heq htags
    obtain ⟨m', items', rfl, hitems'⟩ := eq_list_of_plain hplain
    obtain ⟨x, rest, rfl, hx, hrest⟩ := List.map_eq_cons_iff.1 hitems'
    obtain rfl := List.map_eq_nil_iff.1 hrest
    rw [plain_atom] at hx
    rw [plain_eq_atom_iff.1 hx] at hw
    exact ⟨m', name, hw, hname⟩

/-- A definition whose references, in its properties and in what it builds on, are of the right
form. -/
structure IsDefinition (v : Value) : Prop where
  properties : ∀ properties, v.field? "properties" = some properties →
    ∀ w ∈ properties.parts, w.HasNamedReferences
  allOf : ∀ bases, v.field? "allOf" = some bases → bases.HasNamedReferences

/-- A definition is one whatever its marks are. -/
theorem IsDefinition.of_plain (h : v.IsDefinition) (heq : u.plain = v.plain) : u.IsDefinition := by
  refine ⟨fun properties hproperties w hw => ?_, fun bases hbases => ?_⟩
  · obtain ⟨properties', hproperties', hplain⟩ := exists_field?_of_plain heq.symm hproperties
    obtain ⟨w', hw', hww⟩ := exists_part_of_plain hplain.symm hw
    exact (h.properties properties' hproperties' w' hw').of_plain hww.symm
  · obtain ⟨bases', hbases', hplain⟩ := exists_field?_of_plain heq.symm hbases
    exact (h.allOf bases' hbases').of_plain hplain.symm

end Value

open Value

/-! ## What a block makes -/

/-- An enumeration always has a type. -/
theorem Enumeration.ofText_type_ne_empty (s : List Char) : (Enumeration.ofText s).type ≠ "" := by
  have hdefault : ∀ type : List Char,
      (if type.isEmpty then "string" else String.ofList type) ≠ "" := by
    intro type
    split
    · decide
    · rename_i hne
      rw [Ne, String.ofList_eq_empty_iff]
      rintro rfl
      exact hne rfl
  unfold Enumeration.ofText
  split
  · decide
  · split
    · decide
    · unfold Enumeration.ofList
      simp only
      split <;> exact hdefault _

/-- Every parameter tag gives a parameter. -/
theorem ParameterShape.ofTag_isParameter (tag : Tag) :
    (record (ParameterShape.ofTag tag).fields).IsParameter := by
  have hbare : ∀ e : Enumeration, e.type ≠ "" → (record e.fields).IsParameter := by
    intro e hne
    have htype : (record e.fields).field? "type" = some (.text e.type) := rfl
    refine ⟨.inl ⟨e.type, hne, htype, ?_⟩, fun _ _ => ⟨_, htype⟩⟩
    rw [field?_record, Enumeration.fields]
    cases e.values <;> rfl
  unfold ParameterShape.ofTag
  split
  · rename_i s hs
    refine ⟨.inr ⟨s.toValue, rfl, ?_, rfl⟩, fun values hvalues => by cases hvalues⟩
    exact hasNamedReferences_of_isWritten (schemaOf?_isNamed hs).isWritten
  · split
    · exact hbare _ (Enumeration.ofText_type_ne_empty _)
    · exact hbare ⟨_, none⟩ (bareTypeOf_ne_empty _)

/-- What makes a parameter is its shape; the fields in front say other things. -/
theorem Parameter.ofTag_isParameter (tag : Tag) : (Parameter.ofTag tag).toValue.IsParameter := by
  have hfield : ∀ key ∈ ["type", "schema", "enum"], (Parameter.ofTag tag).toValue.field? key =
      (record (ParameterShape.ofTag tag).fields).field? key := by
    intro key hkey
    rw [Parameter.toValue, field?_record, field?_record]
    simp only [List.mem_cons, List.not_mem_nil, or_false] at hkey
    cases (Parameter.ofTag tag).description <;> rcases hkey with rfl | rfl | rfl <;> rfl
  obtain ⟨hshape, henum⟩ := ParameterShape.ofTag_isParameter tag
  rw [← hfield "type" (by decide), ← hfield "schema" (by decide)] at hshape
  rw [← hfield "type" (by decide), ← hfield "enum" (by decide)] at henum
  exact ⟨hshape, henum⟩

/-- Every response tag gives a response. -/
theorem Response.ofTag_isResponse (headers : List (Atom × Value)) (tag : Tag) :
    (Response.ofTag headers tag).2.toValue.IsResponse := by
  refine ⟨⟨_, rfl⟩, fun schema hschema => ?_⟩
  rw [Response.toValue, field?_record] at hschema
  have hlast : Assoc.get? "schema" ((Response.ofTag headers tag).2.schema.elim []
      fun s => [("schema", s.toValue)]) = some schema := by
    cases hheaders : (Response.ofTag headers tag).2.headers <;> rw [hheaders] at hschema <;>
      exact hschema
  cases hs : (Response.ofTag headers tag).2.schema with
  | none => rw [hs] at hlast; cases hlast
  | some s =>
    rw [hs] at hlast
    cases hlast
    exact hasNamedReferences_of_isWritten (schemaOf?_isNamed hs).isWritten

/-- No attribute has the key of a field that all operations have. -/
theorem Attribute.key_not_mem_commonFields (a : Attribute) :
    a.key ∉ Operation.commonFields := by
  cases a <;> simp [key, Operation.commonFields]

/-- The fields of a route in a fragment make an operation of the group of the block. -/
theorem Fragment.MethodOf.isOperation {b : Block} {headers : List (Atom × Value)} {route : Route}
    {fields : List (Atom × Value)} (h : MethodOf b headers route fields) :
    (Value.map fields).IsOperation (· = (Group.ofTags b.tags).name) := by
  have hcommon : ∀ key ∈ Operation.commonFields, ∃ v, (Value.map fields).field? key = some v ∧
      FieldOf b headers (.text key, v) := by
    intro key hkey
    obtain ⟨v, hv⟩ := Option.isSome_iff_exists.1 (h.common key hkey)
    exact ⟨v, hv, h.fieldOf _ (Assoc.mem_of_get?_of_isExact (Atom.isExact_text key) hv)⟩
  -- no attribute can be in the place of a common field
  have hattr : ∀ {key : String} {v : Value} {a : Attribute}, key ∈ Operation.commonFields →
      (Atom.text a.key, a.toValue) ≠ (.text key, v) := by
    intro key v a hkey heq
    cases heq
    exact a.key_not_mem_commonFields hkey
  refine ⟨?_, ?_, ?_⟩
  · obtain ⟨v, hv, hfield⟩ := hcommon "parameters" (by decide)
    generalize he : (Atom.text "parameters", v) = e at hfield
    cases hfield with
    | parameters hps =>
      cases he
      refine ⟨none, _, hv, List.forall_mem_map.2 fun q hq => ?_⟩
      obtain ⟨tag, -, rfl⟩ := hps q hq
      exact Parameter.ofTag_isParameter tag
    | attr => exact absurd he.symm (hattr (by decide))
    | _ => simp at he
  · obtain ⟨v, hv, hfield⟩ := hcommon "responses" (by decide)
    generalize he : (Atom.text "responses", v) = e at hfield
    cases hfield with
    | responses hrs =>
      cases he
      refine ⟨none, _, hv, List.forall_mem_map.2 fun r hr => ?_⟩
      obtain ⟨tag, -, -, hr⟩ := hrs r hr
      rw [← hr]
      exact Response.ofTag_isResponse headers tag
    | attr => exact absurd he.symm (hattr (by decide))
    | _ => simp at he
  · obtain ⟨v, hv, hfield⟩ := hcommon "tags" (by decide)
    generalize he : (Atom.text "tags", v) = e at hfield
    cases hfield with
    | group =>
      cases he
      exact ⟨none, _, hv, rfl⟩
    | attr => exact absurd he.symm (hattr (by decide))
    | _ => simp at he

/-- Every property tag gives references of the right form. -/
theorem Property.ofTag_hasNamedReferences (readOnly : Bool) (tag : Tag) :
    (Property.ofTag readOnly tag).toValue.HasNamedReferences := by
  rcases Property.ofTag_cases readOnly tag with ⟨-, hwritten⟩ | ⟨fields, a, hfields, -, heq⟩
  · exact hasNamedReferences_of_isWritten hwritten
  · rw [heq, record, List.map_append]
    have hrecord := hasNamedReferences_of_isWritten hfields.record
    refine EveryIn.object (hrecord.entries.append ?_) ?_
    · exact everyIn_cons_iff.2 ⟨⟨trivial, every_atom_iff.2 trivial⟩, everyIn_nil⟩
    · refine List.forall_mem_append.2 ⟨hrecord.self, List.forall_mem_singleton.2 ?_⟩
      exact fun hkey => absurd hkey (by decide : Atom.text "example" ≠ .text "$ref")

/-- Every typedef gives a definition. -/
theorem Definition.IsOf.isDefinition {head : Tag} {rest : List Tag} {d : Definition}
    (h : d.IsOf head rest) : d.toValue.IsDefinition := by
  refine ⟨fun properties hproperties w hw => ?_, fun bases hbases => ?_⟩
  · cases hproperties
    obtain ⟨e, he, hw⟩ := mem_parts_object.1 hw
    obtain ⟨⟨name, p⟩, hp, rfl⟩ := List.mem_map.1 he
    rcases hw with rfl | rfl
    · exact every_atom_iff.2 trivial
    · obtain ⟨tag, -, readOnly, rfl⟩ := h.properties _ hp
      exact Property.ofTag_hasNamedReferences readOnly tag
  · rw [Definition.toValue, field?_record] at hbases
    cases hbase : d.base with
    | none => rw [hbase] at hbases; cases hbases
    | some base =>
      rw [hbase] at hbases
      cases hbases
      have hwritten := definitionRef_isWritten (ne_empty_of_baseOf (h.base ▸ hbase))
      exact hasNamedReferences_of_isWritten (array_isWritten (List.forall_mem_singleton.2 hwritten))

/-- The definitions of a fragment. -/
theorem Fragment.ofBlock_isDefinition {markOf : String → Option Mark} {b : Block} {f : Fragment}
    (h : ofBlock markOf b = .ok f) : ∀ e ∈ f.definitions, e.2.toValue.IsDefinition := by
  rcases ofBlock_cases h with ⟨head, rest, name, d, -, -, hd, rfl⟩ | ⟨ops, -, rfl⟩
  · exact List.forall_mem_singleton.2 (Definition.ofTags_isOf hd).2.isDefinition
  · exact fun e he => absurd he List.not_mem_nil

/-- A fragment with paths has a group. -/
theorem Fragment.ofBlock_groups_ne_nil {markOf : String → Option Mark} {b : Block} {f : Fragment}
    (h : ofBlock markOf b = .ok f) (hpaths : f.paths ≠ []) : f.groups ≠ [] := by
  rcases ofBlock_cases h with ⟨head, rest, name, d, -, -, -, rfl⟩ | ⟨ops, -, rfl⟩
  · exact absurd rfl hpaths
  · intro hnil
    obtain rfl : ops = [] := List.map_eq_nil_iff.1 hnil
    exact hpaths rfl

end ApiDoc
