import ApiDoc.Proofs.Comment.NormalForm
import ApiDoc.Proofs.Definition.Declarations
import ApiDoc.Proofs.TypeExpr.Leaves

/-!
# Items of schemas and of properties

A property with a schema is its schema, and a property with a bare type may have items besides. For
an expression that was read the second never happens: only a container with arguments has items, and
such a container has a schema, in which these items come first. So the items of a property are
always those of its schema: `items_agree`.
-/

namespace ApiDoc

namespace TypeExpr

variable {e : TypeExpr} {i : Schema}

/-- The first item of an expression is what its schema has for its items, or the first of them. -/
structure SchemaHasItem (e : TypeExpr) (schema i : Schema) : Prop where
  /-- The only argument gives the items. -/
  single : ∀ a, e.arguments = some [a] → schema.toValue.field? "items" = some i.toValue
  /-- The first of several arguments gives the first alternative. -/
  several : ∀ a b as, e.arguments = some (a :: b :: as) → ∃ more,
    schema.toValue.field? "items" = some (.record [("oneOf", .array (i.toValue :: more))])

/-- Only a container with arguments has a first item, the schema of its first argument. -/
theorem WellFormed.eq_applied_of_firstItem? (h : WellFormed e) (hi : e.firstItem? = some i) :
    ∃ c a as, IsBareName c ∧ e = .applied c (a :: as) ∧ i = itemSchema a := by
  unfold firstItem? at hi
  split at hi
  · next a as harguments =>
    obtain ⟨c, hc, rfl⟩ := h.eq_applied harguments
    obtain ⟨-, -, rfl⟩ := Option.map_eq_some_iff.1 hi
    exact ⟨c, a, as, hc, rfl, rfl⟩
  · cases hi

/-- An expression of one form that has a first item has a schema with this item. -/
theorem WellFormed.schema?_of_firstItem? (h : WellFormed e) (hi : e.firstItem? = some i) :
    ∃ schema, e.schema? = some schema ∧ SchemaHasItem e schema i := by
  obtain ⟨c, a, as, hc, rfl, rfl⟩ := h.eq_applied_of_firstItem? hi
  refine ⟨_, schema?_applied hc.ne_empty (List.cons_ne_nil a as), fun b hb => ?_, ?_⟩
  · cases hb
    rw [itemSchema_applied_single hc.ne_empty, Schema.toValue]
    rfl
  · intro b b' bs hb
    cases hb
    refine ⟨Schema.toValues (List.map itemSchema (b' :: bs)), ?_⟩
    rw [itemSchema_applied_several hc.ne_empty (by simp), Schema.toValue, Schema.toValue,
      List.map_cons, Schema.toValues]
    rfl

end TypeExpr

/-! ## Properties -/

/-- A property without a schema has the first item of its type, whatever else it has. -/
theorem Property.exists_ofTag_eq_bare {tag : Tag} (h : schemaOf? tag.type = none)
    (readOnly : Bool) : ∃ type description hint, Property.ofTag readOnly tag =
      .bare type description (firstItemOf? tag.type) readOnly hint := by
  rw [Property.ofTag, h]
  dsimp only
  split
  · exact ⟨_, _, _, rfl⟩
  · exact ⟨_, _, _, rfl⟩

/-- A property without items has no items in what is written. -/
theorem Property.field?_items_bare (type description : String) (readOnly : Bool)
    (hint : Option PropertyHint) :
    (Property.bare type description none readOnly hint).toValue.field? "items" = none := by
  cases readOnly with
  | false => cases hint with
    | none => rfl
    | some hint => cases hint <;> rfl
  | true => cases hint with
    | none => rfl
    | some hint => cases hint <;> rfl

namespace Comment

variable {s : List Char} {b : Block} {tag : Tag}

/-- The type of a tag that was read has the parts of one form only. -/
theorem wellFormed_of_mem_blocks (hb : b ∈ blocks s) (htag : tag ∈ b.tags) {e : TypeExpr}
    (he : tag.type = some e) : e.WellFormed := by
  obtain ⟨content, -, rfl⟩ := List.mem_map.1 hb
  exact (((isNormal_block content).tags tag htag).typed e he).1

/-- A tag that was read and has no schema has no first item. -/
theorem firstItemOf?_eq_none (hb : b ∈ blocks s) (htag : tag ∈ b.tags)
    (h : schemaOf? tag.type = none) : firstItemOf? tag.type = none := by
  cases hi : firstItemOf? tag.type with
  | none => rfl
  | some i =>
    obtain ⟨e, he, hitem⟩ := Option.bind_eq_some_iff.1 hi
    obtain ⟨schema, hschema, -⟩ :=
      (wellFormed_of_mem_blocks hb htag he).schema?_of_firstItem? hitem
    rw [schemaOf?, he, Option.bind_some, hschema] at h
    cases h

/-- A property of a tag that was read is its schema, or it has no items. -/
theorem property_ofTag_cases (hb : b ∈ blocks s) (htag : tag ∈ b.tags) (readOnly : Bool) :
    (∃ schema, schemaOf? tag.type = some schema ∧ Property.ofTag readOnly tag = .schema schema) ∨
      schemaOf? tag.type = none ∧ (Property.ofTag readOnly tag).toValue.field? "items" = none := by
  cases h : schemaOf? tag.type with
  | some schema => exact .inl ⟨schema, rfl, by rw [Property.ofTag, h]⟩
  | none =>
    obtain ⟨type, description, hint, hbare⟩ := Property.exists_ofTag_eq_bare h readOnly
    rw [hbare, firstItemOf?_eq_none hb htag h]
    exact .inr ⟨rfl, Property.field?_items_bare type description readOnly hint⟩

end Comment

/-- The first item of an expression that was read is in its schema: it is the items, or the first of
several alternatives. So a tag that was read and has no schema has no items either, and every
property of a definition is a schema or has no items. -/
theorem items_agree :
    (∀ s e i, TypeExpr.parse s = .ok e → e.firstItem? = some i →
      ∃ schema, e.schema? = some schema ∧ TypeExpr.SchemaHasItem e schema i) ∧
    ∀ s, ∀ b ∈ Comment.blocks s,
      (∀ tag ∈ b.tags, schemaOf? tag.type = none → firstItemOf? tag.type = none) ∧
      ∀ head rest name d, rest ⊆ b.tags → Definition.ofTags head rest = .ok (name, d) →
        ∀ e ∈ d.properties,
          (∃ schema, e.2 = .schema schema) ∨ e.2.toValue.field? "items" = none := by
  refine ⟨fun s e i h hi => (TypeExpr.wellFormed_of_parse h).schema?_of_firstItem? hi,
    fun s b hb => ⟨fun tag htag h => Comment.firstItemOf?_eq_none hb htag h, ?_⟩⟩
  intro head rest name d hrest hd e he
  obtain ⟨tag, htag, readOnly, heq⟩ := (Definition.ofTags_isOf hd).2.properties e he
  rw [heq]
  rcases Comment.property_ofTag_cases hb (hrest htag) readOnly with ⟨schema, -, h⟩ | ⟨-, h⟩
  · exact .inl ⟨schema, h⟩
  · exact .inr h

/-- A comment with a property that has a schema and one that has none. -/
def namesComment : List Char :=
  "/** @typedef Pet\n@prop \x7bMap<Pet,string>\x7d names\n@prop \x7bArray<>\x7d id */".toList

/-- A map of pets has its first item in its schema, and the properties of the comment have a schema
or no items. -/
theorem items_agree_namesComment :
    (∃ e schema, TypeExpr.parse "Map<Pet,string>".toList = .ok e ∧ e.schema? = some schema ∧
      ∃ more, schema.toValue.field? "items" =
        some (.record [("oneOf", .array (definitionRef "Pet" :: more))])) ∧
    ∃ b ∈ Comment.blocks namesComment, ∃ name d,
      Definition.ofTags (b.tags.headD { title := "" }) b.tags.tail = .ok (name, d) ∧
      d.properties.map Prod.fst = ["names", "id"] ∧
      ∀ e ∈ d.properties,
        (∃ schema, e.2 = .schema schema) ∨ e.2.toValue.field? "items" = none := by
  have hwell : (TypeExpr.applied "Map" [.named "Pet", .named "string"]).WellFormed :=
    .applied (by decide) (List.forall_mem_cons.2 ⟨.named (by decide),
      List.forall_mem_singleton.2 (.named (by decide))⟩)
  obtain ⟨schema, hschema, hitem⟩ :=
    items_agree.1 _ _ (.ref "Pet") hwell.parse_print rfl
  have hblock : ((Comment.blocks namesComment).any fun b =>
      (Definition.ofTags (b.tags.headD { title := "" }) b.tags.tail).toOption.any fun p =>
        p.2.properties.map Prod.fst == ["names", "id"]) = true := by decide +kernel
  obtain ⟨b, hb, hsome⟩ := List.any_eq_true.1 hblock
  obtain ⟨⟨name, d⟩, hd, hnames⟩ := (Option.any_eq_true _ _).1 hsome
  have hd := eq_ok_of_toOption hd
  exact ⟨⟨_, schema, hwell.parse_print, hschema, hitem.several _ _ _ rfl⟩, b, hb, name, d, hd,
    eq_of_beq hnames, (items_agree.2 _ b hb).2 _ _ name d (List.tail_subset _) hd⟩

end ApiDoc
