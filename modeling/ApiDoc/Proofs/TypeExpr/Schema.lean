import ApiDoc.Proofs.Text.Lower
import ApiDoc.Proofs.Text.Split
import ApiDoc.TypeExpr.Schema

/-!
# Schemas of type expressions, form by form

What the schema of an expression is when the expression is a named type, a container with arguments,
a union or the wildcard, and when a name is that of a model: `modelName?_eq_some_iff`.
-/

namespace ApiDoc

open Text

/-! ## Names of models -/

/-- A name is not kept just if there is none or it is empty. -/
theorem nonempty?_eq_none_iff {name : Option String} :
    nonempty? name = none ↔ name = none ∨ name = some "" := by
  cases name with
  | none => simp [nonempty?]
  | some s => simp [nonempty?]

/-- A name is kept just if it is not empty. -/
theorem nonempty?_eq_some_iff {name : Option String} {s : String} :
    nonempty? name = some s ↔ name = some s ∧ s ≠ "" := by
  cases name with
  | none => simp [nonempty?]
  | some t =>
    simp only [nonempty?, Option.filter_eq_some_iff, Option.some.injEq, Bool.not_eq_true',
      String.isEmpty_eq_false_iff]

/-- A text that is empty or goes on with a dot. -/
def EndsSegment (rest : List Char) : Prop := rest = [] ∨ ∃ more, rest = '.' :: more

/-- A name with `model` between its first dot and the next one, or the end, and what stands in front
of the first dot. -/
def IsModelName (r n : String) : Prop :=
  '.' ∉ r.toList ∧
    ∃ rest, n.toList = r.toList ++ '.' :: ("model".toList ++ rest) ∧ EndsSegment rest

/-- A text with a dot has a first and a second segment. -/
theorem exists_segments {s : List Char} (h : '.' ∈ s) : ∃ first second rest,
    s = first ++ '.' :: (second ++ rest) ∧ '.' ∉ first ∧ '.' ∉ second ∧ EndsSegment rest := by
  obtain ⟨first, behind, rfl, hfirst⟩ := List.eq_append_cons_of_mem h
  by_cases hbehind : '.' ∈ behind
  · obtain ⟨second, more, rfl, hsecond⟩ := List.eq_append_cons_of_mem hbehind
    exact ⟨first, second, '.' :: more, rfl, hfirst, hsecond, .inr ⟨more, rfl⟩⟩
  · exact ⟨first, behind, [], by rw [List.append_nil], hfirst, hbehind, .inl rfl⟩

/-- A name is that of a model if its second segment says so. -/
theorem modelName?_of_segments {n : String} {first second rest : List Char}
    (hn : n.toList = first ++ '.' :: (second ++ rest)) (hfirst : '.' ∉ first)
    (hsecond : '.' ∉ second) (hrest : EndsSegment rest) :
    modelName? n = if second == "model".toList then some (String.ofList first) else none := by
  obtain ⟨parts, hsplit⟩ : ∃ parts, splitAll '.' n.toList = first :: second :: parts := by
    rw [hn, splitAll_append hfirst]
    rcases hrest with rfl | ⟨more, rfl⟩
    · exact ⟨[], by rw [List.append_nil, splitAll_of_not_mem hsecond]⟩
    · exact ⟨_, by rw [splitAll_append hsecond]⟩
  rw [modelName?, hsplit]

/-- A name without a dot is that of no model. -/
theorem modelName?_of_not_mem {n : String} (h : '.' ∉ n.toList) : modelName? n = none := by
  rw [modelName?, splitAll_of_not_mem h]

/-- The models of names are just those that have `model` behind the first dot. -/
theorem modelName?_eq_some_iff {n r : String} : modelName? n = some r ↔ IsModelName r n := by
  constructor
  · intro h
    by_cases hdot : '.' ∈ n.toList
    · obtain ⟨first, second, rest, hn, hfirst, hsecond, hrest⟩ := exists_segments hdot
      rw [modelName?_of_segments hn hfirst hsecond hrest] at h
      split at h
      · next hmodel =>
        obtain rfl := Option.some.inj h
        rw [eq_of_beq hmodel] at hn
        exact ⟨by rwa [String.toList_ofList], rest, by rwa [String.toList_ofList], hrest⟩
      · cases h
    · rw [modelName?_of_not_mem hdot] at h
      cases h
  · rintro ⟨hr, rest, hn, hrest⟩
    rw [modelName?_of_segments hn hr (by decide) hrest]
    simp

/-- The name of a model is not empty if the name does not start with a dot. -/
theorem model?_eq {n : String} (h : n.toList.head? ≠ some '.') : model? n = modelName? n := by
  cases hmodel : modelName? n with
  | none => rw [model?, hmodel]; rfl
  | some r =>
    obtain ⟨-, rest, hn, -⟩ := modelName?_eq_some_iff.1 hmodel
    have hne : r ≠ "" := by
      rintro rfl
      rw [hn] at h
      exact h rfl
    rw [model?, hmodel]
    exact nonempty?_eq_some_iff.2 ⟨rfl, hne⟩

/-! ## Schemas of the four forms -/

/-- Schemas are written one by one. -/
theorem Schema.toValues_eq_map (ss : List Schema) : toValues ss = ss.map toValue := by
  induction ss with
  | nil => rw [toValues, List.map_nil]
  | cons s ss ih => rw [toValues, ih, List.map_cons]

namespace TypeExpr

variable {e : TypeExpr} {c n : String} {es : List TypeExpr}

/-- The schema of an item is told by its members, then by its arguments, and else by its name. -/
theorem itemSchema_eq (name : Option String) (container : Option TypeExpr)
    (arguments members : Option (List TypeExpr)) :
    itemSchema (mk name container arguments members) =
      match members with
      | some (m :: ms) => .oneOf (itemSchema m :: itemSchemas ms)
      | _ => (arguments.bind fun as =>
          schemaOfParts name (typeOfParts name container) (itemSchemas as)).getD
            (leafSchema ((nonempty? name).getD (typeOfParts name container))) := by
  rw [itemSchema.eq_def]
  cases arguments <;> rfl

theorem itemSchemas_eq_map (es : List TypeExpr) : itemSchemas es = es.map itemSchema := by
  induction es with
  | nil => rw [itemSchemas, List.map_nil]
  | cons e es ih => rw [itemSchemas, ih, List.map_cons]

/-- The schema of a name is that of a leaf. -/
theorem itemSchema_named (hn : n ≠ "") : itemSchema (.named n) = leafSchema n := by
  rw [itemSchema_eq, nonempty?_eq_some_iff.2 ⟨rfl, hn⟩]
  rfl

/-- The wildcard has the schema of a text. -/
theorem itemSchema_any : itemSchema .any = leafSchema "string" := by
  rw [itemSchema_eq]
  rfl

/-- The schema of a union is one of those of its members. -/
theorem itemSchema_union (h : es ≠ []) : itemSchema (.union es) = .oneOf (es.map itemSchema) := by
  obtain ⟨e, es, rfl⟩ := List.exists_cons_of_ne_nil h
  rw [itemSchema_eq]
  simp only [itemSchemas_eq_map, List.map_cons]

/-- The bare type of a container is its name in lower case. -/
theorem bareType_applied (hc : c ≠ "") (es : List TypeExpr) :
    bareType (.applied c es) = lower c := by
  have hname : nonempty? ((some (named c)).bind name) = some c :=
    nonempty?_eq_some_iff.2 ⟨rfl, hc⟩
  show typeOfParts none (some (.named c)) = lower c
  rw [typeOfParts, hname]
  rfl

/-- A container with arguments is the schema of them, and without arguments a leaf. -/
theorem itemSchema_applied (hc : c ≠ "") (es : List TypeExpr) :
    itemSchema (.applied c es) =
      (schemaOfParts none (lower c) (es.map itemSchema)).getD (leafSchema (lower c)) := by
  rw [itemSchema_eq, ← itemSchemas_eq_map, ← bareType_applied hc es]
  rfl

/-- A container without arguments has the schema of its name. -/
theorem itemSchema_applied_nil (hc : c ≠ "") :
    itemSchema (.applied c []) = leafSchema (lower c) := by
  rw [itemSchema_applied hc, List.map_nil, schemaOfParts, Option.getD_none]

/-- A container of one argument has the schema of that for its items. -/
theorem itemSchema_applied_single (hc : c ≠ "") (e : TypeExpr) :
    itemSchema (.applied c [e]) = .container (lower c) (itemSchema e) := by
  rw [itemSchema_applied hc, List.map_singleton, schemaOfParts, Option.getD_some]

/-- A container of several arguments has one of their schemas for its items. -/
theorem itemSchema_applied_several (hc : c ≠ "") (hes : 2 ≤ es.length) :
    itemSchema (.applied c es) = .container (lower c) (.oneOf (es.map itemSchema)) := by
  match es, hes with
  | e :: f :: es, _ =>
    rw [itemSchema_applied hc]
    rfl

/-- A container with arguments has the schema that it has as an item. -/
theorem schema?_applied (hc : c ≠ "") (hes : es ≠ []) :
    schema? (.applied c es) = some (itemSchema (.applied c es)) := by
  have hschema : schema? (.applied c es) = schemaOfParts none (lower c) (es.map itemSchema) := by
    rw [schema?, bareType_applied hc, itemSchemas_eq_map]
    rfl
  rw [hschema, itemSchema_applied hc]
  match es, hes with
  | [e], _ => rfl
  | e :: f :: es, _ => rfl

end TypeExpr

end ApiDoc
