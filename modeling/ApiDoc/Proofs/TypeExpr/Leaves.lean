import ApiDoc.Proofs.TypeExpr.Printing
import ApiDoc.Proofs.TypeExpr.Schema
import ApiDoc.Proofs.Value.Sharing

/-!
# Leaves of type expressions and of their schemas

The schema of an expression, as it is written, has the shape of the expression. A container becomes
a container, a union and several arguments become alternatives in the same order, and each leaf
becomes a bare type or a reference (`Mirrors`). So nothing is lost: the leaves of the schema are
those of the expression, one for one and from left to right (`schema?_mirrors`).

A leaf is a named type, the wildcard, which counts as `string`, or a container without arguments.
Only four type keywords stay inline, so the other three are references like any other name:
`schema?_lacksReferences_iff`.
-/

namespace ApiDoc

open Text

/-! ## Leaves -/

namespace Value

/-- Whether schemas inside a schema stand under this key. -/
def isNesting : Atom → Bool
  | .text key => key == "items" || key == "oneOf"
  | _ => false

mutual

/-- The leaves of a written schema, from left to right: what is found under `items` and among the
alternatives, and has neither itself. -/
def leafShapes : Value → List Value
  | .object m entries =>
    if entries.any (isNesting ·.1) then leafShapesUnder entries else [.object m entries]
  | .list _ items => leafShapesAll items
  | v => [v]

/-- The leaves of the schemas inside a schema. -/
def leafShapesUnder : List (Atom × Value) → List Value
  | [] => []
  | (key, v) :: rest =>
    if isNesting key then leafShapes v ++ leafShapesUnder rest else leafShapesUnder rest

/-- The leaves of written schemas. -/
def leafShapesAll : List Value → List Value
  | [] => []
  | v :: rest => leafShapes v ++ leafShapesAll rest

end

/-- The leaves of several schemas are those of each in turn. -/
theorem leafShapesAll_eq_flatMap (vs : List Value) : leafShapesAll vs = vs.flatMap leafShapes := by
  induction vs with
  | nil => rfl
  | cons v vs ih => rw [leafShapesAll, ih, List.flatMap_cons]

/-- The leaves of a container are those of its items. -/
theorem leafShapes_container (type : String) (v : Value) :
    (record [("type", .text type), ("items", v)]).leafShapes = v.leafShapes := by
  simp [record, leafShapes, leafShapesUnder, isNesting]

/-- The leaves of alternatives are those of each in turn. -/
theorem leafShapes_oneOf (vs : List Value) :
    (record [("oneOf", .array vs)]).leafShapes = vs.flatMap leafShapes := by
  simp [record, leafShapes, leafShapesUnder, isNesting, leafShapesAll_eq_flatMap]

end Value

namespace TypeExpr

mutual

/-- The names of the leaves of an expression, from left to right. The wildcard counts as `string`,
and a container without arguments as its name in lower case. -/
def leafNames : TypeExpr → List String
  | mk (some n) _ _ _ => [n]
  | mk none c (some []) _ => [lower ((c.bind name).getD "")]
  | mk none _ (some (e :: es)) _ => leafNames e ++ leafNamesAll es
  | mk none _ none (some ms) => leafNamesAll ms
  | mk none _ none none => ["string"]

/-- The names of the leaves of expressions. -/
def leafNamesAll : List TypeExpr → List String
  | [] => []
  | e :: es => leafNames e ++ leafNamesAll es

end

/-- The leaves of several expressions are those of each in turn. -/
theorem leafNamesAll_eq_flatMap (es : List TypeExpr) : leafNamesAll es = es.flatMap leafNames := by
  induction es with
  | nil => rfl
  | cons e es ih => rw [leafNamesAll, ih, List.flatMap_cons]

/-- The leaves of a container are those of its arguments. -/
theorem leafNames_applied (c : String) {es : List TypeExpr} (h : es ≠ []) :
    leafNames (.applied c es) = es.flatMap leafNames := by
  obtain ⟨e, es, rfl⟩ := List.exists_cons_of_ne_nil h
  rw [leafNames, leafNamesAll_eq_flatMap, List.flatMap_cons]

/-- The leaves of a union are those of its members. -/
theorem leafNames_union (ms : List TypeExpr) : leafNames (.union ms) = ms.flatMap leafNames := by
  rw [leafNames, leafNamesAll_eq_flatMap]

/-- How a leaf with that name is written. -/
inductive IsShape (n : String) : Value → Prop where
  /-- Four type keywords stay inline, in any letter case. -/
  | inline (h : lower n ∈ ["object", "string", "integer", "boolean"]) :
      IsShape n (.record [("type", .text (lower n))])
  /-- The name of a model refers to the model. -/
  | model {r : String} (h : lower n ∉ ["object", "string", "integer", "boolean"])
      (hr : IsModelName r n) : IsShape n (.record [("$ref", .text ("#/definitions/" ++ r))])
  /-- Every other name refers to the definition of that name. -/
  | other (h : lower n ∉ ["object", "string", "integer", "boolean"])
      (hn : ∀ r, ¬ IsModelName r n) : IsShape n (.record [("$ref", .text ("#/definitions/" ++ n))])

/-- A written schema of the shape of an expression. -/
inductive Mirrors : TypeExpr → Value → Prop where
  | named {n : String} {v : Value} (h : IsShape n v) : Mirrors (.named n) v
  | any {v : Value} (h : IsShape "string" v) : Mirrors .any v
  | empty {c : String} {v : Value} (h : IsShape (lower c) v) : Mirrors (.applied c []) v
  | single {c : String} {e : TypeExpr} {v : Value} (h : Mirrors e v) :
      Mirrors (.applied c [e]) (.record [("type", .text (lower c)), ("items", v)])
  /-- Two arguments or more are as many alternatives, in their order. -/
  | several {c : String} {ps : List (TypeExpr × Value)} (hps : 2 ≤ ps.length)
      (h : ∀ p ∈ ps, Mirrors p.1 p.2) :
      Mirrors (.applied c (ps.map Prod.fst)) (.record [("type", .text (lower c)),
        ("items", .record [("oneOf", .array (ps.map Prod.snd))])])
  /-- The members of a union are as many alternatives, in their order. -/
  | union {ps : List (TypeExpr × Value)} (h : ∀ p ∈ ps, Mirrors p.1 p.2) :
      Mirrors (.union (ps.map Prod.fst)) (.record [("oneOf", .array (ps.map Prod.snd))])

variable {e : TypeExpr} {v : Value} {c n : String} {es : List TypeExpr}

/-- What a leaf is written as is a leaf. -/
theorem IsShape.leafShapes_eq (h : IsShape n v) : v.leafShapes = [v] := by
  cases h <;> rfl

/-- Lists that correspond piece by piece correspond as a whole. -/
theorem forall₂_flatMap {α β γ δ : Type} {R : γ → δ → Prop} {f : α → List γ} {g : β → List δ}
    {ps : List (α × β)} (h : ∀ p ∈ ps, List.Forall₂ R (f p.1) (g p.2)) :
    List.Forall₂ R ((ps.map Prod.fst).flatMap f) ((ps.map Prod.snd).flatMap g) := by
  induction ps with
  | nil => exact .nil
  | cons p ps ih =>
    obtain ⟨hp, hps⟩ := List.forall_mem_cons.1 h
    exact List.rel_append hp (ih hps)

/-- The arguments of a container with several are not empty. -/
theorem leafNames_several {ps : List (TypeExpr × Value)} (c : String) (h : 2 ≤ ps.length) :
    leafNames (.applied c (ps.map Prod.fst)) = (ps.map Prod.fst).flatMap leafNames := by
  refine leafNames_applied c fun hnil => ?_
  rw [List.map_eq_nil_iff.1 hnil] at h
  simp at h

/-- A schema of the shape of an expression has its leaves. -/
theorem Mirrors.forall₂_leafShapes (h : Mirrors e v) :
    List.Forall₂ IsShape (leafNames e) v.leafShapes := by
  induction h with
  | named h | any h | empty h =>
    rw [h.leafShapes_eq]
    exact .cons h .nil
  | single _ ih =>
    rw [leafNames_applied _ (List.cons_ne_nil _ _), Value.leafShapes_container]
    simpa using ih
  | several hps _ ih =>
    rw [leafNames_several _ hps, Value.leafShapes_container, Value.leafShapes_oneOf]
    exact forall₂_flatMap ih
  | union _ ih =>
    rw [leafNames_union, Value.leafShapes_oneOf]
    exact forall₂_flatMap ih

/-! ## The shape of schemas -/

/-- Alternatives are written in their order. -/
theorem toValue_oneOf_map (es : List TypeExpr) :
    (Schema.oneOf (es.map itemSchema)).toValue =
      .record [("oneOf", .array (es.map fun e => (itemSchema e).toValue))] := by
  rw [Schema.toValue, Schema.toValues_eq_map, List.map_map]
  rfl

/-- A leaf whose name does not start with a dot. -/
theorem isShape_leafSchema (h : n.toList.head? ≠ some '.') :
    IsShape n (leafSchema n).toValue := by
  unfold leafSchema
  split
  · next hinline => exact .inline (List.contains_iff_mem.1 hinline)
  · next hinline =>
    have hnot : lower n ∉ ["object", "string", "integer", "boolean"] :=
      fun hmem => hinline (List.contains_iff_mem.2 hmem)
    rw [model?_eq h]
    cases hmodel : modelName? n with
    | some r => exact .model hnot (modelName?_eq_some_iff.1 hmodel)
    | none =>
      refine .other hnot fun r hr => ?_
      rw [modelName?_eq_some_iff.2 hr] at hmodel
      cases hmodel

/-- A bare name does not start with a dot. -/
theorem IsBareName.head?_ne_dot (h : IsBareName n) : n.toList.head? ≠ some '.' := by
  intro hhead
  obtain ⟨rest, hrest⟩ := List.head?_eq_some_iff.1 hhead
  have hstarts := h.starts
  rw [hrest] at hstarts
  cases hstarts

/-- The schema of an expression as an item has the shape of the expression. -/
theorem WellFormed.mirrors_itemSchema (h : WellFormed e) : Mirrors e (itemSchema e).toValue := by
  induction h with
  | named hn =>
    rw [itemSchema_named hn.ne_empty]
    exact .named (isShape_leafSchema hn.head?_ne_dot)
  | @applied c es hc _ ih =>
    -- the schema depends on how many arguments there are
    match es, ih with
    | [], _ =>
      rw [itemSchema_applied_nil hc.ne_empty]
      exact .empty (isShape_leafSchema (head?_lower hc.head?_ne_dot))
    | [e], ih =>
      rw [itemSchema_applied_single hc.ne_empty, Schema.toValue]
      exact .single (ih e List.mem_cons_self)
    | e :: f :: es, ih =>
      have hpairs : ∀ p ∈ (e :: f :: es).map fun a => (a, (itemSchema a).toValue),
          Mirrors p.1 p.2 := List.forall_mem_map.2 ih
      rw [itemSchema_applied_several hc.ne_empty (by simp), Schema.toValue, toValue_oneOf_map]
      simpa [Function.comp_def] using Mirrors.several (c := c) (by simp) hpairs
  | @union es hes _ ih =>
    have hne : es ≠ [] := by
      rintro rfl
      simp at hes
    have hpairs : ∀ p ∈ es.map fun a => (a, (itemSchema a).toValue), Mirrors p.1 p.2 :=
      List.forall_mem_map.2 ih
    rw [itemSchema_union hne, toValue_oneOf_map]
    simpa [Function.comp_def] using Mirrors.union hpairs
  | any =>
    rw [itemSchema_any]
    exact .any (isShape_leafSchema (by decide))

/-! ## Leaves of schemas -/

/-- An expression that was read and has arguments is a container with a name. -/
theorem WellFormed.eq_applied (h : WellFormed e) (hes : e.arguments = some es) :
    ∃ c, IsBareName c ∧ e = .applied c es := by
  cases h with
  | @applied c _ hc _ =>
    obtain rfl := Option.some.inj hes
    exact ⟨c, hc, rfl⟩
  | named | union | any => cases hes

/-- The schema of a container with arguments has its name as the type. -/
theorem Mirrors.field?_type (h : Mirrors (.applied c es) v) (hne : es ≠ []) :
    v.field? "type" = some (.text (lower c)) := by
  generalize he : TypeExpr.applied c es = e at h
  cases h with
  | named | any | union => cases he
  | empty =>
    cases he
    exact absurd rfl hne
  | single | several =>
    cases he
    rfl

/-- An expression with arguments has a schema. It is written in the shape of the expression, and its
leaves are those of the expression from left to right. -/
theorem schema?_mirrors {text : List Char} (h : parse text = .ok e) (hes : e.arguments = some es)
    (hne : es ≠ []) :
    ∃ c schema, e = .applied c es ∧ e.schema? = some schema ∧
      schema.toValue.field? "type" = some (.text (lower c)) ∧ Mirrors e schema.toValue ∧
      List.Forall₂ IsShape (leafNames e) schema.toValue.leafShapes := by
  have hwell := wellFormed_of_parse h
  have hmirrors := hwell.mirrors_itemSchema
  obtain ⟨c, hc, rfl⟩ := hwell.eq_applied hes
  exact ⟨c, _, rfl, schema?_applied hc.ne_empty hne, hmirrors.field?_type hne, hmirrors,
    hmirrors.forall₂_leafShapes⟩

/-- The leaves of `Map<Pet.model,(*|Integer),Set<>>` are a model, two bare types and a
definition. -/
theorem schema?_mirrors_map :
    ∃ e schema, parse "Map<Pet.model,(*|Integer),Set<>>".toList = .ok e ∧
      e.schema? = some schema ∧ schema.toValue.field? "type" = some (.text "map") ∧
      List.Forall₂ IsShape ["Pet.model", "string", "Integer", "set"]
        schema.toValue.leafShapes := by
  have hwell : (TypeExpr.applied "Map" [.named "Pet.model", .union [.any, .named "Integer"],
      .applied "Set" []]).WellFormed := by
    refine .applied (by decide) (List.forall_mem_cons.2 ⟨.named (by decide), ?_⟩)
    refine List.forall_mem_cons.2 ⟨.union (by decide) ?_, ?_⟩
    · exact List.forall_mem_cons.2 ⟨.any, List.forall_mem_singleton.2 (.named (by decide))⟩
    · exact List.forall_mem_singleton.2 (.applied (by decide) (List.forall_mem_nil _))
  obtain ⟨c, schema, hc, hschema, htype, -, hleaves⟩ :=
    schema?_mirrors hwell.parse_print rfl (List.cons_ne_nil _ _)
  cases hc
  exact ⟨_, schema, hwell.parse_print, hschema, htype, hleaves⟩

end TypeExpr

/-! ## References -/

namespace Value

/-- A node that is not a reference. -/
def IsNoReference : Value → Prop
  | .object _ es => ∀ e ∈ es, e.1 ≠ .text "$ref"
  | _ => True

/-- A value without a reference anywhere in it. -/
def LacksReferences (v : Value) : Prop := v.Every IsNoReference

/-- A text is no reference. -/
theorem lacksReferences_text (s : String) : (text s).LacksReferences := every_atom_iff.2 trivial

/-- A list lacks references just if its items do. -/
theorem lacksReferences_array_iff {items : List Value} :
    (array items).LacksReferences ↔ ∀ v ∈ items, v.LacksReferences := by
  rw [LacksReferences, every_iff]
  exact and_iff_right trivial

/-- A record lacks references just if no field is one or has one. -/
theorem lacksReferences_record_iff {fields : List (String × Value)} :
    (record fields).LacksReferences ↔ ∀ e ∈ fields, e.1 ≠ "$ref" ∧ e.2.LacksReferences := by
  constructor
  · intro h e he
    have hmem : (Atom.text e.1, e.2) ∈ fields.map fun e => (Atom.text e.1, e.2) :=
      List.mem_map_of_mem he
    refine ⟨fun hkey => ?_, h.entries.values _ hmem⟩
    exact h.self _ hmem (congrArg Atom.text hkey)
  · intro h
    refine EveryIn.object ⟨?_, ?_⟩ ?_ <;> refine List.forall_mem_map.2 fun e he => ?_
    · trivial
    · exact (h e he).2
    · exact fun hkey => (h e he).1 (Atom.text.inj hkey)

end Value

namespace TypeExpr

variable {e : TypeExpr} {v : Value} {es : List TypeExpr} {n : String}

open Value

/-- A leaf is written as a reference unless its name is one of the four type keywords that stay
inline. -/
theorem IsShape.lacksReferences_iff (h : IsShape n v) :
    v.LacksReferences ↔ lower n ∈ ["object", "string", "integer", "boolean"] := by
  rcases h with h | ⟨h, -⟩ | ⟨h, -⟩ <;> rw [lacksReferences_record_iff]
  · exact iff_of_true (by simp [lacksReferences_text]) h
  · exact iff_of_false (fun hall => (hall _ List.mem_cons_self).1 rfl) h
  · exact iff_of_false (fun hall => (hall _ List.mem_cons_self).1 rfl) h

/-- A container has no references if its items have none. -/
theorem lacksReferences_container_iff {type : String} :
    (record [("type", .text type), ("items", v)]).LacksReferences ↔ v.LacksReferences := by
  rw [lacksReferences_record_iff]
  simp [lacksReferences_text]

/-- Alternatives have no references if none of them has. -/
theorem lacksReferences_oneOf_iff {vs : List Value} :
    (record [("oneOf", .array vs)]).LacksReferences ↔ ∀ v ∈ vs, v.LacksReferences := by
  rw [lacksReferences_record_iff]
  simp [lacksReferences_array_iff]

/-- A property of the leaves of several expressions, told for each of them. -/
theorem forall_mem_flatMap_iff {ps : List (TypeExpr × Value)} {P : Value → Prop}
    {Q : String → Prop} (h : ∀ p ∈ ps, (P p.2 ↔ ∀ n ∈ leafNames p.1, Q n)) :
    (∀ v ∈ ps.map Prod.snd, P v) ↔ ∀ n ∈ (ps.map Prod.fst).flatMap leafNames, Q n := by
  rw [List.forall_mem_map, List.forall_mem_flatMap, List.forall_mem_map]
  exact forall₂_congr h

/-- A schema of the shape of an expression has references unless all leaves stay inline. -/
theorem Mirrors.lacksReferences_iff (h : Mirrors e v) :
    v.LacksReferences ↔
      ∀ n ∈ leafNames e, lower n ∈ ["object", "string", "integer", "boolean"] := by
  induction h with
  | named h | any h | empty h =>
    show _ ↔ ∀ n ∈ [_], lower n ∈ _
    rw [List.forall_mem_singleton]
    exact h.lacksReferences_iff
  | single _ ih =>
    rw [lacksReferences_container_iff, ih, leafNames_applied _ (List.cons_ne_nil _ _),
      List.flatMap_singleton]
  | several hps _ ih =>
    rw [lacksReferences_container_iff, lacksReferences_oneOf_iff, leafNames_several _ hps,
      forall_mem_flatMap_iff ih]
  | union _ ih => rw [lacksReferences_oneOf_iff, leafNames_union, forall_mem_flatMap_iff ih]

/-- A type keyword is no model. -/
theorem model?_of_mem_typeKeywords (h : lower n ∈ typeKeywords) : model? n = none := by
  have hkeywords : typeKeywords.all (fun k => !k.toList.contains '.') = true := by decide
  have hdot : '.' ∉ n.toList := by
    intro hmem
    have hnot := List.all_eq_true.1 hkeywords _ h
    rw [List.contains_iff_mem.2 (dot_mem_lower hmem)] at hnot
    cases hnot
  rw [model?, modelName?_of_not_mem hdot]
  rfl

/-- An expression of type keywords that has no arguments has no schema. -/
theorem schema?_eq_none (h : WellFormed e) (hes : ∀ es, e.arguments = some es → es = [])
    (hleaves : ∀ n ∈ leafNames e, lower n ∈ typeKeywords) : e.schema? = none := by
  cases h with
  | @named n hn =>
    show (model? n).map Schema.ref = none
    rw [model?_of_mem_typeKeywords (hleaves n List.mem_cons_self)]
    rfl
  | applied =>
    rw [hes _ rfl]
    rfl
  | union | any => rfl

/-- An expression whose leaves are all type keywords has a schema without references, unless it has
arguments and `number`, `array` or `file` is among its leaves. -/
theorem schema?_lacksReferences_iff {text : List Char} (h : parse text = .ok e)
    (hleaves : ∀ n ∈ leafNames e, lower n ∈ typeKeywords) :
    (∀ schema, e.schema? = some schema → schema.toValue.LacksReferences) ↔
      ∀ es, e.arguments = some es → es ≠ [] →
        ∀ n ∈ leafNames e, lower n ∉ ["number", "array", "file"] := by
  have hkeywords : ∀ k ∈ typeKeywords,
      (k ∈ ["object", "string", "integer", "boolean"] ↔ k ∉ ["number", "array", "file"]) := by
    decide
  have hwell := wellFormed_of_parse h
  -- without arguments a keyword has no schema, so there is nothing that could refer
  by_cases hes : ∃ es, e.arguments = some es ∧ es ≠ []
  · obtain ⟨es, hsome, hne⟩ := hes
    have hschema : e.schema? = some (itemSchema e) := by
      obtain ⟨c, hc, rfl⟩ := hwell.eq_applied hsome
      exact schema?_applied hc.ne_empty hne
    calc (∀ schema, e.schema? = some schema → schema.toValue.LacksReferences)
      _ ↔ (itemSchema e).toValue.LacksReferences := by
        simp [hschema]
      _ ↔ ∀ n ∈ leafNames e, lower n ∈ ["object", "string", "integer", "boolean"] :=
        hwell.mirrors_itemSchema.lacksReferences_iff
      _ ↔ ∀ n ∈ leafNames e, lower n ∉ ["number", "array", "file"] :=
        forall₂_congr fun n hn => hkeywords _ (hleaves n hn)
      _ ↔ _ := ⟨fun hall _ _ _ => hall, fun hall => hall es hsome hne⟩
  · have hempty : ∀ es, e.arguments = some es → es = [] :=
      fun es hsome => by_contra fun hne => hes ⟨es, hsome, hne⟩
    refine iff_of_true ?_ fun es hsome hne => absurd (hempty es hsome) hne
    intro schema hschema
    rw [schema?_eq_none hwell hempty hleaves] at hschema
    cases hschema

/-- `Map<String,(INTEGER|*)>` has a schema without references. -/
theorem schema?_lacksReferences_iff_map :
    ∃ e schema, parse "Map<String,(INTEGER|*)>".toList = .ok e ∧
      (∀ n ∈ leafNames e, lower n ∈ typeKeywords) ∧ e.schema? = some schema ∧
      schema.toValue.LacksReferences := by
  let es : List TypeExpr := [.named "String", .union [.named "INTEGER", .any]]
  have hwell : (TypeExpr.applied "Map" es).WellFormed := by
    refine .applied (by decide) (List.forall_mem_cons.2 ⟨.named (by decide), ?_⟩)
    refine List.forall_mem_singleton.2 (.union (by decide) ?_)
    exact List.forall_mem_cons.2 ⟨.named (by decide), List.forall_mem_singleton.2 .any⟩
  have hleaves : ∀ n ∈ ["String", "INTEGER", "string"], lower n ∈ typeKeywords := by decide
  have hnone : ∀ n ∈ ["String", "INTEGER", "string"], lower n ∉ ["number", "array", "file"] := by
    decide
  have hschema : schema? (.applied "Map" es) = some (itemSchema (.applied "Map" es)) :=
    schema?_applied (by decide) (List.cons_ne_nil _ _)
  exact ⟨_, _, hwell.parse_print, hleaves, hschema,
    (schema?_lacksReferences_iff hwell.parse_print hleaves).2 (fun _ _ _ => hnone) _ hschema⟩

/-- The only leaf of `Array<number>` is a type keyword, and the schema has a reference. -/
theorem schema?_array_number :
    ∃ e schema, parse "Array<number>".toList = .ok e ∧
      (∀ n ∈ leafNames e, lower n ∈ typeKeywords) ∧ e.schema? = some schema ∧
      ¬ schema.toValue.LacksReferences := by
  let e : TypeExpr := arrayOf (.named "number")
  have hwell : e.WellFormed :=
    .applied (by decide) (List.forall_mem_singleton.2 (.named (by decide)))
  have hleaves : ∀ n ∈ ["number"], lower n ∈ typeKeywords := by decide
  have hschema : e.schema? = some (itemSchema e) :=
    schema?_applied (by decide) (List.cons_ne_nil _ _)
  refine ⟨_, _, hwell.parse_print, hleaves, hschema, fun hlacks => ?_⟩
  have hinline : lower "number" ∈ ["object", "string", "integer", "boolean"] :=
    hwell.mirrors_itemSchema.lacksReferences_iff.1 hlacks _ List.mem_cons_self
  revert hinline
  decide

end TypeExpr

end ApiDoc
