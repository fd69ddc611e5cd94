import ApiDoc.Proofs.Definition.Declarations
import ApiDoc.Proofs.Definition.Enumerated
import ApiDoc.Proofs.Fragment.Accumulation
import ApiDoc.Proofs.Fragment.Written
import ApiDoc.Proofs.Value.Equality

/-!
# The texts that numbers come from

Floating-point numbers come into a fragment by two kinds of text only: the JSON text of a security
tag, and the example of an integer property. Of the security tags behind the routes with one path
and method the last one counts (`Fragment.fieldIn?_security`), and of the tags that declare one
property of a definition the last one does (`Definition.forall_properties_iff`).
-/

namespace ApiDoc

open Value

/-! ## Security requirements -/

/-- The security requirements that a tag declares, if it is a tag for them and can be read. -/
def Tag.security? (tag : Tag) : Option Value :=
  if tag.kind? = some .security then (securityOf tag.text).toOption else none

namespace Operation

variable {headers : List (Atom × Value)} {op result : Operation} {tags : List Tag}

/-- Tags that were attached without a fault were attached one after another. -/
theorem eq_attemptAll_of_addAll (h : op.addAll headers tags = .ok result) :
    result = op.attemptAll headers tags := by
  induction tags generalizing op with
  | nil => exact (Except.ok.inj h).symm
  | cons tag tags ih =>
    unfold addAll at h
    split at h
    · next op' hadd =>
      have hattempt : op.attempt headers tag = op' := by rw [attempt, hadd]
      rw [ih h, attemptAll, attemptAll, List.foldl_cons, hattempt]
    · cases h

/-- An operation has the security requirements of the last tag that declares any. -/
theorem field?_security {route : Route} {group description : String}
    (h : (opened route group description).addAll headers tags = .ok op) :
    op.field? "security" = (tags.filterMap Tag.security?).getLast? := by
  have hexact : ∀ key : String, Assoc.IsExact key := Assoc.isExact_of_lawfulBEq
  have hattributes : op.attributes = Assoc.ofList (attributesOf tags) := by
    rw [eq_attemptAll_of_addAll h, attemptAll_eq]
    rfl
  have hdistinct : Assoc.Distinct op.attributes :=
    hattributes ▸ Assoc.distinct_nil.update fun e _ => hexact e.1
  have hother : ∀ {k : String} (v : Value), k ≠ "security" →
      Assoc.get? "security" [(k, v)] = none := fun v hne => get?_singleton_of_ne hne v
  have hdescription : Assoc.get? "security" (if op.description.isEmpty then [] else
      [("description", Value.text op.description)]) = none := by
    split
    · rfl
    · exact hother _ (by decide)
  -- tags that cannot be read are no attributes
  have hdeclared : (tags.filter (·.kind? == some .security)).filterMap
      (fun tag => (Attribute.ofTag? tag).map Attribute.toValue) = tags.filterMap Tag.security? := by
    rw [List.filterMap_filter]
    refine List.filterMap_congr fun tag _ => ?_
    by_cases hkind : tag.kind? = some .security
    · simp only [hkind, Tag.security?, Attribute.ofTag?, beq_self_eq_true, if_true]
      cases (securityOf tag.text).toOption <;> rfl
    · simp [hkind, Tag.security?]
  rw [field?_eq hdistinct, hother _ (by decide), hother _ (by decide), hother _ (by decide),
    hdescription, hattributes, Assoc.ofList, Assoc.get?_update_eq_or,
    given_attributesOf (by decide : TagKind.security ∈ attributeKinds) rfl, ← hdeclared,
    ← List.map_filterMap, List.getLast?_map]
  simp [Assoc.get?]

end Operation

namespace Fragment

variable {b : Block} {route : Route} {key : String}

/-- The field of a route in paths. -/
def fieldIn? (route : Route) (key : String)
    (paths : Assoc String (Assoc String (List (Atom × Value)))) : Option Value :=
  ((Assoc.get? route.uri paths).bind (Assoc.get? route.method)).bind (Assoc.get? (.text key))

/-- The field of a route in a fragment, as it is written. -/
theorem fieldIn?_eq (f : Fragment) (route : Route) (key : String) :
    (((f.toValue.field? "paths").bind (Value.field? route.uri)).bind
      (Value.field? route.method)).bind (Value.field? key) = fieldIn? route key f.paths := by
  have hpaths : f.toValue.field? "paths" = some (valueOfPaths f.paths) := by
    rw [← pathsValue_eq]
    rfl
  rw [hpaths, Option.bind_some, valueOfPaths, Value.field?, Assoc.get?_mapValues, Assoc.get?_texts,
    fieldIn?]
  cases Assoc.get? route.uri f.paths with
  | none => rfl
  | some methods =>
    rw [Option.map_some, Option.bind_some, Option.bind_some, methodsValue, Value.field?,
      Assoc.get?_mapValues, Assoc.get?_texts]
    cases Assoc.get? route.method methods <;> rfl

/-- An operation lies on top of what there is for its route. -/
theorem fieldIn?_addOperation (paths : Assoc String (Assoc String (List (Atom × Value))))
    (op : Operation) (route : Route) (key : String) :
    fieldIn? route key (addOperation paths op) =
      if op.route = route then (op.field? key).or (fieldIn? route key paths)
      else fieldIn? route key paths := by
  have hmethods : ∀ method, ((Assoc.get? op.route.uri paths).bind (Assoc.get? method)) =
      Assoc.get? method ((Assoc.get? op.route.uri paths).getD []) := by
    intro method
    cases Assoc.get? op.route.uri paths <;> rfl
  rw [fieldIn?, addOperation, Assoc.get?_insert]
  by_cases huri : op.route.uri = route.uri
  · rw [if_pos (beq_iff_eq.2 huri), Option.bind_some, Assoc.get?_insert, fieldIn?, ← huri, hmethods]
    by_cases hmethod : op.route.method = route.method
    · have hroute : op.route = route := by
        show Route.mk op.route.method op.route.uri = route
        rw [hmethod, huri]
      rw [if_pos (beq_iff_eq.2 hmethod), if_pos hroute, Option.bind_some, ← hmethod,
        Assoc.get?_update_eq_or, Operation.field?, Assoc.ofList, Assoc.get?_update_eq_or,
        Assoc.get?, Option.or_none]
      cases Assoc.get? op.route.method ((Assoc.get? op.route.uri paths).getD []) <;> rfl
    · rw [if_neg (by simpa using hmethod), if_neg fun h => hmethod (congrArg Route.method h)]
  · rw [if_neg (by simpa using huri), if_neg fun h => huri (congrArg Route.uri h), fieldIn?]

/-- The routes of a block, in order. -/
def routesOf (b : Block) : List Route := (segments b.tags).2.map fun s => Route.ofText s.1.text

/-- The tags behind the route tags with a route, in order. -/
def tagsBehind (route : Route) (routes : List (Tag × List Tag)) : List Tag :=
  (routes.filter fun s => Route.ofText s.1.text = route).flatMap Prod.snd

/-- The security requirements that a block declares for a route, in order. -/
def securities (b : Block) (route : Route) : List Value :=
  (tagsBehind route (segments b.tags).2).filterMap Tag.security?

/-- Security tags belong to the operation in front of them. -/
theorem filterMap_security?_isAttached (tags : List Tag) :
    (tags.filter isAttached).filterMap Tag.security? = tags.filterMap Tag.security? := by
  rw [List.filterMap_filter]
  refine List.filterMap_congr fun tag _ => ?_
  by_cases hkind : tag.kind? = some .security
  · have hattached : isAttached tag = true := by
      rw [isAttached, hkind]
      rfl
    rw [if_pos hattached]
  · simp [Tag.security?, hkind]

/-- The operations of a block have its routes, in order. -/
theorem operations_routes {group description : String} {headers : List (Atom × Value)}
    {routes : List (Tag × List Tag)} {ops : List Operation}
    (h : operations group description headers routes = .ok ops) :
    ops.map Operation.route = routes.map fun s => Route.ofText s.1.text := by
  induction routes generalizing ops with
  | nil =>
    cases h
    rfl
  | cons s routes ih =>
    obtain ⟨op, ops', rfl, hop, hops⟩ := operations_cons h
    rw [List.map_cons, List.map_cons, ih hops, Operation.addAll_route hop]

/-- Operations leave the last security requirements that the tags behind a route declare. -/
theorem fieldIn?_foldl {group description : String} {headers : List (Atom × Value)}
    {routes : List (Tag × List Tag)} {ops : List Operation}
    (h : operations group description headers routes = .ok ops)
    (paths : Assoc String (Assoc String (List (Atom × Value)))) (route : Route) :
    fieldIn? route "security" (ops.foldl addOperation paths) =
      ((tagsBehind route routes).filterMap Tag.security?).getLast?.or
        (fieldIn? route "security" paths) := by
  induction routes generalizing ops paths with
  | nil =>
    cases h
    rfl
  | cons s routes ih =>
    obtain ⟨op, ops', rfl, hop, hops⟩ := operations_cons h
    rw [List.foldl_cons, ih hops, fieldIn?_addOperation, Operation.field?_security hop,
      filterMap_security?_isAttached, Operation.addAll_route hop, tagsBehind, tagsBehind]
    by_cases hroute : Route.ofText s.1.text = route
    · rw [if_pos hroute, List.filter_cons_of_pos (by simpa using hroute), List.flatMap_cons,
        List.filterMap_append, List.getLast?_append, Option.or_assoc]
    · rw [if_neg hroute, List.filter_cons_of_neg (by simpa using hroute)]

/-- A fragment without definitions is that of a block that does not start with a typedef. -/
theorem first_of_ofBlock {markOf : String → Option Mark} {f : Fragment}
    (h : ofBlock markOf b = .ok f) (hnone : f.definitions = []) :
    ∀ head ∈ b.tags.head?, head.kind? ≠ some .typedef := by
  intro head hhead hkind
  obtain ⟨rest, htags⟩ := List.head?_eq_some_iff.1 hhead
  unfold ofBlock at h
  simp only [htags, hkind, beq_self_eq_true, if_true] at h
  obtain ⟨d, -, hf⟩ := exists_of_bind_eq_ok h
  cases hf
  cases hnone

/-- The security requirements of a route in the fragment of a block without a typedef. -/
theorem fieldIn?_security {markOf : String → Option Mark} {f : Fragment}
    (hfirst : ∀ head ∈ b.tags.head?, head.kind? ≠ some .typedef)
    (h : ofBlock markOf b = .ok f) (route : Route) :
    fieldIn? route "security" f.paths = (securities b route).getLast? := by
  rcases ofBlock_cases h with ⟨head, rest, name, d, htags, hkind, -, -⟩ | ⟨ops, hops, rfl⟩
  · exact absurd hkind (hfirst head (by rw [htags]; rfl))
  · rw [fieldIn?_foldl hops, securities, fieldIn?, Assoc.get?, Option.bind_none, Option.bind_none,
      Option.or_none]

/-- One more item is taken if it has the property and all before it have. -/
theorem mem_takeWhile_concat {α : Type} {p : α → Bool} {l : List α} {x y : α} :
    x ∈ (l ++ [y]).takeWhile p ↔
      x ∈ l.takeWhile p ∨ (x = y ∧ p y = true ∧ ∀ z ∈ l, p z = true) := by
  induction l with
  | nil => cases hy : p y <;> simp [hy]
  | cons z l ih => cases hz : p z <;> simp [hz, ih, or_assoc]

/-- The paths that operations make are those of their routes, in the order in which they come up
first. -/
theorem mem_paths_foldl (ops : List Operation) (p : String → Bool) :
    (∀ uri, uri ∈ (ops.foldl addOperation []).map Prod.fst ↔ uri ∈ ops.map (·.route.uri)) ∧
      ∀ uri, uri ∈ ((ops.foldl addOperation []).map Prod.fst).takeWhile p ↔
        uri ∈ (ops.map (·.route.uri)).takeWhile p := by
  induction ops using List.reverseRecOn with
  | nil => exact ⟨fun _ => Iff.rfl, fun _ => Iff.rfl⟩
  | append_singleton ops op ih =>
    obtain ⟨hmem, htaken⟩ := ih
    have hexact : Assoc.IsExact op.route.uri := Assoc.isExact_of_lawfulBEq _
    rw [List.foldl_append, List.foldl_cons, List.foldl_nil, addOperation, Assoc.map_fst_insert,
      List.map_append, List.map_singleton]
    by_cases hold : (Assoc.get? op.route.uri (ops.foldl addOperation [])).isSome = true
    · -- a path that is there already is among those in front
      have hthere : op.route.uri ∈ ops.map (·.route.uri) :=
        (hmem _).1 ((Assoc.isSome_get?_iff hexact).1 hold)
      rw [if_pos hold, List.append_nil]
      refine ⟨fun uri => ?_, fun uri => ?_⟩
      · rw [hmem, List.mem_append, List.mem_singleton]
        exact ⟨.inl, fun h => h.elim id fun heq => heq ▸ hthere⟩
      · rw [htaken, mem_takeWhile_concat]
        refine ⟨.inl, fun h => h.elim id ?_⟩
        rintro ⟨rfl, -, hall⟩
        rwa [List.takeWhile_eq_self_iff.2 hall]
    · rw [if_neg hold]
      refine ⟨fun uri => ?_, fun uri => ?_⟩
      · rw [List.mem_append, List.mem_append, hmem]
      · rw [mem_takeWhile_concat, mem_takeWhile_concat, htaken]
        simp only [hmem]

/-- The paths of the fragment of a block without a typedef are those of its routes, in order. -/
theorem mem_takeWhile_paths {markOf : String → Option Mark} {f : Fragment}
    (hfirst : ∀ head ∈ b.tags.head?, head.kind? ≠ some .typedef)
    (h : ofBlock markOf b = .ok f) (p : String → Bool) (uri : String) :
    uri ∈ (f.paths.map Prod.fst).takeWhile p ↔
      uri ∈ ((routesOf b).map Route.uri).takeWhile p := by
  rcases ofBlock_cases h with ⟨head, rest, name, d, htags, hkind, -, -⟩ | ⟨ops, hops, rfl⟩
  · exact absurd hkind (hfirst head (by rw [htags]; rfl))
  · rw [(mem_paths_foldl ops p).2, routesOf, ← operations_routes hops, List.map_map]
    rfl

end Fragment

/-! ## Examples -/

/-- The floating-point number that the example of a property tag shows: its type is `integer`, and
its example is no integer but a numeral. -/
def Tag.exampleNumber? (tag : Tag) : Option Binary64 :=
  if schemaOf? tag.type = none ∧ bareTypeOf tag.type = "integer" then
    (exampleOf? tag.text).bind fun t =>
      if (Numeral.integer? t).isSome then none else Numeral.float? t
  else none

/-- The example of a property that is no schema and no enumeration is read from its text. -/
theorem Property.example?_ofTag (readOnly : Bool) (tag : Tag) :
    (Property.ofTag readOnly tag).example? =
      if schemaOf? tag.type = none ∧ bareTypeOf tag.type ≠ "enum" then
        (exampleOf? tag.text).map (exampleValue (bareTypeOf tag.type))
      else none := by
  rw [Property.ofTag, exampleOf?]
  cases hschema : schemaOf? tag.type with
  | some s => rfl
  | none =>
    by_cases henum : bareTypeOf tag.type = "enum"
    · simp only [henum, beq_self_eq_true, if_true]
      generalize Option.elim _ _ _ = e
      cases e.values <;> rfl
    · simp only [henum, beq_iff_eq, if_false]
      cases Option.filter _ _ <;> simp [Property.example?, henum]

namespace Definition

variable {head : Tag} {rest : List Tag} {name : String} {d : Definition}

/-- The last tag that declares a property of some name. -/
def lastDeclaring? (property : String) (tags : List Tag) : Option Tag :=
  (tags.filter fun tag => tag.declaration?.any (·.name == property)).getLast?

/-- What is declared under a name, tag by tag. -/
theorem given_declared (property : String) (tags : List Tag) :
    Assoc.given property ((tags.filterMap Tag.declaration?).map fun x => (x.name, x.property)) =
      ((tags.filter fun tag => tag.declaration?.any (·.name == property)).filterMap
        Tag.declaration?).map Declaration.property := by
  induction tags with
  | nil => rfl
  | cons tag tags ih =>
    cases hx : tag.declaration? with
    | none => rw [List.filterMap_cons_none hx, List.filter_cons_of_neg (by simp [hx]), ih]
    | some x =>
      rw [List.filterMap_cons_some hx, List.map_cons]
      by_cases hname : (x.name == property) = true
      · rw [Assoc.given_cons_of_beq hname, List.filter_cons_of_pos (by simpa [hx] using hname),
          List.filterMap_cons_some hx, List.map_cons, ih]
      · rw [Assoc.given_cons_of_not_beq hname, List.filter_cons_of_neg (by simpa [hx] using hname),
          ih]

/-- The properties of a definition are those that the last tag for each name declares. -/
theorem forall_properties_iff (h : ofTags head rest = .ok (name, d)) {p : Property → Prop} :
    (∀ e ∈ d.properties, p e.2) ↔
      ∀ property tag x, lastDeclaring? property rest = some tag → tag.declaration? = some x →
        p x.property := by
  have hexact : ∀ key : String, Assoc.IsExact key := Assoc.isExact_of_lawfulBEq
  have hsome : ∀ property, ∀ tag ∈ rest.filter fun tag =>
      tag.declaration?.any (·.name == property), tag.declaration?.isSome = true := by
    intro property tag htag
    obtain ⟨x, hx, -⟩ := (Option.any_eq_true _ _).1 (List.mem_filter.1 htag).2
    exact Option.isSome_iff_exists.2 ⟨x, hx⟩
  -- a later declaration of a name replaces the earlier ones
  have hget : ∀ property, Assoc.get? property d.properties =
      ((lastDeclaring? property rest).bind Tag.declaration?).map Declaration.property := by
    intro property
    rw [(ofTags_cases h).2, properties_foldl_declare, Assoc.get?_update_eq_or, given_declared,
      List.getLast?_map, Operation.getLast?_filterMap_of_isSome (hsome property), Assoc.get?,
      Option.or_none, lastDeclaring?]
  have hdistinct : Assoc.Distinct d.properties := by
    rw [(ofTags_cases h).2, properties_foldl_declare]
    exact Assoc.distinct_nil.update fun e _ => hexact e.1
  constructor
  · intro hall property tag x hlast hx
    refine hall (property, x.property) (Assoc.mem_of_get?_of_isExact (hexact property) ?_)
    rw [hget, hlast, Option.bind_some, hx, Option.map_some]
  · intro hall e he
    have hproperty := Assoc.get?_of_mem hdistinct he
    rw [hget] at hproperty
    obtain ⟨x, hx, hp⟩ := Option.map_eq_some_iff.1 hproperty
    obtain ⟨tag, hlast, hx⟩ := Option.bind_eq_some_iff.1 hx
    exact hp ▸ hall e.1 tag x hlast hx

end Definition

end ApiDoc
