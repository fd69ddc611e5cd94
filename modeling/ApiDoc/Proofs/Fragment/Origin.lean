import ApiDoc.Proofs.Definition.Declarations
import ApiDoc.Proofs.Fragment.Fields
import ApiDoc.Proofs.Fragment.Written

/-!
# Where the parts of a fragment come from

Every field of an operation is made of tags of its block (`FieldOf`), and so is its route. The
paths of a fragment hold nothing but such fields, each under the route of an operation that has it,
and every operation has parameters, groups and responses (`ofBlock_methodsOf`).
-/

namespace ApiDoc

open Value

/-! ## Operations -/

/-- A field of an operation, and the tags of the block that it is made of. The headers are those
that the block declares for each status code. -/
inductive FieldOf (b : Block) (headers : List (Atom × Value)) : Atom × Value → Prop where
  | parameters {ps : List Parameter} (h : ∀ q ∈ ps, ∃ tag ∈ b.tags, q = .ofTag tag) :
      FieldOf b headers (.text "parameters", .array (ps.map Parameter.toValue))
  | description (s : String) : FieldOf b headers (.text "description", .text s)
  | group : FieldOf b headers (.text "tags", .array [.text (Group.ofTags b.tags).name])
  | attr {tag : Tag} {a : Attribute} (htag : tag ∈ b.tags) (h : a.IsOf tag) :
      FieldOf b headers (.text a.key, a.toValue)
  | responses {rs : Assoc String Response}
      (h : ∀ e ∈ rs, ∃ tag ∈ b.tags, (tag.kind? = some .returns ∨ tag.kind? = some .return) ∧
        Response.ofTag headers tag = e) :
      FieldOf b headers (.text "responses", .map (rs.map fun e => (.text e.1, e.2.toValue)))

namespace Operation

variable {b : Block} {headers : List (Atom × Value)} {op result : Operation}

/-- An operation that a route of a block and tags of it make. -/
structure IsOf (b : Block) (headers : List (Atom × Value)) (op : Operation) : Prop where
  route : ∃ tag ∈ b.tags, tag.kind? = some .route ∧ op.route = Route.ofText tag.text
  group : op.group = (Group.ofTags b.tags).name
  parameters : ∀ q ∈ op.parameters, ∃ tag ∈ b.tags, q = .ofTag tag
  attributes : ∀ e ∈ op.attributes, e.1 = e.2.key ∧ ∃ tag ∈ b.tags, e.2.IsOf tag
  responses : ∀ e ∈ op.responses, ∃ tag ∈ b.tags,
    (tag.kind? = some .returns ∨ tag.kind? = some .return) ∧ Response.ofTag headers tag = e

/-- An operation stays one of the block with one more of its tags. -/
theorem IsOf.add (h : op.IsOf b headers) {tag : Tag} (htag : tag ∈ b.tags)
    (hresult : op.add headers tag = .ok result) : result.IsOf b headers := by
  rcases add_cases hresult with ⟨-, rfl⟩ | ⟨hkind, code, r, hr, rfl⟩ | ⟨a, ha, rfl⟩
  · refine ⟨h.route, h.group, ?_, h.attributes, h.responses⟩
    exact List.forall_mem_append.2 ⟨h.parameters, List.forall_mem_singleton.2 ⟨tag, htag, rfl⟩⟩
  · refine ⟨h.route, h.group, h.parameters, h.attributes, fun e he => ?_⟩
    rcases Assoc.mem_insert_of_isExact (Assoc.isExact_of_lawfulBEq code) he with hold | rfl
    · exact h.responses e hold
    · exact ⟨tag, htag, hkind, hr⟩
  · refine ⟨h.route, h.group, h.parameters, fun e he => ?_, h.responses⟩
    rcases Assoc.mem_insert_of_isExact (Assoc.isExact_of_lawfulBEq a.key) he with hold | rfl
    · exact h.attributes e hold
    · exact ⟨rfl, tag, htag, ha⟩

/-- An operation stays one of the block with further tags of it. -/
theorem IsOf.addAll (h : op.IsOf b headers) {tags : List Tag} (htags : ∀ tag ∈ tags, tag ∈ b.tags)
    (hresult : op.addAll headers tags = .ok result) : result.IsOf b headers := by
  induction tags generalizing op with
  | nil =>
    cases hresult
    exact h
  | cons tag tags ih =>
    obtain ⟨htag, hrest⟩ := List.forall_mem_cons.1 htags
    unfold Operation.addAll at hresult
    split at hresult
    · rename_i hadd
      exact ih (h.add htag hadd) hrest hresult
    · cases hresult

/-- The fields of such an operation are made of tags of the block. -/
theorem IsOf.fieldOf (h : op.IsOf b headers) : ∀ e ∈ op.fields, FieldOf b headers e := by
  refine forall_fields (.parameters h.parameters) (.description _) ?_ (fun e he => ?_)
    (.responses h.responses)
  · rw [h.group]
    exact .group
  · obtain ⟨hkey, tag, htag, ha⟩ := h.attributes e he
    rw [hkey]
    exact .attr htag ha

/-- The fields that every operation has. -/
def commonFields : List String := ["parameters", "tags", "responses"]

/-- Every operation has the common fields. -/
theorem exists_mem_fields (op : Operation) {key : String} (h : key ∈ commonFields) :
    ∃ v, (Atom.text key, v) ∈ op.fields := by
  have hmem : Atom.text key ∈ op.fields.map Prod.fst := by
    simp only [commonFields, List.mem_cons, List.not_mem_nil, or_false] at h
    unfold fields
    rcases h with rfl | rfl | rfl <;> simp
  obtain ⟨e, he, heq⟩ := List.mem_map.1 hmem
  exact ⟨e.2, heq ▸ he⟩

end Operation

/-! ## Fragments -/

namespace Fragment

variable {b : Block} {headers : List (Atom × Value)}

/-- Segments behind the first start with a route of the tags. -/
theorem mem_of_mem_segments_route {tags : List Tag} :
    ∀ s ∈ (segments tags).2, s.1 ∈ tags ∧ s.1.kind? = some .route := by
  induction tags with
  | nil => exact fun _ h => absurd h List.not_mem_nil
  | cons head tags ih =>
    have hrest : ∀ s ∈ (segments tags).2, s.1 ∈ head :: tags ∧ s.1.kind? = some .route :=
      fun s hs => ⟨List.mem_cons_of_mem _ (ih s hs).1, (ih s hs).2⟩
    rw [segments]
    simp only
    split
    · rename_i hroute
      exact List.forall_mem_cons.2 ⟨⟨List.mem_cons_self, beq_iff_eq.1 hroute⟩, hrest⟩
    · exact hrest

/-- The operations of the segments of a block are operations of it. -/
theorem operations_isOf {description : String} {routes : List (Tag × List Tag)}
    (hroutes : ∀ s ∈ routes, (s.1 ∈ b.tags ∧ s.1.kind? = some .route) ∧ ∀ tag ∈ s.2, tag ∈ b.tags)
    {ops : List Operation}
    (h : operations (Group.ofTags b.tags).name description headers routes = .ok ops) :
    ∀ op ∈ ops, op.IsOf b headers := by
  induction routes generalizing ops with
  | nil =>
    cases h
    exact fun op hop => absurd hop List.not_mem_nil
  | cons s routes ih =>
    obtain ⟨⟨⟨htag, hkind⟩, htags⟩, hrest⟩ := List.forall_mem_cons.1 hroutes
    obtain ⟨op, ops', rfl, hop, hops⟩ := operations_cons h
    refine List.forall_mem_cons.2 ⟨Operation.IsOf.addAll ⟨⟨s.1, htag, hkind, rfl⟩, rfl, ?_, ?_, ?_⟩
      (fun tag htag => htags tag (List.mem_of_mem_filter htag)) hop, ih hrest hops⟩
    · exact fun q hq => absurd hq List.not_mem_nil
    · exact fun e he => absurd he List.not_mem_nil
    · exact fun e he => absurd he List.not_mem_nil

/-- What holds of the fields of every method of every path. -/
def ForMethods (P : Route → List (Atom × Value) → Prop)
    (paths : Assoc String (Assoc String (List (Atom × Value)))) : Prop :=
  ∀ e ∈ paths, ∀ e' ∈ e.2, P ⟨e'.1, e.1⟩ e'.2

/-- What holds of all methods holds with one more operation that keeps it. -/
theorem ForMethods.addOperation {P : Route → List (Atom × Value) → Prop}
    {paths : Assoc String (Assoc String (List (Atom × Value)))} (h : ForMethods P paths)
    {op : Operation} (hop : ∀ fields, fields = [] ∨ P op.route fields →
      P op.route (Assoc.update fields op.fields)) : ForMethods P (addOperation paths op) := by
  have hexact : ∀ key : String, Assoc.IsExact key := Assoc.isExact_of_lawfulBEq
  intro e he
  rcases Assoc.mem_insert_of_isExact (hexact _) he with hold | rfl
  · exact h e hold
  · -- the methods that the path had already
    have hmethods : ∀ e' ∈ (Assoc.get? op.route.uri paths).getD [],
        P ⟨e'.1, op.route.uri⟩ e'.2 := by
      cases hget : Assoc.get? op.route.uri paths with
      | none => exact fun e' he' => absurd he' List.not_mem_nil
      | some methods => exact h _ (Assoc.mem_of_get?_of_isExact (hexact _) hget)
    intro e' he'
    rcases Assoc.mem_insert_of_isExact (hexact _) he' with hold | rfl
    · exact hmethods e' hold
    · refine hop _ ?_
      cases hget : Assoc.get? op.route.method ((Assoc.get? op.route.uri paths).getD []) with
      | none => exact .inl rfl
      | some fields => exact .inr (hmethods _ (Assoc.mem_of_get?_of_isExact (hexact _) hget))

/-- What holds of all methods holds with further operations that keep it. -/
theorem ForMethods.foldl {P : Route → List (Atom × Value) → Prop} {ops : List Operation}
    (hops : ∀ op ∈ ops, ∀ fields, fields = [] ∨ P op.route fields →
      P op.route (Assoc.update fields op.fields))
    {paths : Assoc String (Assoc String (List (Atom × Value)))} (h : ForMethods P paths) :
    ForMethods P (ops.foldl Fragment.addOperation paths) := by
  induction ops generalizing paths with
  | nil => exact h
  | cons op ops ih =>
    obtain ⟨hop, hrest⟩ := List.forall_mem_cons.1 hops
    exact ih hrest (h.addOperation hop)

/-- The fields of a route in the fragment of a block. -/
structure MethodOf (b : Block) (headers : List (Atom × Value)) (route : Route)
    (fields : List (Atom × Value)) : Prop where
  route : ∃ tag ∈ b.tags, tag.kind? = some .route ∧ route = Route.ofText tag.text
  fieldOf : ∀ e ∈ fields, FieldOf b headers e
  common : ∀ key ∈ Operation.commonFields, (Assoc.get? (.text key) fields).isSome

/-- The fields of a route stay those of the block when an operation comes on top. -/
theorem MethodOf.update {op : Operation} (hop : op.IsOf b headers) {fields : List (Atom × Value)}
    (h : fields = [] ∨ MethodOf b headers op.route fields) :
    MethodOf b headers op.route (Assoc.update fields op.fields) := by
  have hold : ∀ e ∈ fields, FieldOf b headers e := by
    rcases h with rfl | h
    · exact fun e he => absurd he List.not_mem_nil
    · exact h.fieldOf
  refine ⟨hop.route, ?_, fun key hkey => ?_⟩
  · exact Assoc.forall_entry_update (p := fun k v => FieldOf b headers (k, v)) op.isExact_fields
      hold hop.fieldOf
  · obtain ⟨v, hv⟩ := op.exists_mem_fields hkey
    exact Assoc.isSome_get?_update_of_mem (Atom.isExact_text key) hv

/-- The headers of a block, by status code. -/
def headersOf (markOf : String → Option Mark) (b : Block) : List (Atom × Value) :=
  (HeaderTable.ofTags b.tags).toEntries markOf

/-- The paths of a fragment hold the fields of operations of its block. -/
theorem ofBlock_methodsOf {markOf : String → Option Mark} {f : Fragment}
    (h : ofBlock markOf b = .ok f) : ForMethods (MethodOf b (headersOf markOf b)) f.paths := by
  rcases ofBlock_cases h with ⟨head, rest, name, d, -, -, -, rfl⟩ | ⟨ops, hops, rfl⟩
  · exact fun e he => absurd he List.not_mem_nil
  · have hisOf := operations_isOf
      (fun s hs => ⟨mem_of_mem_segments_route s hs, mem_of_mem_segments.2 s hs⟩) hops
    refine ForMethods.foldl (fun op hop fields hfields => MethodOf.update (hisOf op hop) hfields) ?_
    exact fun e he => absurd he List.not_mem_nil

end Fragment

/-! ## Definitions -/

/-- What a definition builds on has a name. -/
theorem ne_empty_of_baseOf {head : Tag} {base : String} (h : baseOf head = some base) :
    base ≠ "" := by
  unfold baseOf at h
  split at h
  · cases h
  · split at h
    · cases h
    · split at h
      · cases h
      · exact ne_empty_of_nonempty? h

end ApiDoc
