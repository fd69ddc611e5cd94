import ApiDoc.Proofs.Fragment.Values

/-!
# Fields of an operation

A tag changes only the field of an operation that tags of its kind are for (`field?_add`). A field
that no tag is for is therefore what it is in an operation without tags: parameters, groups and
responses are there all the same, and the description is that of the block (`ofBlock_documents`).
-/

namespace ApiDoc

open Value

/-- The field of an operation that tags of a kind are for. -/
def TagKind.field? : TagKind → Option String
  | param => some "parameters"
  | returns | «return» => some "responses"
  | group => some "tags"
  | summary => some "summary"
  | operationId => some "operationId"
  | produces => some "produces"
  | consumes => some "consumes"
  | security => some "security"
  | deprecated => some "deprecated"
  | route | headers | header | typedef | property => none

/-- The field of an operation that a tag is for. -/
def Tag.field? (tag : Tag) : Option String := tag.kind?.bind TagKind.field?

namespace Operation

variable {op result : Operation} {headers : List (Atom × Value)} {tag : Tag} {key : String}

/-- What an operation has under a key. Of two fields under one key the later one counts. -/
def field? (key : String) (op : Operation) : Option Value :=
  Assoc.get? (.text key) (Assoc.ofList op.fields)

/-- The field of an operation under a key: its responses, its attributes, its group, its description
or its parameters, if one of them has the key. -/
theorem field?_eq (h : Assoc.Distinct op.attributes) (key : String) :
    op.field? key =
      (Assoc.get? key [("responses",
        Value.map (op.responses.map fun e => (.text e.1, e.2.toValue)))]).or
      (((Assoc.get? key op.attributes).map Attribute.toValue).or
      ((Assoc.get? key [("tags", .array [.text op.group])]).or
      ((Assoc.get? key
        (if op.description.isEmpty then [] else [("description", .text op.description)])).or
      (Assoc.get? key [("parameters", .array (op.parameters.map Parameter.toValue))])))) := by
  have hkey : Assoc.IsExact (Atom.text key) := Atom.isExact_text key
  have hone : ∀ (k : String) (v : Value) (m : List (Atom × Value)),
      Assoc.get? (.text key) (Assoc.update m [(.text k, v)]) =
        (Assoc.get? key [(k, v)]).or (Assoc.get? (.text key) m) :=
    fun k v m => Assoc.get?_update hkey (Assoc.distinct_singleton (Atom.isExact_text k) v) m
  have hattributes : (op.attributes.map fun e => (Atom.text e.1, e.2.toValue)) =
      Assoc.mapValues Attribute.toValue (Assoc.texts op.attributes) :=
    (Assoc.mapValues_texts _ _).symm
  rw [field?, Assoc.ofList, fields, Assoc.update_append, hone, Assoc.update_append, hattributes,
    Assoc.get?_update hkey (h.texts.mapValues _), Assoc.get?_mapValues, Assoc.get?_texts,
    Assoc.update_append, hone, Assoc.update_append]
  split
  · rw [Assoc.update, hone]
    simp [Assoc.get?]
  · rw [hone, hone]
    simp [Assoc.get?]

/-- What an operation has under a key has only marked nodes of the operation. -/
theorem IsMarked.field? {p : Mark → Value → Prop} (h : op.IsMarked p) {v : Value}
    (hv : op.field? key = some v) : v.Marked p :=
  (markedEntries_nil.update h.fields).get? hv

/-- The field that a tag is for is told by its kind. -/
theorem field?_of_kind? {kind : TagKind} (h : tag.kind? = some kind) :
    tag.field? = kind.field? := by
  rw [Tag.field?, h, Option.bind_some]

/-- The tag of an attribute is for the key of it. -/
theorem field?_of_isOf {a : Attribute} (h : a.IsOf tag) : tag.field? = some a.key := by
  cases a with
  | deprecated => exact field?_of_kind? h
  | _ => exact field?_of_kind? h.1

/-- One entry has nothing under another key. -/
theorem get?_singleton_of_ne {α : Type} {k : String} (hne : k ≠ key) (v : α) :
    Assoc.get? key [(k, v)] = none := by
  rw [Assoc.get?, if_neg (by rwa [beq_iff_eq]), Assoc.get?]

/-- A tag leaves a field that it is not for as it is. -/
theorem field?_add (hdistinct : Assoc.Distinct op.attributes) (hkey : tag.field? ≠ some key)
    (h : op.add headers tag = .ok result) :
    result.field? key = op.field? key ∧ Assoc.Distinct result.attributes := by
  rcases add_cases h with ⟨hkind, rfl⟩ | ⟨hkind, code, r, -, rfl⟩ | ⟨a, ha, rfl⟩
  · have hne : "parameters" ≠ key := fun heq => hkey (heq ▸ field?_of_kind? hkind)
    have hnew : Assoc.Distinct
        { op with parameters := op.parameters ++ [Parameter.ofTag tag] }.attributes := hdistinct
    refine ⟨?_, hnew⟩
    rw [field?_eq hnew, field?_eq hdistinct, get?_singleton_of_ne hne, get?_singleton_of_ne hne]
  · have hfield : tag.field? = some "responses" :=
      hkind.elim field?_of_kind? field?_of_kind?
    have hne : "responses" ≠ key := fun heq => hkey (heq ▸ hfield)
    have hnew : Assoc.Distinct
        { op with responses := Assoc.insert code r op.responses }.attributes := hdistinct
    refine ⟨?_, hnew⟩
    rw [field?_eq hnew, field?_eq hdistinct, get?_singleton_of_ne hne, get?_singleton_of_ne hne]
  · -- an attribute is inserted under its own key, in front of or behind the one asked for
    have hne : a.key ≠ key := fun heq => hkey (heq ▸ field?_of_isOf ha)
    have hexact : ∀ k : String, Assoc.IsExact k := Assoc.isExact_of_lawfulBEq
    have hset : Assoc.Distinct (op.set a).attributes := hdistinct.insert (hexact a.key) a
    refine ⟨?_, hset⟩
    have hget : Assoc.get? key (op.set a).attributes = Assoc.get? key op.attributes :=
      Assoc.get?_insert_of_ne (hexact a.key) (hexact key) hne a op.attributes
    rw [field?_eq hset, field?_eq hdistinct, hget]
    rfl

/-- Tags leave a field that none of them is for as it is. -/
theorem field?_addAll {tags : List Tag} (hdistinct : Assoc.Distinct op.attributes)
    (hkey : ∀ tag ∈ tags, tag.field? ≠ some key) (h : op.addAll headers tags = .ok result) :
    result.field? key = op.field? key := by
  induction tags generalizing op with
  | nil =>
    cases h
    rfl
  | cons tag tags ih =>
    obtain ⟨htag, hrest⟩ := List.forall_mem_cons.1 hkey
    unfold addAll at h
    split at h
    · rename_i op' hadd
      obtain ⟨hsame, hdistinct'⟩ := field?_add hdistinct htag hadd
      exact (ih hdistinct' hrest h).trans hsame
    · cases h

/-- The fields that an operation has if no tag is for them. -/
def blankField? (key : String) : Option Value :=
  Assoc.get? key
    [("parameters", .array []), ("tags", .array [.text "default"]), ("responses", .map [])]

/-- An operation without tags has blank fields, a group and a description. -/
theorem field?_start {group description : String} (hgroup : key = "tags" → group = "default")
    (hdescription : key = "description" → description = "") (route : Route) :
    (⟨route, group, description, [], [], []⟩ : Operation).field? key = blankField? key := by
  -- a description that is asked for is empty, and an empty one is left out
  have hdescription' : Assoc.get? key
      (if description.isEmpty then [] else [("description", Value.text description)]) = none := by
    split
    · rfl
    · rename_i hempty
      refine get?_singleton_of_ne (fun heq => hempty ?_) _
      rw [hdescription heq.symm]
      rfl
  have hgroup' : Assoc.get? key [("tags", Value.array [.text group])] =
      Assoc.get? key [("tags", Value.array [.text "default"])] := by
    by_cases heq : key = "tags"
    · rw [hgroup heq]
    · rw [get?_singleton_of_ne (Ne.symm heq), get?_singleton_of_ne (Ne.symm heq)]
  rw [field?_eq Assoc.distinct_nil, blankField?, hdescription', hgroup']
  simp only [Assoc.get?, Option.map_none, Option.none_or, beq_iff_eq]
  split
  · rename_i heq
    subst heq
    rfl
  · split
    · rename_i heq
      subst heq
      rfl
    · rw [Option.none_or, Option.none_or]
      rfl

/-- An operation keeps its route. -/
theorem addAll_route {tags : List Tag} (h : op.addAll headers tags = .ok result) :
    result.route = op.route := by
  induction tags generalizing op with
  | nil =>
    cases h
    rfl
  | cons tag tags ih =>
    unfold addAll at h
    split at h
    · rename_i op' hadd
      refine (ih h).trans ?_
      rcases add_cases hadd with ⟨-, rfl⟩ | ⟨-, code, r, -, rfl⟩ | ⟨a, -, rfl⟩ <;> rfl
    · cases h

end Operation

/-! ## Blocks with one route -/

namespace Fragment

/-- A block that documents one route. -/
structure Documents (b : Block) (route : Route) : Prop where
  first : ∀ head ∈ b.tags.head?, head.kind? ≠ some .typedef
  routes : (segments b.tags).2.map (fun s => Route.ofText s.1.text) = [route]

/-- Whether a block has a tag for a field or, for the description, a text. -/
def declares (b : Block) (key : String) : Bool :=
  b.tags.any (·.field? == some key) || (key == "description" && !(descriptionOf b).isEmpty)

/-- The tags behind a route are tags of the block. -/
theorem mem_of_mem_segments {tags : List Tag} :
    (∀ tag ∈ (segments tags).1, tag ∈ tags) ∧
      ∀ s ∈ (segments tags).2, ∀ tag ∈ s.2, tag ∈ tags := by
  induction tags with
  | nil => exact ⟨fun _ h => absurd h List.not_mem_nil, fun _ h => absurd h List.not_mem_nil⟩
  | cons head tags ih =>
    have hfront : ∀ tag ∈ (segments tags).1, tag ∈ head :: tags :=
      fun tag htag => List.mem_cons_of_mem _ (ih.1 tag htag)
    have hroutes : ∀ s ∈ (segments tags).2, ∀ tag ∈ s.2, tag ∈ head :: tags :=
      fun s hs tag htag => List.mem_cons_of_mem _ (ih.2 s hs tag htag)
    rw [segments]
    simp only
    split
    · exact ⟨fun _ h => absurd h List.not_mem_nil, List.forall_mem_cons.2 ⟨hfront, hroutes⟩⟩
    · exact ⟨List.forall_mem_cons.2 ⟨List.mem_cons_self, hfront⟩, hroutes⟩

/-- A block without a tag for the group is in the default one. -/
theorem name_ofTags_of_not_declares {b : Block} (h : declares b "tags" = false) :
    (Group.ofTags b.tags).name = "default" := by
  have hnone : b.tags.find? (·.kind? == some .group) = none := by
    refine List.find?_eq_none.2 fun tag htag hkind => ?_
    have hfield : tag.field? = some "tags" := by
      rw [Tag.field?, beq_iff_eq.1 hkind]
      rfl
    rw [declares, Bool.or_eq_false_iff, List.any_eq_false] at h
    exact h.1 tag htag (beq_iff_eq.2 hfield)
  rw [Group.ofTags, hnone]

/-- The fragment of a block with one route has one operation, and the fields of it that the block
has no tag for are blank. -/
theorem ofBlock_documents {markOf : String → Option Mark} {p : Mark → Value → Prop}
    (hmark : ∀ code mark x, markOf code = some mark → p mark x)
    {b : Block} {route : Route} (hb : Documents b route) {f : Fragment}
    (h : ofBlock markOf b = .ok f) :
    ∃ op : Operation, op.route = route ∧ op.IsMarked p ∧
      f = ⟨addOperation [] op, [Group.ofTags b.tags], []⟩ ∧
      ∀ key, declares b key = false → op.field? key = Operation.blankField? key := by
  rcases ofBlock_cases h with ⟨head, rest, name, d, htags, hkind, -, -⟩ | ⟨ops, hops, rfl⟩
  · exact absurd hkind (hb.first head (by rw [htags]; rfl))
  · obtain ⟨s, rest, hsegments, hroute, hrest⟩ := List.map_eq_cons_iff.1 hb.routes
    obtain rfl := List.map_eq_nil_iff.1 hrest
    have hmarked := operations_marked (HeaderTable.toEntries_marked hmark _) hops
    rw [hsegments] at hops
    obtain ⟨op, ops', rfl, hop, hnil⟩ := operations_cons hops
    cases hnil
    refine ⟨op, (Operation.addAll_route hop).trans hroute, hmarked op List.mem_cons_self, rfl, ?_⟩
    intro key hkey
    have hparts := hkey
    rw [declares, Bool.or_eq_false_iff, List.any_eq_false] at hparts
    have htags : ∀ tag ∈ s.2.filter isAttached, tag.field? ≠ some key := by
      intro tag htag hfield
      refine hparts.1 tag ?_ (beq_iff_eq.2 hfield)
      exact mem_of_mem_segments.2 s (by rw [hsegments]; exact List.mem_cons_self) tag
        (List.mem_of_mem_filter htag)
    rw [Operation.field?_addAll Assoc.distinct_nil htags hop]
    refine Operation.field?_start (fun heq => ?_) (fun heq => ?_) _
    · exact name_ofTags_of_not_declares (heq ▸ hkey)
    · rw [heq] at hparts
      simpa using hparts.2

/-! ## Paths without gaps -/

/-- Fields as operations have them: at least one, and all under different texts. -/
structure IsFilled (fields : List (Atom × Value)) : Prop where
  distinct : Assoc.Distinct fields
  texts : ∀ e ∈ fields, ∃ key, e.1 = .text key
  ne_nil : fields ≠ []

/-- Fields of an operation on top of others are filled. -/
theorem IsFilled.update {fields : Option (List (Atom × Value))}
    (h : ∀ old, fields = some old → IsFilled old) (op : Operation) :
    IsFilled (Assoc.update (fields.getD []) op.fields) := by
  have hexact := op.isExact_fields
  have htexts : ∀ e ∈ op.fields, ∃ key, e.1 = .text key :=
    Operation.forall_fields (P := fun e => ∃ key, e.1 = .text key) ⟨_, rfl⟩ ⟨_, rfl⟩ ⟨_, rfl⟩
      (fun _ _ => ⟨_, rfl⟩) ⟨_, rfl⟩
  have hnil : op.fields ≠ [] := by
    rw [Operation.fields]
    simp
  have hupdate : ∀ {old : List (Atom × Value)}, Assoc.Distinct old →
      (∀ e ∈ old, ∃ key, e.1 = .text key) → IsFilled (Assoc.update old op.fields) :=
    fun hdistinct hold => ⟨hdistinct.update hexact,
      Assoc.forall_keys_update (p := fun k => ∃ key, k = Atom.text key) hold htexts,
      Assoc.update_ne_nil (.inr hnil)⟩
  cases fields with
  | none => exact hupdate Assoc.distinct_nil fun _ he => absurd he List.not_mem_nil
  | some old => exact hupdate (h old rfl).distinct (h old rfl).texts

/-- Paths each of which has a method, and methods each of which has a field. -/
abbrev PathsFilled (paths : Assoc String (Assoc String (List (Atom × Value)))) : Prop :=
  Assoc.Every (fun methods => Assoc.Every IsFilled methods ∧ methods ≠ []) paths

/-- Paths stay filled with one more operation. -/
theorem PathsFilled.addOperation {paths : Assoc String (Assoc String (List (Atom × Value)))}
    (h : PathsFilled paths) (op : Operation) : PathsFilled (addOperation paths op) := by
  rw [addOperation_eq]
  refine h.alter (Assoc.isExact_of_lawfulBEq _) fun methods hmethods => ?_
  have hbefore : Assoc.Every IsFilled (methods.getD []) := by
    cases methods with
    | none => exact Assoc.every_nil
    | some methods => exact (hmethods methods rfl).1
  exact ⟨hbefore.alter (Assoc.isExact_of_lawfulBEq _) fun fields hfields =>
    IsFilled.update hfields op, Assoc.insert_ne_nil _ _ _⟩

/-- Paths stay filled with further operations. -/
theorem PathsFilled.foldl {paths : Assoc String (Assoc String (List (Atom × Value)))}
    (h : PathsFilled paths) (ops : List Operation) :
    PathsFilled (ops.foldl Fragment.addOperation paths) := by
  induction ops generalizing paths with
  | nil => exact h
  | cons op ops ih => exact ih (h.addOperation op)

/-- The paths of a block are filled. -/
theorem ofBlock_pathsFilled {markOf : String → Option Mark} {b : Block} {f : Fragment}
    (h : ofBlock markOf b = .ok f) : PathsFilled f.paths := by
  rcases ofBlock_cases h with ⟨head, rest, name, d, -, -, -, rfl⟩ | ⟨ops, -, rfl⟩
  · exact Assoc.every_nil
  · exact PathsFilled.foldl Assoc.every_nil ops

end Fragment

end ApiDoc
