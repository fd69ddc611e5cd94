import ApiDoc.Fragment
import ApiDoc.Proofs.Except
import ApiDoc.Proofs.Value.Sharing

/-!
# What comment blocks are made into

The value of a fragment is made anew, so none of its nodes has a mark, but for the headers of the
responses: those of one status code are one object in all responses of a block
(`Fragment.toValue_marked`).
-/

namespace ApiDoc

open Value

variable {p : Mark → Value → Prop}

/-! ## Records and lists -/

/-- A record has only marked nodes of its fields. -/
theorem Value.record_marked {fields : List (String × Value)} (h : ∀ e ∈ fields, e.2.Marked p) :
    (record fields).Marked p := by
  refine MarkedEntries.map ⟨?_, ?_⟩
  · intro e he
    obtain ⟨f, -, rfl⟩ := List.mem_map.1 he
    exact marked_atom rfl
  · intro e he
    obtain ⟨f, hf, rfl⟩ := List.mem_map.1 he
    exact h f hf

/-- A list has only marked nodes of its items. -/
theorem Value.array_marked {items : List Value} (h : ∀ v ∈ items, v.Marked p) :
    (array items).Marked p :=
  marked_of_mark?_eq_none rfl h

/-- A map by texts as a map by keys of documents. -/
def Assoc.texts {α : Type} (m : Assoc String α) : Assoc Atom α := m.map fun e => (.text e.1, e.2)

namespace Assoc

variable {α : Type}

/-- What a text finds in a map by texts and in the map by keys is the same. -/
theorem get?_texts (key : String) (m : Assoc String α) :
    get? (.text key) (texts m) = get? key m := by
  induction m with
  | nil => rfl
  | cons e m ih =>
    obtain ⟨k, v⟩ := e
    change (if k == key then some v else get? (.text key) (texts m)) = _
    rw [ih, get?]

/-- Inserting in a map by texts is inserting in the map by keys. -/
theorem insert_texts (key : String) (v : α) (m : Assoc String α) :
    insert (.text key) v (texts m) = texts (insert key v m) := by
  induction m with
  | nil => rfl
  | cons e m ih =>
    obtain ⟨k, w⟩ := e
    change (if k == key then (.text k, v) :: texts m
      else (.text k, w) :: insert (.text key) v (texts m)) = _
    rw [ih, insert]
    split <;> rfl

/-- Altering in a map by texts is altering in the map by keys. -/
theorem alter_texts (key : String) (f : Option α → α) (m : Assoc String α) :
    alter (.text key) f (texts m) = texts (alter key f m) := by
  rw [alter, get?_texts, insert_texts, alter]

/-- Different texts are different keys. -/
theorem Distinct.texts {m : Assoc String α} (h : Distinct m) : Distinct (texts m) := by
  refine ⟨?_, ?_⟩
  · intro e he
    obtain ⟨e', -, rfl⟩ := List.mem_map.1 he
    exact Atom.isExact_text e'.1
  · have hkeys : (Assoc.texts m).map Prod.fst = (m.map Prod.fst).map Atom.text := by
      simp only [Assoc.texts, List.map_map, Function.comp_def]
    rw [hkeys]
    exact h.nodup.map fun _ _ => Atom.text.inj

/-- A function on the values of a map by texts, entry by entry. -/
theorem mapValues_texts {β : Type} (f : α → β) (m : Assoc String α) :
    mapValues f (texts m) = m.map fun e => (.text e.1, f e.2) := by
  simp only [mapValues, texts, List.map_map, Function.comp_def]

end Assoc

/-- The entries of a map by texts have only marked nodes of its values. -/
theorem Value.markedEntries_texts {α : Type} {m : Assoc String α} {f : α → Value}
    (h : ∀ e ∈ m, (f e.2).Marked p) : MarkedEntries p (m.map fun e => (.text e.1, f e.2)) := by
  refine ⟨?_, ?_⟩
  · intro e he
    obtain ⟨e', -, rfl⟩ := List.mem_map.1 he
    exact marked_atom rfl
  · intro e he
    obtain ⟨e', he', rfl⟩ := List.mem_map.1 he
    exact h e' he'

/-- Something that is there is a result. -/
theorem exists_ok_of_isSome_toOption {ε α : Type} {x : Except ε α} (h : x.toOption.isSome = true) :
    ∃ a, x = .ok a := by
  cases x with
  | error e => cases h
  | ok a => exact ⟨a, rfl⟩

/-- What holds of all items that something gives holds of those of something that may be there. -/
theorem forall_mem_elim {α β : Type} {P : β → Prop} {x : Option α} {f : α → List β}
    (h : ∀ a, x = some a → ∀ b ∈ f a, P b) : ∀ b ∈ x.elim [] f, P b := by
  cases x with
  | none => exact fun b hb => absurd hb List.not_mem_nil
  | some a => exact h a rfl

/-- An item of something that may be there is given by something that is. -/
theorem exists_of_mem_elim {α β : Type} {x : Option α} {f : α → List β} {b : β}
    (h : b ∈ x.elim [] f) : ∃ a, x = some a ∧ b ∈ f a := by
  cases x with
  | none => exact absurd h List.not_mem_nil
  | some a => exact ⟨a, rfl, h⟩

/-- A list of texts has no marks. -/
theorem textsValue_marked (texts : List String) : (textsValue texts).Marked p := by
  refine array_marked fun v hv => ?_
  obtain ⟨s, -, rfl⟩ := List.mem_map.1 hv
  exact marked_atom rfl

/-! ## Texts in JSON -/

namespace Json

/-- A named value has no marks. -/
theorem namedValue?_marked {s rest : List Char} {v : Value} (h : namedValue? s = some (v, rest)) :
    v.Marked p := by
  obtain ⟨⟨word, w⟩, hmem, hword⟩ := List.exists_of_findSome?_eq_some h
  obtain ⟨r, -, heq⟩ := Option.map_eq_some_iff.1 hword
  obtain ⟨rfl, -⟩ := Prod.mk.inj heq
  simp only [namedValues, List.mem_cons, Prod.mk.injEq, List.not_mem_nil, or_false] at hmem
  rcases hmem with h | h | h | h | h | h <;>
    · rw [h.2]
      exact marked_atom rfl

/-- A number has no marks. -/
theorem unsignedNumber_marked {negative : Bool} {s rest : List Char} {v : Value}
    (h : unsignedNumber negative s = .ok (v, rest)) : v.Marked p := by
  unfold unsignedNumber at h
  split at h
  · cases h
  · simp only at h
    split at h
    · split at h
      · cases h
      · cases h
        exact marked_atom rfl
    · cases h
      exact marked_atom rfl

/-- A value of one token has no marks. -/
theorem plainValue_marked {s rest : List Char} {v : Value} (h : plainValue s = .ok (v, rest)) :
    v.Marked p := by
  unfold plainValue at h
  split at h
  · rename_i found hfound
    cases h
    exact namedValue?_marked hfound
  · split at h
    · exact unsignedNumber_marked h
    · exact unsignedNumber_marked h

/-- What is read within a bound on its parts has a predicate on its marked nodes. -/
structure ReadsMarked (p : Mark → Value → Prop) (n : Nat) : Prop where
  value : ∀ {s v rest}, Json.value n s = .ok (v, rest) → v.Marked p
  items : ∀ {s vs rest}, Json.items n s = .ok (vs, rest) → ∀ v ∈ vs, v.Marked p
  entries : ∀ {s es rest}, Json.entries n s = .ok (es, rest) → MarkedEntries p es

variable {n : Nat} {s rest : List Char}

/-- A value has a predicate on its marked nodes if the parts that are read have. -/
theorem ReadsMarked.value_succ (ih : ReadsMarked p n) {v : Value}
    (h : Json.value (n + 1) s = .ok (v, rest)) : v.Marked p := by
  unfold Json.value at h
  split at h
  · split at h
    · cases h
      exact marked_atom rfl
    · cases h
  · split at h
    · cases h
      exact array_marked fun v hv => absurd hv List.not_mem_nil
    · split at h
      · rename_i hread
        cases h
        exact array_marked (ih.items hread)
      · cases h
  · split at h
    · cases h
      exact markedEntries_nil.map
    · split at h
      · rename_i hread
        cases h
        exact (markedEntries_nil.update (ih.entries hread)).map
      · cases h
  · exact plainValue_marked h

/-- Items have a predicate on their marked nodes if the parts that are read have. -/
theorem ReadsMarked.items_succ (ih : ReadsMarked p n) {vs : List Value}
    (h : Json.items (n + 1) s = .ok (vs, rest)) : ∀ v ∈ vs, v.Marked p := by
  unfold Json.items at h
  split at h
  · cases h
  · rename_i hread
    have hfirst := ih.value hread
    split at h
    · cases h
      exact List.forall_mem_singleton.2 hfirst
    · split at h
      · rename_i hrest
        cases h
        exact List.forall_mem_cons.2 ⟨hfirst, ih.items hrest⟩
      · cases h
    · cases h

/-- Entries have a predicate on their marked nodes if the parts that are read have. -/
theorem ReadsMarked.entries_succ (ih : ReadsMarked p n) {es : List (Atom × Value)}
    (h : Json.entries (n + 1) s = .ok (es, rest)) : MarkedEntries p es := by
  unfold Json.entries at h
  split at h
  · split at h
    · cases h
    · split at h
      · split at h
        · cases h
        · rename_i hread
          have hfirst := ih.value hread
          split at h
          · cases h
            exact ⟨List.forall_mem_singleton.2 (marked_atom rfl),
              List.forall_mem_singleton.2 hfirst⟩
          · split at h
            · rename_i hrest
              cases h
              have htail := ih.entries hrest
              exact ⟨List.forall_mem_cons.2 ⟨marked_atom rfl, htail.keys⟩,
                List.forall_mem_cons.2 ⟨hfirst, htail.values⟩⟩
            · cases h
          · cases h
      · cases h
  · cases h

/-- No node of what is read has a mark. The induction is on the bound, which each of the three
readers hands on with one less. -/
theorem readsMarked (n : Nat) : ReadsMarked p n := by
  induction n with
  | zero =>
    refine ⟨fun h => ?_, fun h => ?_, fun h => ?_⟩
    · simp only [Json.value, reduceCtorEq] at h
    · simp only [Json.items, reduceCtorEq] at h
    · simp only [Json.entries, reduceCtorEq] at h
  | succ n ih => exact ⟨ih.value_succ, ih.items_succ, ih.entries_succ⟩

/-- What is read of a text has no marks. -/
theorem read_marked {s : List Char} {v : Value} (h : read s = .ok v) : v.Marked p := by
  unfold read at h
  split at h
  · cases h
  · rename_i hread
    split at h
    · cases h
      exact (readsMarked _).value hread
    · cases h

end Json

/-- Security requirements have no marks. -/
theorem securityOf_marked {s : List Char} {v : Value} (h : securityOf s = .ok v) : v.Marked p := by
  unfold securityOf at h
  split at h
  · rename_i hread
    cases h
    exact Json.read_marked hread
  · cases h
  · cases h
    refine array_marked (List.forall_mem_singleton.2 ?_)
    refine record_marked (List.forall_mem_singleton.2 ?_)
    exact array_marked fun v hv => absurd hv List.not_mem_nil

/-! ## Schemas, parameters and definitions -/

mutual

/-- A schema is written without marks. -/
theorem Schema.toValue_marked (s : Schema) : s.toValue.Marked p := by
  cases s with
  | ref name =>
    rw [Schema.toValue]
    exact record_marked (List.forall_mem_singleton.2 (marked_atom rfl))
  | plain type =>
    rw [Schema.toValue]
    exact record_marked (List.forall_mem_singleton.2 (marked_atom rfl))
  | container type items =>
    rw [Schema.toValue]
    refine record_marked (List.forall_mem_cons.2 ⟨marked_atom rfl, ?_⟩)
    exact List.forall_mem_singleton.2 (Schema.toValue_marked items)
  | oneOf alternatives =>
    rw [Schema.toValue]
    refine record_marked (List.forall_mem_singleton.2 ?_)
    exact array_marked (Schema.toValues_marked alternatives)

/-- Schemas are written without marks. -/
theorem Schema.toValues_marked (ss : List Schema) : ∀ v ∈ Schema.toValues ss, v.Marked p := by
  cases ss with
  | nil => exact fun v hv => absurd hv List.not_mem_nil
  | cons s ss =>
    rw [Schema.toValues]
    exact List.forall_mem_cons.2 ⟨Schema.toValue_marked s, Schema.toValues_marked ss⟩

end

/-- A parameter is written without marks. -/
theorem Parameter.toValue_marked (q : Parameter) : q.toValue.Marked p := by
  refine record_marked ?_
  simp only [List.forall_mem_append, List.forall_mem_cons]
  refine ⟨⟨⟨marked_atom rfl, marked_atom rfl, fun e he => absurd he List.not_mem_nil⟩, ?_⟩,
    marked_atom rfl, ?_⟩
  · exact forall_mem_elim fun d _ => List.forall_mem_singleton.2 (marked_atom rfl)
  · cases q.shape with
    | schema s => exact List.forall_mem_singleton.2 s.toValue_marked
    | bare e =>
      refine List.forall_mem_cons.2 ⟨marked_atom rfl, ?_⟩
      exact forall_mem_elim fun vs _ => List.forall_mem_singleton.2 (textsValue_marked vs)

/-- An example is written without marks. -/
theorem exampleValue_marked (type : String) (text : List Char) :
    (exampleValue type text).Marked p := by
  unfold exampleValue
  split
  · exact marked_atom rfl
  · split
    · split
      · exact marked_atom rfl
      · split <;> exact marked_atom rfl
    · exact marked_atom rfl

/-- A property that shows no example, or one without marks. -/
def Property.IsPlain (p : Mark → Value → Prop) : Property → Prop
  | .schema _ => True
  | .bare _ _ _ _ hint => ∀ v, hint = some (.example v) → v.Marked p

/-- The example of a property tag has no marks. -/
theorem Property.ofTag_isPlain (readOnly : Bool) (tag : Tag) :
    (Property.ofTag readOnly tag).IsPlain p := by
  unfold Property.ofTag
  split
  · trivial
  · simp only
    split
    · intro v hv
      obtain ⟨vs, -, heq⟩ := Option.map_eq_some_iff.1 hv
      cases heq
    · intro v hv
      obtain ⟨t, -, heq⟩ := Option.map_eq_some_iff.1 hv
      cases heq
      exact exampleValue_marked _ t

/-- A property with a plain example is written without marks. -/
theorem Property.IsPlain.toValue_marked {q : Property} (h : q.IsPlain p) : q.toValue.Marked p := by
  cases q with
  | schema s => exact s.toValue_marked
  | bare type description items readOnly hint =>
    refine record_marked ?_
    simp only [List.forall_mem_append, List.forall_mem_cons]
    refine ⟨⟨⟨⟨marked_atom rfl, marked_atom rfl, fun e he => absurd he List.not_mem_nil⟩, ?_⟩, ?_⟩,
      ?_⟩
    · exact forall_mem_elim fun s _ => List.forall_mem_singleton.2 s.toValue_marked
    · split
      · exact List.forall_mem_singleton.2 (marked_atom rfl)
      · exact fun e he => absurd he List.not_mem_nil
    · refine forall_mem_elim fun hint hhint => List.forall_mem_singleton.2 ?_
      cases hint with
      | enum values => exact textsValue_marked values
      | «example» v => exact h v hhint

/-- Further tags leave the examples of properties plain. -/
theorem Definition.addTags_isPlain {typedef : String} {d result : Definition} {tags : List Tag}
    (h : ∀ e ∈ d.properties, e.2.IsPlain p) (hresult : d.addTags typedef tags = .ok result) :
    ∀ e ∈ result.properties, e.2.IsPlain p := by
  induction tags generalizing d with
  | nil =>
    cases hresult
    exact h
  | cons tag tags ih =>
    unfold Definition.addTags at hresult
    split at hresult
    · split at hresult
      · cases hresult
      · refine ih ?_ hresult
        intro e he
        rcases Assoc.mem_insert he with hold | hnew
        · exact h e hold
        · rw [hnew]
          exact Property.ofTag_isPlain _ tag
    · exact ih h hresult

/-- A definition is written without marks. -/
theorem Definition.ofTags_marked {head : Tag} {rest : List Tag} {name : String} {d : Definition}
    (h : Definition.ofTags head rest = .ok (name, d)) : d.toValue.Marked p := by
  unfold Definition.ofTags at h
  split at h
  · cases h
  · rename_i title htitle
    cases hadd : Definition.addTags title ⟨baseOf head, [], []⟩ rest with
    | error fault => simp [hadd, bind, Except.bind] at h
    | ok d' =>
      simp only [hadd, bind, Except.bind, pure, Except.pure, Except.ok.injEq, Prod.mk.injEq] at h
      obtain ⟨rfl, rfl⟩ := h
      have hplain := Definition.addTags_isPlain (p := p)
        (fun e he => absurd he List.not_mem_nil) hadd
      refine record_marked ?_
      simp only [List.forall_mem_append, List.forall_mem_cons]
      refine ⟨⟨textsValue_marked _, ?_, fun e he => absurd he List.not_mem_nil⟩, ?_⟩
      · exact (markedEntries_texts fun e he => (hplain e he).toValue_marked).map
      · refine forall_mem_elim fun b _ => List.forall_mem_singleton.2 ?_
        refine array_marked (List.forall_mem_singleton.2 ?_)
        exact record_marked (List.forall_mem_singleton.2 (marked_atom rfl))

/-! ## Operations -/

/-- A header is written without marks. -/
theorem Header.toValue_marked (h : Header) : h.toValue.Marked p := by
  refine record_marked (List.forall_mem_cons.2 ⟨marked_atom rfl, ?_⟩)
  exact forall_mem_elim fun d _ => List.forall_mem_singleton.2 (marked_atom rfl)

/-- The headers of a block are objects with the marks they are given. -/
theorem HeaderTable.toEntries_marked {markOf : String → Option Mark}
    (hmark : ∀ code mark x, markOf code = some mark → p mark x) (table : HeaderTable) :
    MarkedEntries p (table.toEntries markOf) := by
  refine ⟨?_, ?_⟩
  · intro e he
    obtain ⟨e', -, rfl⟩ := List.mem_map.1 he
    exact marked_atom rfl
  · intro e he
    obtain ⟨⟨code, headers⟩, -, rfl⟩ := List.mem_map.1 he
    refine marked_iff.2 ⟨fun mark => hmark code mark _, markedEntries_iff.1 ?_⟩
    exact markedEntries_texts fun e _ => e.2.toValue_marked

/-- A response has only marked nodes of its headers. -/
theorem Response.ofTag_marked {headers : List (Atom × Value)} (h : MarkedEntries p headers)
    (tag : Tag) : (Response.ofTag headers tag).2.toValue.Marked p := by
  refine record_marked (List.forall_mem_cons.2 ⟨marked_atom rfl, List.forall_mem_append.2 ⟨?_, ?_⟩⟩)
  · exact forall_mem_elim fun v hv => List.forall_mem_singleton.2 (h.get? hv)
  · exact forall_mem_elim fun s _ => List.forall_mem_singleton.2 s.toValue_marked

/-- An attribute that a tag declares. -/
def Attribute.IsOf (tag : Tag) : Attribute → Prop
  | summary s => tag.kind? = some .summary ∧ s = tag.description
  | operationId s => tag.kind? = some .operationId ∧ s = tag.description
  | produces types => tag.kind? = some .produces ∧ types = mediaTypes tag.text
  | consumes types => tag.kind? = some .consumes ∧ types = mediaTypes tag.text
  | security v => tag.kind? = some .security ∧ securityOf tag.text = .ok v
  | deprecated => tag.kind? = some .deprecated

namespace Operation

/-- A tag adds a parameter, a response or an attribute. -/
theorem add_cases {op result : Operation} {headers : List (Atom × Value)} {tag : Tag}
    (h : op.add headers tag = .ok result) :
    (tag.kind? = some .param ∧
        result = { op with parameters := op.parameters ++ [.ofTag tag] }) ∨
      ((tag.kind? = some .returns ∨ tag.kind? = some .return) ∧
        ∃ code r, Response.ofTag headers tag = (code, r) ∧
          result = { op with responses := Assoc.insert code r op.responses }) ∨
      ∃ a : Attribute, a.IsOf tag ∧ result = op.set a := by
  unfold add at h
  split at h
  all_goals rename_i hkind
  · cases h
    exact .inl ⟨hkind, rfl⟩
  · cases h
    exact .inr (.inl ⟨.inl hkind, _, _, rfl, rfl⟩)
  · cases h
    exact .inr (.inl ⟨.inr hkind, _, _, rfl, rfl⟩)
  · cases h
    exact .inr (.inr ⟨.summary tag.description, ⟨hkind, rfl⟩, rfl⟩)
  · cases h
    exact .inr (.inr ⟨.operationId tag.description, ⟨hkind, rfl⟩, rfl⟩)
  · cases h
    exact .inr (.inr ⟨.produces (mediaTypes tag.text), ⟨hkind, rfl⟩, rfl⟩)
  · cases h
    exact .inr (.inr ⟨.consumes (mediaTypes tag.text), ⟨hkind, rfl⟩, rfl⟩)
  · obtain ⟨v, hread, rfl⟩ := exists_of_map_eq_ok h
    exact .inr (.inr ⟨.security v, ⟨hkind, hread⟩, rfl⟩)
  · cases h
    exact .inr (.inr ⟨.deprecated, hkind, rfl⟩)
  · cases h

/-- An operation whose attributes and responses have a predicate on their marked nodes. -/
structure IsMarked (p : Mark → Value → Prop) (op : Operation) : Prop where
  attributes : ∀ e ∈ op.attributes, e.2.toValue.Marked p
  responses : ∀ e ∈ op.responses, e.2.toValue.Marked p

/-- An operation keeps a predicate on its marked nodes with one more attribute. -/
theorem IsMarked.set {op : Operation} (h : op.IsMarked p) {a : Attribute}
    (ha : a.toValue.Marked p) :
    (op.set a).IsMarked p := by
  refine ⟨fun e he => ?_, h.responses⟩
  rcases Assoc.mem_insert he with hold | hnew
  · exact h.attributes e hold
  · rw [hnew]
    exact ha

/-- A text that may be there has no marks. -/
theorem textOrNull_marked (s : Option String) : (textOrNull s).Marked p := by
  cases s <;> exact marked_atom rfl

/-- An operation keeps a predicate on its marked nodes with one more tag. -/
theorem IsMarked.add {op result : Operation} {headers : List (Atom × Value)} {tag : Tag}
    (h : op.IsMarked p) (hheaders : MarkedEntries p headers)
    (hresult : op.add headers tag = .ok result) : result.IsMarked p := by
  rcases add_cases hresult with ⟨-, rfl⟩ | ⟨-, code, r, hr, rfl⟩ | ⟨a, ha, rfl⟩
  · exact ⟨h.attributes, h.responses⟩
  · refine ⟨h.attributes, fun e he => ?_⟩
    rcases Assoc.mem_insert he with hold | hnew
    · exact h.responses e hold
    · have hmarked : (Response.ofTag headers tag).2.toValue.Marked p :=
        Response.ofTag_marked hheaders tag
      rw [hnew]
      rwa [hr] at hmarked
  · refine h.set ?_
    cases a with
    | summary s => exact textOrNull_marked s
    | operationId s => exact textOrNull_marked s
    | produces types => exact textsValue_marked types
    | consumes types => exact textsValue_marked types
    | security v => exact securityOf_marked ha.2
    | deprecated => exact marked_atom rfl

/-- An operation keeps a predicate on its marked nodes with further tags. -/
theorem IsMarked.addAll {op result : Operation} {headers : List (Atom × Value)} {tags : List Tag}
    (h : op.IsMarked p) (hheaders : MarkedEntries p headers)
    (hresult : op.addAll headers tags = .ok result) : result.IsMarked p := by
  induction tags generalizing op with
  | nil =>
    cases hresult
    exact h
  | cons tag tags ih =>
    unfold Operation.addAll at hresult
    split at hresult
    · rename_i hadd
      exact ih (h.add hheaders hadd) hresult
    · cases hresult

/-- All fields of an operation are under texts. -/
theorem forall_fields {P : Atom × Value → Prop} {op : Operation}
    (hparameters : P (.text "parameters", .array (op.parameters.map Parameter.toValue)))
    (hdescription : P (.text "description", .text op.description))
    (htags : P (.text "tags", .array [.text op.group]))
    (hattributes : ∀ e ∈ op.attributes, P (.text e.1, e.2.toValue))
    (hresponses : P (.text "responses",
      .map (op.responses.map fun e => (.text e.1, e.2.toValue)))) :
    ∀ e ∈ op.fields, P e := by
  unfold fields
  simp only [List.forall_mem_append, List.forall_mem_singleton]
  refine ⟨⟨⟨⟨hparameters, ?_⟩, htags⟩, ?_⟩, hresponses⟩
  · split
    · exact fun e he => absurd he List.not_mem_nil
    · exact List.forall_mem_singleton.2 hdescription
  · exact List.forall_mem_map.2 hattributes

/-- The fields of an operation are under exact keys. -/
theorem isExact_fields (op : Operation) : ∀ e ∈ op.fields, Assoc.IsExact e.1 :=
  forall_fields (P := fun e => Assoc.IsExact e.1) (Atom.isExact_text _) (Atom.isExact_text _)
    (Atom.isExact_text _) (fun _ _ => Atom.isExact_text _) (Atom.isExact_text _)

/-- The fields of an operation have only marked nodes of it. -/
theorem IsMarked.fields {op : Operation} (h : op.IsMarked p) : MarkedEntries p op.fields := by
  refine ⟨?_, ?_⟩
  · exact forall_fields (P := fun e => (atom e.1).Marked p) (marked_atom rfl) (marked_atom rfl)
      (marked_atom rfl) (fun _ _ => marked_atom rfl) (marked_atom rfl)
  · refine forall_fields (P := fun e => e.2.Marked p) ?_ (marked_atom rfl) ?_ h.attributes ?_
    · exact array_marked (List.forall_mem_map.2 fun q _ => q.toValue_marked)
    · exact array_marked (List.forall_mem_singleton.2 (marked_atom rfl))
    · exact (markedEntries_texts h.responses).map

end Operation

/-! ## Fragments -/

namespace Fragment

/-- A fragment is that of one definition, or that of the operations of a block. -/
theorem ofBlock_cases {markOf : String → Option Mark} {b : Block} {f : Fragment}
    (h : ofBlock markOf b = .ok f) :
    (∃ head rest name d, b.tags = head :: rest ∧ head.kind? = some .typedef ∧
        Definition.ofTags head rest = .ok (name, d) ∧ f = { definitions := [(name, d)] }) ∨
      ∃ ops, operations (Group.ofTags b.tags).name (descriptionOf b)
          ((HeaderTable.ofTags b.tags).toEntries markOf) (segments b.tags).2 = .ok ops ∧
        f =
          { paths := ops.foldl addOperation []
            groups := ops.map fun _ => Group.ofTags b.tags } := by
  unfold ofBlock at h
  split at h
  · rename_i htags
    cases h
    exact .inr ⟨[], by rw [htags]; rfl, rfl⟩
  · rename_i head rest htags
    split at h
    · rename_i hkind
      cases hd : Definition.ofTags head rest with
      | error fault => simp [hd, bind, Except.bind] at h
      | ok d =>
        simp only [hd, bind, Except.bind, pure, Except.pure, Except.ok.injEq] at h
        exact .inl ⟨head, rest, d.1, d.2, htags, beq_iff_eq.1 hkind, hd, h.symm⟩
    · unfold ofOperations at h
      cases hops : operations (Group.ofTags b.tags).name (descriptionOf b)
          ((HeaderTable.ofTags b.tags).toEntries markOf) (segments b.tags).2 with
      | error fault => simp [hops, bind, Except.bind] at h
      | ok ops =>
        simp only [hops, bind, Except.bind, pure, Except.pure, Except.ok.injEq] at h
        exact .inr ⟨ops, rfl, h.symm⟩

/-- An operation is that of a route, with the tags behind it attached. -/
theorem operations_cons {group description : String} {headers : List (Atom × Value)} {route : Tag}
    {tags : List Tag} {rest : List (Tag × List Tag)} {ops : List Operation}
    (h : operations group description headers ((route, tags) :: rest) = .ok ops) :
    ∃ op ops', ops = op :: ops' ∧
      (⟨Route.ofText route.text, group, description, [], [], []⟩ : Operation).addAll headers
        (tags.filter isAttached) = .ok op ∧
      operations group description headers rest = .ok ops' := by
  unfold operations at h
  simp only [bind, Except.bind, pure, Except.pure] at h
  split at h
  · cases h
  · rename_i op hop
    split at h
    · cases h
    · rename_i ops' hops
      cases h
      exact ⟨op, ops', rfl, hop, hops⟩

/-- Operations have only marked nodes of the headers. -/
theorem operations_marked {group description : String} {headers : List (Atom × Value)}
    (hheaders : MarkedEntries p headers) {routes : List (Tag × List Tag)} {ops : List Operation}
    (h : operations group description headers routes = .ok ops) : ∀ op ∈ ops, op.IsMarked p := by
  induction routes generalizing ops with
  | nil =>
    cases h
    exact fun op hop => absurd hop List.not_mem_nil
  | cons route routes ih =>
    obtain ⟨route, tags⟩ := route
    obtain ⟨op, ops', rfl, hop, hrest⟩ := operations_cons h
    refine List.forall_mem_cons.2 ⟨Operation.IsMarked.addAll ⟨?_, ?_⟩ hheaders hop, ih hrest⟩
    · exact fun e he => absurd he List.not_mem_nil
    · exact fun e he => absurd he List.not_mem_nil

/-- Adding an operation alters the fields of its method of its path. -/
theorem addOperation_eq (paths : Assoc String (Assoc String (List (Atom × Value))))
    (op : Operation) :
    addOperation paths op =
      Assoc.alter op.route.uri (fun methods =>
        Assoc.alter op.route.method (fun fields => Assoc.update (fields.getD []) op.fields)
          (methods.getD [])) paths :=
  rfl

/-- Fields under different keys, with a predicate on their marked nodes, by method and path. -/
abbrev PathsMarked (p : Mark → Value → Prop)
    (paths : Assoc String (Assoc String (List (Atom × Value)))) : Prop :=
  Assoc.Every (Assoc.Every fun fields => Assoc.Distinct fields ∧ MarkedEntries p fields) paths

/-- Paths keep a predicate on their marked nodes with one more operation. -/
theorem PathsMarked.addOperation {paths : Assoc String (Assoc String (List (Atom × Value)))}
    (h : PathsMarked p paths) {op : Operation} (hop : op.IsMarked p) :
    PathsMarked p (addOperation paths op) := by
  have hexact := op.isExact_fields
  rw [addOperation_eq]
  refine h.alter (Assoc.isExact_of_lawfulBEq _) fun methods hmethods => ?_
  have hbefore : Assoc.Every (fun fields => Assoc.Distinct fields ∧ MarkedEntries p fields)
      (methods.getD []) := by
    cases methods with
    | none => exact Assoc.every_nil
    | some methods => exact hmethods methods rfl
  refine hbefore.alter (Assoc.isExact_of_lawfulBEq _) fun fields hfields => ?_
  cases fields with
  | none => exact ⟨Assoc.distinct_nil.update hexact, markedEntries_nil.update hop.fields⟩
  | some fields =>
    obtain ⟨hdistinct, hmarked⟩ := hfields fields rfl
    exact ⟨hdistinct.update hexact, hmarked.update hop.fields⟩

/-- Paths keep a predicate on their marked nodes with further operations. -/
theorem PathsMarked.foldl {paths : Assoc String (Assoc String (List (Atom × Value)))}
    (h : PathsMarked p paths) {ops : List Operation} (hops : ∀ op ∈ ops, op.IsMarked p) :
    PathsMarked p (ops.foldl Fragment.addOperation paths) := by
  induction ops generalizing paths with
  | nil => exact h
  | cons op ops ih =>
    exact ih (h.addOperation (hops op List.mem_cons_self))
      fun op' hop' => hops op' (List.mem_cons_of_mem op hop')

/-- The paths of a fragment, whose headers have the marks that they are given and no other. -/
theorem ofBlock_pathsMarked {markOf : String → Option Mark}
    (hmark : ∀ code mark x, markOf code = some mark → p mark x) {b : Block} {f : Fragment}
    (h : ofBlock markOf b = .ok f) : PathsMarked p f.paths := by
  rcases ofBlock_cases h with ⟨head, rest, name, d, -, -, hd, rfl⟩ | ⟨ops, hops, rfl⟩
  · exact Assoc.every_nil
  · exact PathsMarked.foldl Assoc.every_nil
      (operations_marked (HeaderTable.toEntries_marked hmark _) hops)

/-- The methods of a path as a value. -/
def methodsValue (methods : Assoc String (List (Atom × Value))) : Value :=
  .map (Assoc.mapValues .map (Assoc.texts methods))

/-- Paths as a value. -/
def valueOfPaths (paths : Assoc String (Assoc String (List (Atom × Value)))) : Value :=
  .map (Assoc.mapValues methodsValue (Assoc.texts paths))

theorem pathsValue_eq (f : Fragment) : f.pathsValue = valueOfPaths f.paths := by
  simp only [pathsValue, valueOfPaths, methodsValue, Assoc.mapValues_texts]

theorem definitionsValue_eq (f : Fragment) :
    f.definitionsValue = .map (Assoc.mapValues Definition.toValue (Assoc.texts f.definitions)) := by
  rw [Assoc.mapValues_texts]
  rfl

/-- A group is written without marks. -/
theorem groupValue_marked (g : Group) : (groupValue g).Marked p :=
  record_marked (List.forall_mem_cons.2 ⟨marked_atom rfl,
    List.forall_mem_singleton.2 (marked_atom rfl)⟩)

/-- Groups as a value. -/
def groupsValue (groups : List Group) : Value := .array (groups.map groupValue)

/-- Groups are written without marks. -/
theorem groupsValue_marked (groups : List Group) : (groupsValue groups).Marked p :=
  array_marked (List.forall_mem_map.2 fun g _ => groupValue_marked g)

/-- Paths as a value have only marked nodes of their fields. -/
theorem PathsMarked.valueOfPaths {paths : Assoc String (Assoc String (List (Atom × Value)))}
    (h : PathsMarked p paths) : (valueOfPaths paths).Marked p := by
  rw [Fragment.valueOfPaths, Assoc.mapValues_texts]
  refine (markedEntries_texts fun e he => ?_).map
  rw [methodsValue, Assoc.mapValues_texts]
  refine (markedEntries_texts fun e' he' => ?_).map
  exact ((h.values e he).values e' he').2.map

/-- The marks in the value of a fragment are those that its headers are given. -/
theorem toValue_marked {markOf : String → Option Mark}
    (hmark : ∀ code mark x, markOf code = some mark → p mark x) {b : Block} {f : Fragment}
    (h : ofBlock markOf b = .ok f) : f.toValue.Marked p := by
  refine record_marked (List.forall_mem_cons.2 ⟨?_, List.forall_mem_cons.2 ⟨?_,
    List.forall_mem_singleton.2 ?_⟩⟩)
  · rw [pathsValue_eq]
    exact (ofBlock_pathsMarked hmark h).valueOfPaths
  · exact groupsValue_marked f.groups
  · rcases ofBlock_cases h with ⟨head, rest, name, d, -, -, hd, rfl⟩ | ⟨ops, hops, rfl⟩
    · exact (markedEntries_texts (List.forall_mem_singleton.2 (Definition.ofTags_marked hd))).map
    · exact markedEntries_nil.map

end Fragment

end ApiDoc
