import ApiDoc.Proofs.Document.Redocumentation
import ApiDoc.Proofs.Document.Skipping
import ApiDoc.Proofs.Fragment.Numbers
import ApiDoc.Proofs.Fragment.Origin
import ApiDoc.Proofs.Json.NonFinite

/-!
# Infinities and NaN in documents

The numbers of a document come from its seed, from the texts of security tags and from the examples
of properties. A finite document stays finite with a block just if the security requirements that
count for the paths that are merged are finite, and so are the examples of a definition that is new
(`addBlock_isFinite_iff`). Of everything else that a block says nothing is a floating-point number.
-/

namespace ApiDoc

namespace Value

/-! ## Finite values -/

variable {v w : Value}

/-- A box is no number. -/
theorem isFiniteNode_of_isBox (h : v.isBox = true) : v.IsFiniteNode := by
  rintro f rfl
  cases h

/-- What a merge makes anew is finite. -/
theorem holdsOfNew_isFiniteNode : HoldsOfNew IsFiniteNode :=
  ⟨fun _ _ => nofun, fun _ _ => nofun, fun _ _ => nofun⟩

/-- A function on the parts of a value leaves what it is itself. -/
theorem IsFiniteNode.mapParts (f : Value → Value) (v : Value) (h : v.IsFiniteNode) :
    (v.mapParts f).IsFiniteNode := by
  cases v with
  | atom a => exact h
  | _ => exact isFiniteNode_of_isBox rfl

/-- Marks are no part of what makes a value finite. -/
theorem isFinite_plain_iff : v.plain.IsFinite ↔ v.IsFinite := by
  have hnode : ∀ x : Value, x.plain.IsFiniteNode ↔ x.IsFiniteNode := by
    intro x
    cases x with
    | atom a => rw [plain_atom]
    | _ =>
      rw [plain]
      exact iff_of_true (isFiniteNode_of_isBox rfl) (isFiniteNode_of_isBox rfl)
  exact every_plain_iff.trans
    ⟨fun h => h.mono fun x => (hnode x).1, fun h => h.mono fun x => (hnode x).2⟩

/-- Whether a value is finite depends on its content only. -/
theorem isFinite_congr (h : v.plain = w.plain) : v.IsFinite ↔ w.IsFinite := by
  rw [← isFinite_plain_iff, h, isFinite_plain_iff]

/-- A text is finite. -/
theorem isFinite_text (s : String) : (text s).IsFinite := every_atom_iff.2 fun _ => nofun

/-- A list is finite just if its items are. -/
theorem isFinite_list_iff {m : Option Mark} {items : List Value} :
    (list m items).IsFinite ↔ ∀ v ∈ items, v.IsFinite := by
  rw [IsFinite, every_iff]
  exact and_iff_right (isFiniteNode_of_isBox rfl)

/-- An object whose keys are texts is finite just if its values are. -/
theorem isFinite_object_iff {m : Option Mark} {es : List (Atom × Value)}
    (htexts : ∀ e ∈ es, ∃ key, e.1 = .text key) :
    (object m es).IsFinite ↔ ∀ e ∈ es, e.2.IsFinite := by
  refine ⟨fun h => h.entries.values, fun h => EveryIn.object ⟨fun e he => ?_, h⟩ ?_⟩
  · obtain ⟨key, hkey⟩ := htexts e he
    rw [hkey]
    exact fun _ => nofun
  · exact isFiniteNode_of_isBox rfl

/-- A record is finite just if its fields are. -/
theorem isFinite_record_iff {fields : List (String × Value)} :
    (record fields).IsFinite ↔ ∀ e ∈ fields, e.2.IsFinite := by
  rw [record, isFinite_object_iff (List.forall_mem_map.2 fun e _ => ⟨e.1, rfl⟩)]
  exact List.forall_mem_map

/-- What is written with known keys has no numbers. -/
theorem isFinite_of_isWritten (h : v.Every IsWritten) : v.IsFinite := by
  refine h.mono fun x hx => ?_
  rintro f rfl
  cases hx

end Value

open Value

/-! ## Finite fragments -/

/-- The headers of a block are finite. -/
theorem headersOf_isFinite {markOf : String → Option Mark} {b : Block} :
    ∀ e ∈ Fragment.headersOf markOf b, e.2.IsFinite := by
  refine List.forall_mem_map.2 fun e _ => ?_
  refine (isFinite_object_iff (List.forall_mem_map.2 fun h _ => ⟨h.1, rfl⟩)).2 ?_
  exact List.forall_mem_map.2 fun h _ => isFinite_of_isWritten h.2.isWritten

/-- A response with finite headers is finite. -/
theorem Response.isFinite {headers : List (Atom × Value)} (hheaders : ∀ e ∈ headers, e.2.IsFinite)
    (tag : Tag) : (Response.ofTag headers tag).2.toValue.IsFinite := by
  refine isFinite_record_iff.2 (List.forall_mem_cons.2 ⟨isFinite_text _, ?_⟩)
  refine List.forall_mem_append.2 ⟨forall_mem_elim fun h hh => ?_, forall_mem_elim fun s hs => ?_⟩
  · obtain ⟨k, hk⟩ := Assoc.mem_of_get? hh
    exact List.forall_mem_singleton.2 (hheaders _ hk)
  · exact List.forall_mem_singleton.2 (isFinite_of_isWritten (schemaOf?_isNamed hs).isWritten)

/-- A field of an operation is finite, unless it is its security requirements. -/
theorem FieldOf.isFinite {b : Block} {headers : List (Atom × Value)}
    (hheaders : ∀ e ∈ headers, e.2.IsFinite) {e : Atom × Value} (h : FieldOf b headers e)
    (hkey : e.1 ≠ .text "security") : e.2.IsFinite := by
  cases h with
  | parameters hps =>
    refine isFinite_list_iff.2 (List.forall_mem_map.2 fun q hq => ?_)
    obtain ⟨tag, -, rfl⟩ := hps q hq
    exact isFinite_of_isWritten (Parameter.ofTag_isWritten tag)
  | description s => exact isFinite_text s
  | group => exact isFinite_list_iff.2 (List.forall_mem_singleton.2 (isFinite_text _))
  | attr _ ha =>
    rename_i a _
    cases a with
    | summary s | operationId s =>
      cases s with
      | none => exact every_atom_iff.2 fun _ => nofun
      | some s => exact isFinite_text s
    | produces types | consumes types => exact isFinite_of_isWritten (textsValue_isWritten types)
    | security v => exact absurd rfl hkey
    | deprecated => exact isFinite_of_isWritten (bool_isWritten true)
  | responses hrs =>
    rename_i rs
    refine (isFinite_object_iff (List.forall_mem_map.2 fun r _ => ⟨r.1, rfl⟩)).2 ?_
    refine List.forall_mem_map.2 fun r hr => ?_
    obtain ⟨tag, -, -, hr⟩ := hrs r hr
    rw [← hr]
    exact Response.isFinite hheaders tag

/-- An example is finite unless it is read as a number that is not. -/
theorem isFinite_exampleValue_iff (type : String) (t : List Char) :
    (exampleValue type t).IsFinite ↔
      (type = "integer" → Numeral.integer? t = none →
        ∀ x, Numeral.float? t = some x → x.isFinite = true) := by
  have hatom : ∀ a : Atom, (∀ x, a ≠ .float x) → (Value.atom a).IsFinite :=
    fun a ha => every_atom_iff.2 fun x hx => absurd (Value.atom.inj hx) (ha x)
  rw [exampleValue]
  by_cases hbool : type = "boolean"
  · subst hbool
    exact iff_of_true (hatom _ fun _ => nofun) fun h => absurd h (by decide)
  by_cases hinteger : type = "integer"
  · rw [if_neg (by simpa using hbool), if_pos (by simpa using hinteger), imp_iff_right hinteger]
    cases hi : Numeral.integer? t with
    | some i => exact iff_of_true (hatom _ fun _ => nofun) fun h => by cases h
    | none =>
      rw [imp_iff_right rfl]
      cases hx : Numeral.float? t with
      | none => exact iff_of_true (hatom _ fun _ => nofun) fun x h => by cases h
      | some x =>
        refine every_atom_iff.trans ⟨fun h y hy => ?_, fun h y hy => ?_⟩
        · exact (Option.some.inj hy) ▸ h x rfl
        · cases hy
          exact h x rfl
  · rw [if_neg (by simpa using hbool), if_neg (by simpa using hinteger)]
    exact iff_of_true (isFinite_text _) fun h => absurd h hinteger

/-- A property is finite just if the number in its example is. -/
theorem Property.isFinite_iff (readOnly : Bool) (tag : Tag) :
    (Property.ofTag readOnly tag).toValue.IsFinite ↔
      ∀ x, tag.exampleNumber? = some x → x.isFinite = true := by
  -- what is written is finite, so the example alone decides
  have hexample : (Property.ofTag readOnly tag).toValue.IsFinite ↔
      ∀ v, (Property.ofTag readOnly tag).example? = some v → v.IsFinite := by
    rcases Property.ofTag_cases readOnly tag with
      ⟨hnone, hwritten⟩ | ⟨fields, a, hfields, hsome, heq⟩
    · rw [hnone]
      exact iff_of_true (isFinite_of_isWritten hwritten) fun _ => nofun
    · rw [heq, hsome, isFinite_record_iff, List.forall_mem_append, List.forall_mem_singleton]
      constructor
      · rintro ⟨-, ha⟩ v hv
        cases hv
        exact ha
      · exact fun h => ⟨fun e he => isFinite_of_isWritten (hfields e he).2, h _ rfl⟩
  rw [hexample, Property.example?_ofTag, Tag.exampleNumber?]
  -- only an integer without a schema has its example read as a number
  by_cases hschema : schemaOf? tag.type = none
  · by_cases hinteger : bareTypeOf tag.type = "integer"
    · have hshown : schemaOf? tag.type = none ∧ bareTypeOf tag.type ≠ "enum" :=
        ⟨hschema, by rw [hinteger]; decide⟩
      rw [if_pos hshown, if_pos ⟨hschema, hinteger⟩]
      cases exampleOf? tag.text with
      | none => exact iff_of_true (fun _ => nofun) fun _ => nofun
      | some t =>
        simp only [Option.map_some, Option.some.injEq, forall_eq', Option.bind_some,
          isFinite_exampleValue_iff, hinteger, forall_const]
        cases Numeral.integer? t <;> simp
    · rw [if_neg fun h : _ ∧ bareTypeOf tag.type = "integer" => hinteger h.2]
      refine iff_of_true (fun v hv => ?_) fun _ => nofun
      obtain ⟨-, hv⟩ := Option.ite_none_right_eq_some.1 hv
      obtain ⟨t, -, rfl⟩ := Option.map_eq_some_iff.1 hv
      exact (isFinite_exampleValue_iff _ t).2 fun h => absurd h hinteger
  · rw [if_neg fun h => hschema h.1, if_neg fun h => hschema h.1]
    exact iff_of_true (fun _ => nofun) fun _ => nofun

/-- A definition is finite just if its properties are. -/
theorem Definition.IsOf.isFinite_iff {head : Tag} {rest : List Tag} {d : Definition}
    (h : d.IsOf head rest) : d.toValue.IsFinite ↔ ∀ e ∈ d.properties, e.2.toValue.IsFinite := by
  have hbase : ∀ e ∈ (d.base.elim [] fun b => [("allOf", .array [definitionRef b])] :
      List (String × Value)), e.2.IsFinite := by
    refine forall_mem_elim fun b hb => List.forall_mem_singleton.2 ?_
    refine isFinite_list_iff.2 (List.forall_mem_singleton.2 ?_)
    exact isFinite_of_isWritten (definitionRef_isWritten (ne_empty_of_baseOf (h.base ▸ hb)))
  have hproperties : (Value.map (d.properties.map fun e => (.text e.1, e.2.toValue))).IsFinite ↔
      ∀ e ∈ d.properties, e.2.toValue.IsFinite := by
    rw [isFinite_object_iff (List.forall_mem_map.2 fun e _ => ⟨e.1, rfl⟩), List.forall_mem_map]
  have hrequired : (textsValue d.required).IsFinite :=
    isFinite_of_isWritten (textsValue_isWritten _)
  rw [Definition.toValue, isFinite_record_iff, List.forall_mem_append, and_iff_left hbase,
    List.forall_mem_cons, List.forall_mem_singleton, and_iff_right hrequired]
  exact hproperties

/-- A definition is finite just if the examples in the last tags for its properties are. -/
theorem Definition.isFinite_iff {head : Tag} {rest : List Tag} {name : String} {d : Definition}
    (h : Definition.ofTags head rest = .ok (name, d)) :
    d.toValue.IsFinite ↔ ∀ property tag x, lastDeclaring? property rest = some tag →
      tag.exampleNumber? = some x → x.isFinite = true := by
  rw [(ofTags_isOf h).2.isFinite_iff,
    forall_properties_iff h (p := fun property => property.toValue.IsFinite)]
  refine forall₂_congr fun property tag => ⟨fun hall x hlast hx => ?_, fun hall x hlast hx => ?_⟩
  · obtain ⟨y, hy⟩ : ∃ y, tag.declaration? = some y := by
      obtain ⟨y, hy, -⟩ := (Option.any_eq_true _ _).1
        (List.mem_filter.1 (List.mem_of_getLast? hlast)).2
      exact ⟨y, hy⟩
    obtain ⟨-, name, -, -, rfl⟩ := Tag.declaration?_eq_some_iff.1 hy
    exact (Property.isFinite_iff _ tag).1 (hall _ hlast hy) x hx
  · obtain ⟨-, name, -, -, rfl⟩ := Tag.declaration?_eq_some_iff.1 hx
    exact (Property.isFinite_iff _ tag).2 fun y hy => hall y hlast hy

namespace Fragment

/-- Methods whose security requirements are finite. -/
def SecurityFinite (methods : Value) : Prop :=
  ∀ method v, (methods.field? method).bind (field? "security") = some v → v.IsFinite

/-- Methods that differ in marks only have finite requirements together. -/
theorem SecurityFinite.of_plain {u w : Value} (h : SecurityFinite u) (heq : w.plain = u.plain) :
    SecurityFinite w := by
  have hfield : ∀ (x : Value) (method : String),
      ((x.plain.field? method).bind (field? "security")) =
        ((x.field? method).bind (field? "security")).map plain := by
    intro x method
    rw [field?_plain]
    cases x.field? method with
    | none => rfl
    | some y => exact field?_plain "security" y
  intro method v hv
  have hplain : ((u.field? method).bind (field? "security")).map plain = some v.plain := by
    rw [← hfield, ← heq, hfield, hv, Option.map_some]
  obtain ⟨v', hv', heq'⟩ := Option.map_eq_some_iff.1 hplain
  exact (isFinite_congr heq').1 (h method v' hv')

/-- The methods of a path are finite if their security requirements are. -/
theorem SecurityFinite.isFinite {markOf : String → Option Mark} {b : Block} {uri : String}
    {methods : Assoc String (List (Atom × Value))} (hfilled : Assoc.Every IsFilled methods)
    (hmethods : ∀ e ∈ methods, MethodOf b (headersOf markOf b) ⟨e.1, uri⟩ e.2)
    (h : SecurityFinite (methodsValue methods)) : (methodsValue methods).IsFinite := by
  have hmethod : ∀ e ∈ methods, (methodsValue methods).field? e.1 = some (.map e.2) := by
    intro e he
    rw [methodsValue, field?, Assoc.get?_mapValues, Assoc.get?_texts,
      Assoc.get?_of_mem hfilled.distinct he]
    rfl
  rw [methodsValue, Assoc.mapValues_texts,
    isFinite_object_iff (List.forall_mem_map.2 fun e _ => ⟨e.1, rfl⟩), List.forall_mem_map]
  intro e he
  have hfields := hfilled.values e he
  rw [isFinite_object_iff hfields.texts]
  intro field hfield
  by_cases hkey : field.1 = .text "security"
  · apply h e.1
    rw [hmethod e he, Option.bind_some, field?, ← hkey]
    exact Assoc.get?_of_mem hfields.distinct hfield
  · exact ((hmethods e he).fieldOf field hfield).isFinite headersOf_isFinite hkey

end Fragment

namespace Document

/-! ## Finite sections -/

variable {heap : Nat → Value} {entries : List (Atom × Value)} {m : Option Mark}
  {old new value : Value}

/-- A finite value stays finite when a finite object takes the place of another in it. -/
theorem isFinite_patch {v : Value} (h : v.IsFinite) (hnew : new.IsFinite) :
    (patch old new v).IsFinite := by
  unfold patch
  split
  · exact h.refresh IsFiniteNode.mapParts hnew _
  · exact h

/-- A finite document stays finite with a finite section. -/
theorem isFinite_putSection (h : (Value.object m entries).IsFinite) (hnew : new.IsFinite)
    (key : String) (old : Value) : (Value.object m (putSection key old new entries)).IsFinite := by
  have hinsert : EveryIn IsFiniteNode (Assoc.insert (.text key) new entries) :=
    h.entries.insert (fun _ => nofun) hnew
  rw [putSection_eq]
  refine EveryIn.object ⟨?_, ?_⟩ (isFiniteNode_of_isBox rfl)
  · exact List.forall_mem_map.2 hinsert.keys
  · exact List.forall_mem_map.2 fun e he => isFinite_patch (hinsert.values e he) hnew

/-- What grows by finite parts stays finite. -/
theorem Grown.isFinite (h : Grown IsFiniteNode old new) (hold : old.IsFinite) : new.IsFinite := by
  refine every_iff.2 ⟨?_, h.every fun _ => hold.part⟩
  cases h.regrown with
  | refl => exact hold.self
  | _ => exact isFiniteNode_of_isBox rfl

/-- A section with finite parts merged in is finite. -/
theorem isFinite_mergeSection (hold : old.IsFinite) (kind : SectionKind) (hvalue : value.IsFinite) :
    (mergeSection kind old value).value.IsFinite :=
  (mergeSection_grown holdsOfNew_isFiniteNode kind hvalue).isFinite hold

/-- The sections of a finite document are finite. -/
theorem isFinite_sectionOf (h : (Value.object m entries).IsFinite) (key : String)
    (kind : SectionKind) : (sectionOf key kind entries).IsFinite := by
  unfold sectionOf
  cases hget : Assoc.get? (.text key) entries with
  | some v => exact h.entries.get? hget
  | none =>
    cases kind <;> exact every_iff.2
      ⟨isFiniteNode_of_isBox rfl, fun w hw => absurd hw List.not_mem_nil⟩

/-- A finite document stays finite when it takes in a finite property. -/
theorem isFinite_mergeInto (h : (Value.object m entries).IsFinite) (hvalue : value.IsFinite)
    (key : String) (kind : SectionKind) :
    (Value.object m (mergeInto key kind value entries)).IsFinite :=
  isFinite_putSection h
    (isFinite_mergeSection (isFinite_sectionOf h key kind) kind hvalue) key _

/-! ## Paths that are reached -/

/-- Only the paths in front of the first one that there is no room for matter to a merge. -/
theorem mergePaths_takeWhile {uris : List String} {new : List (Atom × Value)}
    (hnew : PathEntries uris new) {m m' : Option Mark} {ps : List (Atom × Value)} :
    (mergePaths (.object m' ps) (.object m new)).value =
      (mergePaths (.object m' ps)
        (.object m (new.takeWhile fun e => opens (Assoc.get? e.1 ps)))).value := by
  have hfront := hnew.takeWhile fun k => opens (Assoc.get? k ps)
  have hall : ∀ e ∈ new.takeWhile (fun e => opens (Assoc.get? e.1 ps)),
      opens (Assoc.get? e.1 ps) = true := by
    intro e he
    have hopens := List.mem_takeWhile_imp he
    exact hopens
  rw [mergePaths, mergePaths, (addPaths_eq m' ps hnew.distinct hnew.isObject).1,
    (addPaths_eq m' ps hfront.distinct hfront.isObject).1, List.takeWhile_eq_self_iff.2 hall]

/-- A field of a path that is reached is there after the merge. -/
theorem field?_mergePaths {uris : List String} {new : List (Atom × Value)}
    (hnew : PathEntries uris new) {m : Option Mark} {p : Value} {uri method key : String}
    {v : Value} (huri : uri ∈ uris.takeWhile (hasRoom · p))
    (hv : (((Value.object m new).field? uri).bind (field? method)).bind (field? key) = some v) :
    ((((mergePaths p (.object m new)).value.field? uri).bind (field? method)).bind (field? key)) =
      some v := by
  obtain ⟨o, ho, hv⟩ := Option.bind_eq_some_iff.1 hv
  obtain ⟨u, hu, ho⟩ := Option.bind_eq_some_iff.1 ho
  have hrecord : IsRecord (IsRecord fun _ => True) u :=
    hnew.records _ (Assoc.mem_of_get?_of_isExact (Atom.isExact_text uri) hu)
  have hrecord' : IsRecord (fun _ => True) o := hrecord.of_field? ho
  obtain ⟨mu, ms, rfl, hms, -⟩ := hrecord
  obtain ⟨mo, fields, rfl, hfields, -⟩ := hrecord'
  cases p with
  | object m' ps =>
    have hfront := hnew.takeWhile fun k => opens (Assoc.get? k ps)
    have hmem : (Atom.text uri, Value.object mu ms) ∈
        new.takeWhile fun e => opens (Assoc.get? e.1 ps) := by
      apply Assoc.mem_of_get?_of_isExact (Atom.isExact_text uri)
      rw [hnew.get?_takeWhile (fun k => opens (Assoc.get? k ps)) huri]
      exact hu
    have hpath := Assoc.get?_mergeWith_of_mem joinPath hfront.distinct hmem ps
    have hop := Assoc.get?_mergeWith_of_mem overlay hms.distinct
      (Assoc.mem_of_get?_of_isExact (Atom.isExact_text method) ho)
      (methodsOf (Assoc.get? (.text uri) ps))
    rw [mergePaths, (addPaths_eq m' ps hnew.distinct hnew.isObject).1]
    simp only [field?] at hv ⊢
    rw [hpath, Option.bind_some, joinPath]
    simp only [field?, Value.entries]
    -- the fields of the operation lie on top
    have htop : (overlay (Assoc.get? (.text method) (methodsOf (Assoc.get? (.text uri) ps)))
        (.object mo fields)).field? key = some v := by
      rw [field?_overlay hfields.distinct, hv, Option.some_or]
    rw [hop, Option.bind_some]
    exact htop
  | _ =>
    have hroom := List.mem_takeWhile_imp huri
    cases hroom

/-! ## One fragment -/

/-- The fields of the operations of a finite document are finite. -/
theorem isFinite_of_fieldAt? {document v : Value} {route : Route} {key : String}
    (h : document.IsFinite) (hv : fieldAt? route key document = some v) : v.IsFinite := by
  obtain ⟨op, hop, hv⟩ := Option.bind_eq_some_iff.1 hv
  obtain ⟨methods, hmethods, hop⟩ := Option.bind_eq_some_iff.1 hop
  obtain ⟨paths, hpaths, hmethods⟩ := Option.bind_eq_some_iff.1 hmethods
  exact (((h.field? hpaths).field? hmethods).field? hop).field? hv

/-- A finite document stays finite with paths that are finite up to the first that it does not
take. -/
theorem isFinite_mergeInto_paths (hfinite : (Value.object m entries).IsFinite) {p : Value}
    (hp : Assoc.get? (.text "paths") entries = some p) {uris : List String}
    {new : List (Atom × Value)} (hnew : PathEntries uris new) (mp : Option Mark)
    (hall : ∀ uri ∈ uris.takeWhile (hasRoom · p), ∀ u, (.text uri, u) ∈ new → u.IsFinite) :
    (Value.object m (mergeInto "paths" .paths (.object mp new) entries)).IsFinite := by
  rw [mergeInto_eq hp]
  refine isFinite_putSection hfinite ?_ _ _
  show (mergePaths _ _).value.IsFinite
  have hpfinite : p.IsFinite := hfinite.entries.get? hp
  by_cases hobject : p.isObject = true
  · obtain ⟨m', ps, rfl⟩ := isObject_iff.1 hobject
    have hfront := hnew.takeWhile fun k => opens (Assoc.get? k ps)
    rw [mergePaths_takeWhile hnew]
    refine isFinite_mergeSection hpfinite .paths ((isFinite_object_iff ?_).2 ?_)
    · exact fun e he => (hfront.texts e he).imp fun _ huri => huri.2
    · rintro ⟨_, u⟩ he
      obtain ⟨uri, huri, rfl⟩ := hfront.texts _ he
      exact hall uri huri u ((List.takeWhile_sublist _).subset he)
  · rw [mergePaths_value_of_not_isObject (Bool.eq_false_iff.2 hobject)]
    exact hpfinite

/-- A document that is finite with paths stays so with finite groups and definitions. -/
theorem isFinite_mergeParts {paths groups definitions : Value}
    (hpaths : (Value.object m (mergeInto "paths" .paths paths entries)).IsFinite)
    (hgroups : groups.IsFinite) (hdefinitions : definitions.IsFinite) :
    (Value.object m (mergeParts paths groups definitions entries).1).IsFinite := by
  have hboth := isFinite_mergeInto hpaths hgroups "tags" .groups
  unfold mergeParts
  simp only
  split
  · exact hpaths
  · split
    · exact hboth
    · exact isFinite_mergeInto hboth hdefinitions "definitions" .map

/-- The paths of a fragment leave a finite document finite just if the security requirements of
those that are reached are finite. -/
theorem isFinite_mergeParts_paths_iff (h : Sound heap entries)
    (hfinite : (Value.object m entries).IsFinite) {p : Value}
    (hp : Assoc.get? (.text "paths") entries = some p) {uris : List String} {mp md : Option Mark}
    {new : List (Atom × Value)} (hnew : PathEntries uris new) (hpaths : (Value.object mp new).IsNew)
    (hsecurity : ∀ e ∈ new, Fragment.SecurityFinite e.2 → e.2.IsFinite) {groups : Value}
    (hgroups : groups.IsNew) (hgfinite : groups.IsFinite)
    (hdefinitions : (Value.object md []).IsNew) :
    (Value.object m (mergeParts (.object mp new) groups (.object md []) entries).1).IsFinite ↔
      ∀ uri ∈ uris.takeWhile (hasRoom · p), ∀ u, (Value.object mp new).field? uri = some u →
        Fragment.SecurityFinite u := by
  constructor
  · intro hafter uri huri u hu method v hv
    have hnewv : v.IsNew := by
      obtain ⟨o, ho, hv⟩ := Option.bind_eq_some_iff.1 hv
      exact ((hpaths.field? hu).field? ho).field? hv
    have hthere : fieldAt? ⟨method, uri⟩ "security"
        (.object m (mergeInto "paths" .paths (.object mp new) entries)) = some v := by
      have hmerged := field?_mergePaths (m := mp) hnew huri (by rw [hu, Option.bind_some, hv])
      rw [fieldAt?, field?, mergeInto_eq hp,
        get?_putSection_self (mergeSection_gain .paths hpaths).regrown, Option.bind_some]
      exact hmerged
    exact isFinite_of_fieldAt? hafter
      (fieldAt?_mergeParts h hpaths hgroups hdefinitions hnewv hthere)
  · intro hall
    have hempty : (Value.object md []).IsFinite :=
      (isFinite_object_iff fun _ he => absurd he List.not_mem_nil).2
        fun _ he => absurd he List.not_mem_nil
    refine isFinite_mergeParts (isFinite_mergeInto_paths hfinite hp hnew mp ?_) hgfinite hempty
    exact fun uri huri u hu =>
      hsecurity _ hu (hall uri huri u (Assoc.get?_of_mem hnew.distinct hu))

/-- A document that takes a definition: its definitions are an object that lacks the name. -/
def Lacks (document : Value) (name : String) : Prop :=
  ∃ u, document.field? "definitions" = some u ∧ u.isObject = true ∧ u.field? name = none

/-- Without paths and groups only the definitions of a fragment are merged. -/
theorem mergeParts_definitions (h : Sound heap entries) (hsections : HasSections entries)
    {mp mg : Option Mark} (definitions : Value) :
    (mergeParts (.object mp []) (.list mg []) definitions entries).1 =
      mergeInto "definitions" .map definitions entries := by
  obtain ⟨p, hp⟩ := Option.isSome_iff_exists.1 (hsections "paths" (by decide))
  obtain ⟨t, ht⟩ := Option.isSome_iff_exists.1 (hsections "tags" (by decide))
  have hpsame : mergeSection .paths p (.object mp []) = ⟨p, none⟩ := by cases p <;> rfl
  have htsame : mergeSection .groups t (.list mg []) = ⟨t, none⟩ := rfl
  simp only [mergeParts, faultInto, sectionOf_eq hp, hpsame,
    h.mergeInto_eq_self hp (congrArg Merged.value hpsame), sectionOf_eq ht, htsame,
    h.mergeInto_eq_self ht (congrArg Merged.value htsame)]

/-- A definition leaves a finite document finite just if the document has one of that name already,
or the definition is finite. -/
theorem isFinite_mergeParts_definition_iff (h : Sound heap entries)
    (hsections : HasSections entries) (hfinite : (Value.object m entries).IsFinite)
    {mp mg md : Option Mark} {name : String} {v : Value} :
    (Value.object m (mergeParts (.object mp []) (.list mg [])
        (.object md [(.text name, v)]) entries).1).IsFinite ↔
      (Lacks (.object m entries) name → v.IsFinite) := by
  obtain ⟨u, hu⟩ := Option.isSome_iff_exists.1 (hsections "definitions" (by decide))
  rw [mergeParts_definitions h hsections]
  by_cases hlacks : Lacks (.object m entries) name
  · rw [imp_iff_right hlacks]
    obtain ⟨u', hu', hobject, hnone⟩ := hlacks
    obtain rfl : u = u' := Option.some.inj (hu.symm.trans hu')
    obtain ⟨mu, es, rfl⟩ := isObject_iff.1 hobject
    have hnot : Assoc.has (.text name) es = false := by
      rw [Assoc.has]
      exact Option.isSome_eq_false_iff.2 (Option.isNone_iff_eq_none.2 hnone)
    have hnew : (mergeSection .map (.object mu es) (.object md [(.text name, v)])).value =
        .object mu (es ++ [(.text name, v)]) := by
      simp only [mergeSection, mergeMap, addNew, Assoc.insertNew, hnot, Bool.false_eq_true,
        if_false]
    rw [mergeInto_eq hu, hnew]
    constructor
    · intro hafter
      have hdefinitions : (Value.object mu (es ++ [(.text name, v)])).IsFinite :=
        hafter.entries.get? (get?_putSection_self (.object mu _ _) "definitions")
      exact hdefinitions.entries.values (.text name, v)
        (List.mem_append_right _ (List.mem_singleton_self _))
    · intro hv
      have hold : (Value.object mu es).IsFinite := hfinite.entries.get? hu
      refine isFinite_putSection hfinite (EveryIn.object (hold.entries.append ?_) ?_) _ _
      · exact everyIn_cons_iff.2 ⟨⟨every_atom_iff.1 (isFinite_text name), hv⟩, everyIn_nil⟩
      · exact isFiniteNode_of_isBox rfl
  · -- what is there already wins, and what is no object takes nothing
    have hsame : (mergeSection .map u (.object md [(.text name, v)])).value = u := by
      by_cases hobject : u.isObject = true
      · obtain ⟨mu, es, rfl⟩ := isObject_iff.1 hobject
        have hhas : Assoc.has (.text name) es = true := by
          by_contra hnot
          exact hlacks ⟨_, hu, rfl, Option.not_isSome_iff_eq_none.1 hnot⟩
        simp only [mergeSection, mergeMap, addNew, Assoc.insertNew, hhas, if_true]
      · cases u with
        | object mu es => exact absurd rfl hobject
        | _ => rfl
    rw [h.mergeInto_eq_self hu hsame]
    exact iff_of_true hfinite fun hl => absurd hl hlacks

/-- What a block adds to a document is finite, told by its texts. Up to the first path that the
document does not take, the last security requirements for each route are finite. If the block
starts with a typedef whose name is new to the document, the last tag for each property has no other
number in its example. -/
structure AddsFinite (document : Value) (b : Block) : Prop where
  security : (∀ head ∈ b.tags.head?, head.kind? ≠ some .typedef) → ∀ route v,
    route.uri ∈ ((Fragment.routesOf b).map Route.uri).takeWhile (takes document) →
      (Fragment.securities b route).getLast? = some v → v.IsFinite
  examples : ∀ head rest name, b.tags = head :: rest → head.kind? = some .typedef →
    head.name = some name → Lacks document name → ∀ property tag x,
      Definition.lastDeclaring? property rest = some tag → tag.exampleNumber? = some x →
        x.isFinite = true

/-- A typedef block adds finite values just if its definition is finite or not new. -/
theorem addsFinite_typedef_iff {document : Value} {b : Block} {head : Tag} {rest : List Tag}
    {name : String} {d : Definition} (htags : b.tags = head :: rest)
    (hkind : head.kind? = some .typedef) (hd : Definition.ofTags head rest = .ok (name, d)) :
    AddsFinite document b ↔ (Lacks document name → d.toValue.IsFinite) := by
  obtain ⟨hname, -⟩ := nonempty?_eq_some_iff.1 (Definition.ofTags_isOf hd).1
  rw [Definition.isFinite_iff hd]
  constructor
  · intro hadds
    exact hadds.examples head rest name htags hkind hname
  · refine fun hall => ⟨fun hfirst => absurd hkind (hfirst head (by rw [htags]; rfl)), ?_⟩
    intro head' rest' name' htags' _ hname'
    obtain ⟨rfl, rfl⟩ := List.cons.inj (htags.symm.trans htags')
    obtain rfl := Option.some.inj (hname.symm.trans hname')
    exact hall

/-- A block without a typedef adds finite values just if the security requirements in its fragment
are finite, for the paths that are reached. -/
theorem addsFinite_operations_iff {document : Value} {markOf : String → Option Mark} {b : Block}
    {f : Fragment} (hfirst : ∀ head ∈ b.tags.head?, head.kind? ≠ some .typedef)
    (hf : Fragment.ofBlock markOf b = .ok f) :
    AddsFinite document b ↔ ∀ route v,
      route.uri ∈ (f.paths.map Prod.fst).takeWhile (takes document) →
        fieldAt? route "security" f.toValue = some v → v.IsFinite := by
  have hfield : ∀ route, fieldAt? route "security" f.toValue =
      (Fragment.securities b route).getLast? := by
    intro route
    rw [fieldAt?, Fragment.fieldIn?_eq, Fragment.fieldIn?_security hfirst hf]
  simp only [Fragment.mem_takeWhile_paths hfirst hf, hfield]
  refine ⟨fun hadds => hadds.security hfirst, fun hall => ⟨fun _ => hall, ?_⟩⟩
  intro head rest _ htags hkind
  exact absurd hkind (hfirst head (by rw [htags]; rfl))

/-- A fragment of one definition leaves a finite document finite just if the document has one of
that name already, or the definition is finite. -/
theorem isFinite_add_definition_iff (h : Sound heap entries) (hsections : HasSections entries)
    (hfinite : (Value.object m entries).IsFinite) {name : String} {d : Definition} {v : Value}
    (hv : ({ definitions := [(name, d)] } : Fragment).Denotes v) :
    (add (.object m entries) (.array [v])).value.IsFinite ↔
      (Lacks (.object m entries) name → d.toValue.IsFinite) := by
  obtain ⟨mv, paths, groups, definitions, rfl, ⟨hpcontent, -⟩, ⟨hgcontent, -⟩, hdcontent, -⟩ :=
    hv.parts
  obtain ⟨mp, new, rfl, hnew⟩ := eq_object_of_plain hpcontent
  obtain rfl : new = [] := List.map_eq_nil_iff.1 hnew
  obtain ⟨mg, items, rfl, hitems⟩ := eq_list_of_plain hgcontent
  obtain rfl : items = [] := List.map_eq_nil_iff.1 hitems
  obtain ⟨md, es, rfl, hes⟩ := eq_object_of_plain hdcontent
  obtain ⟨⟨_, u⟩, _, rfl, hu, hnil⟩ := List.map_eq_cons_iff.1 hes
  obtain rfl := List.map_eq_nil_iff.1 hnil
  obtain ⟨rfl, hu⟩ := Prod.mk.inj hu
  rw [add_fragment, isFinite_mergeParts_definition_iff h hsections hfinite, isFinite_congr hu]

/-- The field of a route is finite in values that differ in marks only, or in none of them. -/
theorem isFinite_fieldAt?_congr {u v : Value} (h : u.plain = v.plain) {route : Route}
    {key : String} : (∀ w, fieldAt? route key u = some w → w.IsFinite) ↔
      ∀ w, fieldAt? route key v = some w → w.IsFinite := by
  have hone : ∀ {u v : Value}, u.plain = v.plain →
      (∀ w, fieldAt? route key u = some w → w.IsFinite) →
        ∀ w, fieldAt? route key v = some w → w.IsFinite := by
    intro u v h hall w hw
    obtain ⟨w', hw', hplain⟩ := exists_fieldAt?_of_plain h hw
    exact (isFinite_congr hplain).1 (hall w' hw')
  exact ⟨hone h, hone h.symm⟩

/-- A fragment of operations leaves a finite document finite just if the security requirements of
its routes are finite, up to the first path that the document does not take. -/
theorem isFinite_add_operations_iff (h : Sound heap entries) (hsections : HasSections entries)
    (hfinite : (Value.object m entries).IsFinite) {markOf : String → Option Mark} {b : Block}
    {f : Fragment} (hf : Fragment.ofBlock markOf b = .ok f) (hnone : f.definitions = [])
    {v : Value} (hv : f.Denotes v) :
    (add (.object m entries) (.array [v])).value.IsFinite ↔
      ∀ route w, route.uri ∈ (f.paths.map Prod.fst).takeWhile (takes (.object m entries)) →
        fieldAt? route "security" f.toValue = some w → w.IsFinite := by
  obtain ⟨mv, paths, groups, definitions, rfl, ⟨hpcontent, hpnew⟩, ⟨hgcontent, hgnew⟩, hdcontent,
    hdnew⟩ := hv.parts
  obtain ⟨p, hp⟩ := Option.isSome_iff_exists.1 (hsections "paths" (by decide))
  rw [Fragment.pathsValue_eq] at hpcontent
  have hfilled := Fragment.ofBlock_pathsFilled hf
  obtain ⟨mp, new, rfl, hentries⟩ := PathEntries.of_plain hfilled hpcontent
  obtain ⟨md, es, rfl, hes⟩ := eq_object_of_plain hdcontent
  rw [hnone] at hes
  obtain rfl := List.map_eq_nil_iff.1 hes
  have hgfinite : groups.IsFinite := by
    rw [isFinite_congr hgcontent, Fragment.groupsValue, isFinite_list_iff]
    exact List.forall_mem_map.2 fun g _ => isFinite_of_isWritten (Fragment.groupValue_isWritten g)
  have hsecurity : ∀ e ∈ new, Fragment.SecurityFinite e.2 → e.2.IsFinite := by
    intro e he hsec
    obtain ⟨path, hpath, -, hplain⟩ := exists_path_of_plain hpcontent he
    rw [isFinite_congr hplain]
    exact (hsec.of_plain hplain.symm).isFinite (hfilled.values path hpath).1
      (Fragment.ofBlock_methodsOf hf path hpath)
  rw [add_fragment,
    isFinite_mergeParts_paths_iff h hfinite hp hentries hpnew hsecurity hgnew hgfinite hdnew,
    takes_eq_hasRoom hp]
  constructor
  · intro hall route w huri
    refine (isFinite_fieldAt?_congr hv.content).1 (fun w' hw' => ?_) w
    obtain ⟨op, hop, hw'⟩ := Option.bind_eq_some_iff.1 hw'
    obtain ⟨u, hu, hop⟩ := Option.bind_eq_some_iff.1 hop
    exact hall route.uri huri u hu route.method w' (by rw [hop, Option.bind_some, hw'])
  · intro hadds uri huri u hu method w hw
    refine (isFinite_fieldAt?_congr hv.content).2 (fun w' => hadds ⟨method, uri⟩ w' huri) w ?_
    show (((Value.object mp new).field? uri).bind (field? method)).bind (field? "security") = _
    rw [hu, Option.bind_some, hw]

/-- A fragment leaves a finite document finite just if what its block adds is finite. -/
theorem isFinite_add_iff (h : Sound heap entries) (hsections : HasSections entries)
    (hfinite : (Value.object m entries).IsFinite) {markOf : String → Option Mark} {b : Block}
    {f : Fragment} (hf : Fragment.ofBlock markOf b = .ok f) {v : Value} (hv : f.Denotes v) :
    (add (.object m entries) (.array [v])).value.IsFinite ↔ AddsFinite (.object m entries) b := by
  rcases Fragment.ofBlock_cases hf with
    ⟨head, rest, name, d, htags, hkind, hd, rfl⟩ | ⟨ops, -, hops⟩
  · rw [isFinite_add_definition_iff h hsections hfinite hv, addsFinite_typedef_iff htags hkind hd]
  · have hnone : f.definitions = [] := by rw [hops]
    rw [isFinite_add_operations_iff h hsections hfinite hf hnone hv,
      addsFinite_operations_iff (Fragment.first_of_ofBlock hf hnone) hf]

/-! ## The run -/

/-- A block leaves a finite document finite just if it cannot be read, or what it adds is finite. -/
theorem addBlock_isFinite_iff {document : Value} (h : IsRunning document)
    (hfinite : document.IsFinite) (path : String) (number : Nat) (b : Block) :
    (addBlock path number document b).document.IsFinite ↔
      ∀ f, Fragment.ofBlock (fun code => some (.headers number code)) b = .ok f →
        AddsFinite document b := by
  rcases addBlock_cases path number document b with ⟨fault, hread, hsame⟩ | ⟨f, v, hread, hv, hadd⟩
  · rw [hsame, hread]
    exact iff_of_true hfinite fun f hf => by cases hf
  · obtain ⟨m, entries, heap, rfl, hsound, hsections⟩ := h
    rw [hadd, addFragment, isFinite_add_iff hsound hsections hfinite hread hv, hread]
    exact ⟨fun hadds _ _ => hadds, fun hadds => hadds f rfl⟩

/-- The document of a finite seed is finite. -/
theorem ofSeed_isFinite {seed document : Value} (hfinite : seed.IsFinite)
    (h : ofSeed seed = .ok document) : document.IsFinite := by
  obtain ⟨m, old, entries, rfl, rfl⟩ := eq_object_of_ofSeed h
  have hlist : (Value.array []).IsFiniteNode := isFiniteNode_of_isBox rfl
  exact (ofSeed_every holdsOfNew_isFiniteNode hlist h hfinite.entries).object
    (isFiniteNode_of_isBox rfl)

/-- Blocks all of which add finite values to finite documents give a finite document. -/
theorem runBlocks_isFinite {start : Value} (h : IsRunning start) (hfinite : start.IsFinite)
    {number : Nat} {blocks : List (String × Block)}
    (hadds : ∀ before path b after f, blocks = before ++ (path, b) :: after →
      Fragment.ofBlock (fun code => some (.headers (number + before.length) code)) b = .ok f →
      AddsFinite (runBlocks number start before).document b) :
    (runBlocks number start blocks).document.IsFinite := by
  induction blocks using List.reverseRecOn with
  | nil => exact hfinite
  | append_singleton blocks last ih =>
    obtain ⟨path, b⟩ := last
    have hbefore : (runBlocks number start blocks).document.IsFinite := by
      refine ih fun before path' b' after f heq hf => ?_
      exact hadds before path' b' (after ++ [(path, b)]) f (by rw [heq]; simp) hf
    rw [runBlocks_append]
    exact (addBlock_isFinite_iff (h.runBlocks number blocks) hbefore path _ b).2
      fun f hf => hadds blocks path b [] f rfl hf

end Document

open Document

/-- A document of source files is made of a finite document. Each block leaves a finite document
finite just if it cannot be read, or the security requirements and the examples in its texts that
count are finite; so if all blocks are such, then the document is finite. Its JSON text has the
names of no other numbers than those that the document shows, and none if the document is
finite. -/
theorem Options.generate_isFinite_iff (tree : FileTree) (options : Options)
    {places : List (List String)} (hglob : tree.glob options.basedir options.files = .ok places)
    (hread : (Value.map options.definition).IsRead)
    (hfinite : (Value.map options.definition).IsFinite) :
    ∃ start document, ofSeed (.map options.definition) = .ok start ∧ start.IsFinite ∧
      document = (runBlocks 0 start (blocksOf (tree.sources places))).document ∧
      (options.generate tree).document = .ok document ∧
      (∀ before path b after, blocksOf (tree.sources places) = before ++ (path, b) :: after →
        (runBlocks 0 start before).document.IsFinite →
        ((runBlocks 0 start (before ++ [(path, b)])).document.IsFinite ↔
          ∀ f, Fragment.ofBlock (fun code => some (.headers before.length code)) b = .ok f →
            AddsFinite (runBlocks 0 start before).document b)) ∧
      ((∀ before path b after f, blocksOf (tree.sources places) = before ++ (path, b) :: after →
          Fragment.ofBlock (fun code => some (.headers before.length code)) b = .ok f →
          AddsFinite (runBlocks 0 start before).document b) →
        document.IsFinite) ∧
      ∀ t, Format.json.write document = .ok t →
        (Json.HasName t ↔ ∃ x ∈ document.numbers, x.isFinite = false) ∧
        (document.IsFinite → ¬Json.HasName t) := by
  obtain ⟨entries, hseed⟩ := ofSeed_object none options.definition
  have hrunning := isRunning_ofSeed hread hseed
  have hstart := ofSeed_isFinite hfinite hseed
  refine ⟨_, _, hseed, hstart, rfl, (generate_eq_runBlocks tree options hglob hseed).1, ?_, ?_, ?_⟩
  · intro before path b after _ hbefore
    rw [runBlocks_append, Nat.zero_add]
    exact addBlock_isFinite_iff (hrunning.runBlocks 0 before) hbefore path before.length b
  · intro hadds
    refine runBlocks_isFinite hrunning hstart fun before path b after f heq hf => ?_
    rw [Nat.zero_add] at hf
    exact hadds before path b after f heq hf
  · intro t ht
    have hnames := Json.write_hasName_iff ht
    refine ⟨hnames, fun hdocument hname => ?_⟩
    obtain ⟨x, hx, hnot⟩ := hnames.1 hname
    rw [hdocument.isFinite_of_mem_numbers hx] at hnot
    cases hnot

/-- The empty seed is finite. -/
theorem blankOptions_isFinite : (Value.map blankOptions.definition).IsFinite :=
  (isFinite_object_iff fun _ he => absurd he List.not_mem_nil).2
    fun _ he => absurd he List.not_mem_nil

/-- A file with one block, whose security requirement is NaN. -/
def nanTree : FileTree :=
  ⟨[(["pets.js"], .file "/** @route GET /pets\n * @security NaN */".toUTF8)], []⟩

/-- A security requirement that is not finite leaves no finite document. -/
theorem Options.generate_isFinite_iff_nan :
    nanTree.glob blankOptions.basedir blankOptions.files = .ok [["pets.js"]] ∧
      (Value.map blankOptions.definition).IsFinite ∧
      ∃ document, (blankOptions.generate nanTree).document = .ok document ∧
        ¬document.IsFinite := by
  have hglob : nanTree.glob blankOptions.basedir blankOptions.files = .ok [["pets.js"]] := by
    decide +kernel
  obtain ⟨start, document, hseed, hstart, rfl, hdocument, hstep, -⟩ := generate_isFinite_iff nanTree
    blankOptions hglob ⟨fun _ => .null, markedEntries_nil.map⟩ blankOptions_isFinite
  refine ⟨hglob, blankOptions_isFinite, _, hdocument, fun hfinite => ?_⟩
  have hone : ((blocksOf (nanTree.sources [["pets.js"]])).map fun e =>
      (Fragment.ofBlock (fun code => some (.headers 0 code)) e.2).toOption.isSome &&
        e.2.tags.head?.all (·.kind? != some .typedef) &&
        decide ((Fragment.routesOf e.2).map Route.uri = ["/pets"]) &&
          (Fragment.securities e.2 ⟨"get", "/pets"⟩).getLast?.any fun v =>
            v.numbers.any (!·.isFinite)) = [true] := by
    decide +kernel
  obtain ⟨⟨path, b⟩, rest, hblocks, hb, hnil⟩ := List.map_eq_cons_iff.1 hone
  obtain rfl := List.map_eq_nil_iff.1 hnil
  rw [hblocks] at hfinite
  simp only [Option.any_eq_true, Bool.and_eq_true, decide_eq_true_eq, List.any_eq_true,
    Bool.not_eq_true', Option.all_eq_true, bne_iff_ne] at hb
  obtain ⟨⟨⟨hread, hfirst⟩, huris⟩, v, hv, x, hx, hodd⟩ := hb
  obtain ⟨f, hf⟩ := exists_ok_of_isSome_toOption hread
  have hadds := (hstep [] path b [] hblocks hstart).1 hfinite f hf
  have htakes : "/pets" ∈ ((Fragment.routesOf b).map Route.uri).takeWhile (takes start) := by
    cases hseed
    rw [huris]
    decide +kernel
  rw [(hadds.security hfirst ⟨"get", "/pets"⟩ v htakes hv).isFinite_of_mem_numbers hx] at hodd
  cases hodd

/-- A file with one block, whose example is an infinity. -/
def ageTree : FileTree :=
  ⟨[(["pets.js"],
    .file "/** @typedef Pet\n * @property {integer} age - Age - eg: inf */".toUTF8)], []⟩

/-- The seed is finite, but the document is not and its JSON text has the name of an infinity. -/
theorem infinite_example_written :
    (Value.map blankOptions.definition).IsFinite ∧
      ∃ document t, (blankOptions.generate ageTree).document = .ok document ∧
        ¬document.IsFinite ∧ Format.json.write document = .ok t ∧ Json.HasName t := by
  have hwritten : ((blankOptions.generate ageTree).document.toOption.bind fun document =>
      (Format.json.write document).toOption).any
        (fun t => decide ("Infinity".toList <:+: Json.outside false t)) = true := by
    decide +kernel
  simp only [Option.any_eq_true, Option.bind_eq_some_iff, decide_eq_true_eq] at hwritten
  obtain ⟨t, ⟨document, hdocument, ht⟩, hinfix⟩ := hwritten
  have hwrite := eq_ok_of_toOption ht
  have hname : Json.HasName t := ⟨_, by decide, hinfix⟩
  refine ⟨blankOptions_isFinite, document, t, eq_ok_of_toOption hdocument, fun hfinite => ?_,
    hwrite, hname⟩
  obtain ⟨x, hx, hodd⟩ := (Json.write_hasName_iff hwrite).1 hname
  rw [hfinite.isFinite_of_mem_numbers hx] at hodd
  cases hodd

end ApiDoc
