import ApiDoc.Proofs.Assoc.Series
import ApiDoc.Proofs.Fragment.Fields

/-!
# What tags add up to

Tags are attached to an operation one after another, and a tag that cannot be attached leaves it as
it is. Afterwards the operation has the parameters of all tags, for each status code the response of
the last tag with that code, and for each of its other fields what the last tag for it says
(`told`), whatever the order in which tags for different fields came: `fields_attemptAll`.
-/

namespace ApiDoc

open Value

/-- The attribute that a tag declares, if it is a tag for one and can be read. -/
def Attribute.ofTag? (tag : Tag) : Option Attribute :=
  match tag.kind? with
  | some .summary => some (.summary tag.description)
  | some .operationId => some (.operationId tag.description)
  | some .produces => some (.produces (mediaTypes tag.text))
  | some .consumes => some (.consumes (mediaTypes tag.text))
  | some .security => (securityOf tag.text).toOption.map .security
  | some .deprecated => some .deprecated
  | _ => none

/-- Whether a tag declares a response. -/
def Tag.isReturn (tag : Tag) : Bool := tag.kind? == some .returns || tag.kind? == some .return

/-- Whether a tag can be attached to an operation. -/
def Tag.isTaken (tag : Tag) : Bool :=
  tag.kind? == some .param || tag.isReturn || (Attribute.ofTag? tag).isSome

namespace Operation

variable {headers : List (Atom × Value)} {op : Operation} {tag : Tag} {tags : List Tag}

/-- The operation after an attempt to attach a tag, which leaves it as it is if it fails. -/
def attempt (headers : List (Atom × Value)) (op : Operation) (tag : Tag) : Operation :=
  match op.add headers tag with
  | .ok result => result
  | .error _ => op

/-- The operation after one attempt after another. -/
def attemptAll (headers : List (Atom × Value)) (op : Operation) (tags : List Tag) : Operation :=
  tags.foldl (attempt headers) op

/-! ## One tag -/

/-- What a tag adds to the parts of an operation. -/
def extend (headers : List (Atom × Value)) (op : Operation) (tag : Tag) : Operation :=
  { op with
    parameters := op.parameters ++ (if tag.kind? == some .param then [.ofTag tag] else [])
    attributes := Assoc.update op.attributes ((Attribute.ofTag? tag).toList.map fun a => (a.key, a))
    responses := Assoc.update op.responses
      (if tag.isReturn then [Response.ofTag headers tag] else []) }

/-- A tag can be attached to all operations or to none. -/
theorem add_eq (headers : List (Atom × Value)) (op : Operation) (tag : Tag) :
    (tag.isTaken = true ∧ op.add headers tag = .ok (op.extend headers tag)) ∨
      tag.isTaken = false ∧ op.extend headers tag = op ∧
        ∃ fault, op.add headers tag = .error fault := by
  cases hkind : tag.kind? with
  | none => simp [add, extend, Tag.isTaken, Tag.isReturn, Attribute.ofTag?, hkind, Assoc.update]
  | some kind =>
    cases kind with
    | security =>
      cases hread : securityOf tag.text with
      | error fault =>
        simp [add, extend, Tag.isTaken, Tag.isReturn, Attribute.ofTag?, hkind, hread, Assoc.update,
          Except.map, Except.toOption]
      | ok v =>
        simp [add, extend, Tag.isTaken, Tag.isReturn, Attribute.ofTag?, hkind, hread, Assoc.update,
          Except.map, Except.toOption, set]
    | _ =>
      simp [add, extend, Tag.isTaken, Tag.isReturn, Attribute.ofTag?, hkind, Assoc.update, set]

/-- An attempt adds what the tag adds. -/
theorem attempt_eq (headers : List (Atom × Value)) (op : Operation) (tag : Tag) :
    op.attempt headers tag = op.extend headers tag := by
  rcases add_eq headers op tag with ⟨-, hadd⟩ | ⟨-, hself, fault, hadd⟩
  · rw [attempt, hadd]
  · rw [attempt, hadd, hself]

/-- A tag can be attached just if it is one to be taken. -/
theorem isOk_add (headers : List (Atom × Value)) (op : Operation) (tag : Tag) :
    (op.add headers tag).isOk = tag.isTaken := by
  rcases add_eq headers op tag with ⟨htaken, hadd⟩ | ⟨htaken, -, fault, hadd⟩
  · rw [hadd, htaken]
    rfl
  · rw [hadd, htaken]
    rfl

/-! ## All tags -/

/-- The attributes that tags declare, each with its key. -/
def attributesOf (tags : List Tag) : List (String × Attribute) :=
  (tags.filterMap Attribute.ofTag?).map fun a => (a.key, a)

/-- The responses that tags declare, given the headers of each status code. -/
def responsesOf (headers : List (Atom × Value)) (tags : List Tag) : List (String × Response) :=
  (tags.filter Tag.isReturn).map (Response.ofTag headers)

/-- The parts of an operation after all attempts. -/
theorem attemptAll_eq (headers : List (Atom × Value)) (op : Operation) (tags : List Tag) :
    op.attemptAll headers tags =
      { op with
        parameters := op.parameters ++
          (tags.filter (·.kind? == some .param)).map Parameter.ofTag
        attributes := Assoc.update op.attributes (attributesOf tags)
        responses := Assoc.update op.responses (responsesOf headers tags) } := by
  induction tags generalizing op with
  | nil => simp [attemptAll, attributesOf, responsesOf, Assoc.update]
  | cons tag tags ih =>
    have hattributes : attributesOf (tag :: tags) =
        ((Attribute.ofTag? tag).toList.map fun a => (a.key, a)) ++ attributesOf tags := by
      rw [attributesOf, List.filterMap_cons]
      cases Attribute.ofTag? tag <;> rfl
    have hresponses : responsesOf headers (tag :: tags) =
        (if tag.isReturn then [Response.ofTag headers tag] else []) ++
          responsesOf headers tags := by
      rw [responsesOf, List.filter_cons]
      split <;> rfl
    have hparameters : ((tag :: tags).filter (·.kind? == some .param)).map Parameter.ofTag =
        (if tag.kind? == some .param then [.ofTag tag] else []) ++
          (tags.filter (·.kind? == some .param)).map Parameter.ofTag := by
      rw [List.filter_cons]
      split <;> rfl
    rw [attemptAll, List.foldl_cons, ← attemptAll, attempt_eq, ih, hattributes, hresponses,
      hparameters]
    simp only [extend, Assoc.update_append, List.append_assoc]

/-- Tags that cannot be taken add nothing. -/
theorem attemptAll_filter_isTaken (headers : List (Atom × Value)) (op : Operation)
    (tags : List Tag) :
    op.attemptAll headers (tags.filter Tag.isTaken) = op.attemptAll headers tags := by
  induction tags generalizing op with
  | nil => rfl
  | cons tag tags ih =>
    rw [List.filter_cons]
    rcases add_eq headers op tag with ⟨htaken, -⟩ | ⟨htaken, hself, -⟩
    · rw [if_pos htaken]
      exact ih _
    · have hattempt : op.attempt headers tag = op := (attempt_eq headers op tag).trans hself
      rw [htaken, if_neg Bool.false_ne_true, ih, attemptAll, attemptAll, List.foldl_cons, hattempt]

/-- Tags that can be attached are attached one after another without a fault. -/
theorem addAll_eq (htags : ∀ tag ∈ tags, tag.isTaken = true) :
    op.addAll headers tags = .ok (op.attemptAll headers tags) := by
  induction tags generalizing op with
  | nil => rfl
  | cons tag tags ih =>
    obtain ⟨htag, hrest⟩ := List.forall_mem_cons.1 htags
    rcases add_eq headers op tag with ⟨-, hadd⟩ | ⟨htaken, -⟩
    · rw [addAll, hadd, attemptAll, List.foldl_cons, attempt_eq]
      exact ih hrest
    · exact absurd (htaken.symm.trans htag) Bool.false_ne_true

/-! ## Attributes -/

/-- The last of the tags of a kind. -/
def lastOf (kind : TagKind) (tags : List Tag) : Option Tag :=
  (tags.filter (·.kind? == some kind)).getLast?

/-- The kinds of tags that declare attributes. -/
def attributeKinds : List TagKind :=
  [.summary, .operationId, .produces, .consumes, .security, .deprecated]

/-- The attribute that the last tag of each kind declares, with its key. -/
def lastAttributes (tags : List Tag) : List (String × Attribute) :=
  attributeKinds.flatMap fun kind =>
    ((lastOf kind tags).bind Attribute.ofTag?).toList.map fun a => (a.key, a)

/-- An attribute is one of the tag that declares it. -/
theorem isOf_of_ofTag? {a : Attribute} (h : Attribute.ofTag? tag = some a) : a.IsOf tag := by
  unfold Attribute.ofTag? at h
  split at h
  all_goals rename_i hkind
  · cases h
    exact ⟨hkind, rfl⟩
  · cases h
    exact ⟨hkind, rfl⟩
  · cases h
    exact ⟨hkind, rfl⟩
  · cases h
    exact ⟨hkind, rfl⟩
  · obtain ⟨v, hv, rfl⟩ := Option.map_eq_some_iff.1 h
    exact ⟨hkind, eq_ok_of_toOption hv⟩
  · cases h
    exact hkind
  · cases h

/-- A tag that declares an attribute is of a kind that does. -/
theorem kind?_mem_of_ofTag? {a : Attribute} (h : Attribute.ofTag? tag = some a) :
    ∃ kind ∈ attributeKinds, tag.kind? = some kind := by
  have hof := isOf_of_ofTag? h
  cases a with
  | deprecated => exact ⟨_, by decide, hof⟩
  | _ => exact ⟨_, by decide, hof.1⟩

/-- The key of an attribute is the field of the kind of its tag. -/
theorem field?_eq_key {kind : TagKind} {a : Attribute} (hkind : tag.kind? = some kind)
    (h : Attribute.ofTag? tag = some a) : kind.field? = some a.key :=
  (field?_of_kind? hkind).symm.trans (field?_of_isOf (isOf_of_ofTag? h))

/-- The last tag of a kind is of that kind. -/
theorem kind?_of_mem_lastOf {kind : TagKind} (h : lastOf kind tags = some tag) :
    tag.kind? = some kind :=
  beq_iff_eq.1 (List.mem_filter.1 (List.mem_of_getLast? h)).2

/-- The attributes under the key of a kind are those that the tags of that kind declare. -/
theorem given_attributesOf {kind : TagKind} (hmem : kind ∈ attributeKinds) {key : String}
    (hkey : kind.field? = some key) (tags : List Tag) :
    Assoc.given key (attributesOf tags) =
      (tags.filter (·.kind? == some kind)).filterMap Attribute.ofTag? := by
  have hone : ∀ k ∈ attributeKinds, ∀ k' ∈ attributeKinds, k.field? = k'.field? → k = k' := by
    decide
  induction tags with
  | nil => rfl
  | cons tag tags ih =>
    rw [attributesOf, List.filterMap_cons, List.filter_cons]
    cases ha : Attribute.ofTag? tag with
    | none =>
      by_cases hkind : (tag.kind? == some kind) = true
      · rw [if_pos hkind, List.filterMap_cons_none ha]
        exact ih
      · rw [if_neg hkind]
        exact ih
    | some a =>
      -- different kinds of attributes have different keys
      obtain ⟨kind', hmem', hkind'⟩ := kind?_mem_of_ofTag? ha
      have hkey' := field?_eq_key hkind' ha
      by_cases heq : kind' = kind
      · subst heq
        have hbeq : (a.key == key) = true :=
          beq_iff_eq.2 (Option.some.inj (hkey'.symm.trans hkey))
        rw [if_pos (beq_iff_eq.2 hkind'), List.filterMap_cons_some ha, ← ih]
        exact Assoc.given_cons_of_beq hbeq a _
      · have hbeq : ¬(a.key == key) = true := by
          intro hbeq
          refine heq (hone kind' hmem' kind hmem ?_)
          rw [hkey', hkey, beq_iff_eq.1 hbeq]
        have hkind : ¬(tag.kind? == some kind) = true := by
          rw [hkind', beq_iff_eq]
          exact fun h => heq (Option.some.inj h)
        rw [if_neg hkind, ← ih]
        exact Assoc.given_cons_of_not_beq hbeq a _

/-- A tag of such a kind that can be taken declares an attribute. -/
theorem isSome_ofTag? {kind : TagKind} (hmem : kind ∈ attributeKinds)
    (hkind : tag.kind? = some kind) (htaken : tag.isTaken = true) :
    (Attribute.ofTag? tag).isSome = true := by
  have hother : ∀ kind ∈ attributeKinds, kind ≠ .param ∧ kind ≠ .returns ∧ kind ≠ .return := by
    decide
  obtain ⟨hparam, hreturns, hreturn⟩ := hother kind hmem
  simpa [Tag.isTaken, Tag.isReturn, hkind, hparam, hreturns, hreturn] using htaken

/-- Where every item gives something the last item gives the last. -/
theorem getLast?_filterMap_of_isSome {α β : Type} {f : α → Option β} {l : List α}
    (h : ∀ x ∈ l, (f x).isSome = true) : (l.filterMap f).getLast? = l.getLast?.bind f := by
  rcases List.eq_nil_or_concat l with rfl | ⟨front, x, rfl⟩
  · rfl
  · rw [List.concat_eq_append] at h ⊢
    obtain ⟨y, hy⟩ := Option.isSome_iff_exists.1 (h x (by simp))
    rw [List.filterMap_append, List.filterMap_cons_some hy, List.filterMap_nil,
      List.getLast?_concat, List.getLast?_concat, Option.bind_some, hy]

/-- Of the attributes that tags declare under one key the last one is there in the end. -/
theorem get?_attributesOf (htags : ∀ tag ∈ tags, tag.isTaken = true) {kind : TagKind}
    (hmem : kind ∈ attributeKinds) {key : String} (hkey : kind.field? = some key) :
    Assoc.get? key (Assoc.ofList (attributesOf tags)) =
      (lastOf kind tags).bind Attribute.ofTag? := by
  have hsome : ∀ tag ∈ tags.filter (·.kind? == some kind),
      (Attribute.ofTag? tag).isSome = true := by
    intro tag htag
    obtain ⟨htag, hkind⟩ := List.mem_filter.1 htag
    exact isSome_ofTag? hmem (beq_iff_eq.1 hkind) (htags tag htag)
  rw [Assoc.ofList, Assoc.get?_update_eq_or, given_attributesOf hmem hkey,
    getLast?_filterMap_of_isSome hsome, Assoc.get?, Option.or_none, lastOf]

/-- The keys of the last attributes come in the order of the kinds. -/
theorem keys_lastAttributes (tags : List Tag) :
    ((lastAttributes tags).map Prod.fst).Sublist (attributeKinds.filterMap TagKind.field?) := by
  rw [lastAttributes]
  induction attributeKinds with
  | nil => exact List.Sublist.refl _
  | cons kind kinds ih =>
    rw [List.flatMap_cons, List.map_append]
    cases hdeclared : (lastOf kind tags).bind Attribute.ofTag? with
    | none =>
      rw [List.filterMap_cons]
      split
      · exact ih
      · exact ih.cons _
    | some a =>
      obtain ⟨tag, hlast, ha⟩ := Option.bind_eq_some_iff.1 hdeclared
      rw [List.filterMap_cons_some (field?_eq_key (kind?_of_mem_lastOf hlast) ha)]
      exact ih.cons_cons _

/-- The attributes in the end are those of the last tags, in some order. -/
theorem attributes_perm (htags : ∀ tag ∈ tags, tag.isTaken = true) :
    (Assoc.ofList (attributesOf tags)).Perm (lastAttributes tags) := by
  have hexact : ∀ key : String, Assoc.IsExact key := Assoc.isExact_of_lawfulBEq
  have hdistinct : Assoc.Distinct (Assoc.ofList (attributesOf tags)) :=
    Assoc.distinct_nil.update fun e _ => hexact e.1
  have hlast : ((lastAttributes tags).map Prod.fst).Nodup :=
    (keys_lastAttributes tags).nodup (by decide)
  -- neither list has a key twice, so it is enough that they have the same entries
  refine (List.perm_ext_iff_of_nodup hdistinct.nodup.of_map hlast.of_map).2 fun e => ?_
  obtain ⟨key, a⟩ := e
  have horigin : ∀ e ∈ Assoc.ofList (attributesOf tags),
      e.1 = e.2.key ∧ ∃ tag, Attribute.ofTag? tag = some e.2 := by
    refine Assoc.forall_entry_update
      (p := fun k b => k = b.key ∧ ∃ tag, Attribute.ofTag? tag = some b) (fun e _ => hexact e.1)
      (fun e he => absurd he List.not_mem_nil) fun e he => ?_
    obtain ⟨b, hb, rfl⟩ := List.mem_map.1 he
    obtain ⟨tag, -, htag⟩ := List.mem_filterMap.1 hb
    exact ⟨rfl, tag, htag⟩
  have hget : ∀ kind ∈ attributeKinds, kind.field? = some key →
      Assoc.get? key (Assoc.ofList (attributesOf tags)) =
        (lastOf kind tags).bind Attribute.ofTag? :=
    fun kind hmem hkey => get?_attributesOf htags hmem hkey
  simp only [lastAttributes, List.mem_flatMap, List.mem_map, Option.mem_toList]
  constructor
  · intro hmem
    obtain ⟨hkey, tag, htag⟩ := horigin _ hmem
    obtain rfl : key = a.key := hkey
    obtain ⟨kind, hkinds, hkind⟩ := kind?_mem_of_ofTag? htag
    refine ⟨kind, hkinds, a, ?_, rfl⟩
    rw [← hget kind hkinds (field?_eq_key hkind htag), Assoc.get?_of_mem hdistinct hmem]
  · rintro ⟨kind, hkinds, b, hb, heq⟩
    obtain ⟨rfl, rfl⟩ := Prod.mk.inj heq
    obtain ⟨tag, hlast, htag⟩ := Option.bind_eq_some_iff.1 hb
    refine Assoc.mem_of_get?_of_isExact (hexact _) ?_
    rw [hget kind hkinds (field?_eq_key (kind?_of_mem_lastOf hlast) htag), hb]

/-! ## Fields -/

/-- The fields that an operation has of its group, its description and tags: the parameters of all
tags, the attributes of the last tag of each kind, and for each status code the response of the last
tag with it. -/
def told (headers : List (Atom × Value)) (group description : String) (tags : List Tag) :
    List (Atom × Value) :=
  [(.text "parameters", .array
      ((tags.filter (·.kind? == some .param)).map fun tag => (Parameter.ofTag tag).toValue))] ++
    (if description.isEmpty then [] else [(.text "description", .text description)]) ++
    [(.text "tags", .array [.text group])] ++
    ((lastAttributes tags).map fun e => (.text e.1, e.2.toValue)) ++
    [(.text "responses",
      .map ((Assoc.ofList (responsesOf headers tags)).map fun e => (.text e.1, e.2.toValue)))]

/-- The keys of operations. -/
def fieldKeys : List String :=
  ["parameters", "description", "tags"] ++ attributeKinds.filterMap TagKind.field? ++ ["responses"]

/-- The keys of the fields that are told come in the order of the fields. -/
theorem keys_told (headers : List (Atom × Value)) (group description : String) (tags : List Tag) :
    ((told headers group description tags).map Prod.fst).Sublist (fieldKeys.map .text) := by
  have hattributes : (((lastAttributes tags).map fun e => (Atom.text e.1, e.2.toValue)).map
      Prod.fst).Sublist ((attributeKinds.filterMap TagKind.field?).map .text) := by
    rw [List.map_map]
    simpa [List.map_map, Function.comp_def] using (keys_lastAttributes tags).map Atom.text
  rw [told, fieldKeys]
  simp only [List.map_append, List.map_cons, List.map_nil]
  refine (List.Sublist.append ?_ hattributes).append (List.Sublist.refl _)
  split
  · exact ((List.Sublist.refl _).cons _).cons_cons _
  · exact List.Sublist.refl _

/-- Tags that agree on those for a field agree on those that are taken. -/
theorem filter_isTaken_congr {tags' : List Tag} {key : String}
    (h : tags.filter (·.field? == some key) = tags'.filter (·.field? == some key))
    {p : Tag → Bool} (hp : ∀ tag, p tag = true → tag.field? = some key) :
    (tags.filter Tag.isTaken).filter p = (tags'.filter Tag.isTaken).filter p := by
  have hfield : ∀ l : List Tag, (l.filter Tag.isTaken).filter p =
      ((l.filter (·.field? == some key)).filter Tag.isTaken).filter p := by
    intro l
    simp only [List.filter_filter]
    refine List.filter_congr fun tag _ => ?_
    cases htag : p tag with
    | false => simp only [Bool.false_and]
    | true => simp [hp tag htag]
  rw [hfield tags, hfield tags', h]

/-- The order of tags for different fields does not matter. -/
theorem told_congr {tags' : List Tag}
    (h : ∀ key, tags.filter (·.field? == some key) = tags'.filter (·.field? == some key))
    (headers : List (Atom × Value)) (group description : String) :
    told headers group description (tags.filter Tag.isTaken) =
      told headers group description (tags'.filter Tag.isTaken) := by
  have hkind : ∀ kind key, TagKind.field? kind = some key →
      (tags.filter Tag.isTaken).filter (·.kind? == some kind) =
        (tags'.filter Tag.isTaken).filter (·.kind? == some kind) := by
    intro kind key hkey
    refine filter_isTaken_congr (h key) fun tag htag => ?_
    rw [field?_of_kind? (beq_iff_eq.1 htag), hkey]
  have hreturns : (tags.filter Tag.isTaken).filter Tag.isReturn =
      (tags'.filter Tag.isTaken).filter Tag.isReturn := by
    refine filter_isTaken_congr (h "responses") fun tag htag => ?_
    rw [Tag.isReturn, Bool.or_eq_true, beq_iff_eq, beq_iff_eq] at htag
    exact htag.elim field?_of_kind? field?_of_kind?
  have hlast : lastAttributes (tags.filter Tag.isTaken) =
      lastAttributes (tags'.filter Tag.isTaken) := by
    refine List.flatMap_congr fun kind hmem => ?_
    have hall : ∀ kind ∈ attributeKinds, kind.field?.isSome = true := by decide
    obtain ⟨key, hkey⟩ := Option.isSome_iff_exists.1 (hall kind hmem)
    rw [lastOf, lastOf, hkind kind key hkey]
  rw [told, told, hkind .param "parameters" rfl, hlast, responsesOf, responsesOf, hreturns]

/-- The operation of a route before any tag is attached to it. -/
def opened (route : Route) (group description : String) : Operation :=
  { route := route, group := group, description := description }

/-- An operation has, in some order, just the fields that are told. -/
theorem fields_perm_told (headers : List (Atom × Value)) (route : Route)
    (group description : String) (htags : ∀ tag ∈ tags, tag.isTaken = true) :
    ((opened route group description).attemptAll headers tags).fields.Perm
      (told headers group description tags) := by
  rw [attemptAll_eq, fields, told, opened]
  simp only [List.nil_append, List.map_map]
  refine List.Perm.append_right _ (List.Perm.append_left _ ?_)
  exact (attributes_perm htags).map _

/-- The response of a status code is that of the last tag with it. -/
theorem get?_responsesOf (headers : List (Atom × Value)) (tags : List Tag) (code : String) :
    Assoc.get? code (Assoc.ofList (responsesOf headers tags)) =
      ((tags.filter fun tag => tag.isReturn && (Response.ofTag headers tag).1 == code).getLast?).map
        fun tag => (Response.ofTag headers tag).2 := by
  have hfilter : (tags.filter fun tag => (Response.ofTag headers tag).1 == code && tag.isReturn) =
      tags.filter fun tag => tag.isReturn && (Response.ofTag headers tag).1 == code :=
    List.filter_congr fun tag _ => Bool.and_comm _ _
  rw [Assoc.ofList, Assoc.get?_update_eq_or, Assoc.get?, Option.or_none, Assoc.given, responsesOf,
    List.filter_map, List.map_map, List.filter_filter, List.getLast?_map, ← hfilter]
  simp only [Function.comp_def]

/-- Which tags can be attached depends on the tags alone, and an operation after all attempts is the
one after those that succeed. Its fields are those that `told` says of the tags that were attached,
in some order: all parameters, the attribute of the last tag of each kind, and for each status code
the response of the last tag with it. Tags for different fields may come in any order. -/
theorem fields_attemptAll (headers : List (Atom × Value)) (route : Route)
    (group description : String) (tags : List Tag) :
    (∀ (op : Operation) (tag : Tag), (op.add headers tag).isOk = tag.isTaken) ∧
    (opened route group description).addAll headers (tags.filter Tag.isTaken) =
      .ok ((opened route group description).attemptAll headers tags) ∧
    Assoc.Distinct ((opened route group description).attemptAll headers tags).fields ∧
    ((opened route group description).attemptAll headers tags).fields.Perm
      (told headers group description (tags.filter Tag.isTaken)) ∧
    (∀ code, Assoc.get? code (Assoc.ofList (responsesOf headers (tags.filter Tag.isTaken))) =
      ((tags.filter fun tag =>
        tag.isReturn && (Response.ofTag headers tag).1 == code).getLast?).map
          fun tag => (Response.ofTag headers tag).2) ∧
    ∀ tags' : List Tag,
      (∀ key, tags.filter (·.field? == some key) = tags'.filter (·.field? == some key)) →
        ((opened route group description).attemptAll headers tags').fields.Perm
          ((opened route group description).attemptAll headers tags).fields := by
  have htaken : ∀ tags : List Tag, ∀ tag ∈ tags.filter Tag.isTaken, tag.isTaken = true :=
    fun tags tag htag => (List.mem_filter.1 htag).2
  have hperm : ∀ tags : List Tag,
      ((opened route group description).attemptAll headers tags).fields.Perm
        (told headers group description (tags.filter Tag.isTaken)) := by
    intro tags
    rw [← attemptAll_filter_isTaken]
    exact fields_perm_told headers route group description (htaken tags)
  refine ⟨isOk_add headers, ?_, ⟨isExact_fields _, ?_⟩, hperm tags, ?_, fun tags' h => ?_⟩
  · rw [addAll_eq (htaken tags), attemptAll_filter_isTaken]
  · refine ((hperm tags).map Prod.fst).nodup_iff.2 ?_
    exact (keys_told headers group description _).nodup (by decide +kernel)
  · intro code
    -- tags of responses are all taken, so leaving out the others loses none
    have hreturn : ∀ tag ∈ tags, (tag.isReturn && (Response.ofTag headers tag).1 == code) =
        ((tag.isReturn && (Response.ofTag headers tag).1 == code) && tag.isTaken) := by
      intro tag _
      cases hreturn : tag.isReturn with
      | false => simp only [Bool.false_and]
      | true => simp [Tag.isTaken, hreturn]
    rw [get?_responsesOf, List.filter_filter, List.filter_congr hreturn]
  · have htold := told_congr h headers group description
    exact (hperm tags').trans (htold ▸ (hperm tags).symm)

/-- Tags of one operation, with a group between them, which is none of an operation's tags. -/
def mixedTags : List Tag :=
  [{ title := "summary", description := some "Pets" },
    { title := "returns", description := some "200 - Some pets" },
    { title := "group", description := some "pets" },
    { title := "deprecated" },
    { title := "summary", description := some "All pets" },
    { title := "return", description := some "200 - The pets" }]

/-- The same tags, those for one field after those for another. -/
def sortedTags : List Tag :=
  [{ title := "deprecated" },
    { title := "returns", description := some "200 - Some pets" },
    { title := "return", description := some "200 - The pets" },
    { title := "summary", description := some "Pets" },
    { title := "summary", description := some "All pets" },
    { title := "group", description := some "pets" }]

/-- In both orders one tag fails, and the fields are those of the last tags. -/
theorem fields_attemptAll_mixedTags :
    (mixedTags.filter Tag.isTaken).length = 5 ∧
    ((opened ⟨"get", "/pets"⟩ "pets" "").attemptAll [] mixedTags).fields.Perm
      [(.text "parameters", .array []), (.text "tags", .array [.text "pets"]),
        (.text "summary", .text "All pets"), (.text "deprecated", .bool true),
        (.text "responses", .map [(.text "200", .record [("description", .text "The pets")])])] ∧
    ((opened ⟨"get", "/pets"⟩ "pets" "").attemptAll [] sortedTags).fields.Perm
      ((opened ⟨"get", "/pets"⟩ "pets" "").attemptAll [] mixedTags).fields := by
  obtain ⟨-, -, -, htold, -, hsorted⟩ :=
    fields_attemptAll [] ⟨"get", "/pets"⟩ "pets" "" mixedTags
  refine ⟨by decide +kernel, htold, hsorted sortedTags fun key => ?_⟩
  have hfields : mixedTags.map Tag.field? = [some "summary", some "responses", some "tags",
      some "deprecated", some "summary", some "responses"] := by decide +kernel
  simp only [mixedTags, List.map_cons, List.map_nil, List.cons.injEq, and_true] at hfields
  by_cases hkey : key ∈ ["summary", "responses", "tags", "deprecated"]
  · simp only [List.mem_cons, List.not_mem_nil, or_false] at hkey
    rcases hkey with rfl | rfl | rfl | rfl <;> simp [mixedTags, sortedTags, hfields]
  · simp only [List.mem_cons, List.not_mem_nil, or_false, not_or, ← ne_eq] at hkey
    simp [mixedTags, sortedTags, hfields, hkey.1.symm, hkey.2.1.symm, hkey.2.2.1.symm,
      hkey.2.2.2.symm]

end Operation

end ApiDoc
