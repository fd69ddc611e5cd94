import ApiDoc.Proofs.Fragment.Accumulation
import ApiDoc.Proofs.Fragment.Routes
import ApiDoc.Proofs.Json.RoundTrip
import ApiDoc.Proofs.TypeExpr.Schema

/-!
# Blocks that cannot be read

A block that starts with a typedef cannot be read exactly if the typedef or one of its properties
has no name. Any other block cannot be read exactly if a security tag behind its first route cannot
be read; whatever else its tags say, it has a fragment. `ofBlock_eq_error_iff` gives the fault of
each case. A tag that has no meaning inside an operation never comes to one.
-/

namespace ApiDoc

/-- A tag without a name, or with an empty one. -/
def Tag.IsUnnamed (tag : Tag) : Prop := tag.name = none ∨ tag.name = some ""

/-- A security tag that cannot be read. -/
structure Tag.IsUnreadable (tag : Tag) : Prop where
  kind : tag.kind? = some .security
  read : securityOf tag.text = .error .longInteger

/-- The only fault of a security requirement is an integer with too many digits. -/
theorem eq_longInteger_of_securityOf {s : List Char} {fault : FormatFault}
    (h : securityOf s = .error fault) : fault = .longInteger := by
  unfold securityOf at h
  split at h
  · cases h
  · cases h
    rfl
  · cases h

/-- A numeral with too many digits cannot be read. -/
theorem securityOf_digits {c : Char} {ds : List Char} (hzero : c ≠ '0')
    (hdigits : ∀ d ∈ c :: ds, d.isDigit = true) (hlong : Numeral.maxDigits < (c :: ds).length) :
    securityOf (c :: ds) = .error .longInteger := by
  obtain ⟨hc, hds⟩ := List.forall_mem_cons.1 hdigits
  have hne : ∀ d : Char, d.isDigit = false → c ≠ d := by
    rintro d hd rfl
    exact Bool.false_ne_true (hd.symm.trans hc)
  have hspace : Json.isSpace c = false := by
    simp [Json.isSpace, hne ' ' (by decide), hne '\t' (by decide), hne '\n' (by decide),
      hne '\r' (by decide)]
  have hskip : Json.skipSpace (c :: ds) = c :: ds :=
    List.dropWhile_cons_of_neg (by rw [hspace]; decide)
  have hwhole : Json.wholePart? (c :: ds) = some (c :: ds, []) := by
    rw [Json.wholePart?, if_pos hc, List.takeWhile_eq_self_iff.2 hdigits,
      List.dropWhile_eq_nil_iff.2 hds]
    exact hzero
  have hnumber : Json.unsignedNumber false (c :: ds) = .error .longInteger := by
    rw [Json.unsignedNumber, hwhole]
    simp only [Json.fractionPart, Json.exponentPart, Option.isNone_none, Bool.and_self, if_true]
    rw [if_pos hlong]
  have hread : Json.read (c :: ds) = .error .longInteger := by
    rw [Json.read, hskip, Json.value_of_ne (hne _ (by decide)) (hne _ (by decide))
      (hne _ (by decide)), (Json.plainValue_of_isDigit hc ds).1, hnumber]
  rw [securityOf, hread]

/-! ## Definitions -/

namespace Definition

variable {typedef : String} {fault : FormatFault}

/-- The properties of a definition can be read unless one of them has no name. -/
theorem addTags_eq_error_iff {d : Definition} {tags : List Tag} :
    d.addTags typedef tags = .error fault ↔
      fault = .propertyUnnamed typedef ∧
        ∃ tag ∈ tags, tag.kind? = some .property ∧ tag.IsUnnamed := by
  induction tags generalizing d with
  | nil => simp [addTags]
  | cons tag tags ih =>
    rw [addTags, List.exists_mem_cons_iff]
    by_cases hkind : tag.kind? = some .property
    · rw [if_pos (beq_iff_eq.2 hkind)]
      cases hname : nonempty? tag.name with
      | none =>
        have hunnamed : tag.IsUnnamed := nonempty?_eq_none_iff.1 hname
        simp [hkind, hunnamed, eq_comm]
      | some name =>
        have hnamed : ¬ tag.IsUnnamed := by
          intro hunnamed
          rw [nonempty?_eq_none_iff.2 hunnamed] at hname
          cases hname
        simp [ih, hnamed]
    · rw [if_neg (by simpa using hkind), ih]
      simp [hkind]

/-- A typedef tag and the tags behind it declare a definition unless the typedef or a property has
no name. -/
theorem ofTags_eq_error_iff {head : Tag} {rest : List Tag} :
    ofTags head rest = .error fault ↔
      (fault = .typedefUnnamed ∧ head.IsUnnamed) ∨
        ∃ name, head.name = some name ∧ name ≠ "" ∧ fault = .propertyUnnamed name ∧
          ∃ tag ∈ rest, tag.kind? = some .property ∧ tag.IsUnnamed := by
  unfold ofTags
  cases hname : nonempty? head.name with
  | none =>
    have hunnamed : head.IsUnnamed := nonempty?_eq_none_iff.1 hname
    constructor
    · rintro ⟨⟩
      exact .inl ⟨rfl, hunnamed⟩
    · rintro (⟨rfl, -⟩ | ⟨name, hsome, hne, -⟩)
      · rfl
      · rw [nonempty?_eq_some_iff.2 ⟨hsome, hne⟩] at hname
        cases hname
  | some name =>
    obtain ⟨hsome, hne⟩ := nonempty?_eq_some_iff.1 hname
    have hnamed : ¬ head.IsUnnamed := by
      intro hunnamed
      rw [nonempty?_eq_none_iff.2 hunnamed] at hname
      cases hname
    simp only [bind_pure_eq_error_iff, addTags_eq_error_iff, hsome, Option.some.injEq]
    constructor
    · rintro ⟨rfl, htag⟩
      exact .inr ⟨name, rfl, hne, rfl, htag⟩
    · rintro (⟨-, hunnamed⟩ | ⟨_, rfl, -, rfl, htag⟩)
      · exact absurd hunnamed hnamed
      · exact ⟨rfl, htag⟩

end Definition

/-! ## Operations -/

namespace Fragment

variable {fault : FormatFault}

/-- A tag that belongs to the operation in front of it can be attached, unless it is a security tag
that cannot be read. -/
theorem isTaken_iff_of_isAttached {tag : Tag} (h : isAttached tag = true) :
    tag.isTaken = true ↔ ¬ tag.IsUnreadable := by
  unfold isAttached at h
  split at h
  · cases h
  · rename_i kind hkind
    cases kind with
    | security =>
      have hunreadable : tag.IsUnreadable ↔ securityOf tag.text = .error .longInteger :=
        ⟨Tag.IsUnreadable.read, fun hread => ⟨hkind, hread⟩⟩
      rw [hunreadable]
      cases hread : securityOf tag.text with
      | ok v => simp [Tag.isTaken, Tag.isReturn, Attribute.ofTag?, hkind, hread, Except.toOption]
      | error fault =>
        rw [eq_longInteger_of_securityOf hread]
        simp [Tag.isTaken, Tag.isReturn, Attribute.ofTag?, hkind, hread, Except.toOption]
    | route | group | headers | header | typedef | property => exact absurd h (by decide)
    | _ =>
      have hread : ¬ tag.IsUnreadable := fun hunreadable => by
        cases hkind.symm.trans hunreadable.kind
      simp [Tag.isTaken, Tag.isReturn, Attribute.ofTag?, hkind, hread]

/-- What the attaching of a tag to an operation gives, for a tag that belongs to one. -/
theorem add_of_isAttached {tag : Tag} (h : isAttached tag = true) (headers : List (Atom × Value))
    (op : Operation) :
    (tag.IsUnreadable ∧ op.add headers tag = .error .longInteger) ∨
      ¬ tag.IsUnreadable ∧ op.add headers tag = .ok (op.extend headers tag) := by
  rcases Operation.add_eq headers op tag with ⟨htaken, hadd⟩ | ⟨htaken, -, -⟩
  · exact .inr ⟨(isTaken_iff_of_isAttached h).1 htaken, hadd⟩
  · have hunreadable : tag.IsUnreadable := by
      by_contra hread
      rw [(isTaken_iff_of_isAttached h).2 hread] at htaken
      cases htaken
    refine .inl ⟨hunreadable, ?_⟩
    simp [Operation.add, hunreadable.kind, hunreadable.read, Except.map]

/-- Attaching tags fails just if one of them cannot be read. -/
theorem addAll_eq_error_iff {tags : List Tag} (h : ∀ tag ∈ tags, isAttached tag = true)
    (headers : List (Atom × Value)) (op : Operation) :
    op.addAll headers tags = .error fault ↔
      fault = .longInteger ∧ ∃ tag ∈ tags, tag.IsUnreadable := by
  induction tags generalizing op with
  | nil => simp [Operation.addAll]
  | cons tag tags ih =>
    obtain ⟨htag, htags⟩ := List.forall_mem_cons.1 h
    rw [Operation.addAll, List.exists_mem_cons_iff]
    rcases add_of_isAttached htag headers op with ⟨hunreadable, hadd⟩ | ⟨hread, hadd⟩
    · simp [hadd, hunreadable, eq_comm]
    · simp [hadd, ih htags, hread]

/-- The operations of routes can be read unless a security tag behind a route cannot. -/
theorem operations_eq_error_iff {group description : String} {headers : List (Atom × Value)}
    {routes : List (Tag × List Tag)} :
    operations group description headers routes = .error fault ↔
      fault = .longInteger ∧ ∃ s ∈ routes, ∃ tag ∈ s.2, tag.IsUnreadable := by
  -- a tag that cannot be read is one of an operation, so leaving out the others loses none
  have hattached : ∀ tags : List Tag, (∃ tag ∈ tags.filter isAttached, tag.IsUnreadable) ↔
      ∃ tag ∈ tags, tag.IsUnreadable := by
    intro tags
    constructor
    · rintro ⟨tag, htag, hunreadable⟩
      exact ⟨tag, (List.mem_filter.1 htag).1, hunreadable⟩
    · rintro ⟨tag, htag, hunreadable⟩
      refine ⟨tag, List.mem_filter.2 ⟨htag, ?_⟩, hunreadable⟩
      rw [isAttached, hunreadable.kind]
      rfl
  induction routes with
  | nil => simp [operations]
  | cons s routes ih =>
    obtain ⟨route, tags⟩ := s
    have hfilter : ∀ tag ∈ tags.filter isAttached, isAttached tag = true :=
      fun tag htag => (List.mem_filter.1 htag).2
    rw [List.exists_mem_cons_iff, ← hattached, operations]
    cases hadd : Operation.addAll headers ⟨Route.ofText route.text, group, description, [], [], []⟩
        (tags.filter isAttached) with
    | error fault' =>
      obtain ⟨rfl, hunreadable⟩ := (addAll_eq_error_iff hfilter headers _).1 hadd
      simp only [bind, Except.bind, hunreadable, true_or, and_true, Except.error.injEq]
      exact eq_comm
    | ok op =>
      have hread : ¬ ∃ tag ∈ tags.filter isAttached, tag.IsUnreadable := by
        intro hunreadable
        rw [(addAll_eq_error_iff hfilter headers _).2 ⟨rfl, hunreadable⟩] at hadd
        cases hadd
      refine bind_pure_eq_error_iff.trans (ih.trans ?_)
      simp only [hread, false_or]

/-! ## Tags behind routes -/

/-- A route starts a new segment. -/
theorem segments_cons_route {route : Tag} (h : route.kind? = some .route) (tags : List Tag) :
    segments (route :: tags) = ([], (route, (segments tags).1) :: (segments tags).2) := by
  rw [segments]
  simp only [h, beq_self_eq_true, if_true]

/-- A tag that is no route goes to the segment that it stands in. -/
theorem segments_cons_of_ne {tag : Tag} (h : tag.kind? ≠ some .route) (tags : List Tag) :
    segments (tag :: tags) = (tag :: (segments tags).1, (segments tags).2) := by
  rw [segments]
  simp only [beq_iff_eq, h, if_false]

/-- A tag that is no route stands in front of the first route or behind one. -/
theorem mem_segments_of_mem {tags : List Tag} {tag : Tag} (hmem : tag ∈ tags)
    (hkind : tag.kind? ≠ some .route) :
    tag ∈ (segments tags).1 ∨ ∃ s ∈ (segments tags).2, tag ∈ s.2 := by
  induction tags with
  | nil => cases hmem
  | cons head tags ih =>
    by_cases hroute : head.kind? = some .route
    · have hne : tag ≠ head := by
        rintro rfl
        exact hkind hroute
      have hmem := (List.mem_cons.1 hmem).resolve_left hne
      rw [segments_cons_route hroute]
      exact .inr ((List.exists_mem_cons_iff _ _ _).2 (ih hmem))
    · rw [segments_cons_of_ne hroute]
      rcases List.mem_cons.1 hmem with rfl | hmem
      · exact .inl List.mem_cons_self
      · exact (ih hmem).imp_left (List.mem_cons_of_mem head)

/-- Tags in front leave the routes and what stands behind each as they are. -/
theorem segments_suffix (before tags : List Tag) :
    (segments tags).2 <:+ (segments (before ++ tags)).2 := by
  induction before with
  | nil => exact List.suffix_refl _
  | cons tag before ih =>
    rw [List.cons_append]
    by_cases hroute : tag.kind? = some .route
    · rw [segments_cons_route hroute]
      exact ih.trans (List.suffix_cons _ _)
    · rw [segments_cons_of_ne hroute]
      exact ih

/-- The tags of the segments are those that are no routes and have a route in front of them. -/
theorem mem_segments_iff {tags : List Tag} {tag : Tag} :
    (∃ s ∈ (segments tags).2, tag ∈ s.2) ↔ tag.kind? ≠ some .route ∧
      ∃ before route between after, route.kind? = some .route ∧
        tags = before ++ route :: (between ++ tag :: after) := by
  constructor
  · rintro ⟨s, hs, htag⟩
    refine ⟨((segments_routes tags).2 s hs).2 tag htag, ?_⟩
    induction tags with
    | nil => cases hs
    | cons head tags ih =>
      -- the tag is in a later segment
      have hrest : s ∈ (segments tags).2 → ∃ before route between after,
          route.kind? = some .route ∧
            head :: tags = before ++ route :: (between ++ tag :: after) := by
        intro hs
        obtain ⟨before, route, between, after, hroute, rfl⟩ := ih hs
        exact ⟨head :: before, route, between, after, hroute, rfl⟩
      by_cases hroute : head.kind? = some .route
      · rw [segments_cons_route hroute] at hs
        rcases List.mem_cons.1 hs with rfl | hs
        · obtain ⟨between, after, rfl⟩ := List.append_of_mem (mem_of_mem_segments.1 tag htag)
          exact ⟨[], head, between, after, hroute, rfl⟩
        · exact hrest hs
      · rw [segments_cons_of_ne hroute] at hs
        exact hrest hs
  · rintro ⟨hkind, before, route, between, after, hroute, rfl⟩
    have hmem : tag ∈ between ++ tag :: after := by simp
    have hsuffix := segments_suffix before (route :: (between ++ tag :: after))
    rw [segments_cons_route hroute] at hsuffix
    obtain ⟨s, hs, htag⟩ := (List.exists_mem_cons_iff (tag ∈ ·.2) (route, _) _).2
      (mem_segments_of_mem hmem hkind)
    exact ⟨s, hsuffix.subset hs, htag⟩

/-! ## Blocks -/

/-- What is wrong with a block, as its tags show it. -/
inductive FailsWith (b : Block) : FormatFault → Prop where
  /-- The block starts with a typedef that has no name. -/
  | typedef {head : Tag} {rest : List Tag} (htags : b.tags = head :: rest)
      (hkind : head.kind? = some .typedef) (hname : head.IsUnnamed) : FailsWith b .typedefUnnamed
  /-- The block starts with a typedef that has a name, and a property behind it has none. -/
  | property {head tag : Tag} {rest : List Tag} {name : String} (htags : b.tags = head :: rest)
      (hkind : head.kind? = some .typedef) (hname : head.name = some name) (hne : name ≠ "")
      (htag : tag ∈ rest) (hproperty : tag.kind? = some .property) (hunnamed : tag.IsUnnamed) :
      FailsWith b (.propertyUnnamed name)
  /-- The block does not start with a typedef, and the text of a security tag behind a route cannot
  be read. -/
  | security {before between after : List Tag} {route tag : Tag} {fault : FormatFault}
      (hfirst : ∀ head ∈ b.tags.head?, head.kind? ≠ some .typedef)
      (htags : b.tags = before ++ route :: (between ++ tag :: after))
      (hroute : route.kind? = some .route) (hkind : tag.kind? = some .security)
      (hread : securityOf tag.text = .error fault) : FailsWith b fault

/-- A block that starts with a typedef can be read just if its definition can. -/
theorem ofBlock_eq_error_iff_of_typedef {markOf : String → Option Mark} {b : Block} {head : Tag}
    {rest : List Tag} (htags : b.tags = head :: rest) (hkind : head.kind? = some .typedef) :
    ofBlock markOf b = .error fault ↔ Definition.ofTags head rest = .error fault := by
  unfold ofBlock
  simp only [htags, hkind, beq_self_eq_true, if_true]
  exact bind_pure_eq_error_iff

/-- A block that does not start with a typedef can be read just if its operations can. -/
theorem ofBlock_eq_error_iff_of_ne {markOf : String → Option Mark} {b : Block}
    (hfirst : ∀ head ∈ b.tags.head?, head.kind? ≠ some .typedef) :
    ofBlock markOf b = .error fault ↔
      fault = .longInteger ∧ ∃ s ∈ (segments b.tags).2, ∃ tag ∈ s.2, tag.IsUnreadable := by
  have hoperations : ofBlock markOf b = ofOperations markOf b := by
    unfold ofBlock
    split
    · rename_i htags
      rw [ofOperations, htags]
      rfl
    · rename_i head rest htags
      rw [if_neg]
      rw [beq_iff_eq]
      exact hfirst head (by rw [htags]; rfl)
  rw [hoperations, ← operations_eq_error_iff]
  exact bind_pure_eq_error_iff

/-- A block that fails shows in its tags what is wrong. -/
theorem failsWith_of_ofBlock {markOf : String → Option Mark} {b : Block}
    (h : ofBlock markOf b = .error fault) : FailsWith b fault := by
  by_cases hfirst : ∀ head ∈ b.tags.head?, head.kind? ≠ some .typedef
  · obtain ⟨rfl, s, hs, tag, htag, hunreadable⟩ := (ofBlock_eq_error_iff_of_ne hfirst).1 h
    obtain ⟨-, before, route, between, after, hroute, htags⟩ := mem_segments_iff.1 ⟨s, hs, htag⟩
    exact .security hfirst htags hroute hunreadable.kind hunreadable.read
  · push Not at hfirst
    obtain ⟨head, hhead, hkind⟩ := hfirst
    obtain ⟨rest, htags⟩ := List.head?_eq_some_iff.1 hhead
    rw [ofBlock_eq_error_iff_of_typedef htags hkind, Definition.ofTags_eq_error_iff] at h
    rcases h with ⟨rfl, hunnamed⟩ | ⟨name, hname, hne, rfl, tag, htag, hproperty, hunnamed⟩
    · exact .typedef htags hkind hunnamed
    · exact .property htags hkind hname hne htag hproperty hunnamed

/-- A block with something wrong in its tags fails. -/
theorem FailsWith.ofBlock_eq_error {b : Block} (h : FailsWith b fault)
    (markOf : String → Option Mark) : ofBlock markOf b = .error fault := by
  cases h with
  | typedef htags hkind hunnamed =>
    rw [ofBlock_eq_error_iff_of_typedef htags hkind, Definition.ofTags_eq_error_iff]
    exact .inl ⟨rfl, hunnamed⟩
  | property htags hkind hname hne htag hproperty hunnamed =>
    rw [ofBlock_eq_error_iff_of_typedef htags hkind, Definition.ofTags_eq_error_iff]
    exact .inr ⟨_, hname, hne, rfl, _, htag, hproperty, hunnamed⟩
  | security hfirst htags hroute hkind hread =>
    obtain rfl := eq_longInteger_of_securityOf hread
    obtain ⟨s, hs, htag⟩ :=
      mem_segments_iff.2 ⟨by rw [hkind]; decide, _, _, _, _, hroute, htags⟩
    exact (ofBlock_eq_error_iff_of_ne hfirst).2 ⟨rfl, s, hs, _, htag, hkind, hread⟩

/-- No block fails because a tag is not one for operations. -/
theorem not_failsWith_notForOperation (b : Block) (title : String) :
    ¬ FailsWith b (.notForOperation title) := by
  intro h
  cases h with
  | security _ _ _ _ hread => cases eq_longInteger_of_securityOf hread

/-- A block cannot be read exactly if its typedef or a property behind that has no name, or, without
a typedef in front, a security tag behind a route cannot be read, and the fault is that of the case.
Tags that have no meaning inside an operation are never attached to one. -/
theorem ofBlock_eq_error_iff (markOf : String → Option Mark) (b : Block) :
    (∀ fault, ofBlock markOf b = .error fault ↔ FailsWith b fault) ∧
    (∀ title, ofBlock markOf b ≠ .error (.notForOperation title)) ∧
    ∀ s ∈ (segments b.tags).2, ∀ tag ∈ s.2.filter isAttached,
      ∀ headers (op : Operation) title, op.add headers tag ≠ .error (.notForOperation title) := by
  refine ⟨fun fault => ⟨failsWith_of_ofBlock, fun h => h.ofBlock_eq_error markOf⟩,
    fun title h => not_failsWith_notForOperation b title (failsWith_of_ofBlock h), ?_⟩
  intro s _ tag htag headers op title h
  rcases add_of_isAttached (List.mem_filter.1 htag).2 headers op with ⟨-, hadd⟩ | ⟨-, hadd⟩
  · cases hadd.symm.trans h
  · cases hadd.symm.trans h

/-- A security tag whose text is an integer with too many digits. -/
def longSecurity : Tag where
  title := "security"
  description := some (String.ofList ('1' :: List.replicate Numeral.maxDigits '1'))

/-- A block with that tag behind a route, and in front of it as well. -/
def longSecurityBlock : Block where
  tags := [longSecurity, { title := "route", description := some "GET /pets" }, longSecurity]

/-- The tag behind the route is attached and cannot be read, so the block cannot be read either. -/
theorem ofBlock_eq_error_iff_longSecurity :
    FailsWith longSecurityBlock .longInteger ∧
      ofBlock (fun _ => none) longSecurityBlock = .error .longInteger ∧
      ∀ title, (Operation.opened ⟨"get", "/pets"⟩ "default" "").add [] longSecurity ≠
        .error (.notForOperation title) := by
  obtain ⟨hiff, -, hattached⟩ := ofBlock_eq_error_iff (fun _ => none) longSecurityBlock
  have hkind : longSecurity.kind? = some .security := by decide +kernel
  have hroute : Tag.kind? { title := "route", description := some "GET /pets" } = some .route := by
    decide +kernel
  have hdigits : ∀ d ∈ '1' :: List.replicate Numeral.maxDigits '1', d.isDigit = true := by
    refine List.forall_mem_cons.2 ⟨by decide, fun d hd => ?_⟩
    rw [List.eq_of_mem_replicate hd]
    decide
  have hread : securityOf longSecurity.text = .error .longInteger := by
    rw [longSecurity, Tag.text, Option.getD_some, String.toList_ofList]
    exact securityOf_digits (by decide) hdigits (by simp)
  have hfails : FailsWith longSecurityBlock .longInteger := by
    have htags : longSecurityBlock.tags =
        [longSecurity] ++ { title := "route", description := some "GET /pets" } ::
          ([] ++ longSecurity :: []) := rfl
    refine .security ?_ htags hroute hkind hread
    rintro head ⟨⟩
    rw [hkind]
    decide
  refine ⟨hfails, (hiff _).2 hfails, fun title => ?_⟩
  obtain ⟨s, hs, htag⟩ : ∃ s ∈ (segments longSecurityBlock.tags).2, longSecurity ∈ s.2 :=
    mem_segments_iff.2 ⟨by rw [hkind]; decide, [longSecurity], _, [], [], hroute, rfl⟩
  have hfilter : longSecurity ∈ s.2.filter isAttached := by
    refine List.mem_filter.2 ⟨htag, ?_⟩
    rw [isAttached, hkind]
    rfl
  exact hattached s hs longSecurity hfilter [] _ title

end Fragment

end ApiDoc
