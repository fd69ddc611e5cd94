import ApiDoc.Proofs.Fragment.Integrity
import ApiDoc.Proofs.Fragment.Routes

/-!
# Tags that are read once for the whole block

The group and the headers of a block are read in passes of their own. So the tags of a block are
three streams, those for its group, those for its headers and all others, and it does not matter how
they are mixed: `ofBlock_eq_of_sameStreams`. In particular a header is there in the responses in
front of its tag as well as behind it, in all routes of the block.
-/

namespace ApiDoc

open Value

/-- Whether a tag declares a response header. -/
def Tag.isHeader (tag : Tag) : Bool := tag.kind?.any (·.isHeader)

/-- The header that a tag declares, with its status code and name, if the tag is well-formed. -/
def Tag.header? (tag : Tag) : Option (String × String × Header) := Header.ofText? tag.text

/-! ## Headers -/

namespace HeaderTable

variable {table : HeaderTable} {code name : String} {tags : List Tag}

/-- The header of a status code with a name. -/
def header? (table : HeaderTable) (code name : String) : Option Header :=
  (Assoc.get? code table).bind (Assoc.get? name)

/-- A header that was added is found. -/
theorem header?_add_self (table : HeaderTable) (code name : String) (header : Header) :
    (table.add code name header).header? code name = some header := by
  have hexact : ∀ key : String, Assoc.IsExact key := Assoc.isExact_of_lawfulBEq
  rw [header?, add, Assoc.get?_insert_self (hexact code), Option.bind_some,
    Assoc.get?_insert_self (hexact name)]

/-- One more header leaves every other. -/
theorem header?_add_of_ne {code' name' : String} (hne : (code', name') ≠ (code, name))
    (header : Header) : (table.add code' name' header).header? code name =
      table.header? code name := by
  have hexact : ∀ key : String, Assoc.IsExact key := Assoc.isExact_of_lawfulBEq
  by_cases hcode : code' = code
  · subst hcode
    have hname : name' ≠ name := fun h => hne (h ▸ rfl)
    rw [header?, add, Assoc.get?_insert_self (hexact _), Option.bind_some,
      Assoc.get?_insert_of_ne (hexact _) (hexact _) hname, header?]
    cases Assoc.get? code' table <;> rfl
  · rw [header?, add, Assoc.get?_insert_of_ne (hexact _) (hexact _) hcode, header?]

/-- A header is added and the others behind it, up to the first that is malformed. -/
theorem addTags_cons (table : HeaderTable) (tag : Tag) (tags : List Tag) :
    table.addTags (tag :: tags) =
      if tag.isHeader then
        match tag.header? with
        | some (code, name, header) => (table.add code name header).addTags tags
        | none => table
      else table.addTags tags := rfl

/-- Headers are read from header tags alone. -/
theorem addTags_filter_isHeader (table : HeaderTable) (tags : List Tag) :
    table.addTags (tags.filter Tag.isHeader) = table.addTags tags := by
  induction tags generalizing table with
  | nil => rfl
  | cons tag tags ih =>
    by_cases htag : tag.isHeader = true
    · rw [List.filter_cons_of_pos htag, addTags_cons, addTags_cons, if_pos htag, if_pos htag]
      split
      · exact ih _
      · rfl
    · rw [List.filter_cons_of_neg htag, ih, addTags_cons, if_neg htag]

/-- Reading goes on behind well-formed tags. -/
theorem addTags_append (h : ∀ tag ∈ tags, tag.isHeader = true → tag.header?.isSome = true)
    (table : HeaderTable) (rest : List Tag) :
    table.addTags (tags ++ rest) = (table.addTags tags).addTags rest := by
  induction tags generalizing table with
  | nil => rfl
  | cons tag tags ih =>
    obtain ⟨htag, htags⟩ := List.forall_mem_cons.1 h
    rw [List.cons_append, addTags_cons, addTags_cons]
    by_cases hheader : tag.isHeader = true
    · obtain ⟨⟨code, name, header⟩, hread⟩ := Option.isSome_iff_exists.1 (htag hheader)
      rw [if_pos hheader, if_pos hheader, hread]
      exact ih htags _
    · rw [if_neg hheader, if_neg hheader]
      exact ih htags _

/-- A header stays if no tag declares it again. -/
theorem header?_addTags
    (h : ∀ tag ∈ tags, tag.isHeader = true → ∀ header, tag.header? ≠ some (code, name, header))
    (table : HeaderTable) : (table.addTags tags).header? code name = table.header? code name := by
  induction tags generalizing table with
  | nil => rfl
  | cons tag tags ih =>
    obtain ⟨htag, htags⟩ := List.forall_mem_cons.1 h
    rw [addTags_cons]
    split
    · rename_i hheader
      split
      · rename_i code' name' header hread
        rw [ih htags]
        refine header?_add_of_ne (fun heq => ?_) header
        obtain ⟨rfl, rfl⟩ := Prod.mk.inj heq
        exact htag hheader header hread
      · rfl
    · exact ih htags table

/-- A well-formed tag declares its header, if the reading comes to it and no later tag declares the
header again. -/
theorem header?_ofTags {before after : List Tag} {tag : Tag} {header : Header}
    (hkind : tag.isHeader = true) (hread : tag.header? = some (code, name, header))
    (hbefore : ∀ t ∈ before, t.isHeader = true → t.header?.isSome = true)
    (hafter : ∀ t ∈ after, t.isHeader = true → ∀ h, t.header? ≠ some (code, name, h)) :
    (ofTags (before ++ tag :: after)).header? code name = some header := by
  rw [ofTags, addTags_append hbefore, addTags_cons, if_pos hkind, hread]
  exact (header?_addTags hafter _).trans (header?_add_self _ code name header)

/-- A status code has the headers of its row, as a value. -/
theorem get?_toEntries (markOf : String → Option Mark) (table : HeaderTable) (code : String) :
    Assoc.get? (.text code) (table.toEntries markOf) =
      (Assoc.get? code table).map (headersValue (markOf code)) := by
  induction table with
  | nil => rfl
  | cons e table ih =>
    obtain ⟨k, headers⟩ := e
    change (if k == code then some (headersValue (markOf k) headers)
      else Assoc.get? (.text code) (toEntries markOf table)) = _
    rw [ih, Assoc.get?]
    by_cases hkey : k = code
    · subst hkey
      simp
    · simp [hkey]

/-- A header of the table is there in the value that responses of its status code have. -/
theorem field?_toEntries {header : Header} (h : table.header? code name = some header)
    (markOf : String → Option Mark) :
    (Assoc.get? (.text code) (table.toEntries markOf)).bind (·.field? name) =
      some header.toValue := by
  obtain ⟨headers, hcode, hname⟩ := Option.bind_eq_some_iff.1 h
  rw [get?_toEntries, hcode, Option.map_some, Option.bind_some, headersValue, Value.field?]
  have hvalues := Assoc.get?_mapValues Header.toValue (.text name) (Assoc.texts headers)
  rw [Assoc.mapValues_texts, Assoc.get?_texts, hname] at hvalues
  exact hvalues

end HeaderTable

namespace Fragment

/-! ## Three streams -/

/-- The group of a block is read from group tags alone. -/
theorem ofTags_filter_group (tags : List Tag) :
    Group.ofTags (tags.filter (·.kind? == some .group)) = Group.ofTags tags := by
  have hfind : (tags.filter (·.kind? == some .group)).find? (·.kind? == some .group) =
      tags.find? (·.kind? == some .group) := by
    rw [List.find?_filter]
    congr 1
    funext tag
    cases tag.kind? == some .group <;> rfl
  rw [Group.ofTags, hfind, Group.ofTags]

/-- The tags without those that are read once for the whole block fall into the same segments. -/
theorem segments_filter (tags : List Tag) :
    segments (tags.filter (!isShared ·)) =
      ((segments tags).1.filter (!isShared ·),
        (segments tags).2.map fun s => (s.1, s.2.filter (!isShared ·))) := by
  induction tags with
  | nil => rfl
  | cons tag tags ih =>
    cases hshared : isShared tag with
    | true =>
      have hroute : ¬(tag.kind? == some .route) = true := by
        rw [beq_iff_eq]
        exact kind?_ne_of_isShared hshared
      -- a shared tag opens no operation, so it is dropped from the segment it stands in
      rw [List.filter_cons_of_neg (by simp [hshared]), ih, segments]
      simp only [hroute, Bool.false_eq_true, if_false]
      rw [List.filter_cons_of_neg (by simp [hshared])]
    | false =>
      rw [List.filter_cons_of_pos (by simp [hshared]), segments, ih, segments]
      by_cases hroute : (tag.kind? == some .route) = true
      · simp only [hroute, if_true, List.filter_nil, List.map_cons]
      · simp only [hroute, Bool.false_eq_true, if_false]
        rw [List.filter_cons_of_pos (by simp [hshared])]

/-- Operations are made without the tags that are read once for the whole block. -/
theorem operations_filter (group description : String) (headers : List (Atom × Value))
    (routes : List (Tag × List Tag)) :
    operations group description headers
        (routes.map fun s => (s.1, s.2.filter (!isShared ·))) =
      operations group description headers routes := by
  induction routes with
  | nil => rfl
  | cons s routes ih =>
    have hattached : (s.2.filter (!isShared ·)).filter isAttached = s.2.filter isAttached := by
      simpa using filter_isAttached s.2 []
    rw [List.map_cons, operations, operations, hattached, ih]

/-- The fragment of operations that three streams of tags make. -/
def ofStreams (markOf : String → Option Mark) (description : String)
    (own groups headers : List Tag) : Except FormatFault Fragment :=
  (operations (Group.ofTags groups).name description
    ((HeaderTable.ofTags headers).toEntries markOf) (segments own).2).map fun ops =>
      { paths := ops.foldl addOperation [], groups := ops.map fun _ => Group.ofTags groups }

/-- A block that does not start with a typedef gives what its three streams make. -/
theorem ofBlock_eq_ofStreams (markOf : String → Option Mark) {b : Block}
    (hfirst : ∀ head ∈ b.tags.head?, head.kind? ≠ some .typedef) :
    ofBlock markOf b = ofStreams markOf (descriptionOf b) (b.tags.filter (!isShared ·))
      (b.tags.filter (·.kind? == some .group)) (b.tags.filter Tag.isHeader) := by
  have hheaders : HeaderTable.ofTags (b.tags.filter Tag.isHeader) = HeaderTable.ofTags b.tags :=
    HeaderTable.addTags_filter_isHeader [] b.tags
  rw [ofStreams, ofTags_filter_group, hheaders, segments_filter, operations_filter]
  unfold ofBlock
  split
  · -- without tags there is no route that the group and the headers could be used for
    rename_i htags
    rw [htags]
    rfl
  · rename_i head rest htags
    have hhead : ¬(head.kind? == some .typedef) = true := by
      rw [beq_iff_eq]
      exact hfirst head (by rw [htags]; rfl)
    rw [if_neg hhead]
    rfl

/-! ## Headers of responses -/

/-- The response for a status code in the fields of an operation. -/
def response? (code : String) (fields : List (Atom × Value)) : Option Value :=
  (Assoc.get? (.text "responses") fields).bind (·.field? code)

/-- A response is written with the headers that it has. -/
theorem field?_headers (r : Response) : r.toValue.field? "headers" = r.headers := by
  rw [Response.toValue, field?_record]
  cases hheaders : r.headers <;> cases hschema : r.schema <;> rfl

/-- The field for responses is made of the response tags of a block. -/
theorem exists_responses {b : Block} {headers : List (Atom × Value)} {e : Atom × Value}
    (h : FieldOf b headers e) (hkey : e.1 = .text "responses") :
    ∃ rs : Assoc String Response, e.2 = .map (rs.map fun e => (.text e.1, e.2.toValue)) ∧
      ∀ e ∈ rs, ∃ tag, Response.ofTag headers tag = e := by
  cases h with
  | responses hrs =>
    refine ⟨_, rfl, fun e he => ?_⟩
    obtain ⟨tag, -, -, htag⟩ := hrs e he
    exact ⟨tag, htag⟩
  | attr _ _ =>
    rename_i a _ _
    have hne : a.key ≠ "responses" := by cases a <;> simp [Attribute.key]
    exact absurd (Atom.text.inj hkey) hne
  | _ => exact absurd (Atom.text.inj hkey) (by decide)

/-- Each response has the headers that the block declares for its status code. -/
theorem response?_headers {b : Block} {headers : List (Atom × Value)} {route : Route}
    {fields : List (Atom × Value)} (h : MethodOf b headers route fields) {code : String} {r : Value}
    (hr : response? code fields = some r) :
    r.field? "headers" = Assoc.get? (.text code) headers := by
  obtain ⟨v, hv, hcode⟩ := Option.bind_eq_some_iff.1 hr
  have hmem := Assoc.mem_of_get?_of_isExact (Atom.isExact_text "responses") hv
  obtain ⟨rs, hrs, htags⟩ := exists_responses (h.fieldOf _ hmem) rfl
  obtain rfl : v = .map (rs.map fun e => (.text e.1, e.2.toValue)) := hrs
  have hentry := Assoc.mem_of_get?_of_isExact (Atom.isExact_text code) hcode
  obtain ⟨e, he, heq⟩ := List.mem_map.1 hentry
  obtain ⟨hkey, rfl⟩ := Prod.mk.inj heq
  obtain ⟨tag, rfl⟩ := htags e he
  rw [field?_headers, ← hkey]
  rfl

/-- Two blocks with the same description and the same streams of tags. -/
structure SameStreams (b b' : Block) : Prop where
  description : b.description = b'.description
  own : b.tags.filter (!isShared ·) = b'.tags.filter (!isShared ·)
  groups : b.tags.filter (·.kind? == some .group) = b'.tags.filter (·.kind? == some .group)
  headers : b.tags.filter Tag.isHeader = b'.tags.filter Tag.isHeader

/-- Blocks that do not start with a typedef and whose tags are the same three streams, mixed in
different ways, give the same fragment or the same fault. A header that the reading comes to and
that is not declared again is there in all responses with its status code, in all routes of the
block, wherever its tag stands. -/
theorem ofBlock_eq_of_sameStreams {b b' : Block} (h : SameStreams b b')
    (hfirst : ∀ head ∈ b.tags.head?, head.kind? ≠ some .typedef)
    (hfirst' : ∀ head ∈ b'.tags.head?, head.kind? ≠ some .typedef)
    (markOf : String → Option Mark) :
    ofBlock markOf b = ofBlock markOf b' ∧
    ∀ f, ofBlock markOf b = .ok f →
      ∀ before tag after, b.tags = before ++ tag :: after →
      ∀ code name header, tag.isHeader = true → tag.header? = some (code, name, header) →
      (∀ t ∈ before, t.isHeader = true → t.header?.isSome = true) →
      (∀ t ∈ after, t.isHeader = true → ∀ h, t.header? ≠ some (code, name, h)) →
      ForMethods (fun _ fields => ∀ r, response? code fields = some r →
        (r.field? "headers").bind (·.field? name) = some header.toValue) f.paths := by
  refine ⟨?_, ?_⟩
  · have hdescription : descriptionOf b = descriptionOf b' := by
      rw [descriptionOf, h.description, descriptionOf]
    rw [ofBlock_eq_ofStreams markOf hfirst, ofBlock_eq_ofStreams markOf hfirst', hdescription,
      h.own, h.groups, h.headers]
  · intro f hf before tag after htags code name header hkind hread hbefore hafter
    have htable : (HeaderTable.ofTags b.tags).header? code name = some header :=
      htags ▸ HeaderTable.header?_ofTags hkind hread hbefore hafter
    intro e he e' he' r hr
    rw [response?_headers (ofBlock_methodsOf hf e he e' he') hr]
    exact HeaderTable.field?_toEntries htable markOf

/-- Two routes with a response each, and the group and a header for the responses at the end. -/
def headerLast : Block where
  tags := [{ title := "route", description := some "GET /pets" },
    { title := "returns", description := some "200 - All pets" },
    { title := "route", description := some "GET /pets/:id" },
    { title := "return", description := some "200 - One pet" },
    { title := "group", description := some "pets - All about pets" },
    { title := "headers", description := some "{integer} 200.X-Rate-Limit - per hour" }]

/-- The same routes with the header in front of both and the group behind the first of them. -/
def headerFirst : Block where
  tags := [{ title := "headers", description := some "{integer} 200.X-Rate-Limit - per hour" },
    { title := "route", description := some "GET /pets" },
    { title := "group", description := some "pets - All about pets" },
    { title := "returns", description := some "200 - All pets" },
    { title := "route", description := some "GET /pets/:id" },
    { title := "return", description := some "200 - One pet" }]

/-- Responses of two routes have the header that is declared in front of both or behind both. -/
theorem ofBlock_headerLast :
    ∃ f, ofBlock (fun _ => none) headerLast = .ok f ∧
      ofBlock (fun _ => none) headerFirst = .ok f ∧
      (f.paths.map fun e => e.2.map fun e' => (response? "200" e'.2).isSome) = [[true], [true]] ∧
      ForMethods (fun _ fields => ∀ r, response? "200" fields = some r →
        (r.field? "headers").bind (·.field? "X-Rate-Limit") =
          some (Header.toValue ⟨"integer", some "per hour"⟩)) f.paths := by
  obtain ⟨f, hf⟩ : ∃ f, ofBlock (fun _ => none) headerLast = .ok f :=
    exists_ok_of_isSome_toOption (by decide +kernel)
  have hfirst : ∀ head ∈ headerLast.tags.head?, head.kind? ≠ some .typedef := by
    intro head hhead
    cases hhead
    decide +kernel
  have hfirst' : ∀ head ∈ headerFirst.tags.head?, head.kind? ≠ some .typedef := by
    intro head hhead
    cases hhead
    decide +kernel
  have hstreams : SameStreams headerLast headerFirst := ⟨rfl, rfl, rfl, rfl⟩
  obtain ⟨hsame, hheader⟩ := ofBlock_eq_of_sameStreams hstreams hfirst hfirst' fun _ => none
  have hbefore : ∀ t ∈ headerLast.tags.take 5, t.isHeader = true → t.header?.isSome = true := by
    decide +kernel
  have hresponses : ((ofBlock (fun _ => none) headerLast).toOption.map fun f =>
      f.paths.map fun e => e.2.map fun e' => (response? "200" e'.2).isSome) =
        some [[true], [true]] := by decide +kernel
  rw [hf] at hresponses
  refine ⟨f, hf, hsame.symm.trans hf, Option.some.inj hresponses, ?_⟩
  exact hheader f hf (headerLast.tags.take 5) _ [] rfl "200" "X-Rate-Limit" _ (by decide +kernel)
    (by decide +kernel) hbefore fun t ht => absurd ht List.not_mem_nil

end Fragment

end ApiDoc
