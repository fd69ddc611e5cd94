import ApiDoc.Proofs.Fragment.Streams
import ApiDoc.Proofs.Tag.Header

/-!
# The headers of a block

The headers of a block are read in one pass over its header tags, which ends at the first malformed
one. The table that it makes has the entries of the tags up to there, put in one after another
(`HeaderTable.addTags_eq`), so of two with the same status code and name the later one counts. Each
response of the block has the headers of its status code and no other ones:
`HeaderTable.ofTags_pass`.

For one tag that is written as `{type} code.Name - description` the table is what the tag says, but
for a type with digits in it: `HeaderTable.ofTags_headerText`.
-/

namespace ApiDoc

open Text Value

/-- A tag gives no header just if its text is malformed. -/
theorem Tag.header?_eq_none_iff {tag : Tag} : tag.header? = none ↔ Header.IsMalformed tag.text :=
  Header.ofText?_eq_none_iff

namespace HeaderTable

/-! ## The pass -/

/-- The header tags that are read: those in front of the first malformed one. -/
def readTags (tags : List Tag) : List Tag :=
  (tags.filter Tag.isHeader).takeWhile fun tag => !decide (Header.IsMalformed tag.text)

/-- The headers that are read, each with its status code and name. -/
def readEntries (tags : List Tag) : List (String × String × Header) :=
  (readTags tags).filterMap Tag.header?

/-- The table with one header after another. -/
def addEntries (table : HeaderTable) (entries : List (String × String × Header)) : HeaderTable :=
  entries.foldl (fun table e => table.add e.1 e.2.1 e.2.2) table

/-- Tags that are no headers are passed over. -/
theorem readEntries_of_not_isHeader {tag : Tag} (h : ¬ tag.isHeader = true) (tags : List Tag) :
    readEntries (tag :: tags) = readEntries tags := by
  rw [readEntries, readTags, List.filter_cons_of_neg h]
  rfl

/-- A malformed header ends the reading. -/
theorem readEntries_of_isMalformed {tag : Tag} (hkind : tag.isHeader = true)
    (h : Header.IsMalformed tag.text) (tags : List Tag) : readEntries (tag :: tags) = [] := by
  rw [readEntries, readTags, List.filter_cons_of_pos hkind,
    List.takeWhile_cons_of_neg (by simp [h])]
  rfl

/-- A header that can be read is followed by those behind it. -/
theorem readEntries_of_header? {tag : Tag} (hkind : tag.isHeader = true)
    {e : String × String × Header} (h : tag.header? = some e) (tags : List Tag) :
    readEntries (tag :: tags) = e :: readEntries tags := by
  have hread : ¬ Header.IsMalformed tag.text := by
    rw [← Tag.header?_eq_none_iff, h]
    exact Option.some_ne_none e
  rw [readEntries, readTags, List.filter_cons_of_pos hkind,
    List.takeWhile_cons_of_pos (by simp [hread]), List.filterMap_cons_some h]
  rfl

/-- The pass puts in the headers of the tags up to the first malformed one, from the left. -/
theorem addTags_eq (table : HeaderTable) (tags : List Tag) :
    table.addTags tags = table.addEntries (readEntries tags) := by
  induction tags generalizing table with
  | nil => rfl
  | cons tag tags ih =>
    rw [addTags_cons]
    by_cases hkind : tag.isHeader = true
    · rw [if_pos hkind]
      cases hread : tag.header? with
      | none =>
        rw [readEntries_of_isMalformed hkind (Tag.header?_eq_none_iff.1 hread)]
        rfl
      | some e =>
        rw [readEntries_of_header? hkind hread]
        exact ih _
    · rw [if_neg hkind, readEntries_of_not_isHeader hkind, ih]

/-- Of the entries with a status code and a name the last one counts. -/
theorem header?_addEntries (table : HeaderTable) (entries : List (String × String × Header))
    (code name : String) : (table.addEntries entries).header? code name =
      ((entries.reverse.find? fun e => e.1 == code && e.2.1 == name).map (·.2.2)).or
        (table.header? code name) := by
  induction entries generalizing table with
  | nil => rfl
  | cons e entries ih =>
    have hstep : table.addEntries (e :: entries) =
        (table.add e.1 e.2.1 e.2.2).addEntries entries := rfl
    rw [hstep, ih, List.reverse_cons, List.find?_append]
    cases entries.reverse.find? (fun e => e.1 == code && e.2.1 == name) with
    | some found => rfl
    | none =>
      by_cases heq : (e.1, e.2.1) = (code, name)
      · obtain ⟨rfl, rfl⟩ := Prod.mk.inj heq
        simp [header?_add_self]
      · have hne : (e.1 == code && e.2.1 == name) = false := by
          rw [Bool.eq_false_iff]
          simpa using heq
        simp [header?_add_of_ne heq, hne]

/-- What stands behind a malformed header tag is not read. -/
theorem readEntries_append {before after after' : List Tag} {bad : Tag}
    (hkind : bad.isHeader = true) (h : Header.IsMalformed bad.text) :
    readEntries (before ++ bad :: after) = readEntries (before ++ bad :: after') := by
  induction before with
  | nil =>
    rw [List.nil_append, List.nil_append, readEntries_of_isMalformed hkind h,
      readEntries_of_isMalformed hkind h]
  | cons tag before ih =>
    rw [List.cons_append, List.cons_append]
    by_cases htag : tag.isHeader = true
    · cases hread : tag.header? with
      | none =>
        have hmalformed := Tag.header?_eq_none_iff.1 hread
        rw [readEntries_of_isMalformed htag hmalformed, readEntries_of_isMalformed htag hmalformed]
      | some e => rw [readEntries_of_header? htag hread, readEntries_of_header? htag hread, ih]
    · rw [readEntries_of_not_isHeader htag, readEntries_of_not_isHeader htag, ih]

/-- Tags that are no header tags do not matter. -/
theorem ofTags_congr {tags tags' : List Tag}
    (h : tags'.filter Tag.isHeader = tags.filter Tag.isHeader) : ofTags tags' = ofTags tags := by
  rw [ofTags, ofTags, ← addTags_filter_isHeader, h, addTags_filter_isHeader]

end HeaderTable

/-- Each response of a block has the headers that the block declares for its status code, and no
others. -/
theorem Fragment.ofBlock_headers {markOf : String → Option Mark} {b : Block} {f : Fragment}
    (h : ofBlock markOf b = .ok f) :
    ForMethods (fun _ fields => ∀ code r, response? code fields = some r →
      r.field? "headers" = (Assoc.get? code (HeaderTable.ofTags b.tags)).map
        (headersValue (markOf code))) f.paths := by
  intro e he e' he' code r hr
  rw [response?_headers (ofBlock_methodsOf h e he e' he') hr, headersOf,
    HeaderTable.get?_toEntries]

namespace HeaderTable

/-- The headers of a block are those of its header tags in front of the first malformed one, which
is one without a dot in front of its first hyphen between blanks, or without a digit in front of
that dot. They are put in from the left, so the last one with a status code and a name counts.
Other tags do not matter, nor does what stands behind the malformed tag. A response has the headers
of its status code, if there are some. -/
theorem ofTags_pass (tags : List Tag) :
    (∀ tag : Tag, tag.header? = none ↔ Header.IsMalformed tag.text) ∧
    ofTags tags = addEntries [] (readEntries tags) ∧
    (∀ code name, (ofTags tags).header? code name =
      ((readEntries tags).reverse.find? fun e => e.1 == code && e.2.1 == name).map (·.2.2)) ∧
    (∀ tags' : List Tag, tags'.filter Tag.isHeader = tags.filter Tag.isHeader →
      ofTags tags' = ofTags tags) ∧
    (∀ before bad after after', tags = before ++ bad :: after → bad.isHeader = true →
      Header.IsMalformed bad.text → ofTags (before ++ bad :: after') = ofTags tags) ∧
    ∀ markOf (b : Block) f, b.tags = tags → Fragment.ofBlock markOf b = .ok f →
      Fragment.ForMethods (fun _ fields => ∀ code r, Fragment.response? code fields = some r →
        r.field? "headers" =
          (Assoc.get? code (ofTags tags)).map (headersValue (markOf code))) f.paths := by
  refine ⟨fun tag => Tag.header?_eq_none_iff, addTags_eq [] tags, fun code name => ?_,
    fun tags' h => ofTags_congr h, ?_, ?_⟩
  · rw [ofTags, addTags_eq, header?_addEntries]
    exact Option.or_none
  · rintro before bad after after' rfl hkind hbad
    rw [ofTags, ofTags, addTags_eq, addTags_eq, readEntries_append hkind hbad]
  · rintro markOf b f rfl hf
    exact Fragment.ofBlock_headers hf

/-- A header that is declared twice, and one behind a tag without a dot. -/
def stoppedHeaders : Block where
  tags := [{ title := "header", description := some "{integer} 200.X-Rate-Limit - per day" },
    { title := "route", description := some "GET /pets" },
    { title := "headers", description := some "{string} 200.X-Rate-Limit - per hour" },
    { title := "returns", description := some "200 - All pets" },
    { title := "header", description := some "X-Expires-After - {string} 201.X-Expires-After" },
    { title := "header", description := some "{string} 201.X-Expires-After - date" },
    { title := "returns", description := some "201 - A new pet" }]

/-- The second declaration counts, and the response behind the malformed tag has no headers. -/
theorem ofTags_pass_stoppedHeaders :
    (ofTags stoppedHeaders.tags).header? "200" "X-Rate-Limit" =
        some ⟨"string", some "per hour"⟩ ∧
      ofTags (stoppedHeaders.tags.take 5) = ofTags stoppedHeaders.tags ∧
      ∃ f, Fragment.ofBlock (fun _ => none) stoppedHeaders = .ok f ∧
        (f.paths.map fun e => e.2.map fun e' => (Fragment.response? "201" e'.2).isSome) =
          [[true]] ∧
        Fragment.ForMethods (fun _ fields => ∀ r, Fragment.response? "201" fields = some r →
          r.field? "headers" = none) f.paths := by
  obtain ⟨-, -, hlast, -, hstop, hblock⟩ := ofTags_pass stoppedHeaders.tags
  obtain ⟨f, hf⟩ : ∃ f, Fragment.ofBlock (fun _ => none) stoppedHeaders = .ok f :=
    exists_ok_of_isSome_toOption (by decide +kernel)
  have hresponses : ((Fragment.ofBlock (fun _ => none) stoppedHeaders).toOption.map fun f =>
      f.paths.map fun e => e.2.map fun e' => (Fragment.response? "201" e'.2).isSome) =
        some [[true]] := by decide +kernel
  rw [hf] at hresponses
  have hmissing : Assoc.get? "201" (ofTags stoppedHeaders.tags) = none := by decide +kernel
  refine ⟨(hlast "200" "X-Rate-Limit").trans (by decide +kernel),
    hstop (stoppedHeaders.tags.take 4) _ (stoppedHeaders.tags.drop 5) [] rfl (by decide +kernel)
      (by decide +kernel), f, hf, Option.some.inj hresponses, ?_⟩
  intro e he e' he' r hr
  rw [hblock _ stoppedHeaders f rfl hf e he e' he' "201" r hr, hmissing]
  rfl

/-! ## One written header -/

section Written

variable {type code name description : List Char}

/-- One header makes a table of one status code. -/
theorem ofTags_singleton {tag : Tag} (hkind : tag.isHeader = true) {code name : String}
    {header : Header} (h : tag.header? = some (code, name, header)) :
    ofTags [tag] = [(code, [(name, header)])] := by
  rw [ofTags, addTags_eq, readEntries_of_header? hkind h]
  rfl

/-- The one header of a status code, as a value. -/
def headerEntry (markOf : String → Option Mark) (code name type description : String) :
    Atom × Value :=
  (.text code, .object (markOf code)
    [(.text name, .record [("type", .text type), ("description", .text description)])])

/-- A table with one header has one entry. -/
theorem toEntries_singleton (markOf : String → Option Mark)
    (code name type description : String) :
    toEntries markOf [(code, [(name, ⟨type, some description⟩)])] =
      [headerEntry markOf code name type description] := rfl

/-- A header tag is read as it is written, if its type has no digits. If it has some, the first of
them are taken for the status code. The values of the table say the same. -/
theorem ofTags_headerText (h : Header.IsWritable type code name description) {tag : Tag}
    (hkind : tag.isHeader = true)
    (htext : tag.description =
      some (String.ofList (Header.headerText type code name description))) :
    ((∀ c ∈ type, isDecimal c = false) →
      ofTags [tag] = [(String.ofList code, [(String.ofList name,
        ⟨String.ofList type, some (String.ofList description)⟩)])] ∧
      ∀ markOf, (ofTags [tag]).toEntries markOf = [headerEntry markOf (String.ofList code)
        (String.ofList name) (String.ofList type) (String.ofList description)]) ∧
    ∀ before digits behind, type = before ++ digits ++ behind →
      (∀ c ∈ before, isDecimal c = false) → digits ≠ [] → (∀ c ∈ digits, isDecimal c = true) →
      (∀ c ∈ behind.head?, isDecimal c = false) →
      ofTags [tag] = [(String.ofList digits, [(String.ofList name,
        ⟨String.ofList type, some (String.ofList description)⟩)])] ∧
      ∀ markOf, (ofTags [tag]).toEntries markOf = [headerEntry markOf (String.ofList digits)
        (String.ofList name) (String.ofList type) (String.ofList description)] := by
  have hread : tag.header? =
      some (String.ofList (firstRun isDecimal (Header.headerFront type code)),
        String.ofList name, ⟨String.ofList type, some (String.ofList description)⟩) := by
    rw [Tag.header?, Tag.text, htext, Option.getD_some, String.toList_ofList, h.ofText?_headerText]
  refine ⟨fun htype => ?_, fun before digits behind heq hbefore hne hdigits hbehind => ?_⟩
  · rw [ofTags_singleton hkind hread, h.firstRun_code htype]
    exact ⟨rfl, fun markOf => toEntries_singleton markOf _ _ _ _⟩
  · have hcode : firstRun isDecimal (Header.headerFront type code) = digits :=
      heq ▸ Header.IsWritable.firstRun_digits hbefore hne hdigits hbehind
    rw [ofTags_singleton hkind hread, hcode]
    exact ⟨rfl, fun markOf => toEntries_singleton markOf _ _ _ _⟩

/-- A header tag with a text. -/
def headerTag (text : String) : Tag := { title := "header", description := some text }

/-- A header of any type that is a word can be written. -/
theorem isWritable_rateLimit (h : type ≠ []) (hword : ∀ c ∈ type, isWord c = true) :
    Header.IsWritable type "200".toList "X-Rate-Limit".toList "calls per hour".toList where
  type_ne := h
  type_word := hword
  code_ne := by decide
  code_decimal := List.all_eq_true.1 (by decide)
  name_ne := by decide
  name_chars := by
    have hname : "X-Rate-Limit".toList.all (fun c => !isBlank c && c != '.') = true := by decide
    simpa only [List.all_eq_true, Bool.and_eq_true, Bool.not_eq_true', bne_iff_ne] using hname
  described := by decide
  unhyphened := by decide

/-- A type without digits, and one with digits of its own. -/
theorem ofTags_headerText_rateLimit :
    (ofTags [headerTag "{integer} 200.X-Rate-Limit - calls per hour"]).toEntries (fun _ => none) =
      [(.text "200", .record [("X-Rate-Limit", .record [("type", .text "integer"),
        ("description", .text "calls per hour")])])] ∧
    ofTags [headerTag "{int32} 200.X-Rate-Limit - calls per hour"] =
      [("32", [("X-Rate-Limit", ⟨"int32", some "calls per hour"⟩)])] := by
  have hinteger := isWritable_rateLimit (by decide : "integer".toList ≠ [])
    (List.all_eq_true.1 (by decide))
  have hint32 := isWritable_rateLimit (by decide : "int32".toList ≠ [])
    (List.all_eq_true.1 (by decide))
  have hend : ∀ c ∈ ([] : List Char).head?, isDecimal c = false := by
    rintro c ⟨⟩
  exact ⟨((ofTags_headerText hinteger (by decide +kernel) (by decide +kernel)).1
      (firstRun_eq_nil_iff.1 (by decide))).2 fun _ => none,
    ((ofTags_headerText hint32 (by decide +kernel) (by decide +kernel)).2 "int".toList "32".toList
      [] (by decide) (firstRun_eq_nil_iff.1 (by decide)) (by decide)
      (List.all_eq_true.1 (by decide)) hend).1⟩

/-- A header with the type `int32` that is written for the responses with the status code 200 is
read as one for other responses. -/
theorem ofTags_int32 :
    Header.IsWritable "int32".toList "200".toList "X-Rate-Limit".toList "calls per hour".toList ∧
    ofTags [headerTag (String.ofList (Header.headerText "int32".toList "200".toList
        "X-Rate-Limit".toList "calls per hour".toList))] ≠
      [("200", [("X-Rate-Limit", ⟨"int32", some "calls per hour"⟩)])] :=
  ⟨isWritable_rateLimit (by decide) (List.all_eq_true.1 (by decide)), by decide +kernel⟩

end Written

end HeaderTable

end ApiDoc
