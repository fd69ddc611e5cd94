import ApiDoc.Proofs.Document.Scan
import ApiDoc.Proofs.Fragment.Origin

/-!
# Names that a block chooses

The keys of what a block makes are fixed ones, but for the names that its tags choose: paths and
methods, status codes and the names of headers, the keys inside security requirements, and the names
of definitions and of their properties (`IsChosen`). None of the fixed keys is one that a search
reports, a truth value under `deprecated` apart; so what the search reports of the paths and the
definitions of a block are names that the block chooses: `isChosen_of_paths`,
`isChosen_of_definitions`.
-/

namespace ApiDoc

open Value Document

/-! ## Entries of which nothing is reported -/

/-- Whether a key is on the list of wrong keys. -/
def isWrong (key : Atom) : Bool := wrongProperties.any (·.same (.atom key))

/-- The wrong keys are texts. -/
theorem isWrong_iff {key : Atom} : isWrong key = true ↔ ∃ k, .text k ∈ wrongProperties ∧
    key = .text k := by
  have hsame : ∀ k : String, (Value.text k).same (.atom key) = true ↔ key = .text k := by
    intro k
    change Atom.same (.text k) key = true ↔ _
    cases key with
    | text s => simpa [Atom.same, Atom.number?] using eq_comm
    | _ => simp [Atom.same, Atom.number?]
  unfold isWrong wrongProperties
  simp only [List.any_map, List.any_eq_true, Function.comp_apply, hsame, List.mem_map,
    Value.atom.injEq, Atom.text.injEq, exists_eq_right]

/-- The keys of fields that every block writes alike, besides those of its parts. -/
def fixedKeys : List String :=
  ["parameters", "description", "tags", "summary", "operationId", "produces", "consumes",
    "security", "responses", "headers", "schema", "required", "properties", "allOf", "example"]

/-- No fixed key is a wrong one. -/
theorem isWrong_fixed (key : String) (h : key ∈ fixedKeys) : isWrong (.text key) = false := by
  have hall : ∀ k ∈ fixedKeys, isWrong (.text k) = false := by decide
  exact hall key h

/-- An entry of an object under which nothing is reported, wherever the object is. -/
def Quiet (key : Atom) (v : Value) : Prop :=
  ∀ above place x, v.At place x →
    isReported wrongProperties true (above ++ key :: place) x = false

section Quiet

variable {key : Atom} {v x : Value} {above place : List Atom}

/-- A key is reported if it is a wrong one that is neither the name of a property nor that of a
flag. -/
theorem isReported_concat (above : List Atom) (key : Atom) (x : Value) :
    isReported wrongProperties true (above ++ [key]) x =
      (isWrong key && !(above.getLast?.any (·.same (.text "properties"))) && !isFlag x) := by
  simp only [isReported, List.getLast?_concat, List.dropLast_concat, Option.any_some, isWrong,
    Bool.true_and]

/-- No fixed key is reported. -/
theorem isReported_fixed (above : List Atom) (key : String) (h : key ∈ fixedKeys) (x : Value) :
    isReported wrongProperties true (above ++ [.text key]) x = false := by
  rw [isReported_concat, isWrong_fixed key h, Bool.false_and, Bool.false_and]

/-- An entry is quiet if its key is not reported and what is inside it is quiet. -/
theorem quiet_of_keyed (hkey : isWrong key = false ∨ isFlag v = true)
    (h : ∀ e ∈ v.keyed, Quiet e.1 e.2) : Quiet key v := by
  intro above place x hx
  cases place with
  | nil =>
    rw [at_nil_iff.1 hx, isReported_concat]
    rcases hkey with hkey | hflag
    · rw [hkey, Bool.false_and, Bool.false_and]
    · rw [hflag, Bool.not_true, Bool.and_false]
  | cons k rest =>
    obtain ⟨w, hw, hx⟩ := at_cons_iff.1 hx
    rw [List.append_cons]
    exact h (k, w) hw (above ++ [key]) rest x hx

/-- An atom is quiet if its key is not reported. -/
theorem quiet_atom {a : Atom} (hkey : isWrong key = false ∨ isFlag (.atom a) = true) :
    Quiet key (.atom a) :=
  quiet_of_keyed hkey fun _ he => absurd he List.not_mem_nil

/-- No index is a wrong key. -/
theorem isWrong_int (i : Int) : isWrong (.int i) = false := by
  rw [← Bool.not_eq_true, isWrong_iff]
  rintro ⟨k, -, heq⟩
  cases heq

/-- An item is quiet if what is inside it is. -/
theorem quiet_item (i : Int) (h : ∀ e ∈ v.keyed, Quiet e.1 e.2) : Quiet (.int i) v :=
  quiet_of_keyed (.inl (isWrong_int i)) h

/-- A list is quiet if what is inside its items is. -/
theorem quiet_list {m : Option Mark} {items : List Value} (hkey : isWrong key = false)
    (h : ∀ w ∈ items, ∀ e ∈ w.keyed, Quiet e.1 e.2) : Quiet key (.list m items) := by
  refine quiet_of_keyed (.inl hkey) fun e he => ?_
  obtain ⟨i, hi, hw⟩ := mem_keyed_list_iff.1 he
  rw [hi]
  exact quiet_item i (h e.2 (List.mem_of_getElem? hw))

/-- No key that is written is wrong. -/
theorem IsWrittenField.isWrong_eq_false (h : IsWrittenField key v) : isWrong key = false := by
  rcases h with ⟨k, hk, rfl⟩ | ⟨rfl, -⟩
  · have hall : ∀ k ∈ writtenKeys, isWrong (.text k) = false := by decide
    exact hall k hk
  · decide

/-- Nothing is reported inside a value that is written. -/
theorem quiet_of_isWritten (h : v.Every IsWritten) : ∀ e ∈ v.keyed, Quiet e.1 e.2 := by
  induction v using Value.induction with
  | step v ih =>
    intro e he
    have hpart := mem_parts_of_mem_keyed he
    refine quiet_of_keyed (.inl ?_) (ih e.2 hpart (h.part hpart))
    cases v with
    | object m es => exact IsWrittenField.isWrong_eq_false (h.self.2 e he)
    | list m items =>
      obtain ⟨i, hi, -⟩ := mem_keyed_list_iff.1 he
      rw [hi]
      exact isWrong_int i
    | _ => exact absurd he List.not_mem_nil

/-- What is written of parts of comments is quiet. -/
theorem quiet_written (hkey : isWrong key = false) (h : v.Every IsWritten) : Quiet key v :=
  quiet_of_keyed (.inl hkey) (quiet_of_isWritten h)

/-- Nothing is reported of the names of properties. -/
theorem quiet_properties {m : Option Mark} {es : List (Atom × Value)}
    (h : ∀ e ∈ es, ∀ e' ∈ e.2.keyed, Quiet e'.1 e'.2) :
    Quiet (.text "properties") (.object m es) := by
  intro above place x hx
  match place with
  | [] => exact isReported_fixed above "properties" (by decide) x
  | [name] =>
    rw [List.append_cons, isReported_concat, List.getLast?_concat]
    have hsame : (Atom.text "properties").same (.text "properties") = true := by decide
    rw [Option.any_some, hsame, Bool.not_true, Bool.and_false, Bool.false_and]
  | name :: k :: rest =>
    obtain ⟨w, hw, hx⟩ := at_cons_iff.1 hx
    obtain ⟨w', hw', hx⟩ := at_cons_iff.1 hx
    rw [List.append_cons, List.append_cons]
    exact h (name, w) hw (k, w') hw' _ rest x hx

end Quiet

/-! ## Headers -/

/-- A header of a block, with its status code and its name, is declared by a tag. -/
def Block.DeclaresHeader (b : Block) (code name : String) (header : Header) : Prop :=
  ∃ tag ∈ b.tags, tag.kind?.any (·.isHeader) = true ∧
    Header.ofText? tag.text = some (code, name, header)

namespace HeaderTable

/-- What holds of all headers of a table. -/
def ForHeaders (P : String → String → Header → Prop) (table : HeaderTable) : Prop :=
  ∀ e ∈ table, ∀ e' ∈ e.2, P e.1 e'.1 e'.2

/-- What holds of all headers holds with one more that it holds of. -/
theorem ForHeaders.add {P : String → String → Header → Prop} {table : HeaderTable}
    (h : ForHeaders P table) {code name : String} {header : Header} (hnew : P code name header) :
    ForHeaders P (table.add code name header) := by
  have hexact : ∀ key : String, Assoc.IsExact key := Assoc.isExact_of_lawfulBEq
  intro e he
  rcases Assoc.mem_insert_of_isExact (hexact code) he with hold | rfl
  · exact h e hold
  · intro e' he'
    rcases Assoc.mem_insert_of_isExact (hexact name) he' with hold | rfl
    · cases hget : Assoc.get? code table with
      | none =>
        rw [hget] at hold
        exact absurd hold List.not_mem_nil
      | some headers =>
        rw [hget] at hold
        exact h _ (Assoc.mem_of_get?_of_isExact (hexact code) hget) e' hold
    · exact hnew

/-- What holds of the header of every tag holds of the headers of all tags. -/
theorem ForHeaders.addTags {P : String → String → Header → Prop} {tags : List Tag}
    (htags : ∀ tag ∈ tags, tag.kind?.any (·.isHeader) = true → ∀ code name header,
      Header.ofText? tag.text = some (code, name, header) → P code name header)
    {table : HeaderTable} (h : ForHeaders P table) : ForHeaders P (table.addTags tags) := by
  induction tags generalizing table with
  | nil => exact h
  | cons tag tags ih =>
    obtain ⟨htag, hrest⟩ := List.forall_mem_cons.1 htags
    unfold HeaderTable.addTags
    split
    · rename_i hkind
      split
      · rename_i hread
        exact ih hrest (h.add (htag hkind _ _ _ hread))
      · exact h
    · exact ih hrest h

/-- The headers of a block are those that its tags declare. -/
theorem ofTags_declared (b : Block) : ForHeaders b.DeclaresHeader (ofTags b.tags) :=
  ForHeaders.addTags (fun tag htag hkind _ _ _ hread => ⟨tag, htag, hkind, hread⟩)
    fun _ he => absurd he List.not_mem_nil

end HeaderTable

/-! ## Chosen names -/

/-- A route that a tag of a block declares. -/
def Block.DeclaresRoute (b : Block) (route : Route) : Prop :=
  ∃ tag ∈ b.tags, tag.kind? = some .route ∧ route = Route.ofText tag.text

/-- The place of a route in the paths. -/
def Route.place (route : Route) : List Atom := [.text route.uri, .text route.method]

/-- The names that a block chooses, each with its section and its place there. -/
inductive IsChosen (b : Block) : String → List Atom → Prop where
  /-- The path of a route. -/
  | uri {route : Route} (hroute : b.DeclaresRoute route) : IsChosen b "paths" [.text route.uri]
  /-- The method of a route. -/
  | method {route : Route} (hroute : b.DeclaresRoute route) : IsChosen b "paths" route.place
  /-- The status code of a response. -/
  | code {route : Route} (hroute : b.DeclaresRoute route) {tag : Tag} (htag : tag ∈ b.tags)
      (hkind : tag.kind? = some .returns ∨ tag.kind? = some .return) :
      IsChosen b "paths" (route.place ++
        [.text "responses", .text (String.ofList (hyphenParts tag.text).1)])
  /-- The name of a header of a response. -/
  | header {route : Route} (hroute : b.DeclaresRoute route) {code name : String} {header : Header}
      (hheader : b.DeclaresHeader code name header) :
      IsChosen b "paths" (route.place ++
        [.text "responses", .text code, .text "headers", .text name])
  /-- A key inside a security requirement. -/
  | security {route : Route} (hroute : b.DeclaresRoute route) {tag : Tag} (htag : tag ∈ b.tags)
      (hkind : tag.kind? = some .security) {requirements x : Value}
      (hread : securityOf tag.text = .ok requirements) {key : Atom} {place : List Atom}
      (hx : requirements.At (key :: place) x) :
      IsChosen b "paths" (route.place ++ .text "security" :: key :: place)
  /-- The name of a definition. -/
  | definition {head : Tag} {rest : List Tag} (htags : b.tags = head :: rest)
      (hkind : head.kind? = some .typedef) {name : String}
      (hname : nonempty? head.name = some name) :
      IsChosen b "definitions" [.text name]

section Chosen

variable {b : Block} {markOf : String → Option Mark} {route : Route} {above place : List Atom}
  {x : Value}

/-- The nodes inside a record are its fields. -/
theorem mem_keyed_record {fields : List (String × Value)} {key : Atom} {w : Value}
    (h : (key, w) ∈ (record fields).keyed) : ∃ k, key = .text k ∧ (k, w) ∈ fields := by
  obtain ⟨⟨k, v⟩, hmem, heq⟩ := List.mem_map.1 h
  obtain ⟨rfl, rfl⟩ := Prod.mk.inj heq
  exact ⟨k, rfl, hmem⟩

/-- What is reported of the headers of a response is the name of a header. -/
theorem isChosen_of_headers (hroute : b.DeclaresRoute route) {code : String} {headers : Value}
    (hheaders : Assoc.get? (.text code) (Fragment.headersOf markOf b) = some headers)
    (hx : headers.At place x)
    (hreported : isReported wrongProperties true (above ++ .text "headers" :: place) x = true) :
    IsChosen b "paths" (route.place ++
      .text "responses" :: .text code :: .text "headers" :: place) := by
  have hmem := Assoc.mem_of_get?_of_isExact (Atom.isExact_text code) hheaders
  obtain ⟨⟨code', table⟩, htable, heq⟩ := List.mem_map.1 hmem
  obtain ⟨hcode, rfl⟩ := Prod.mk.inj heq
  obtain rfl := Atom.text.inj hcode
  cases place with
  | nil =>
    rw [isReported_fixed above "headers" (by decide)] at hreported
    cases hreported
  | cons name place =>
    obtain ⟨w, hw, hx⟩ := at_cons_iff.1 hx
    obtain ⟨⟨name', header⟩, hheader, heq⟩ := List.mem_map.1 hw
    obtain ⟨rfl, rfl⟩ := Prod.mk.inj heq
    cases place with
    | nil => exact .header hroute (HeaderTable.ofTags_declared b _ htable _ hheader)
    | cons key place =>
      obtain ⟨w, hw, hx⟩ := at_cons_iff.1 hx
      rw [List.append_cons, List.append_cons,
        quiet_of_isWritten header.isWritten _ hw _ place x hx] at hreported
      cases hreported

/-- What is reported of the responses of an operation is a status code or the name of a header. -/
theorem isChosen_of_responses (hroute : b.DeclaresRoute route) {rs : Assoc String Response}
    (hrs : ∀ e ∈ rs, ∃ tag ∈ b.tags, (tag.kind? = some .returns ∨ tag.kind? = some .return) ∧
      Response.ofTag (Fragment.headersOf markOf b) tag = e)
    (hx : (Value.map (rs.map fun e => (.text e.1, e.2.toValue))).At place x)
    (hreported : isReported wrongProperties true (above ++ .text "responses" :: place) x = true) :
    IsChosen b "paths" (route.place ++ .text "responses" :: place) := by
  -- the place goes down key by key: the field, the status code, and what is in the response
  cases place with
  | nil =>
    rw [isReported_fixed above "responses" (by decide)] at hreported
    cases hreported
  | cons code place =>
    obtain ⟨r, hr, hplace⟩ := at_cons_iff.1 hx
    obtain ⟨e, he, heq⟩ := List.mem_map.1 hr
    obtain ⟨tag, htag, hkind, rfl⟩ := hrs e he
    obtain ⟨rfl, rfl⟩ := Prod.mk.inj heq
    cases place with
    | nil => exact .code hroute htag hkind
    | cons key place =>
      obtain ⟨w, hw, hbelow⟩ := at_cons_iff.1 hplace
      obtain ⟨k, rfl, hmem⟩ := mem_keyed_record hw
      have hquiet : Quiet (.text k) w → False := by
        intro hquiet
        rw [List.append_cons, List.append_cons, hquiet _ place x hbelow] at hreported
        cases hreported
      rcases List.mem_cons.1 hmem with heq | hmem
      · obtain ⟨rfl, rfl⟩ := Prod.mk.inj heq
        exact absurd (quiet_atom (.inl (isWrong_fixed "description" (by decide)))) hquiet
      rcases List.mem_append.1 hmem with hmem | hmem
      · obtain ⟨headers, hheaders, hmem⟩ := exists_of_mem_elim hmem
        obtain ⟨rfl, rfl⟩ := Prod.mk.inj (List.mem_singleton.1 hmem)
        rw [List.append_cons, List.append_cons] at hreported
        exact isChosen_of_headers hroute hheaders hbelow hreported
      · obtain ⟨schema, hschema, hmem⟩ := exists_of_mem_elim hmem
        obtain ⟨rfl, rfl⟩ := Prod.mk.inj (List.mem_singleton.1 hmem)
        have hwritten := (schemaOf?_isNamed hschema).isWritten
        exact absurd (quiet_written (isWrong_fixed "schema" (by decide)) hwritten) hquiet

/-- What is reported of a field of an operation is a name that a tag chooses. -/
theorem FieldOf.isChosen {e : Atom × Value} (h : FieldOf b (Fragment.headersOf markOf b) e)
    (hroute : b.DeclaresRoute route) (hx : e.2.At place x)
    (hreported : isReported wrongProperties true (above ++ e.1 :: place) x = true) :
    IsChosen b "paths" (route.place ++ e.1 :: place) := by
  -- under all fields but the security requirements and the responses nothing is reported
  have hquiet : Quiet e.1 e.2 → IsChosen b "paths" (route.place ++ e.1 :: place) := by
    intro hquiet
    rw [hquiet above place x hx] at hreported
    cases hreported
  cases h with
  | parameters hps =>
    refine hquiet (quiet_list (isWrong_fixed "parameters" (by decide))
      (List.forall_mem_map.2 fun q hq => ?_))
    obtain ⟨tag, -, rfl⟩ := hps q hq
    exact quiet_of_isWritten (Parameter.ofTag_isWritten tag)
  | description s => exact hquiet (quiet_atom (.inl (isWrong_fixed "description" (by decide))))
  | group =>
    exact hquiet (quiet_written (isWrong_fixed "tags" (by decide)) (textsValue_isWritten [_]))
  | @attr tag a htag ha =>
    cases a with
    | summary s =>
      cases s <;> exact hquiet (quiet_atom (.inl (isWrong_fixed "summary" (by decide))))
    | operationId s =>
      cases s <;> exact hquiet (quiet_atom (.inl (isWrong_fixed "operationId" (by decide))))
    | produces types =>
      exact hquiet (quiet_written (isWrong_fixed "produces" (by decide))
        (textsValue_isWritten types))
    | consumes types =>
      exact hquiet (quiet_written (isWrong_fixed "consumes" (by decide))
        (textsValue_isWritten types))
    | deprecated => exact hquiet (quiet_atom (.inr rfl))
    | security requirements =>
      cases place with
      | nil =>
        rw [Attribute.key, isReported_fixed above "security" (by decide)] at hreported
        cases hreported
      | cons key place => exact .security hroute htag ha.1 ha.2 hx
  | responses hrs => exact isChosen_of_responses hroute hrs hx hreported

/-- What is reported of the paths of a block are names that the block chooses. -/
theorem isChosen_of_paths {f : Fragment} (hf : Fragment.ofBlock markOf b = .ok f)
    (hne : place ≠ []) (hx : f.pathsValue.At place x)
    (hreported : isReported wrongProperties true (above ++ place) x = true) :
    IsChosen b "paths" place := by
  have hmethods := Fragment.ofBlock_methodsOf hf
  match place with
  | [] => exact absurd rfl hne
  | uri :: place =>
    obtain ⟨w, hw, hx⟩ := at_cons_iff.1 hx
    obtain ⟨⟨uri', methods⟩, hpath, heq⟩ := List.mem_map.1 hw
    obtain ⟨rfl, rfl⟩ := Prod.mk.inj heq
    match place with
    | [] =>
      obtain ⟨e, he⟩ := List.exists_mem_of_ne_nil methods
        ((Fragment.ofBlock_pathsFilled hf).values _ hpath).2
      exact .uri (hmethods _ hpath e he).route
    | method :: place =>
      obtain ⟨w, hw, hx⟩ := at_cons_iff.1 hx
      obtain ⟨⟨method', fields⟩, hmethod, heq⟩ := List.mem_map.1 hw
      obtain ⟨rfl, rfl⟩ := Prod.mk.inj heq
      have hmethodOf := hmethods _ hpath _ hmethod
      match place with
      | [] => exact .method hmethodOf.route
      | key :: place =>
        obtain ⟨w, hw, hx⟩ := at_cons_iff.1 hx
        rw [List.append_cons, List.append_cons] at hreported
        exact (hmethodOf.fieldOf (key, w) hw).isChosen hmethodOf.route hx hreported

/-- What is inside a property is quiet. -/
theorem Property.ofTag_quiet (readOnly : Bool) (tag : Tag) :
    ∀ e ∈ (Property.ofTag readOnly tag).toValue.keyed, Quiet e.1 e.2 := by
  rcases Property.ofTag_cases readOnly tag with ⟨-, hwritten⟩ | ⟨fields, a, hfields, -, heq⟩
  · exact quiet_of_isWritten hwritten
  · rw [heq]
    rintro ⟨key, w⟩ he
    obtain ⟨k, rfl, hmem⟩ := mem_keyed_record he
    rcases List.mem_append.1 hmem with hmem | hmem
    · have hfield := hfields _ hmem
      exact quiet_written (IsWrittenField.isWrong_eq_false hfield.1) hfield.2
    · obtain ⟨rfl, rfl⟩ := Prod.mk.inj (List.mem_singleton.1 hmem)
      exact quiet_atom (.inl (isWrong_fixed "example" (by decide)))

/-- Nothing is reported inside a definition. -/
theorem Definition.IsOf.quiet {head : Tag} {rest : List Tag} {d : Definition}
    (h : d.IsOf head rest) : ∀ e ∈ d.toValue.keyed, Quiet e.1 e.2 := by
  rintro ⟨key, w⟩ he
  obtain ⟨k, rfl, hmem⟩ := mem_keyed_record he
  rcases List.mem_append.1 hmem with hmem | hmem
  · rcases List.mem_pair.1 hmem with heq | heq
    · obtain ⟨rfl, rfl⟩ := Prod.mk.inj heq
      exact quiet_written (isWrong_fixed "required" (by decide)) (textsValue_isWritten d.required)
    · obtain ⟨rfl, rfl⟩ := Prod.mk.inj heq
      refine quiet_properties (List.forall_mem_map.2 ?_)
      rintro ⟨name, p⟩ hp
      obtain ⟨tag, -, readOnly, rfl⟩ := h.properties _ hp
      exact Property.ofTag_quiet readOnly tag
  · obtain ⟨base, hbase, hmem⟩ := exists_of_mem_elim hmem
    obtain ⟨rfl, rfl⟩ := Prod.mk.inj (List.mem_singleton.1 hmem)
    have hwritten := definitionRef_isWritten (ne_empty_of_baseOf (h.base ▸ hbase))
    exact quiet_written (isWrong_fixed "allOf" (by decide))
      (array_isWritten (List.forall_mem_singleton.2 hwritten))

/-- What is reported of the definitions of a block is the name of a definition. -/
theorem isChosen_of_definitions {f : Fragment} (hf : Fragment.ofBlock markOf b = .ok f)
    (hne : place ≠ []) (hx : f.definitionsValue.At place x)
    (hreported : isReported wrongProperties true (above ++ place) x = true) :
    IsChosen b "definitions" place := by
  match place with
  | [] => exact absurd rfl hne
  | name :: place =>
    obtain ⟨w, hw, hx⟩ := at_cons_iff.1 hx
    rcases Fragment.ofBlock_cases hf with
      ⟨head, rest, title, d, htags, hkind, hd, rfl⟩ | ⟨ops, -, rfl⟩
    · obtain ⟨rfl, rfl⟩ := Prod.mk.inj (List.mem_singleton.1 hw)
      obtain ⟨htitle, hisOf⟩ := Definition.ofTags_isOf hd
      match place with
      | [] => exact .definition htags hkind htitle
      | key :: place =>
        obtain ⟨w, hw, hx⟩ := at_cons_iff.1 hx
        rw [List.append_cons, hisOf.quiet _ hw _ place x hx] at hreported
        cases hreported
    · exact absurd hw List.not_mem_nil

/-- Nothing is reported of a group. -/
theorem quiet_groupValue (i : Int) (g : Group) : Quiet (.int i) (Fragment.groupValue g) :=
  quiet_item i (quiet_of_isWritten (Fragment.groupValue_isWritten g))

end Chosen

end ApiDoc
