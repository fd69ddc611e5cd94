import ApiDoc.Proofs.Comment.NormalForm
import ApiDoc.Proofs.Comment.TypeText
import ApiDoc.Tag.Parameter

/-!
# Optional names

A tag may have its name in brackets with a default, as in `@param [limit.query=10] - text`. Spaces
behind the equals sign and in front of the closing bracket are dropped with the default. Those in
front of the name and behind it are not: they are read as part of the name
(`plainName_bracketedName`).

A parameter has its name and its location between dots, so such spaces end up in one of them, unless
they stand behind a second dot (`sameField_iff`). `name_bracketed_iff` puts this together.
-/

namespace ApiDoc

open Text

/-- A run of spaces. -/
def spaces (k : Nat) : List Char := List.replicate k ' '

/-- Spaces hold no other character. -/
theorem not_mem_spaces {c : Char} (hc : c ≠ ' ') (k : Nat) : c ∉ spaces k :=
  fun h => hc (List.eq_of_mem_replicate h)

/-- There are as many spaces as there should be. -/
theorem length_spaces (k : Nat) : (spaces k).length = k := List.length_replicate

/-- Spaces around a text leave it only if there are none. -/
theorem spaces_append_eq_iff {front behind : Nat} {s : List Char} :
    spaces front ++ s ++ spaces behind = s ↔ front = 0 ∧ behind = 0 := by
  constructor
  · intro h
    have hlength := congrArg List.length h
    simp only [List.length_append, length_spaces] at hlength
    omega
  · rintro ⟨rfl, rfl⟩
    simp [spaces]

/-! ## Spaces in the name of a parameter -/

namespace FieldName

variable {a b : List Char}

/-- A field without a dot is a name in the default location. -/
theorem ofText_of_not_mem (h : '.' ∉ a) : ofText a = ⟨String.ofList a, defaultLocation, false⟩ := by
  rw [ofText, splitAll_of_not_mem h]

/-- The location that the text behind the first dot gives. -/
def locationOf (s : List Char) : String := if s.isEmpty then defaultLocation else String.ofList s

/-- A field with one dot is a name and a location. -/
theorem ofText_append (ha : '.' ∉ a) (hb : '.' ∉ b) :
    (ofText (a ++ '.' :: b)).name = String.ofList a ∧
      (ofText (a ++ '.' :: b)).location = locationOf b := by
  rw [ofText, splitAll_append ha, splitAll_of_not_mem hb]
  exact ⟨rfl, rfl⟩

/-- A second dot ends the location of a field. -/
theorem ofText_append_append (ha : '.' ∉ a) (hb : '.' ∉ b) (rest : List Char) :
    (ofText (a ++ '.' :: (b ++ '.' :: rest))).name = String.ofList a ∧
      (ofText (a ++ '.' :: (b ++ '.' :: rest))).location = locationOf b := by
  rw [ofText, splitAll_append ha, splitAll_append hb]
  exact ⟨rfl, rfl⟩

/-- Spaces behind a location make another one of it. -/
theorem locationOf_spaces_iff (s : List Char) (behind : Nat) :
    locationOf (s ++ spaces behind) = locationOf s ↔ behind = 0 := by
  constructor
  · intro h
    by_contra hbehind
    obtain ⟨k, rfl⟩ := Nat.exists_eq_succ_of_ne_zero hbehind
    have hne : (s ++ spaces (k + 1)).isEmpty = false := by simp [spaces]
    cases s with
    | nil =>
      -- the location of a parameter that names none does not start with a space
      have hget := congrArg String.toList h
      simp [locationOf, spaces, List.replicate_succ, defaultLocation] at hget
    | cons c s =>
      rw [locationOf, locationOf, hne] at h
      have hlength := congrArg List.length (String.ofList_injective h)
      rw [List.length_append, length_spaces] at hlength
      omega
  · rintro rfl
    simp [spaces]

/-- Spaces around the name of a parameter leave its first two parts as they are only if there are
none in front, and those behind are none either or belong to a third part. -/
theorem sameField_iff (n : List Char) (front behind : Nat) :
    ((ofText (spaces front ++ n ++ spaces behind)).name = (ofText n).name ∧
        (ofText (spaces front ++ n ++ spaces behind)).location = (ofText n).location) ↔
      front = 0 ∧ (behind = 0 ∨ 2 ≤ n.count '.') := by
  have hspaces (k : Nat) : '.' ∉ spaces k := not_mem_spaces (by decide) k
  have hname (a : List Char) : String.ofList (spaces front ++ a) = String.ofList a ↔ front = 0 := by
    rw [String.ofList_inj]
    simp [spaces]
  -- the location ends at the second dot, so spaces behind one are not part of it
  by_cases hdot : '.' ∈ n
  · obtain ⟨a, r, rfl, ha⟩ := List.eq_append_cons_of_mem hdot
    have hfront : '.' ∉ spaces front ++ a := by simp [hspaces, ha]
    by_cases hsecond : '.' ∈ r
    · obtain ⟨b, rest, rfl, hb⟩ := List.eq_append_cons_of_mem hsecond
      have hsplit : spaces front ++ (a ++ '.' :: (b ++ '.' :: rest)) ++ spaces behind =
          (spaces front ++ a) ++ '.' :: (b ++ '.' :: (rest ++ spaces behind)) := by simp
      obtain ⟨hname₁, hlocation₁⟩ := ofText_append_append hfront hb (rest ++ spaces behind)
      obtain ⟨hname₂, hlocation₂⟩ := ofText_append_append ha hb rest
      have hcount : 2 ≤ (a ++ '.' :: (b ++ '.' :: rest)).count '.' := by
        simp only [List.count_append, List.count_cons_self]
        omega
      rw [hsplit, hname₁, hlocation₁, hname₂, hlocation₂, hname]
      exact ⟨fun h => ⟨h.1, .inr hcount⟩, fun h => ⟨h.1, rfl⟩⟩
    · have hback : '.' ∉ r ++ spaces behind := by simp [hspaces, hsecond]
      have hsplit : spaces front ++ (a ++ '.' :: r) ++ spaces behind =
          (spaces front ++ a) ++ '.' :: (r ++ spaces behind) := by simp
      obtain ⟨hname₁, hlocation₁⟩ := ofText_append hfront hback
      obtain ⟨hname₂, hlocation₂⟩ := ofText_append ha hsecond
      have hcount : (a ++ '.' :: r).count '.' = 1 := by
        rw [List.count_append, List.count_cons_self, List.count_eq_zero_of_not_mem ha,
          List.count_eq_zero_of_not_mem hsecond]
      rw [hsplit, hname₁, hlocation₁, hname₂, hlocation₂, hname, locationOf_spaces_iff, hcount]
      simp
  · have hall : '.' ∉ spaces front ++ n ++ spaces behind := by simp [hspaces, hdot]
    rw [ofText_of_not_mem hall, ofText_of_not_mem hdot, String.ofList_inj, spaces_append_eq_iff,
      List.count_eq_zero_of_not_mem hdot]
    simp

end FieldName

/-! ## Reading names -/

namespace Comment

variable {title : String} {n d name : List Char}

/-- How many spaces stand in the brackets of an optional name: in front of the name, behind it,
behind the equals sign and in front of the closing bracket. -/
structure Spacing where
  front : Nat
  behind : Nat
  lead : Nat
  back : Nat
  deriving DecidableEq, Repr

/-- A name in brackets with a default. -/
def bracketedName (sp : Spacing) (n d : List Char) : List Char :=
  '[' :: (spaces sp.front ++ n ++ spaces sp.behind ++
    '=' :: (spaces sp.lead ++ d ++ spaces sp.back) ++ [']'])

/-- A tag with a name and, behind a hyphen, a text. -/
def namedText (title : String) (name text : List Char) : List Char :=
  '@' :: (title.toList ++ ' ' :: (name ++ ' ' :: '-' :: ' ' :: text))

/-- A text that is read as a name up to the space behind it, and not as a type. -/
structure IsNameText (name : List Char) : Prop where
  head : ∀ c ∈ name.head?, isBlank c = false ∧ c ≠ '\x7b'
  ne_nil : name ≠ []
  taken : ∀ rest, takeName (name ++ ' ' :: rest) = (name, trimStart (' ' :: rest))

/-- A plain name that does not start with a brace is read as a name. -/
theorem isNameText_of_isPlainName (hn : IsPlainName n) (hbrace : n.head? ≠ some '\x7b') :
    IsNameText n := by
  refine ⟨fun c hc => ⟨(hn.chars c (List.mem_of_head? hc)).1, ?_⟩, hn.ne_nil, fun rest => ?_⟩
  · rintro rfl
    exact hbrace hc
  · simpa [spaced] using hn.takeName_eq [rest]

/-- What stands in the brackets goes up to the first closing bracket. -/
theorem isNameText_bracketedName (hn : IsPlainName n) (hd : ']' ∉ d) (sp : Spacing) :
    IsNameText (bracketedName sp n d) := by
  have hspaces (k : Nat) : ']' ∉ spaces k := not_mem_spaces (by decide) k
  have hname : ']' ∉ n := fun h => (hn.chars ']' h).2 (by decide)
  have hinner : ']' ∉ spaces sp.front ++ n ++ spaces sp.behind ++
      '=' :: (spaces sp.lead ++ d ++ spaces sp.back) := by
    simp [hspaces, hname, hd]
  refine ⟨?_, List.cons_ne_nil _ _, fun rest => ?_⟩
  · rintro c ⟨⟩
    decide
  · simpa [bracketedName] using takeName_bracketed hinner (' ' :: rest)

/-- The name between the brackets and the equals sign is read with the spaces around it. -/
theorem plainName_bracketedName (hn : IsPlainName n) (sp : Spacing) (d : List Char) :
    plainName (bracketedName sp n d) = spaces sp.front ++ n ++ spaces sp.behind := by
  generalize hx : spaces sp.front ++ n ++ spaces sp.behind = x
  have hchars : ∀ c ∈ x, (c == '[' || c == ']') = false ∧ c ≠ '=' := by
    have hspace (k : Nat) : ∀ c ∈ spaces k, (c == '[' || c == ']') = false ∧ c ≠ '=' := by
      intro c hc
      rw [List.eq_of_mem_replicate hc]
      decide
    have hname : ∀ c ∈ n, (c == '[' || c == ']') = false ∧ c ≠ '=' := by
      intro c hc
      have hmem := (hn.chars c hc).2
      simp_all
    rw [← hx, List.forall_mem_append, List.forall_mem_append]
    exact ⟨⟨hspace _, hname⟩, hspace _⟩
  have hne : x ≠ [] := by
    rw [← hx]
    simp [hn.ne_nil]
  obtain ⟨c, rest, rfl⟩ := List.exists_cons_of_ne_nil hne
  have hequals : '=' ∉ c :: rest := fun h => (hchars '=' h).2 rfl
  -- brackets are taken away in front up to the name, and behind at most up to the equals sign
  have htrim : trimBy (fun c => c == '[' || c == ']') (bracketedName sp n d) =
      c :: rest ++ '=' :: (spaces sp.lead ++ d ++ spaces sp.back ++ [']']).rdropWhile
        (fun c => c == '[' || c == ']') := by
    have hdrop : (bracketedName sp n d).dropWhile (fun c => c == '[' || c == ']') =
        c :: rest ++ '=' :: (spaces sp.lead ++ d ++ spaces sp.back ++ [']']) := by
      rw [bracketedName, hx, List.dropWhile_cons_of_pos (by decide), List.append_assoc,
        List.cons_append, List.dropWhile_cons_of_neg (by simp [(hchars c List.mem_cons_self).1])]
      rfl
    rw [trimBy, hdrop]
    exact rdropWhile_append_cons (by decide) (c :: rest) _
  rw [plainName, htrim, splitFirst_append hequals]

/-- A title with a name may have a type, and stands for a title with a name. -/
theorem mem_titles_of_mem_namedTitles (htitle : title ∈ namedTitles) :
    title ∈ typedTitles ∧ canonicalTitle title ∈ namedTitles := by
  have hall : namedTitles.all (fun title => typedTitles.contains title &&
      namedTitles.contains (canonicalTitle title)) = true := by decide
  simpa using List.all_eq_true.1 hall title htitle

/-- A tag with a name and a text is read back as it was written. -/
theorem readTag?_namedText (htitle : title ∈ namedTitles) (hname : IsNameText name)
    (text : List Char) : readTag? (namedText title name text) =
      some { title := canonicalTitle title
             name := textOrNone (plainName name)
             description := textOrNone (stripHyphen (trim ('-' :: ' ' :: text))) } := by
  obtain ⟨htyped, hnamed⟩ := mem_titles_of_mem_namedTitles htitle
  obtain ⟨hne, hword⟩ := isWord_of_mem_typedTitles htyped
  have hhyphen (before after : List Char) :
      trimEnd (before ++ '-' :: after) = before ++ '-' :: trimEnd after :=
    trimEnd_append_cons (by decide) before after
  have hhead (behind : List Char) :
      ∀ c ∈ (name ++ behind).head?, isBlank c = false ∧ c ≠ '\x7b' := by
    rw [List.head?_append_of_ne_nil _ hname.ne_nil]
    exact hname.head
  have hbody : trim (name ++ ' ' :: '-' :: ' ' :: text) =
      name ++ ' ' :: '-' :: trimEnd (' ' :: text) := by
    rw [trim, trimStart_eq_self fun c hc => (hhead _ c hc).1]
    simpa using hhyphen (name ++ [' ']) (' ' :: text)
  have hbrace : (name ++ ' ' :: '-' :: trimEnd (' ' :: text)).head? ≠ some '\x7b' :=
    fun h => (hhead _ _ h).2 rfl
  have hdescription : trim (trimStart (' ' :: '-' :: trimEnd (' ' :: text))) =
      trim ('-' :: ' ' :: text) := by
    rw [trim_trimStart, trim_space_cons, ← trim_trimEnd ('-' :: ' ' :: text)]
    exact congrArg trim (hhyphen [] (' ' :: text)).symm
  rw [readTag?, namedText, ofText?_title hne hword, Option.map_some, Section.tag_eq_tagWith,
    Section.tagWith, Section.typeText, hbody,
    if_pos (List.contains_iff_mem.2 (canonicalTitle_mem_typedTitles htyped)),
    takeBraced_of_head? hbrace, naming, if_pos (List.contains_iff_mem.2 hnamed), hname.taken]
  simp only [hdescription, Option.bind_none]

/-! ## Optional names -/

/-- The field of a parameter is told by the name of its tag. -/
theorem field_of_name {tag : Tag} {s : List Char} (h : tag.name = some (String.ofList s)) :
    (Parameter.ofTag tag).field = .ofText s := by
  rw [Parameter.ofTag, FieldName.ofTag, h, Option.getD_some, String.toList_ofList]

/-- The name of a tag that has it in brackets is what stands between the opening bracket and the
equals sign, and so it is the name without spaces exactly if there are none on either side of it. A
parameter of that name and this one have the same name and location only if there are no spaces in
front of the name, and none behind it either unless the name has two dots. -/
theorem name_bracketed_iff (htitle : title ∈ namedTitles) (hn : IsPlainName n) (hd : ']' ∉ d)
    (sp : Spacing) (text : List Char) :
    ∃ tag, readTag? (namedText title (bracketedName sp n d) text) = some tag ∧
      tag.name = some (String.ofList (spaces sp.front ++ n ++ spaces sp.behind)) ∧
      (tag.name = some (String.ofList n) ↔ sp.front = 0 ∧ sp.behind = 0) ∧
      (∀ plain : Tag, plain.name = some (String.ofList n) →
        ((Parameter.ofTag tag).field.name = (Parameter.ofTag plain).field.name ∧
            (Parameter.ofTag tag).field.location = (Parameter.ofTag plain).field.location ↔
          sp.front = 0 ∧ (sp.behind = 0 ∨ 2 ≤ n.count '.'))) ∧
      (n.head? ≠ some '\x7b' → ∃ plain, readTag? (namedText "param" n text) = some plain ∧
        plain.name = some (String.ofList n) ∧ plain.description = tag.description) := by
  have hread := readTag?_namedText htitle (isNameText_bracketedName hn hd sp) text
  have hname : textOrNone (plainName (bracketedName sp n d)) =
      some (String.ofList (spaces sp.front ++ n ++ spaces sp.behind)) := by
    rw [plainName_bracketedName hn]
    simp [textOrNone, hn.ne_nil]
  refine ⟨_, hread, hname, ?_, fun plain hplain => ?_, fun hbrace => ?_⟩
  · rw [hname, Option.some_inj, String.ofList_inj]
    exact spaces_append_eq_iff
  · rw [field_of_name hname, field_of_name hplain]
    exact FieldName.sameField_iff n sp.front sp.behind
  · have hparam : "param" ∈ namedTitles := by decide
    have hplain := readTag?_namedText hparam (isNameText_of_isPlainName hn hbrace) text
    refine ⟨_, hplain, ?_, rfl⟩
    rw [hn.plainName_eq]
    simp [textOrNone, hn.ne_nil]

/-- Spaces inside the brackets of `@arg [id.query  = 1 ] - the key`. -/
theorem name_bracketed_iff_spaced :
    "arg" ∈ namedTitles ∧ IsPlainName "id.query".toList ∧ ']' ∉ ['1'] ∧
    ∃ tag plain, readTag? "@arg [id.query  = 1 ] - the key".toList = some tag ∧
      readTag? "@param id.query - the key".toList = some plain ∧
      tag.name = some "id.query  " ∧ plain.name = some "id.query" ∧
      ¬ ((Parameter.ofTag tag).field.name = (Parameter.ofTag plain).field.name ∧
        (Parameter.ofTag tag).field.location = (Parameter.ofTag plain).field.location) := by
  have htitle : "arg" ∈ namedTitles := by decide
  have hn : IsPlainName "id.query".toList := by decide
  have hd : ']' ∉ ['1'] := by decide
  obtain ⟨tag, htag, hname, -, hsame, hread⟩ :=
    name_bracketed_iff htitle hn hd ⟨0, 2, 1, 1⟩ "the key".toList
  obtain ⟨plain, hplain, hplainName, -⟩ := hread (by decide)
  have hfields : ¬ (0 = 0 ∧ (2 = 0 ∨ 2 ≤ "id.query".toList.count '.')) := by decide
  exact ⟨htitle, hn, hd, tag, plain, htag, hplain, hname, hplainName,
    fun h => hfields ((hsame plain hplainName).1 h)⟩

/-- In `@param [id.query = 1] - The id` the space behind the name becomes a part of the location. -/
theorem location_bracketed_blank :
    (readTag? "@param [id.query = 1] - The id".toList).map
        (fun tag => (tag.name, (Parameter.ofTag tag).field.location)) =
      some (some "id.query ", "query ") ∧
    (readTag? "@param id.query - The id".toList).map
        (fun tag => (tag.name, (Parameter.ofTag tag).field.location)) =
      some (some "id.query", "query") := by
  decide +kernel

end Comment

end ApiDoc
