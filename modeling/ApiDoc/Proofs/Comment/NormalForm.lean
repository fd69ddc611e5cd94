import ApiDoc.Proofs.Comment.TagText
import ApiDoc.Proofs.Except

/-!
# The normal form of what is read

Reading a comment never gets stuck, and what it gives has a normal form (`blocks_isNormal`). Nothing
is asked of the text.

The one step that could get stuck takes a name from a text by a pattern that need not match. A
reading that fails where the pattern does (`blocks?`) gives the same blocks, since the pattern is
used only on a text that is solid.
-/

namespace ApiDoc.Comment

open Text

variable {s rest name : List Char} {title : String}

/-! ## The pattern of names -/

/-- A text starts with a name in brackets, or else with a name up to the first blank, and has the
rest behind the blanks that follow. -/
inductive NamePattern : List Char → List Char → List Char → Prop
  | bracketed {inner blanks rest : List Char} (hinner : ']' ∉ inner)
      (hblanks : ∀ c ∈ blanks, isBlank c = true) (hrest : ∀ c ∈ rest.head?, isBlank c = false) :
      NamePattern ('[' :: (inner ++ ']' :: (blanks ++ rest))) ('[' :: (inner ++ [']'])) rest
  | bare {name blanks rest : List Char} (hne : name ≠ [])
      (hopen : name.head? = some '[' → ']' ∉ name ++ (blanks ++ rest))
      (hname : ∀ c ∈ name, isBlank c = false)
      (hend : ∀ c ∈ (blanks ++ rest).head?, isBlank c = true)
      (hblanks : ∀ c ∈ blanks, isBlank c = true) (hrest : ∀ c ∈ rest.head?, isBlank c = false) :
      NamePattern (name ++ (blanks ++ rest)) name rest

/-- The name in front of a text and the rest, or none if the text is empty or starts with a
blank. -/
def matchName? (s : List Char) : Option (List Char × List Char) :=
  if s.head?.all isBlank then none else some (takeName s)

/-- A name in brackets ends at the first closing bracket. -/
theorem takeName_bracketed {inner : List Char} (h : ']' ∉ inner) (tail : List Char) :
    takeName ('[' :: (inner ++ ']' :: tail)) = ('[' :: (inner ++ [']']), trimStart tail) := by
  simp only [takeName, splitFirst_append h]

/-- A name without brackets, or with one that is not closed, ends at the first blank. -/
theorem takeName_bare (h : s.head? = some '[' → ']' ∉ s) :
    takeName s = (s.takeWhile (!isBlank ·), trimStart (s.dropWhile (!isBlank ·))) := by
  unfold takeName
  split
  · next rest =>
    have hrest : ']' ∉ rest := fun hmem => h rfl (List.mem_cons_of_mem '[' hmem)
    simp only [splitFirst_of_not_mem hrest]
  · rfl

/-- A text with the pattern of a name is matched by it. -/
theorem NamePattern.matchName?_eq (h : NamePattern s name rest) :
    matchName? s = some (name, rest) := by
  cases h with
  | bracketed hinner hblanks hrest =>
    have hhead : isBlank '[' = false := by decide
    rw [matchName?, takeName_bracketed hinner, trimStart_append hblanks, trimStart_eq_self hrest]
    simp [hhead]
  | bare hne hopen hname hend hblanks hrest =>
    obtain ⟨c, name, rfl⟩ := List.exists_cons_of_ne_nil hne
    obtain ⟨htake, hdrop⟩ := takeWhile_append_of_head? (p := (!isBlank ·))
      (fun c hc => by simp [hname c hc]) (fun c hc => by simp [hend c hc])
    rw [matchName?, takeName_bare hopen, htake, hdrop, trimStart_append hblanks,
      trimStart_eq_self hrest]
    simp [hname c List.mem_cons_self]

/-- A text that does not start with a blank has the pattern of a name up to one. -/
theorem namePattern_bare (hopen : s.head? = some '[' → ']' ∉ s)
    (h : s.head?.all isBlank = false) :
    NamePattern s (s.takeWhile (!isBlank ·)) (trimStart (s.dropWhile (!isBlank ·))) := by
  have hs : s = s.takeWhile (!isBlank ·) ++ ((s.dropWhile (!isBlank ·)).takeWhile isBlank ++
      trimStart (s.dropWhile (!isBlank ·))) := by
    rw [takeWhile_append_trimStart, List.takeWhile_append_dropWhile]
  nth_rewrite 1 [hs]
  refine .bare ?_ (fun hhead => ?_) (fun c hc => ?_) (fun c hc => ?_)
    (fun c hc => List.mem_takeWhile_imp hc) fun c hc => isBlank_of_head?_trimStart hc
  · cases s with
    | nil => cases h
    | cons c s =>
      have hc : isBlank c = false := h
      simp [hc]
  · rw [← hs]
    refine hopen ?_
    rw [hs, List.head?_append, hhead]
    rfl
  · simpa using List.mem_takeWhile_imp hc
  · rw [takeWhile_append_trimStart] at hc
    have hnot := List.head?_dropWhile_not (!isBlank ·) s
    rw [Option.mem_def.1 hc] at hnot
    simpa using hnot

/-- A text that does not start with a blank has the pattern with the name that is taken. -/
theorem namePattern_takeName (h : s.head?.all isBlank = false) :
    NamePattern s (takeName s).1 (takeName s).2 := by
  by_cases hopen : s.head? = some '[' → ']' ∉ s
  · rw [takeName_bare hopen]
    exact namePattern_bare hopen h
  · obtain ⟨hhead, hmem⟩ := Classical.not_imp.1 hopen
    obtain ⟨rest, rfl⟩ := List.head?_eq_some_iff.1 hhead
    -- the name ends at the first bracket that closes, so none is inside
    obtain ⟨inner, tail, rfl, hinner⟩ := List.eq_append_cons_of_mem (by simpa using hmem)
    rw [takeName_bracketed hinner]
    nth_rewrite 1 [← takeWhile_append_trimStart tail]
    exact .bracketed hinner (fun c hc => List.mem_takeWhile_imp hc)
      fun c hc => isBlank_of_head?_trimStart hc

/-- A match is a pattern of a name, and each text has at most one. -/
theorem matchName?_eq_some_iff : matchName? s = some (name, rest) ↔ NamePattern s name rest := by
  refine ⟨fun h => ?_, NamePattern.matchName?_eq⟩
  rw [matchName?] at h
  split at h
  · cases h
  · next hblank =>
    have hpattern := namePattern_takeName (Bool.eq_false_iff.2 hblank)
    rwa [Option.some.inj h] at hpattern

/-! ## Reading that may fail -/

/-- The name in front of a text and the text behind it, if the text has the pattern of a name or
need not have it. -/
def naming? (title : String) (rest : List Char) : Option (Option String × List Char) :=
  if namedTitles.contains title && !rest.isEmpty then
    (matchName? rest).map fun p => (textOrNone (plainName p.1), p.2)
  else some (none, rest)

/-- The tag of a section, if its text has the pattern of a name or need not have it. -/
def Section.tag? (s : Section) : Option Tag := (naming? s.title s.typeText.2).map s.tagWith

/-- The block of a comment, if every section gives a tag. -/
def block? (content : List Char) : Option Block :=
  ((titledSections content).mapM Section.tag?).map fun tags => { block content with tags }

/-- The blocks of a text, if every comment gives one. -/
def blocks? (s : List Char) : Option (List Block) := (contents s).mapM block?

/-- On a trimmed text the name can always be told. -/
theorem naming?_eq (h : IsTrimmed rest) : naming? title rest = some (naming title rest) := by
  unfold naming? naming
  cases rest with
  | nil => cases namedTitles.contains title <;> rfl
  | cons c rest =>
    have hmatch : matchName? (c :: rest) = some (takeName (c :: rest)) := by
      simp [matchName?, h.head c rfl]
    cases namedTitles.contains title <;> simp [hmatch]

/-- What is behind a type in braces is trimmed. -/
theorem isTrimmed_takeBraced (h : IsTrimmed s) : IsTrimmed (takeBraced s).2 := by
  fun_cases takeBraced s with
  | case1 => exact h
  | case2 c rest hc inner tail htail => exact isTrimmed_trim tail
  | case3 | case4 => exact h

/-- What a section has behind its type is trimmed. -/
theorem Section.isTrimmed_typeText {sec : Section} (h : IsTrimmed sec.body) :
    IsTrimmed sec.typeText.2 := by
  unfold Section.typeText
  split
  · exact isTrimmed_takeBraced h
  · exact h

/-- A trimmed section always gives its tag. -/
theorem Section.tag?_eq {sec : Section} (h : IsTrimmed sec.body) : sec.tag? = some sec.tag := by
  rw [Section.tag?, naming?_eq (Section.isTrimmed_typeText h), Option.map_some,
    Section.tag_eq_tagWith]

/-! ## Sections -/

/-- The title that a word stands for is a title. -/
theorem isTitle_canonicalTitle (hne : title ≠ "") (hword : ∀ c ∈ title.toList, isWord c = true) :
    IsTitle (canonicalTitle title) := by
  by_cases h : title ∈ ["arg", "argument", "prop"]
  · have hall : ∀ title ∈ ["arg", "argument", "prop"], IsTitle (canonicalTitle title) := by decide
    exact hall title h
  · rw [canonicalTitle_eq_self h]
    exact ⟨hne, hword, h⟩

/-- A section has a title and a trimmed body. -/
theorem Section.of_ofText? {sec : Section} (h : Section.ofText? s = some sec) :
    IsTitle sec.title ∧ IsTrimmed sec.body := by
  unfold Section.ofText? at h
  split at h
  · next rest htrim =>
    split at h
    · cases h
    · next word hword =>
      cases h
      refine ⟨isTitle_canonicalTitle ?_ fun c hc => ?_, isTrimmed_trim _⟩
      · simpa using hword
      · rw [String.toList_ofList] at hc
        exact List.mem_takeWhile_imp hc
  · cases h

/-- Every section of a comment has a title and a trimmed body. -/
theorem of_mem_titledSections {content : List Char} {sec : Section}
    (h : sec ∈ titledSections content) : IsTitle sec.title ∧ IsTrimmed sec.body := by
  obtain ⟨text, -, htext⟩ := List.mem_filterMap.1 h
  exact Section.of_ofText? htext

/-! ## Tags -/

/-- A tag with a title that stands for itself, and with the parts that its title may have, none of
them empty. -/
structure IsNormalTag (t : Tag) : Prop where
  title : IsTitle t.title
  described : ∀ d ∈ t.description, IsSolid d.toList
  named : ∀ n ∈ t.name, n ≠ "" ∧ t.title ∈ namedTitles
  typed : ∀ e ∈ t.type, e.WellFormed ∧ t.title ∈ typedTitles

/-- A text is there just if it is not empty. -/
theorem mem_textOrNone_iff {text : String} :
    text ∈ textOrNone s ↔ s ≠ [] ∧ text = String.ofList s := by
  unfold textOrNone
  split
  · simp_all
  · simp_all only [List.isEmpty_iff, Option.mem_def, Option.some.injEq, ne_eq, not_false_eq_true,
      true_and]
    exact eq_comm

/-- A trimmed text stays trimmed without the hyphen in front. -/
theorem isTrimmed_stripHyphen (h : IsTrimmed s) : IsTrimmed (stripHyphen s) := by
  fun_cases stripHyphen s with
  | case1 c rest hc =>
    exact h.trimStart_of_suffix ((List.suffix_cons c rest).trans (List.suffix_cons '-' _))
  | case2 | case3 => exact h

/-- The tag of a section with a title is normal. -/
theorem isNormalTag_tag {sec : Section} (h : IsTitle sec.title) : IsNormalTag sec.tag := by
  rw [Section.tag_eq_tagWith]
  refine ⟨h, fun d hd => ?_, fun n hn => ?_, fun e he => ?_⟩
  · obtain ⟨hne, rfl⟩ := mem_textOrNone_iff.1 hd
    rw [String.toList_ofList]
    exact ⟨isTrimmed_stripHyphen (isTrimmed_trim _), hne⟩
  · have hn : n ∈ (naming sec.title sec.typeText.2).1 := hn
    unfold naming at hn
    split at hn
    · next htitle =>
      obtain ⟨hne, rfl⟩ := mem_textOrNone_iff.1 hn
      exact ⟨by simpa using hne, List.contains_iff_mem.1 htitle⟩
    · cases hn
  · obtain ⟨text, htext, hparse⟩ := Option.bind_eq_some_iff.1 he
    refine ⟨TypeExpr.wellFormed_of_parse (eq_ok_of_toOption hparse), ?_⟩
    unfold Section.typeText at htext
    split at htext
    · next htitle => exact List.contains_iff_mem.1 htitle
    · cases htext

/-! ## Descriptions -/

/-- Whether a line of a text opens a section, where the text starts in front of a line or inside
one. -/
def scanSection : Bool → List Char → Bool
  | _, [] => false
  | fresh, c :: rest =>
    if isLineEnd c then scanSection true rest
    else if isBlank c then scanSection fresh rest
    else (fresh && c == '@') || scanSection false rest

/-- The scan looks at the lines of a text, or at all but the first one. -/
theorem scanSection_eq (s : List Char) :
    scanSection true s = (openLines s).any opensSection ∧
      scanSection false s = (openLines s).tail.any opensSection := by
  have hnil : opensSection [] = false := by decide
  fun_induction openLines s with
  | case1 => simp [scanSection, hnil]
  | case2 rest ih =>
    have hends : isLineEnd '\r' = true ∧ isLineEnd '\n' = true := by decide
    simp [scanSection, hends, hnil, ih.1]
  | case3 c rest hne hc ih => simp [scanSection, hc, hnil, ih.1]
  | case4 c rest hne hc ih =>
    obtain ⟨first, ls, hrest⟩ := List.exists_cons_of_ne_nil (openLines_ne_nil rest)
    simp only [hrest, List.any_cons, List.tail_cons, consLine] at ih ⊢
    cases hblank : isBlank c with
    | true =>
      have hfirst : opensSection (c :: first) = opensSection first := by
        simp [opensSection, trimStart, hblank]
      simp [scanSection, hc, hblank, ih, hfirst]
    | false =>
      have hfirst : opensSection (c :: first) = (c == '@') := by
        simp [opensSection, trimStart, hblank]
      simp [scanSection, hc, hblank, ih, hfirst]

/-- A text that opens no section has no start that opens one. -/
theorem scanSection_mono {t : List Char} (ht : t <+: s) {fresh : Bool}
    (h : scanSection fresh s = false) : scanSection fresh t = false := by
  obtain ⟨tail, rfl⟩ := ht
  induction t generalizing fresh with
  | nil => rfl
  | cons c t ih =>
    simp only [scanSection, List.cons_append] at h ⊢
    split at h
    · next hend => rw [if_pos hend]; exact ih h
    · next hend =>
      rw [if_neg hend]
      split at h
      · next hblank => rw [if_pos hblank]; exact ih h
      · next hblank =>
        rw [Bool.or_eq_false_iff] at h
        rw [if_neg hblank, h.1, ih h.2, Bool.or_self]

/-- Blanks in front of a text open no section. -/
theorem scanSection_trimStart (s : List Char) :
    scanSection true (trimStart s) = scanSection true s := by
  induction s with
  | nil => rfl
  | cons c s ih =>
    cases hblank : isBlank c with
    | true =>
      have htrim : trimStart (c :: s) = trimStart s := List.dropWhile_cons_of_pos hblank
      rw [htrim, ih, scanSection, if_pos hblank, ite_self]
    | false =>
      rw [trimStart_eq_self]
      intro d hd
      cases hd
      exact hblank

/-- The lines in front of the first section open none. -/
theorem mem_sections {ls : List (List Char)} {line : List Char} (h : line ∈ (sections ls).1) :
    line ∈ ls ∧ opensSection line = false := by
  fun_induction sections ls with
  | case1 => cases h
  | case2 => cases h
  | case3 first rest hopens more following hrest ih =>
    rcases List.mem_cons.1 h with rfl | h
    · exact ⟨List.mem_cons_self, by simpa using hopens⟩
    · obtain ⟨hmem, hline⟩ := ih (by rwa [hrest])
      exact ⟨List.mem_cons_of_mem first hmem, hline⟩

/-- No line opens a section after the blanks around the text are taken away, although the lines are
then not the same: whole lines go, and the first and the last one that stay become shorter. -/
theorem opensSection_unlines {ls : List (List Char)}
    (hends : ∀ line ∈ ls, ∀ c ∈ line, isLineEnd c = false)
    (hlines : ∀ line ∈ ls, opensSection line = false) :
    ∀ line ∈ lines (trim (unlines ls)), opensSection line = false := by
  have hscan : scanSection true (unlines ls) = false := by
    rw [(scanSection_eq _).1, List.any_eq_false]
    cases ls with
    | nil => decide
    | cons first ls =>
      rw [openLines_unlines (List.cons_ne_nil _ _) hends]
      simpa using hlines
  -- the scan does not stop at blanks, and a part of the text in front has no more to find
  have htrim : scanSection true (trim (unlines ls)) = false :=
    scanSection_mono (isPrefix_trimEnd _) ((scanSection_trimStart _).trans hscan)
  rw [(scanSection_eq _).1, List.any_eq_false] at htrim
  exact fun line hline => Bool.eq_false_iff.2 (htrim line (mem_openLines_of_mem_lines hline))

/-! ## Blocks -/

/-- A block with a trimmed description that holds no section, and with normal tags. -/
structure IsNormal (b : Block) : Prop where
  trimmed : IsTrimmed b.description.toList
  plain : ∀ line ∈ lines b.description.toList, opensSection line = false
  tags : ∀ t ∈ b.tags, IsNormalTag t

/-- Every comment gives a normal block. -/
theorem isNormal_block (content : List Char) : IsNormal (block content) := by
  refine ⟨?_, ?_, fun t ht => ?_⟩
  · rw [block, String.toList_ofList]
    exact isTrimmed_trim _
  · rw [block, String.toList_ofList]
    refine opensSection_unlines (fun line hline => ?_) fun line hline => (mem_sections hline).2
    exact isLineEnd_of_mem_openLines (mem_openLines_of_mem_lines (mem_sections hline).1)
  · obtain ⟨sec, hsec, rfl⟩ := List.mem_map.1 ht
    exact isNormalTag_tag (of_mem_titledSections hsec).1

/-- Every comment gives its block. -/
theorem block?_eq (content : List Char) : block? content = some (block content) := by
  have htags : (titledSections content).mapM Section.tag? = some (block content).tags :=
    mapM_eq_some_map fun sec hsec => Section.tag?_eq (of_mem_titledSections hsec).2
  rw [block?, htags]
  rfl

/-- Reading gives blocks for every text, also where it would fail on a text without the pattern of a
name, and all of them are normal. -/
theorem blocks_isNormal (s : List Char) :
    blocks? s = some (blocks s) ∧
    (∀ t name rest, matchName? t = some (name, rest) ↔ NamePattern t name rest) ∧
    ∀ b ∈ blocks s, IsNormal b := by
  refine ⟨mapM_eq_some_map fun content _ => block?_eq content,
    fun t name rest => matchName?_eq_some_iff, fun b hb => ?_⟩
  obtain ⟨content, -, rfl⟩ := List.mem_map.1 hb
  exact isNormal_block content

/-- Line ends of several kinds, a line without a title, a brace that is not closed, a type that
cannot be read and one that can. -/
def oddContent : List Char :=
  (" Pets \x0b @\r * @arg \x7ba b\n * @prop \x7bA|\x7d [id=1]  -  the key " ++
    "\r\n@return \x7bPet\x7d\t").toList

/-- The block of such a comment, part by part. -/
theorem blocks_isNormal_oddContent :
    blocks? ("/**".toList ++ oddContent ++ "*/".toList) = some [block oddContent] ∧
      (block oddContent).description = "Pets" ∧
      (block oddContent).tags.map (fun t => (t.title, t.name, t.description, t.type.isSome)) =
        [("param", some "\x7ba", some "b", false), ("property", some "id", some "the key", false),
          ("return", none, none, true)] ∧
      IsNormal (block oddContent) := by
  have hblocks : blocks ("/**".toList ++ oddContent ++ "*/".toList) = [block oddContent] := by
    have hcontents : contents ("/**".toList ++ oddContent ++ "*/".toList) = [oddContent] := by
      decide +kernel
    rw [blocks, hcontents, List.map_singleton]
  obtain ⟨htotal, -, hnormal⟩ := blocks_isNormal ("/**".toList ++ oddContent ++ "*/".toList)
  rw [hblocks] at htotal hnormal
  exact ⟨htotal, by decide +kernel, by decide +kernel, hnormal _ (List.mem_singleton_self _)⟩

end ApiDoc.Comment
