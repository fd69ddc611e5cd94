import ApiDoc.Proofs.Comment.Extraction
import ApiDoc.Proofs.Comment.TagText

/-!
# Writing comments

A block is written as a comment: an opening mark, the lines of its description and of its tags, each
on a line of its own behind a margin, an asterisk and a space, and a closing mark. From that comment
the block is read again, and no other one (`blocks_write`).

Each layer of the reading undoes one of the writing: the marks are found where they were written,
the decoration of each line is taken away, the lines are grouped at those that start a tag, and each
group is read as its tag (`IsWritableTag.tag_eq`).
-/

namespace ApiDoc.Comment

open Text

/-- The lines of the text of a block. -/
def writeLines (b : Block) : List (List Char) :=
  lines b.description.toList ++ b.tags.flatMap fun t => lines (writeTag t)

/-- The lines of a block, each with its decoration. -/
def decorated (margin : Nat → List Char) (b : Block) : List (List Char) :=
  (writeLines b).mapIdx fun i line => margin i ++ '*' :: ' ' :: line

/-- A block as a comment, with a margin in front of the asterisk of each line. -/
def write (margin : Nat → List Char) (b : Block) : List Char :=
  unlines (openingMark :: decorated margin b ++ [' ' :: closingMark])

/-- A block whose parts are read as what they are from its comment. -/
structure IsWritable (b : Block) : Prop where
  trimmed : IsTrimmed b.description.toList
  lineEnds : ∀ c ∈ b.description.toList, isLineEnd c = true → c = '\n'
  described : ∀ line ∈ lines b.description.toList, opensSection line = false
  unclosed : ¬ closingMark <:+: b.description.toList
  tags : ∀ t ∈ b.tags, IsWritableTag t
  names_unclosed : ∀ t ∈ b.tags, ∀ n ∈ t.name, ¬ closingMark <:+: n.toList
  descriptions_unclosed : ∀ t ∈ b.tags, ∀ d ∈ t.description, ¬ closingMark <:+: d.toList

variable {b : Block} {margin : Nat → List Char}

/-! ## Closing marks -/

/-- A closing mark has a slash. -/
theorem slash_mem {s : List Char} (h : closingMark <:+: s) : '/' ∈ s :=
  h.subset (by simp [closingMark])

/-- A closing mark in lines that are put together is in one of them. -/
theorem closingMark_infix_unlines {ls : List (List Char)} (h : closingMark <:+: unlines ls) :
    ∃ line ∈ ls, closingMark <:+: line := by
  induction ls with
  | nil => exact absurd (slash_mem h) (by simp [unlines, join])
  | cons line ls ih =>
    cases ls with
    | nil => exact ⟨line, List.mem_singleton.2 rfl, h⟩
    | cons next rest =>
      rw [unlines_cons line (by simp)] at h
      rcases infix_of_infix_append_cons (by decide) h with h | h
      · exact ⟨line, List.mem_cons_self, h⟩
      · obtain ⟨other, hother, h⟩ := ih h
        exact ⟨other, List.mem_cons_of_mem line hother, h⟩

/-- Among spaced texts a closing mark stands within one of them. -/
theorem closingMark_infix_append_spaced {s : List Char} {parts : List (List Char)}
    (h : closingMark <:+: s ++ spaced parts) :
    closingMark <:+: s ∨ ∃ p ∈ parts, closingMark <:+: p := by
  induction parts generalizing s with
  | nil => simpa [spaced] using h
  | cons part parts ih =>
    rcases infix_of_infix_append_cons (by decide) h with h | h
    · exact .inl h
    · rcases ih h with h | ⟨p, hp, h⟩
      · exact .inr ⟨part, List.mem_cons_self, h⟩
      · exact .inr ⟨p, List.mem_cons_of_mem part hp, h⟩

/-- A written tag closes no comment, if its name and its description do not. -/
theorem IsWritableTag.unclosed_writeTag {t : Tag} (ht : IsWritableTag t)
    (hname : ∀ n ∈ t.name, ¬ closingMark <:+: n.toList)
    (hdescription : ∀ d ∈ t.description, ¬ closingMark <:+: d.toList) :
    ¬ closingMark <:+: writeTag t := by
  intro h
  rcases closingMark_infix_append_spaced (s := '@' :: t.title.toList) h with h | ⟨p, hp, h⟩
  · have hword : isWord '/' = false := by decide
    rcases List.mem_cons.1 (slash_mem h) with h | h
    · cases h
    · rw [ht.title.word '/' h] at hword
      cases hword
  · rcases List.mem_append.1 hp with hp | hp
    · rcases List.mem_append.1 hp with hp | hp
      · obtain ⟨e, he, rfl⟩ := List.mem_map.1 hp
        have hprint := (ht.typed e (Option.mem_toList.1 he)).2.isPrintChar
        have hslash := slash_mem h
        simp at hslash
        exact (hprint '/' hslash).not_mem (by decide)
      · obtain ⟨n, hn, rfl⟩ := List.mem_map.1 hp
        exact hname n (Option.mem_toList.1 hn) h
    · obtain ⟨d, hd, rfl⟩ := List.mem_map.1 hp
      have hparts : closingMark <:+: ['-'] ++ ' ' :: d.toList := h
      rcases infix_of_infix_append_cons (by decide) hparts with h | h
      · exact absurd (slash_mem h) (by decide)
      · exact hdescription d (Option.mem_toList.1 hd) h

/-! ## Sections -/

/-- Lines that open no section stay in front of the sections. -/
theorem sections_append {ls : List (List Char)} (h : ∀ line ∈ ls, opensSection line = false)
    (rest : List (List Char)) :
    sections (ls ++ rest) = (ls ++ (sections rest).1, (sections rest).2) := by
  induction ls with
  | nil => rfl
  | cons line ls ih =>
    obtain ⟨hline, hls⟩ := List.forall_mem_cons.1 h
    simp [sections, hline, ih hls]

/-- The lines of tags are grouped into the texts of the tags. -/
theorem sections_tags {tags : List Tag} (h : ∀ t ∈ tags, IsWritableTag t) :
    sections (tags.flatMap fun t => lines (writeTag t)) = ([], tags.map writeTag) := by
  induction tags with
  | nil => rfl
  | cons t tags ih =>
    obtain ⟨ht, htags⟩ := List.forall_mem_cons.1 h
    obtain ⟨first, more, hlines, hmore⟩ := ht.lines_writeTag
    have hopens : opensSection ('@' :: first) = true := rfl
    have hstart : trimStart ('@' :: first) = '@' :: first := rfl
    have htext : unlines (('@' :: first) :: more) = writeTag t := by
      rw [← hlines, ht.isPassage_writeTag.unlines_lines]
    -- the lines behind the first one open no section, so the next tag is where this one ends
    simp [sections, hlines, hopens, sections_append hmore, ih htags, hstart, htext]

/-- The written lines are cut into the description and the tags again. -/
theorem IsWritable.sections_writeLines (hb : IsWritable b) :
    sections (writeLines b) = (lines b.description.toList, b.tags.map writeTag) := by
  rw [writeLines, sections_append hb.described, sections_tags hb.tags, List.append_nil]

/-! ## The text of a block -/

/-- A written description is a passage of lines. -/
theorem IsWritable.isPassage_description (hb : IsWritable b) (hne : b.description.toList ≠ []) :
    IsPassage b.description.toList :=
  ⟨⟨hb.trimmed, hne⟩, hb.lineEnds⟩

/-- The lines of a block are those of passages: of its tags, and of its description unless it is
empty. -/
theorem IsWritable.exists_passages (hb : IsWritable b) : ∃ parts : List (List Char),
    (∀ part ∈ parts, IsPassage part) ∧ parts.flatMap lines = writeLines b := by
  have htags : ∀ part ∈ b.tags.map writeTag, IsPassage part :=
    List.forall_mem_map.2 fun t ht => (hb.tags t ht).isPassage_writeTag
  by_cases hempty : b.description.toList = []
  · refine ⟨b.tags.map writeTag, htags, ?_⟩
    rw [writeLines, hempty, List.flatMap_map]
    rfl
  · refine ⟨b.description.toList :: b.tags.map writeTag, List.forall_mem_cons.2 ⟨?_, htags⟩, ?_⟩
    · exact hb.isPassage_description hempty
    · rw [writeLines, List.flatMap_cons, List.flatMap_map]

/-- The written lines are told apart again. -/
theorem IsWritable.lines_unlines_writeLines (hb : IsWritable b) :
    lines (unlines (writeLines b)) = writeLines b := by
  obtain ⟨parts, hparts, hlines⟩ := hb.exists_passages
  rw [← hlines, unlines_flatMap_lines hparts, lines_unlines_passages hparts]

/-- The written lines have no blanks around them. -/
theorem IsWritable.isTrimmed_unlines_writeLines (hb : IsWritable b) :
    IsTrimmed (unlines (writeLines b)) := by
  obtain ⟨parts, hparts, hlines⟩ := hb.exists_passages
  rw [← hlines, unlines_flatMap_lines hparts]
  by_cases hne : parts = []
  · rw [hne]
    exact ⟨by simp [unlines, join], by simp [unlines, join]⟩
  · exact (isSolid_unlines hparts hne).toIsTrimmed

/-- A written line goes on to its end. -/
theorem IsWritable.isLineEnd_of_mem_writeLines (hb : IsWritable b) {line : List Char}
    (hline : line ∈ writeLines b) : ∀ c ∈ line, isLineEnd c = false := by
  obtain ⟨parts, hparts, hlines⟩ := hb.exists_passages
  rw [← hlines] at hline
  obtain ⟨part, hpart, hline⟩ := List.mem_flatMap.1 hline
  exact (hparts part hpart).isLineEnd_of_mem_lines hline

/-- The description is read back from its lines. -/
theorem IsWritable.description_eq (hb : IsWritable b) :
    trim (unlines (lines b.description.toList)) = b.description.toList := by
  by_cases hempty : b.description.toList = []
  · rw [hempty]
    rfl
  · rw [(hb.isPassage_description hempty).unlines_lines, hb.trimmed.trim_eq]

/-- A written line closes no comment. -/
theorem IsWritable.not_closingMark_infix_line (hb : IsWritable b) {line : List Char}
    (hline : line ∈ writeLines b) : ¬ closingMark <:+: line := by
  intro hclosing
  rcases List.mem_append.1 hline with hline | hline
  · by_cases hempty : b.description.toList = []
    · rw [hempty] at hline
      cases hline
    · have hline := (hb.isPassage_description hempty).infix_of_mem_lines hline
      exact hb.unclosed (hclosing.trans hline)
  · obtain ⟨t, ht, hline⟩ := List.mem_flatMap.1 hline
    have hunclosed := (hb.tags t ht).unclosed_writeTag (hb.names_unclosed t ht)
      (hb.descriptions_unclosed t ht)
    have hline := (hb.tags t ht).isPassage_writeTag.infix_of_mem_lines hline
    exact hunclosed (hclosing.trans hline)

/-! ## Decoration -/

/-- What stands between the marks of a written comment. -/
def writeContent (margin : Nat → List Char) (b : Block) : List Char :=
  unlines ([] :: decorated margin b ++ [[' ']])

/-- A written comment is its content between the marks. -/
theorem write_eq (margin : Nat → List Char) (b : Block) :
    write margin b = Cut.source (writeContent margin b) := by
  have hclose : ∀ ls : List (List Char), unlines (([] :: ls) ++ [' ' :: closingMark]) =
      unlines (([] :: ls) ++ [[' ']]) ++ closingMark := by
    intro ls
    rw [unlines_append (List.cons_ne_nil _ _) (List.cons_ne_nil _ _),
      unlines_append (List.cons_ne_nil _ _) (List.cons_ne_nil _ _), List.append_assoc]
    rfl
  have hopen := unlines_cons_append openingMark [] (decorated margin b ++ [' ' :: closingMark])
  rw [List.append_nil] at hopen
  rw [write, List.cons_append, hopen, ← List.cons_append, hclose, Cut.source, writeContent,
    List.append_assoc]

section Margin

variable (hm : ∀ i, ∀ c ∈ margin i, c = ' ' ∨ c = '\t')

include hm

theorem isBlank_of_mem_margin (i : Nat) :
    ∀ c ∈ margin i, isBlank c = true ∧ isLineEnd c = false := by
  intro c hc
  rcases hm i c hc with rfl | rfl
  · decide
  · decide

/-- The decoration of a line is taken away, and nothing else. -/
theorem stripLine_decorated (i : Nat) (line : List Char) :
    stripLine (margin i ++ '*' :: ' ' :: line) = line := by
  have hstart : trimStart ('*' :: ' ' :: line) = '*' :: ' ' :: line := rfl
  rw [stripLine, trimStart_append fun c hc => (isBlank_of_mem_margin hm i c hc).1, hstart]
  rfl

/-- The decoration of the lines is stripped again. -/
theorem map_stripLine_decorated : (decorated margin b).map stripLine = writeLines b :=
  List.ext_getElem (by simp [decorated]) fun i _ _ => by
    simp [decorated, stripLine_decorated hm]

/-- The lines of a written comment: none behind the opening mark, then those of the block, and a
space in front of the closing mark. -/
theorem IsWritable.lines_writeContent (hb : IsWritable b) :
    lines (writeContent margin b) = [] :: decorated margin b ++ [[' ']] := by
  refine lines_unlines (fun line hline => ?_) ?_
  case refine_2 =>
    rw [List.getLast?_concat]
    decide
  rcases List.mem_append.1 hline with hline | hline
  · rcases List.mem_cons.1 hline with rfl | hline
    · exact List.forall_mem_nil _
    · obtain ⟨i, hi, rfl⟩ := List.mem_mapIdx.1 hline
      rw [List.forall_mem_append, List.forall_mem_cons, List.forall_mem_cons]
      exact ⟨fun c hc => (isBlank_of_mem_margin hm i c hc).2, by decide, by decide,
        hb.isLineEnd_of_mem_writeLines (List.getElem_mem hi)⟩
  · rw [List.mem_singleton.1 hline]
    exact List.forall_mem_singleton.2 (by decide)

/-- The text of a block is what is left of its comment without the decoration. -/
theorem IsWritable.unwrap_writeContent (hb : IsWritable b) :
    unwrap (writeContent margin b) = unlines (writeLines b) := by
  have hstrip : (lines (writeContent margin b)).map stripLine = [] :: writeLines b ++ [[]] := by
    rw [hb.lines_writeContent hm, List.map_append, List.map_cons, map_stripLine_decorated hm]
    rfl
  rw [unwrap, hstrip]
  -- without lines, only the line feed between the marks is left
  cases hlines : writeLines b with
  | nil => rfl
  | cons line ls =>
    have hsplit : unlines ([] :: (line :: ls) ++ [[]]) =
        ['\n'] ++ unlines (line :: ls) ++ ['\n'] := by
      rw [List.cons_append, unlines_cons [] (by simp), unlines_append (by simp) (by simp)]
      rfl
    have htrimmed := hb.isTrimmed_unlines_writeLines
    rw [hlines] at htrimmed
    rw [hsplit]
    have hblank : ∀ c ∈ ['\n'], isBlank c = true := List.forall_mem_singleton.2 (by decide)
    exact htrimmed.trim_append hblank hblank

/-- A written comment is closed by its own mark only. -/
theorem IsWritable.not_closingMark_infix_writeContent (hb : IsWritable b) :
    ¬ closingMark <:+: writeContent margin b := by
  intro h
  obtain ⟨line, hline, hclosing⟩ := closingMark_infix_unlines h
  rcases List.mem_append.1 hline with hline | hline
  · rcases List.mem_cons.1 hline with rfl | hline
    · exact absurd (slash_mem hclosing) (by decide)
    · obtain ⟨i, hi, rfl⟩ := List.mem_mapIdx.1 hline
      -- the space behind the asterisk keeps it from the text of the line
      have hspace : closingMark <:+: (margin i ++ ['*']) ++ ' ' :: (writeLines b)[i] := by
        simpa using hclosing
      rcases infix_of_infix_append_cons (by decide) hspace with h | h
      · rcases List.mem_append.1 (slash_mem h) with hslash | hslash
        · exact absurd (hm i '/' hslash) (by decide)
        · exact absurd hslash (by decide)
      · exact hb.not_closingMark_infix_line (List.getElem_mem hi) h
  · rw [List.mem_singleton.1 hline] at hclosing
    exact absurd (slash_mem hclosing) (by decide)

/-- A written comment is found alone, with its content. -/
theorem IsWritable.contents_write (hb : IsWritable b) :
    contents (write margin b) = [writeContent margin b] := by
  rw [write_eq, contents_source (hb.not_closingMark_infix_writeContent hm)]

end Margin

/-- Written tags are read back, all of them in order. -/
theorem map_tag_writeTag {tags : List Tag} (h : ∀ t ∈ tags, IsWritableTag t) :
    ((tags.map writeTag).filterMap Section.ofText?).map Section.tag = tags := by
  induction tags with
  | nil => rfl
  | cons t tags ih =>
    obtain ⟨ht, htags⟩ := List.forall_mem_cons.1 h
    rw [List.map_cons, List.filterMap_cons_some ht.ofText?_writeTag, List.map_cons, ht.tag_eq,
      ih htags]

/-- The comment that a block is written as is read as that block, and as no other one. -/
theorem blocks_write (b : Block) (margin : Nat → List Char) (hb : IsWritable b)
    (hm : ∀ i, ∀ c ∈ margin i, c = ' ' ∨ c = '\t') :
    blocks (write margin b) = [{ b with source := String.ofList (write margin b) }] := by
  have hsections : sections (lines (unwrap (writeContent margin b))) =
      (lines b.description.toList, b.tags.map writeTag) := by
    rw [hb.unwrap_writeContent hm, hb.lines_unlines_writeLines, hb.sections_writeLines]
  have htags : (titledSections (writeContent margin b)).map Section.tag = b.tags := by
    rw [titledSections, hsections, map_tag_writeTag hb.tags]
  rw [blocks, hb.contents_write hm, List.map_singleton, block, hsections, htags,
    hb.description_eq, String.ofList_toList, write_eq]
  rfl

/-- A comment with tags that have all of their parts, some of them and none. -/
def petsBlock : Block where
  description := "Pets\nand - owners"
  tags :=
    [{ title := "param", name := some "pets", description := some "all *\n  of / them",
       type := some (.applied "Array" [.union [.named "Pet", .any]]) },
     { title := "returns", description := some "- @nothing" },
     { title := "deprecated" }]

/-- Such a block is read back from its comment. -/
theorem blocks_write_petsBlock : IsWritable petsBlock ∧
    blocks (write (fun i => ' ' :: List.replicate i '\t') petsBlock) =
      [{ petsBlock with
          source := .ofList (write (fun i => ' ' :: List.replicate i '\t') petsBlock) }] := by
  have htype : (TypeExpr.applied "Array" [.union [.named "Pet", .any]]).WellFormed := by
    refine .applied (by decide) (List.forall_mem_singleton.2 (.union (by decide) ?_))
    exact List.forall_mem_cons.2 ⟨.named (by decide), List.forall_mem_singleton.2 .any⟩
  have htags : ∀ t ∈ petsBlock.tags, IsWritableTag t := by
    refine List.forall_mem_cons.2 ⟨?_, List.forall_mem_cons.2 ⟨?_, List.forall_mem_singleton.2 ?_⟩⟩
    · refine ⟨by decide, ?_, ?_, ?_, ?_, by decide⟩
      · rintro e ⟨⟩
        exact ⟨by decide, htype⟩
      · rintro n ⟨⟩
        exact ⟨by decide, by decide⟩
      · rintro ⟨⟩
      · rintro d ⟨⟩
        exact ⟨by decide, by decide⟩
    · refine ⟨by decide, ?_, ?_, ?_, ?_, by decide⟩
      · rintro e ⟨⟩
      · rintro n ⟨⟩
      · rintro - n ⟨⟩
      · rintro d ⟨⟩
        exact ⟨by decide, by decide⟩
    · refine ⟨by decide, ?_, ?_, ?_, ?_, by decide⟩
      · rintro e ⟨⟩
      · rintro n ⟨⟩
      · rintro - n ⟨⟩
      · rintro d ⟨⟩
  have hdescription : IsPassage petsBlock.description.toList := by decide
  have hb : IsWritable petsBlock :=
    ⟨hdescription.toIsTrimmed, hdescription.lineEnds, by decide, by decide, htags, by decide,
      by decide⟩
  refine ⟨hb, blocks_write petsBlock _ hb fun i c hc => ?_⟩
  rcases List.mem_cons.1 hc with rfl | hc
  · exact .inl rfl
  · exact .inr (List.eq_of_mem_replicate hc)

end ApiDoc.Comment
