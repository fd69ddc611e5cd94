import ApiDoc.Proofs.Text.Blank
import ApiDoc.Proofs.Text.Split
import Mathlib.Data.List.Infix

/-!
# Lines of texts

Lines without line ends in them that are put together and cut again are the same lines, if the last
one is not empty (`lines_unlines`). The other way round, a text that has only line feeds as line
ends is the text of its lines (`IsPassage.unlines_lines`).
-/

namespace ApiDoc.Text

variable {s line part : List Char} {ls parts : List (List Char)}

/-! ## Parts with a separator between them -/

/-- Trimmed parts that are put together make a trimmed text, if the separator is not blank. -/
theorem isTrimmed_join {sep : Char} (hsep : isBlank sep = false)
    (h : ∀ part ∈ parts, IsTrimmed part) : IsTrimmed (join [sep] parts) := by
  fun_induction join [sep] parts with
  | case1 => decide
  | case2 part => exact h part List.mem_cons_self
  | case3 part parts _ ih =>
    obtain ⟨hpart, hrest⟩ := List.forall_mem_cons.1 h
    rw [List.append_assoc]
    exact hpart.append_cons (ih hrest) hsep

/-- Parts without a separator that are put together are told apart again. -/
theorem splitAll_join {sep : Char} (hne : parts ≠ []) (h : ∀ part ∈ parts, sep ∉ part) :
    splitAll sep (join [sep] parts) = parts := by
  fun_induction join [sep] parts with
  | case1 => exact absurd rfl hne
  | case2 part => exact splitAll_of_not_mem (h part List.mem_cons_self)
  | case3 part parts hparts ih =>
    obtain ⟨hpart, hrest⟩ := List.forall_mem_cons.1 h
    rw [List.append_assoc, List.singleton_append, splitAll_append hpart, ih hparts hrest]

/-- The parts of a text that is cut at a separator make the text again. -/
theorem join_splitAll (sep : Char) (s : List Char) : join [sep] (splitAll sep s) = s := by
  induction s with
  | nil => rfl
  | cons c rest ih =>
    obtain ⟨part, parts, hparts⟩ := List.exists_cons_of_ne_nil (splitWhere_ne_nil (· == sep) rest)
    rw [splitAll, hparts] at ih
    rw [splitAll, splitWhere, hparts]
    split
    · next hc =>
      rw [join, ih, eq_of_beq hc]
      · rfl
      · exact List.cons_ne_nil _ _
    · cases parts with
      | nil => exact congrArg (c :: ·) ih
      | cons next rest => exact congrArg (c :: ·) ih

/-- A joined text has only characters of its parts and of the separator. -/
theorem not_mem_join {sep c : Char} (hc : c ≠ sep) (h : ∀ part ∈ parts, c ∉ part) :
    c ∉ join [sep] parts := by
  fun_induction join [sep] parts with
  | case1 => exact List.not_mem_nil
  | case2 part => exact h part List.mem_cons_self
  | case3 part parts _ ih =>
    obtain ⟨hpart, hrest⟩ := List.forall_mem_cons.1 h
    simp [hpart, hc, ih hrest]

/-! ## Putting lines together -/

/-- A line in front of others ends with a line feed. -/
theorem unlines_cons (line : List Char) (hls : ls ≠ []) :
    unlines (line :: ls) = line ++ '\n' :: unlines ls := by
  obtain ⟨next, rest, rfl⟩ := List.exists_cons_of_ne_nil hls
  simp [unlines, join]

/-- What is in front of the first line is in front of the text. -/
theorem unlines_cons_append (before line : List Char) (ls : List (List Char)) :
    unlines ((before ++ line) :: ls) = before ++ unlines (line :: ls) := by
  cases ls with
  | nil => rfl
  | cons next rest => simp [unlines, join]

/-- Two series of lines are two texts with a line feed between them. -/
theorem unlines_append (hls : ls ≠ []) (hparts : parts ≠ []) :
    unlines (ls ++ parts) = unlines ls ++ '\n' :: unlines parts := by
  induction ls with
  | nil => exact absurd rfl hls
  | cons line ls ih =>
    cases ls with
    | nil => exact unlines_cons line hparts
    | cons next rest =>
      rw [List.cons_append, unlines_cons line (by simp), unlines_cons line (by simp),
        ih (by simp), List.append_assoc, List.cons_append]

/-- A line stands in the text of the lines. -/
theorem infix_unlines (h : line ∈ ls) : line <:+: unlines ls := by
  induction ls with
  | nil => cases h
  | cons first ls ih =>
    cases ls with
    | nil =>
      rw [List.mem_singleton.1 h]
      exact List.infix_refl first
    | cons next rest =>
      rw [unlines_cons first (by simp)]
      rcases List.mem_cons.1 h with rfl | h
      · exact (List.prefix_append _ _).isInfix
      · exact (ih h).trans ((List.suffix_cons _ _).trans (List.suffix_append _ _)).isInfix

/-! ## Cutting into lines -/

/-- A text has a line, if only an empty one. -/
theorem openLines_ne_nil (s : List Char) : openLines s ≠ [] := by
  fun_cases openLines s with
  | case1 | case2 | case3 => simp
  | case4 c rest h hc => cases openLines rest <;> simp [consLine]

/-- A character that ends no line belongs to the first one. -/
theorem openLines_cons {c : Char} (h : isLineEnd c = false) (s : List Char) :
    openLines (c :: s) = consLine c (openLines s) := by
  rw [openLines.eq_3]
  · simp [h]
  · rintro rest rfl rfl
    cases h

/-- A line end behind a text without line ends closes its only line. -/
theorem openLines_append_lineFeed (h : ∀ c ∈ line, isLineEnd c = false) (s : List Char) :
    openLines (line ++ '\n' :: s) = line :: openLines s := by
  induction line with
  | nil =>
    rw [List.nil_append, openLines.eq_3]
    · rfl
    · rintro rest ⟨⟩
  | cons c line ih =>
    obtain ⟨hc, hline⟩ := List.forall_mem_cons.1 h
    rw [List.cons_append, openLines_cons hc, ih hline, consLine]

/-- A text without line ends goes on in the first line behind it. -/
theorem openLines_append (h : ∀ c ∈ part, isLineEnd c = false) (s : List Char) :
    openLines (part ++ s) =
      (part ++ (openLines s).head (openLines_ne_nil s)) :: (openLines s).tail := by
  induction part with
  | nil => simp
  | cons c part ih =>
    obtain ⟨hc, hpart⟩ := List.forall_mem_cons.1 h
    rw [List.cons_append, openLines_cons hc, ih hpart, consLine, List.cons_append]

/-- Lines are told apart again. -/
theorem openLines_unlines (hls : ls ≠ []) (h : ∀ line ∈ ls, ∀ c ∈ line, isLineEnd c = false) :
    openLines (unlines ls) = ls := by
  induction ls with
  | nil => exact absurd rfl hls
  | cons line ls ih =>
    obtain ⟨hline, hrest⟩ := List.forall_mem_cons.1 h
    cases ls with
    | nil => simpa [openLines, unlines, join] using openLines_append hline []
    | cons next rest =>
      rw [unlines_cons line (by simp), openLines_append_lineFeed hline, ih (by simp) hrest]

/-- Lines that end with none that is empty stay. -/
theorem dropEmptyLast_eq_self (h : ls.getLast? ≠ some []) : dropEmptyLast ls = ls := by
  induction ls with
  | nil => rfl
  | cons line ls ih =>
    cases ls with
    | nil =>
      have hne : line ≠ [] := by simpa using h
      simp [dropEmptyLast, hne]
    | cons next rest =>
      have hrest := ih (by simpa using h)
      simp [dropEmptyLast, hrest]

/-- Lines without line ends that are put together are cut at the same places again. -/
theorem lines_unlines (h : ∀ line ∈ ls, ∀ c ∈ line, isLineEnd c = false)
    (hlast : ls.getLast? ≠ some []) : lines (unlines ls) = ls := by
  cases ls with
  | nil => rfl
  | cons line ls => rw [lines, openLines_unlines (by simp) h, dropEmptyLast_eq_self hlast]

/-- A line has no line end in it. -/
theorem isLineEnd_of_mem_openLines (h : line ∈ openLines s) : ∀ c ∈ line, isLineEnd c = false := by
  fun_induction openLines s generalizing line with
  | case1 => simp_all
  | case2 rest ih | case3 c rest hne hc ih =>
    rcases List.mem_cons.1 h with rfl | h
    · exact List.forall_mem_nil _
    · exact ih h
  | case4 c rest hne hc ih =>
    obtain ⟨first, ls, hrest⟩ := List.exists_cons_of_ne_nil (openLines_ne_nil rest)
    rw [hrest, consLine] at h
    rcases List.mem_cons.1 h with rfl | h
    · exact List.forall_mem_cons.2 ⟨by simpa using hc, ih (hrest ▸ List.mem_cons_self)⟩
    · exact ih (hrest ▸ List.mem_cons_of_mem first h)

/-- No line comes in when an empty one is dropped. -/
theorem dropEmptyLast_subset (ls : List (List Char)) : dropEmptyLast ls ⊆ ls := by
  fun_induction dropEmptyLast ls with
  | case1 | case2 | case3 => simp
  | case4 line rest hne ih => exact List.cons_subset_cons line ih

/-- The lines of a text are among all its lines. -/
theorem mem_openLines_of_mem_lines (h : line ∈ lines s) : line ∈ openLines s :=
  dropEmptyLast_subset _ h

/-! ## Passages -/

/-- A text that is not empty, has no blanks around it and has only line feeds as line ends. -/
structure IsPassage (s : List Char) : Prop extends IsSolid s where
  lineEnds : ∀ c ∈ s, isLineEnd c = true → c = '\n'

instance (s : List Char) : Decidable (IsPassage s) :=
  decidable_of_iff (IsSolid s ∧ s.all (fun c => !isLineEnd c || c == '\n') = true)
    ⟨fun h => ⟨h.1, fun c hc hend => by simpa [hend] using List.all_eq_true.1 h.2 c hc⟩,
      fun h => ⟨h.toIsSolid, List.all_eq_true.2 fun c hc => by
        cases hend : isLineEnd c with
        | false => rfl
        | true => simp [h.lineEnds c hc hend]⟩⟩

/-- A character in front of the first line is in front of the text. -/
theorem unlines_consLine (c : Char) (ls : List (List Char)) :
    unlines (consLine c ls) = c :: unlines ls := by
  cases ls with
  | nil => rfl
  | cons line ls => exact unlines_cons_append [c] line ls

/-- A text with line feeds only is the text of its lines. -/
theorem unlines_openLines (h : ∀ c ∈ s, isLineEnd c = true → c = '\n') :
    unlines (openLines s) = s := by
  fun_induction openLines s with
  | case1 => rfl
  | case2 rest ih => exact absurd (h '\r' List.mem_cons_self rfl) (by decide)
  | case3 c rest hne hc ih =>
    obtain ⟨hfirst, hrest⟩ := List.forall_mem_cons.1 h
    rw [unlines_cons [] (openLines_ne_nil rest), ih hrest, hfirst hc, List.nil_append]
  | case4 c rest hne hc ih =>
    rw [unlines_consLine, ih (List.forall_mem_cons.1 h).2]

/-- The last line stays when one comes in front. -/
theorem getLast?_cons_openLines (line s : List Char) :
    (line :: openLines s).getLast? = (openLines s).getLast? := by
  obtain ⟨first, ls, hs⟩ := List.exists_cons_of_ne_nil (openLines_ne_nil s)
  rw [hs, List.getLast?_cons_cons]

/-- The last line of a text that does not end with a line end is not empty. -/
theorem getLast?_openLines (hs : s ≠ []) (h : ∀ c ∈ s.getLast?, isLineEnd c = false) :
    (openLines s).getLast? ≠ some [] := by
  fun_induction openLines s with
  | case1 => exact absurd rfl hs
  | case2 rest ih =>
    cases rest with
    | nil => exact absurd (h '\n' rfl) (by decide)
    | cons d rest =>
      rw [getLast?_cons_openLines]
      exact ih (by simp) (by simpa using h)
  | case3 c rest hne hc ih =>
    cases rest with
    | nil => exact absurd (h c rfl) (by simp [hc])
    | cons d rest =>
      rw [getLast?_cons_openLines]
      exact ih (by simp) (by simpa using h)
  | case4 c rest hne hc ih =>
    cases rest with
    | nil => simp [openLines, consLine]
    | cons d rest =>
      -- the character joins the first line, which is the last one only if there is no other
      have hrest := ih (by simp) (by simpa using h)
      obtain ⟨first, ls, heq⟩ := List.exists_cons_of_ne_nil (openLines_ne_nil (d :: rest))
      rw [heq] at hrest ⊢
      cases ls with
      | nil => simp [consLine]
      | cons next ls => simpa [consLine] using hrest

namespace IsPassage

/-- The last line of a passage is not empty. -/
theorem getLast?_openLines_ne (h : IsPassage s) : (openLines s).getLast? ≠ some [] := by
  refine getLast?_openLines h.ne_nil fun c hc => ?_
  exact isLineEnd_of_not_isBlank (h.last c hc)

/-- All lines of a passage count. -/
theorem lines_eq (h : IsPassage s) : lines s = openLines s :=
  dropEmptyLast_eq_self h.getLast?_openLines_ne

/-- A passage has a line. -/
theorem lines_ne_nil (h : IsPassage s) : lines s ≠ [] := by
  rw [h.lines_eq]
  exact openLines_ne_nil s

/-- A passage is the text of its lines. -/
theorem unlines_lines (h : IsPassage s) : unlines (lines s) = s := by
  rw [h.lines_eq, unlines_openLines h.lineEnds]

/-- A line of a passage has no line end in it. -/
theorem isLineEnd_of_mem_lines (h : IsPassage s) (hline : line ∈ lines s) :
    ∀ c ∈ line, isLineEnd c = false :=
  isLineEnd_of_mem_openLines (h.lines_eq ▸ hline)

/-- A line of a passage stands in it. -/
theorem infix_of_mem_lines (h : IsPassage s) (hline : line ∈ lines s) : line <:+: s :=
  h.unlines_lines ▸ infix_unlines hline

end IsPassage

/-- The lines of passages make up the passages, with line feeds between them. -/
theorem unlines_flatMap_lines (h : ∀ part ∈ parts, IsPassage part) :
    unlines (parts.flatMap lines) = unlines parts := by
  induction parts with
  | nil => rfl
  | cons part parts ih =>
    obtain ⟨hpart, hparts⟩ := List.forall_mem_cons.1 h
    cases parts with
    | nil => simpa [unlines, join] using hpart.unlines_lines
    | cons next rest =>
      have hnext : (next :: rest).flatMap lines ≠ [] := by
        simp [(List.forall_mem_cons.1 hparts).1.lines_ne_nil]
      rw [List.flatMap_cons, unlines_append hpart.lines_ne_nil hnext, ih hparts,
        hpart.unlines_lines, unlines_cons part (by simp)]

/-- Passages with line feeds between them have no blanks around them. -/
theorem isSolid_unlines (h : ∀ part ∈ parts, IsPassage part) (hne : parts ≠ []) :
    IsSolid (unlines parts) := by
  induction parts with
  | nil => exact absurd rfl hne
  | cons part parts ih =>
    obtain ⟨hpart, hparts⟩ := List.forall_mem_cons.1 h
    cases parts with
    | nil => exact hpart.toIsSolid
    | cons next rest =>
      have hboth := hpart.toIsSolid.append (ih hparts (by simp)) ['\n']
      rw [unlines_cons part (by simp)]
      simpa using hboth

/-- The last line of several passages is not empty. -/
theorem getLast?_flatMap_lines (h : ∀ part ∈ parts, IsPassage part) :
    (parts.flatMap lines).getLast? ≠ some [] := by
  induction parts with
  | nil => simp
  | cons part parts ih =>
    obtain ⟨hpart, hparts⟩ := List.forall_mem_cons.1 h
    cases parts with
    | nil =>
      rw [List.flatMap_singleton, hpart.lines_eq]
      exact hpart.getLast?_openLines_ne
    | cons next rest =>
      have hnext : (next :: rest).flatMap lines ≠ [] := by
        simp [(List.forall_mem_cons.1 hparts).1.lines_ne_nil]
      rw [List.flatMap_cons, List.getLast?_append_of_ne_nil _ hnext]
      exact ih hparts

/-- Passages that are put together are cut into the lines that they have. -/
theorem lines_unlines_passages (h : ∀ part ∈ parts, IsPassage part) :
    lines (unlines parts) = parts.flatMap lines := by
  rw [← unlines_flatMap_lines h]
  refine lines_unlines (fun line hline => ?_) (getLast?_flatMap_lines h)
  obtain ⟨part, hpart, hline⟩ := List.mem_flatMap.1 hline
  exact (h part hpart).isLineEnd_of_mem_lines hline

end ApiDoc.Text
