import ApiDoc.Comment.Reader
import ApiDoc.Proofs.Text.Split
import Mathlib.Order.Bounds.Basic

/-!
# Cutting a text into comments and gaps

A text is cut into documentation comments and the gaps around them in exactly one way: a comment
ends at the first closing mark behind its opening mark, no gap in front of a comment has an opening
mark, and what is behind the last comment opens none that is closed. The blocks of the text are
those comments, and what a block says depends on the content of its comment alone
(`blocks_unique_cut`).

The opening mark of a documentation comment is found in an empty comment, too, although that is
closed already. Such a comment is cut together with what follows it, and no other is
(`blocks_closesAtEnd_iff`).
-/

namespace ApiDoc.Comment

/-- What a documentation comment starts with. -/
def openingMark : List Char := ['/', '*', '*']

/-- What a documentation comment ends with. -/
def closingMark : List Char := ['*', '/']

/-! ## The first marks -/

/-- The search for the start of a comment cuts the text at the first opening mark. -/
theorem toOpening_eq_cut? (s : List Char) : toOpening s = Text.cut? openingMark s := by
  fun_induction toOpening s with
  | case1 => rfl
  | case2 rest => rfl
  | case3 c rest h ih =>
    have hafter : Text.after? openingMark (c :: rest) = none := by
      rw [Text.after?_eq_none_iff]
      rintro ⟨tail, htail⟩
      cases htail
      exact h tail rfl rfl
    rw [Text.cut?, hafter, ih]

/-- The search for the end of a comment cuts the text at the first closing mark. -/
theorem toClosing_eq_cut? (s : List Char) : toClosing s = Text.cut? closingMark s := by
  fun_induction toClosing s with
  | case1 => rfl
  | case2 rest => rfl
  | case3 c rest h ih =>
    have hafter : Text.after? closingMark (c :: rest) = none := by
      rw [Text.after?_eq_none_iff]
      rintro ⟨tail, htail⟩
      cases htail
      exact h tail rfl rfl
    rw [Text.cut?, hafter, ih]

theorem openingMark_ne_nil : openingMark ≠ [] := List.cons_ne_nil _ _

theorem closingMark_ne_nil : closingMark ≠ [] := List.cons_ne_nil _ _

variable {s gap body content tail : List Char}

/-- No opening mark begins in front of another one and ends inside it. -/
theorem openingMark_infix_iff :
    openingMark <:+: gap ++ openingMark.dropLast ↔ openingMark <:+: gap := by
  rw [← List.reverse_infix, ← @List.reverse_infix _ _ gap]
  simp [openingMark, List.infix_cons_iff]

/-- No closing mark begins in front of another one and ends inside it. -/
theorem closingMark_infix_iff :
    closingMark <:+: content ++ closingMark.dropLast ↔ closingMark <:+: content := by
  rw [← List.reverse_infix, ← @List.reverse_infix _ _ content]
  simp [closingMark, List.infix_cons_iff]

/-- No comment starts in a text just if it has no opening mark. -/
theorem toOpening_eq_none_iff : toOpening s = none ↔ ¬ openingMark <:+: s := by
  rw [toOpening_eq_cut?, Text.cut?_eq_none_iff openingMark_ne_nil]

/-- A comment starts behind the first opening mark. -/
theorem toOpening_eq_some_iff : toOpening s = some (gap, body) ↔
    s = gap ++ openingMark ++ body ∧ ¬ openingMark <:+: gap := by
  rw [toOpening_eq_cut?, Text.cut?_eq_some_iff openingMark_ne_nil, openingMark_infix_iff]

/-- No comment ends in a text just if it has no closing mark. -/
theorem toClosing_eq_none_iff : toClosing s = none ↔ ¬ closingMark <:+: s := by
  rw [toClosing_eq_cut?, Text.cut?_eq_none_iff closingMark_ne_nil]

/-- A comment ends at the first closing mark. -/
theorem toClosing_eq_some_iff : toClosing s = some (content, tail) ↔
    s = content ++ closingMark ++ tail ∧ ¬ closingMark <:+: content := by
  rw [toClosing_eq_cut?, Text.cut?_eq_some_iff closingMark_ne_nil, closingMark_infix_iff]

/-! ## Cuts -/

/-- Comments, each with the gap in front of it, and the text behind the last one. -/
structure Cut where
  comments : List (List Char × List Char)
  rest : List Char

namespace Cut

/-- A comment with its marks. -/
def source (content : List Char) : List Char := openingMark ++ content ++ closingMark

/-- The text that was cut. -/
def text (d : Cut) : List Char := (d.comments.flatMap fun p => p.1 ++ source p.2) ++ d.rest

/-- The text is cut at comments: none ends later than it could, none starts later than it could, and
none is left over. -/
structure Splits (d : Cut) (s : List Char) : Prop where
  text : d.text = s
  gaps : ∀ p ∈ d.comments, ¬ openingMark <:+: p.1
  contents : ∀ p ∈ d.comments, ¬ closingMark <:+: p.2
  rest : ∀ before after, d.rest = before ++ openingMark ++ after → ¬ closingMark <:+: after

/-- The first comment is where the first opening mark is, up to the first closing mark behind it,
and the rest of the text is cut behind it. -/
theorem splits_cons_iff {comments : List (List Char × List Char)} {rest : List Char} :
    Splits ⟨(gap, content) :: comments, rest⟩ s ↔ ∃ body tail,
      toOpening s = some (gap, body) ∧ toClosing body = some (content, tail) ∧
      Splits ⟨comments, rest⟩ tail := by
  simp only [toOpening_eq_some_iff, toClosing_eq_some_iff]
  constructor
  · rintro ⟨rfl, hgaps, hcontents, hrest⟩
    obtain ⟨hgap, hgaps⟩ := List.forall_mem_cons.1 hgaps
    obtain ⟨hcontent, hcontents⟩ := List.forall_mem_cons.1 hcontents
    refine ⟨_, _, ⟨?_, hgap⟩, ⟨rfl, hcontent⟩, ⟨rfl, hgaps, hcontents, hrest⟩⟩
    simp [text, source]
  · rintro ⟨body, tail, ⟨rfl, hgap⟩, ⟨rfl, hcontent⟩, ⟨rfl, hgaps, hcontents, hrest⟩⟩
    refine ⟨?_, List.forall_mem_cons.2 ⟨hgap, hgaps⟩, List.forall_mem_cons.2 ⟨hcontent, hcontents⟩,
      hrest⟩
    simp [text, source]

/-- There is no comment exactly if the first opening mark, if there is one, is not closed. -/
theorem splits_nil_iff {rest : List Char} : Splits ⟨[], rest⟩ s ↔
    rest = s ∧ ∀ gap body, toOpening s = some (gap, body) → toClosing body = none := by
  constructor
  · rintro ⟨rfl, -, -, hrest⟩
    refine ⟨rfl, fun gap body h => toClosing_eq_none_iff.2 ?_⟩
    exact hrest gap body (toOpening_eq_some_iff.1 h).1
  · rintro ⟨rfl, h⟩
    refine ⟨rfl, by simp, by simp, fun before after (heq : rest = _) hclosed => ?_⟩
    cases hopen : toOpening rest with
    | none =>
      rw [heq] at hopen
      exact toOpening_eq_none_iff.1 hopen (List.infix_append _ _ _)
    | some p =>
      -- an opening mark that is closed is closed behind the first one, too
      obtain ⟨gap, body⟩ := p
      have hbody := toClosing_eq_none_iff.1 (h gap body hopen)
      rw [toOpening_eq_cut?] at hopen
      exact hbody (hclosed.trans (Text.suffix_of_cut? openingMark_ne_nil hopen heq).isInfix)

end Cut

/-- A text is cut in one way, and its comments are those of the cut. -/
theorem exists_cut (s : List Char) : ∃ d : Cut, (∀ d', d'.Splits s ↔ d' = d) ∧
    contents s = d.comments.map Prod.snd := by
  fun_induction contents s with
  | case1 s hopen =>
    refine ⟨⟨[], s⟩, ?_, rfl⟩
    rintro ⟨_ | ⟨⟨gap, content⟩, comments⟩, rest⟩
    · simp [Cut.splits_nil_iff, hopen]
    · simp [Cut.splits_cons_iff, hopen]
  | case2 s gap body hopen hclose =>
    refine ⟨⟨[], s⟩, ?_, rfl⟩
    rintro ⟨_ | ⟨⟨gap', content⟩, comments⟩, rest⟩
    · simp +contextual [Cut.splits_nil_iff, hopen, hclose]
    · simp +contextual [Cut.splits_cons_iff, hopen, hclose]
  | case3 s gap body hopen content tail hclose ih =>
    obtain ⟨d, hd, hcontents⟩ := ih
    refine ⟨⟨(gap, content) :: d.comments, d.rest⟩, ?_, by rw [hcontents, List.map_cons]⟩
    rintro ⟨_ | ⟨⟨gap', content'⟩, comments⟩, rest⟩
    · simp [Cut.splits_nil_iff, hopen, hclose]
    · rw [Cut.splits_cons_iff]
      constructor
      · rintro ⟨body', tail', hopen', hclose', h⟩
        cases hopen.symm.trans hopen'
        cases hclose.symm.trans hclose'
        rw [← (hd _).1 h]
      · intro h
        cases h
        exact ⟨body, tail, hopen, hclose, (hd d).2 rfl⟩

/-- One comment between its marks is found alone. -/
theorem contents_source (h : ¬ closingMark <:+: content) :
    contents (Cut.source content) = [content] := by
  obtain ⟨d, hd, hcontents⟩ := exists_cut (Cut.source content)
  have hsplits : Cut.Splits ⟨[([], content)], []⟩ (Cut.source content) := by
    refine ⟨?_, ?_, ?_, ?_⟩
    · simp [Cut.text]
    · simp [openingMark]
    · simpa using h
    · intro before after heq
      simp [openingMark] at heq
  rw [hcontents, ← (hd _).1 hsplits]
  rfl

/-- A text is cut into comments and gaps in one way. Its blocks are the comments of that cut, in
order, and their descriptions and tags are read from the contents alone. -/
theorem blocks_unique_cut : ∃ read : List Char → String × List Tag, ∀ s : List Char, ∃ d : Cut,
    (∀ d', d'.Splits s ↔ d' = d) ∧
    blocks s = d.comments.map fun p =>
      { description := (read p.2).1
        tags := (read p.2).2
        source := .ofList (Cut.source p.2) } := by
  refine ⟨fun content => ((block content).description, (block content).tags), fun s => ?_⟩
  obtain ⟨d, hd, hcontents⟩ := exists_cut s
  refine ⟨d, hd, ?_⟩
  rw [blocks, hcontents, List.map_map]
  rfl

/-! ## Comments that are closed already -/

/-- A comment with nothing in it. Its second asterisk belongs to the mark that closes it. -/
def emptyComment : List Char := ['/', '*', '*', '/']

/-- A text that is one comment: behind its first two characters, the first closing mark is the last
two characters. -/
def ClosesAtEnd (s : List Char) : Prop :=
  IsLeast {i | 2 ≤ i ∧ closingMark <+: s.drop i} (s.length - 2)

/-- The mark behind a text without marks is the only one. -/
theorem closingMark_prefix_drop_iff (h : ¬ closingMark <:+: content) (i : Nat) :
    closingMark <+: (content ++ closingMark).drop i ↔ i = content.length := by
  constructor
  · intro hmark
    have hlength : 2 ≤ ((content ++ closingMark).drop i).length := hmark.length_le
    rw [List.length_drop, List.length_append, show closingMark.length = 2 from rfl] at hlength
    by_contra hne
    -- the mark would begin in front of the one at the end and end inside it
    have hshort : closingMark <+: (content ++ closingMark.dropLast).drop i := by
      refine List.prefix_of_prefix_length_le hmark ?_ ?_
      · exact List.IsPrefix.drop (by simp [closingMark]) i
      · simp only [closingMark, List.length_drop, List.length_append, List.length_cons,
          List.length_nil, List.dropLast]
        omega
    exact h (closingMark_infix_iff.1 (hshort.isInfix.trans (List.drop_suffix _ _).isInfix))
  · rintro rfl
    rw [List.drop_left]

/-- A comment without closing marks in its content closes at its end, unless the content starts with
a slash, which closes the opening mark. -/
theorem closesAtEnd_source_iff (h : ¬ closingMark <:+: content) :
    ClosesAtEnd (Cut.source content) ↔ ¬ emptyComment <+: Cut.source content := by
  have hsource : Cut.source content = '/' :: '*' :: (('*' :: content) ++ closingMark) := rfl
  have hlength : (Cut.source content).length - 2 = content.length + 1 + 2 := by
    simp [hsource, closingMark]
  constructor
  · rintro hcloses ⟨rest, hrest⟩
    have hmark : closingMark <+: (Cut.source content).drop 2 := ⟨rest, by rw [← hrest]; rfl⟩
    have hle := hcloses.2 ⟨Nat.le_refl 2, hmark⟩
    omega
  · -- with the star of the opening, a mark at the front would make the comment empty
    intro hopen
    have hbody : ¬ closingMark <:+: '*' :: content := by
      rw [List.infix_cons_iff]
      rintro (⟨rest, hrest⟩ | hinfix)
      · cases hrest
        exact hopen ⟨rest ++ closingMark, rfl⟩
      · exact h hinfix
    have hmark : ∀ j, closingMark <+: (Cut.source content).drop (j + 2) ↔
        j = content.length + 1 := by
      intro j
      rw [hsource, List.drop_succ_cons, List.drop_succ_cons, closingMark_prefix_drop_iff hbody,
        List.length_cons]
    rw [ClosesAtEnd, hlength]
    refine ⟨⟨Nat.le_add_left 2 _, (hmark _).2 rfl⟩, ?_⟩
    rintro i ⟨hi, hfound⟩
    obtain ⟨j, rfl⟩ := Nat.exists_eq_add_of_le' hi
    rw [(hmark j).1 hfound]

/-- Every block is a part of the text. It is one comment just if it does not start with an empty
comment: the opening mark of a documentation comment is found in that one, too, and then the block
goes on to the next closing mark. -/
theorem blocks_closesAtEnd_iff (s : List Char) : ∀ b ∈ blocks s,
    b.source.toList <:+: s ∧
      (ClosesAtEnd b.source.toList ↔ ¬ emptyComment <+: b.source.toList) := by
  intro b hb
  obtain ⟨d, hd, hcontents⟩ := exists_cut s
  obtain ⟨rfl, -, hclosed, -⟩ := (hd d).2 rfl
  rw [blocks, hcontents, List.map_map] at hb
  obtain ⟨⟨gap, content⟩, hmem, rfl⟩ := List.mem_map.1 hb
  have hsource : (block content).source.toList = Cut.source content := String.toList_ofList
  refine ⟨?_, ?_⟩
  · obtain ⟨before, after, hsplit⟩ := List.append_of_mem hmem
    refine ⟨(before.flatMap fun p => p.1 ++ Cut.source p.2) ++ gap,
      (after.flatMap fun p => p.1 ++ Cut.source p.2) ++ d.rest, ?_⟩
    simp [hsource, Cut.text, hsplit]
  · rw [Function.comp_apply, hsource]
    exact closesAtEnd_source_iff (hclosed _ hmem)

/-- A comment of three asterisks is one comment, and so is the one behind it. -/
theorem blocks_closesAtEnd_iff_asterisks :
    (blocks "/***/ /** @route GET /pets */".toList).map (·.source) =
        ["/***/", "/** @route GET /pets */"] ∧
      ClosesAtEnd "/***/".toList ∧ ClosesAtEnd "/** @route GET /pets */".toList := by
  have hsources : (blocks "/***/ /** @route GET /pets */".toList).map (·.source) =
      ["/***/", "/** @route GET /pets */"] := by
    decide +kernel
  have hcloses : ∀ source ∈ ["/***/", "/** @route GET /pets */"],
      ClosesAtEnd source.toList := by
    intro source hmem
    rw [← hsources] at hmem
    obtain ⟨b, hb, rfl⟩ := List.mem_map.1 hmem
    refine (blocks_closesAtEnd_iff _ b hb).2.2 ?_
    have hall : ∀ b ∈ blocks "/***/ /** @route GET /pets */".toList,
        ¬ emptyComment <+: b.source.toList := by
      decide +kernel
    exact hall b hb
  exact ⟨hsources, hcloses _ (by simp), hcloses _ (by simp)⟩

/-- An empty comment is glued to the code and the documentation comment behind it. -/
theorem emptyComment_glued :
    ∃ b ∈ blocks "/**/ f(); /** @route GET /pets */".toList,
      b.source = "/**/ f(); /** @route GET /pets */" ∧ b.tags.length = 0 ∧
        ¬ ClosesAtEnd b.source.toList := by
  refine ⟨block "/ f(); /** @route GET /pets ".toList, ?_, by decide +kernel, by decide +kernel,
    fun hcloses => ?_⟩
  · have hcontents : contents "/**/ f(); /** @route GET /pets */".toList =
        ["/ f(); /** @route GET /pets ".toList] := by
      decide +kernel
    rw [blocks, hcontents]
    exact List.mem_singleton_self _
  · have hle := hcloses.2 ⟨Nat.le_refl 2, (by decide +kernel : closingMark <+: _)⟩
    revert hle
    decide +kernel

end ApiDoc.Comment
