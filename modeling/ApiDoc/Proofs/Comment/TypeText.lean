import ApiDoc.Proofs.Comment.TagText
import ApiDoc.Proofs.Except

/-!
# The type of a tag and the rest of it

What stands in the braces of `@title {type} name - description` tells the type and nothing else, as
long as the braces in it are matched: two tags that differ in this text have the same title, name
and description (`tags_agree_of_isBalanced`). It need not be a type. One that cannot be read is left
out.
-/

namespace ApiDoc.Comment

open Text

variable {t : List Char} {title : String}

/-- The tag that a section is read as, if it has a title. -/
def readTag? (s : List Char) : Option Tag := (Section.ofText? s).map Section.tag

/-- A tag with a text in braces behind its title, and a text directly behind them. -/
def typedText (title : String) (t behind : List Char) : List Char :=
  '@' :: (title.toList ++ ' ' :: '\x7b' :: (t ++ '\x7d' :: behind))

/-! ## Titles -/

/-- Titles that may have a type are words. -/
theorem isWord_of_mem_typedTitles (h : title ∈ typedTitles) :
    title ≠ "" ∧ ∀ c ∈ title.toList, isWord c = true := by
  have hall : typedTitles.all (fun title => !title.isEmpty && title.toList.all isWord) = true := by
    decide
  have htitle := List.all_eq_true.1 hall title h
  simpa using htitle

/-- What a title with a type stands for may have a type. -/
theorem canonicalTitle_mem_typedTitles (h : title ∈ typedTitles) :
    canonicalTitle title ∈ typedTitles := by
  have hall : typedTitles.all (typedTitles.contains <| canonicalTitle ·) = true := by decide
  exact List.contains_iff_mem.1 (List.all_eq_true.1 hall title h)

/-! ## Behind the title -/

/-- What is read behind a title, whatever stands there. -/
theorem ofText?_title (hne : title ≠ "") (hword : ∀ c ∈ title.toList, isWord c = true)
    (body : List Char) : Section.ofText? ('@' :: (title.toList ++ ' ' :: body)) =
      some ⟨canonicalTitle title, trim body⟩ := by
  have htrim : trim ('@' :: (title.toList ++ ' ' :: body)) =
      '@' :: (title.toList ++ trimEnd (' ' :: body)) := by
    rw [trim, trimStart_eq_self (by rintro c ⟨⟩; decide)]
    exact (isSolid_title hword).trimEnd_append (' ' :: body)
  -- what is left of the text behind the title, if anything, starts with the space
  have hspace : ∀ c ∈ (trimEnd (' ' :: body)).head?, isWord c = false := by
    obtain ⟨tail, htail⟩ := isPrefix_trimEnd (' ' :: body)
    intro c hc
    obtain ⟨rest, hrest⟩ := List.head?_eq_some_iff.1 hc
    rw [hrest] at htail
    obtain ⟨rfl, -⟩ := List.cons.inj htail
    decide
  obtain ⟨htake, hdrop⟩ := takeWhile_append_of_head? hword hspace
  -- a title without characters would be read as none
  have hchars : title.toList ≠ [] := by simpa using hne
  rw [Section.ofText?, htrim]
  simp only [htake, hdrop, trim_trimEnd, trim_space_cons, String.ofList_toList]

/-- What is read of a tag with a text in braces, whatever stands behind them. -/
theorem ofText?_typedText (htitle : title ∈ typedTitles) (t behind : List Char) :
    Section.ofText? (typedText title t behind) =
      some ⟨canonicalTitle title, '\x7b' :: (t ++ '\x7d' :: trimEnd behind)⟩ := by
  obtain ⟨hne, hword⟩ := isWord_of_mem_typedTitles htitle
  have hclose : isBlank '\x7d' = false := by decide
  have hbody : trim ('\x7b' :: (t ++ '\x7d' :: behind)) =
      '\x7b' :: (t ++ '\x7d' :: trimEnd behind) := by
    rw [trim, trimStart_eq_self (by rintro c ⟨⟩; decide)]
    exact trimEnd_append_cons hclose ('\x7b' :: t) behind
  rw [typedText, ofText?_title hne hword, hbody]

/-- A text whose braces are matched is read as the type, and what stands behind its braces is read
as if it were the whole text of the tag. -/
theorem readTag?_typedText (htitle : title ∈ typedTitles) (ht : IsBalanced t)
    (behind : List Char) : readTag? (typedText title t behind) =
      some { title := canonicalTitle title
             name := (naming (canonicalTitle title) (trim behind)).1
             description := textOrNone
               (stripHyphen (trim (naming (canonicalTitle title) (trim behind)).2))
             type := (TypeExpr.parse (trim t)).toOption } := by
  have htyped := List.contains_iff_mem.2 (canonicalTitle_mem_typedTitles htitle)
  rw [readTag?, ofText?_typedText htitle, Option.map_some, Section.tag_eq_tagWith,
    Section.tagWith, Section.typeText, if_pos htyped, ht.takeBraced_eq, trim_trimEnd]
  rfl

/-! ## Two texts -/

/-- The title, the name and the description of a tag do not depend on the text in its braces, and
the type is what this text is read as. -/
theorem tags_agree_of_isBalanced {t₁ t₂ : List Char} (htitle : title ∈ typedTitles)
    (h₁ : IsBalanced t₁) (h₂ : IsBalanced t₂) (rest : List Char) :
    ∃ tag₁ tag₂ : Tag, readTag? (typedText title t₁ (' ' :: rest)) = some tag₁ ∧
      readTag? (typedText title t₂ (' ' :: rest)) = some tag₂ ∧
      tag₁.title = canonicalTitle title ∧ tag₁.title = tag₂.title ∧ tag₁.name = tag₂.name ∧
      tag₁.description = tag₂.description ∧
      (∀ e, tag₁.type = some e ↔ TypeExpr.parse (trim t₁) = .ok e) ∧
      (tag₁.type = none ↔ ∃ fault, TypeExpr.parse (trim t₁) = .error fault) ∧
      (∀ e, tag₂.type = some e ↔ TypeExpr.parse (trim t₂) = .ok e) ∧
      (tag₂.type = none ↔ ∃ fault, TypeExpr.parse (trim t₂) = .error fault) :=
  ⟨_, _, readTag?_typedText htitle h₁ (' ' :: rest), readTag?_typedText htitle h₂ (' ' :: rest),
    rfl, rfl, rfl, rfl, fun _ => toOption_eq_some_iff, toOption_eq_none_iff,
    fun _ => toOption_eq_some_iff, toOption_eq_none_iff⟩

/-- A type, and a text with braces that is none. -/
theorem tags_agree_of_isBalanced_nested :
    "arg" ∈ typedTitles ∧ IsBalanced " Array<Pet> ".toList ∧
    IsBalanced "\x7b@id - \x7b\x7d\x7d,".toList ∧
    ∃ tag₁ tag₂ : Tag,
      readTag? (typedText "arg" " Array<Pet> ".toList " [id=1] - the key ".toList) = some tag₁ ∧
      readTag? (typedText "arg" "\x7b@id - \x7b\x7d\x7d,".toList " [id=1] - the key ".toList) =
        some tag₂ ∧
      tag₁.title = "param" ∧ tag₂.title = "param" ∧ tag₁.name = tag₂.name ∧
      tag₁.description = tag₂.description ∧
      tag₁.type = some (.applied "Array" [.named "Pet"]) ∧ tag₂.type = none := by
  have htitle : "arg" ∈ typedTitles := by decide
  have h₁ : IsBalanced " Array<Pet> ".toList := by decide
  have h₂ : IsBalanced "\x7b@id - \x7b\x7d\x7d,".toList := by decide
  have hread : TypeExpr.parse (trim " Array<Pet> ".toList) =
      .ok (.applied "Array" [.named "Pet"]) := by
    have he : (TypeExpr.applied "Array" [.named "Pet"]).WellFormed :=
      .applied (by decide) (List.forall_mem_singleton.2 (.named (by decide)))
    exact he.parse_print
  have hunread :
      ∃ fault, TypeExpr.parse (trim "\x7b@id - \x7b\x7d\x7d,".toList) = .error fault := by
    rw [← toOption_eq_none_iff, ← Option.isNone_iff_eq_none]
    decide +kernel
  obtain ⟨tag₁, tag₂, hread₁, hread₂, htitle₁, htitles, hnames, hdescriptions, htype₁, -, -,
    htype₂⟩ := tags_agree_of_isBalanced htitle h₁ h₂ "[id=1] - the key ".toList
  exact ⟨htitle, h₁, h₂, tag₁, tag₂, hread₁, hread₂, htitle₁, htitles ▸ htitle₁, hnames,
    hdescriptions, (htype₁ _).2 hread, htype₂.2 hunread⟩

end ApiDoc.Comment
