import ApiDoc.Comment.Reader
import ApiDoc.Proofs.Text.Lines
import ApiDoc.Proofs.Text.Split
import ApiDoc.Proofs.TypeExpr.Printing

/-!
# Texts of tags

A tag is written as `@title {type} name - description`, with the parts that it has. A tag that can
be told from its text is read from it again (`IsWritableTag.tag_eq`): behind the title, each part is
solid and has one blank in front, and each step of the reading takes one part and leaves the blank
and the rest.
-/

namespace ApiDoc.Comment

open Text

/-! ## Writing tags -/

/-- The type of a tag in braces, if it has one. -/
def typePart (t : Tag) : List (List Char) :=
  t.type.toList.map fun e => '\x7b' :: (e.print ++ ['\x7d'])

/-- The name of a tag, if it has one. -/
def namePart (t : Tag) : List (List Char) := t.name.toList.map String.toList

/-- The description of a tag behind a hyphen, if it has one. -/
def descriptionPart (t : Tag) : List (List Char) :=
  t.description.toList.map fun d => '-' :: ' ' :: d.toList

/-- Texts with a space in front of each. -/
def spaced (parts : List (List Char)) : List Char := parts.flatMap (' ' :: ·)

/-- The text of a tag. -/
def writeTag (t : Tag) : List Char :=
  '@' :: (t.title.toList ++ spaced (typePart t ++ namePart t ++ descriptionPart t))

/-- The text of a tag in front of its description. -/
def writeHead (t : Tag) : List Char :=
  '@' :: (t.title.toList ++ spaced (typePart t ++ namePart t))

/-- What is left to read of a tag behind its title. -/
def sectionOf (t : Tag) : Section :=
  ⟨t.title, trim (spaced (typePart t ++ namePart t ++ descriptionPart t))⟩

/-- A name that ends where it is written to end, and that is not taken for a name in brackets or
one with a default. -/
structure IsPlainName (n : List Char) : Prop where
  ne_nil : n ≠ []
  chars : ∀ c ∈ n, isBlank c = false ∧ c ∉ ['[', ']', '=']

instance (n : List Char) : Decidable (IsPlainName n) :=
  decidable_of_iff
    (n ≠ [] ∧ n.all (fun c => decide (isBlank c = false ∧ c ∉ ['[', ']', '='])) = true)
    ⟨fun h => ⟨h.1, by simpa using h.2⟩, fun h => ⟨h.ne_nil, by simpa using h.chars⟩⟩

/-- A word that stands for no other title. -/
structure IsTitle (title : String) : Prop where
  ne : title ≠ ""
  word : ∀ c ∈ title.toList, isWord c = true
  canonical : title ∉ ["arg", "argument", "prop"]

instance (title : String) : Decidable (IsTitle title) :=
  decidable_of_iff
    (title ≠ "" ∧ title.toList.all isWord = true ∧ title ∉ ["arg", "argument", "prop"])
    ⟨fun h => ⟨h.1, List.all_eq_true.1 h.2.1, h.2.2⟩,
      fun h => ⟨h.ne, List.all_eq_true.2 h.word, h.canonical⟩⟩

/-- A tag whose parts are read as what they are from its text. -/
structure IsWritableTag (t : Tag) : Prop where
  title : IsTitle t.title
  typed : ∀ e ∈ t.type, t.title ∈ typedTitles ∧ e.WellFormed
  named : ∀ n ∈ t.name, t.title ∈ namedTitles ∧ IsPlainName n.toList
  unbraced : t.type = none → ∀ n ∈ t.name, n.toList.head? ≠ some '\x7b'
  described : ∀ d ∈ t.description, IsPassage d.toList ∧
    ∀ line ∈ (lines d.toList).tail, opensSection line = false
  description_named : t.title ∈ namedTitles → t.description.isSome → t.name.isSome

/-! ## Solid parts -/

/-- Solid texts with spaces between them are one solid text. -/
theorem isSolid_append_spaced {part : List Char} {parts : List (List Char)} (hpart : IsSolid part)
    (hparts : ∀ p ∈ parts, IsSolid p) : IsSolid (part ++ spaced parts) := by
  induction parts generalizing part with
  | nil => simpa [spaced] using hpart
  | cons next parts ih =>
    obtain ⟨hnext, hparts⟩ := List.forall_mem_cons.1 hparts
    simpa [spaced] using hpart.append (ih hnext hparts) [' ']

/-- The blanks around spaced parts are the space in front of the first one. -/
theorem trim_spaced_cons {part : List Char} {parts : List (List Char)} (hpart : IsSolid part)
    (hparts : ∀ p ∈ parts, IsSolid p) : trim (spaced (part :: parts)) = part ++ spaced parts := by
  have hblank : ∀ c ∈ [' '], isBlank c = true := List.forall_mem_singleton.2 (by decide)
  have htrim := (isSolid_append_spaced hpart hparts).toIsTrimmed.trim_append hblank
    (List.forall_mem_nil _)
  simpa [spaced] using htrim

/-- Spaced solid texts have blanks in front only. -/
theorem trimStart_spaced {parts : List (List Char)} (hparts : ∀ p ∈ parts, IsSolid p) :
    trimStart (spaced parts) = trim (spaced parts) := by
  cases parts with
  | nil => rfl
  | cons part parts =>
    obtain ⟨hpart, hparts⟩ := List.forall_mem_cons.1 hparts
    have hblank : ∀ c ∈ [' '], isBlank c = true := List.forall_mem_singleton.2 (by decide)
    rw [trim_spaced_cons hpart hparts]
    exact (trimStart_append hblank _).trans
      (trimStart_eq_self (isSolid_append_spaced hpart hparts).head)

/-- A word behind the sign of a tag is solid. -/
theorem isSolid_title {title : String} (h : ∀ c ∈ title.toList, isWord c = true) :
    IsSolid ('@' :: title.toList) := by
  refine isSolid_of_not_isBlank (by simp) (List.forall_mem_cons.2 ⟨by decide, fun c hc => ?_⟩)
  exact isBlank_of_isWord (h c hc)

variable {t : Tag}

namespace IsWritableTag

/-- A written type has no blanks. -/
theorem isBlank_of_mem_typePart (h : IsWritableTag t) {p : List Char} (hp : p ∈ typePart t) :
    ∀ c ∈ p, isBlank c = false := by
  obtain ⟨e, he, rfl⟩ := List.mem_map.1 hp
  have hprint := (h.typed e (Option.mem_toList.1 he)).2.isPrintChar
  rw [List.forall_mem_cons, List.forall_mem_append]
  exact ⟨by decide, fun c hc => (hprint c hc).isBlank_eq_false,
    List.forall_mem_singleton.2 (by decide)⟩

/-- A written name has no blanks. -/
theorem isBlank_of_mem_namePart (h : IsWritableTag t) {p : List Char} (hp : p ∈ namePart t) :
    ∀ c ∈ p, isBlank c = false := by
  obtain ⟨n, hn, rfl⟩ := List.mem_map.1 hp
  exact fun c hc => ((h.named n (Option.mem_toList.1 hn)).2.chars c hc).1

/-- A written type is solid. -/
theorem isSolid_typePart (h : IsWritableTag t) : ∀ p ∈ typePart t, IsSolid p := by
  intro p hp
  refine isSolid_of_not_isBlank ?_ (h.isBlank_of_mem_typePart hp)
  obtain ⟨e, -, rfl⟩ := List.mem_map.1 hp
  exact List.cons_ne_nil _ _

/-- A written name is solid. -/
theorem isSolid_namePart (h : IsWritableTag t) : ∀ p ∈ namePart t, IsSolid p := by
  intro p hp
  refine isSolid_of_not_isBlank ?_ (h.isBlank_of_mem_namePart hp)
  obtain ⟨n, hn, rfl⟩ := List.mem_map.1 hp
  exact (h.named n (Option.mem_toList.1 hn)).2.ne_nil

/-- A written description is solid. -/
theorem isSolid_descriptionPart (h : IsWritableTag t) : ∀ p ∈ descriptionPart t, IsSolid p := by
  intro p hp
  obtain ⟨d, hd, rfl⟩ := List.mem_map.1 hp
  have hhyphen : IsSolid ['-'] := by decide
  exact hhyphen.append (h.described d (Option.mem_toList.1 hd)).1.toIsSolid [' ']

/-- All parts of a written tag are solid. -/
theorem isSolid_parts (h : IsWritableTag t) :
    ∀ p ∈ typePart t ++ namePart t ++ descriptionPart t, IsSolid p :=
  List.forall_mem_append.2 ⟨List.forall_mem_append.2 ⟨h.isSolid_typePart, h.isSolid_namePart⟩,
    h.isSolid_descriptionPart⟩

end IsWritableTag

/-! ## Reading the parts -/

/-- Characters of a class end where the first one behind them is not of the class. -/
theorem takeWhile_append_of_head? {p : Char → Bool} {s behind : List Char}
    (hs : ∀ c ∈ s, p c = true) (hbehind : ∀ c ∈ behind.head?, p c = false) :
    (s ++ behind).takeWhile p = s ∧ (s ++ behind).dropWhile p = behind := by
  rw [List.takeWhile_append_of_pos hs, List.dropWhile_append_of_pos hs]
  cases behind with
  | nil => simp
  | cons c behind => simp [hbehind c rfl]

/-- What stands in front of spaced parts ends with the characters of its class. -/
theorem takeWhile_append_spaced {p : Char → Bool} {s : List Char} (hs : ∀ c ∈ s, p c = true)
    (hspace : p ' ' = false) (parts : List (List Char)) :
    (s ++ spaced parts).takeWhile p = s ∧ (s ++ spaced parts).dropWhile p = spaced parts := by
  refine takeWhile_append_of_head? hs fun c hc => ?_
  cases parts with
  | nil => cases hc
  | cons part parts =>
    cases hc
    exact hspace

/-- All titles but the three short ones stand for themselves. -/
theorem canonicalTitle_eq_self {title : String} (h : title ∉ ["arg", "argument", "prop"]) :
    canonicalTitle title = title := by
  unfold canonicalTitle
  split
  · simp at h
  · simp at h
  · simp at h
  · rfl

/-- Braces are matched inside the text: as many are opened as closed, and none is closed in front of
the one that opens it. -/
structure IsBalanced (t : List Char) : Prop where
  count : t.count '\x7b' = t.count '\x7d'
  prefixes : ∀ p, p <+: t → p.count '\x7d' ≤ p.count '\x7b'

instance (t : List Char) : Decidable (IsBalanced t) :=
  decidable_of_iff (t.count '\x7b' = t.count '\x7d' ∧
      t.inits.all (fun p => decide (p.count '\x7d' ≤ p.count '\x7b')) = true)
    ⟨fun h => ⟨h.1, by simpa using h.2⟩, fun h => ⟨h.count, by simpa using h.prefixes⟩⟩

/-- A text without braces is balanced. -/
theorem isBalanced_of_not_mem {t : List Char} (hopen : '\x7b' ∉ t) (hclose : '\x7d' ∉ t) :
    IsBalanced t := by
  refine ⟨?_, fun p hp => ?_⟩
  · rw [List.count_eq_zero_of_not_mem hopen, List.count_eq_zero_of_not_mem hclose]
  · have hnot : '\x7d' ∉ p := fun hmem => hclose (hp.subset hmem)
    rw [List.count_eq_zero_of_not_mem hnot]
    exact Nat.zero_le _

/-- Reading to the closing brace goes on behind a text that closes no brace opened in front of it.
The depth moves by the braces that the text leaves open. -/
theorem toClosingBrace_append {t : List Char} {d e : Nat}
    (hd : ∀ p, p <+: t → p.count '\x7d' ≤ p.count '\x7b' + d)
    (he : t.count '\x7b' + d = t.count '\x7d' + e) (s : List Char) :
    toClosingBrace (d + 1) (t ++ s) = (toClosingBrace (e + 1) s).map fun p => (t ++ p.1, p.2) := by
  induction t generalizing d with
  | nil =>
    obtain rfl : d = e := by simpa using he
    simp
  | cons c t ih =>
    have hprefix (p : List Char) (hp : p <+: t) := hd (c :: p) ((List.prefix_cons_inj c).2 hp)
    by_cases hopen : c = '\x7b'
    · subst hopen
      have hne : '\x7b' ≠ '\x7d' := by decide
      simp only [List.count_cons_self, List.count_cons_of_ne hne] at hprefix he
      have hrest := ih (d := d + 1) (fun p hp => by have := hprefix p hp; omega) (by omega)
      simp [toClosingBrace, hrest, Function.comp_def]
    · by_cases hclose : c = '\x7d'
      · subst hclose
        -- the brace closes one that was opened in front of it, so the depth is not the last one
        have hpos : 1 ≤ d := by simpa using hprefix [] List.nil_prefix
        obtain ⟨d, rfl⟩ := Nat.exists_eq_add_of_le' hpos
        have hne : '\x7d' ≠ '\x7b' := by decide
        simp only [List.count_cons_self, List.count_cons_of_ne hne] at hprefix he
        have hrest := ih (d := d) (fun p hp => by have := hprefix p hp; omega) (by omega)
        simp [toClosingBrace, hrest, Function.comp_def]
      · simp only [List.count_cons_of_ne hopen, List.count_cons_of_ne hclose] at hprefix he
        simp [toClosingBrace, hopen, hclose, ih hprefix he, Function.comp_def]

/-- The text in braces is taken from what stands in front of the rest. -/
theorem IsBalanced.takeBraced_eq {t : List Char} (ht : IsBalanced t) (rest : List Char) :
    takeBraced ('\x7b' :: (t ++ '\x7d' :: rest)) = (some (trim t), trim rest) := by
  have hclosing : toClosingBrace 1 (t ++ '\x7d' :: rest) = some (t, rest) := by
    rw [toClosingBrace_append (d := 0) (e := 0) ht.prefixes (by simpa using ht.count)]
    simp [toClosingBrace]
  simp [takeBraced, hclosing]

/-- A type in braces is taken from what stands in front of the rest. -/
theorem takeBraced_braced {e : TypeExpr} (he : e.WellFormed) (rest : List Char) :
    takeBraced ('\x7b' :: (e.print ++ ['\x7d']) ++ rest) = (some e.print, trim rest) := by
  have hblank : ∀ c ∈ e.print, isBlank c = false :=
    fun c hc => (he.isPrintChar c hc).isBlank_eq_false
  have htrim : trim e.print = e.print :=
    IsTrimmed.trim_eq ⟨fun c hc => hblank c (List.mem_of_head? hc),
      fun c hc => hblank c (List.mem_of_getLast? hc)⟩
  have hbalanced : IsBalanced e.print :=
    isBalanced_of_not_mem (fun hc => by simpa using (he.isPrintChar _ hc).not_mem)
      fun hc => by simpa using (he.isPrintChar _ hc).not_mem
  simpa [htrim] using hbalanced.takeBraced_eq rest

/-- A text that does not start with a brace has no type in front. -/
theorem takeBraced_of_head? {s : List Char} (h : s.head? ≠ some '\x7b') :
    takeBraced s = (none, s) := by
  cases s with
  | nil => rfl
  | cons c rest =>
    have hc : c ≠ '\x7b' := by simpa using h
    simp [takeBraced, hc]

/-- A plain name is taken up to the space behind it. -/
theorem IsPlainName.takeName_eq {n : List Char} (hn : IsPlainName n) (parts : List (List Char)) :
    takeName (n ++ spaced parts) = (n, trimStart (spaced parts)) := by
  obtain ⟨c, rest, rfl⟩ := List.exists_cons_of_ne_nil hn.ne_nil
  have hbracket : c ≠ '[' := by
    rintro rfl
    exact (hn.chars '[' List.mem_cons_self).2 (by decide)
  obtain ⟨htake, hdrop⟩ := takeWhile_append_spaced (p := (!isBlank ·)) (s := c :: rest)
    (fun c hc => by simp [(hn.chars c hc).1]) (by decide) parts
  unfold takeName
  split
  · next heq => exact absurd (List.cons.inj heq).1 hbracket
  · rw [htake, hdrop]

/-- A plain name has no brackets and no default to drop. -/
theorem IsPlainName.plainName_eq {n : List Char} (hn : IsPlainName n) : plainName n = n := by
  have hbrackets : ∀ c ∈ n, (c == '[' || c == ']') = false := by
    intro c hc
    have hmem := (hn.chars c hc).2
    simp_all
  have hequals : '=' ∉ n := fun hc => (hn.chars '=' hc).2 (by decide)
  rw [plainName, trimBy_eq_self hbrackets, splitFirst_of_not_mem hequals]

/-- A text that is not empty is kept. -/
theorem textOrNone_toList {s : String} (h : s.toList ≠ []) : textOrNone s.toList = some s := by
  simp [textOrNone, h]

/-- The hyphen that a description is written behind is dropped again. -/
theorem stripHyphen_hyphen {d : List Char} (hd : IsTrimmed d) :
    stripHyphen ('-' :: ' ' :: d) = d := by
  have hblank : isBlank ' ' = true := by decide
  rw [stripHyphen, if_pos hblank, trimStart_eq_self hd.head]

/-- The name that stands in front of a text under a title, and the text behind it. -/
def naming (title : String) (rest : List Char) : Option String × List Char :=
  if namedTitles.contains title then
    (textOrNone (plainName (takeName rest).1), (takeName rest).2)
  else (none, rest)

/-- The tag of a section whose name and description have been told apart. -/
def Section.tagWith (s : Section) (named : Option String × List Char) : Tag where
  title := s.title
  name := named.1
  description := textOrNone (stripHyphen (trim named.2))
  type := s.typeText.1.bind fun t => (TypeExpr.parse t).toOption

/-- The tag of a section is made of its name and of the text behind it. -/
theorem Section.tag_eq_tagWith (s : Section) : s.tag = s.tagWith (naming s.title s.typeText.2) := by
  cases htext : s.typeText with
  | mk typeText rest =>
    cases hnamed : namedTitles.contains s.title <;>
      simp only [Section.tag, Section.tagWith, naming, htext, hnamed, if_true, Bool.false_eq_true,
        if_false]

/-! ## Reading tags -/

namespace IsWritableTag

/-- A written tag is solid. -/
theorem isSolid_writeTag (h : IsWritableTag t) : IsSolid (writeTag t) :=
  isSolid_append_spaced (isSolid_title h.title.word) h.isSolid_parts

/-- A written tag is read as a section of its title and its parts. -/
theorem ofText?_writeTag (h : IsWritableTag t) :
    Section.ofText? (writeTag t) = some (sectionOf t) := by
  have htrim : trim (writeTag t) = writeTag t := h.isSolid_writeTag.toIsTrimmed.trim_eq
  obtain ⟨htake, hdrop⟩ := takeWhile_append_spaced h.title.word (by decide)
    (typePart t ++ namePart t ++ descriptionPart t)
  rw [Section.ofText?, htrim, writeTag]
  -- a title without characters would be read as none
  have hne : t.title.toList ≠ [] := by simpa using h.title.ne
  simp only [htake, hdrop, String.ofList_toList, canonicalTitle_eq_self h.title.canonical,
    sectionOf]

/-- What stands behind the title of a tag without a type does not look like a type. -/
theorem head?_ne_brace (h : IsWritableTag t) (htype : t.type = none) :
    (trim (spaced (namePart t ++ descriptionPart t))).head? ≠ some '\x7b' := by
  have hname := h.isSolid_namePart
  have hdescription := h.isSolid_descriptionPart
  have hbrace := h.unbraced htype
  obtain ⟨title, name, description, type⟩ := t
  cases name with
  | some n =>
    have hn : IsSolid n.toList := hname _ (List.mem_singleton.2 rfl)
    rw [namePart, Option.toList, List.map_singleton, List.singleton_append,
      trim_spaced_cons hn hdescription, List.head?_append_of_ne_nil _ hn.ne_nil]
    exact hbrace n rfl
  | none =>
    cases description with
    | none => simp [namePart, descriptionPart, spaced, trim, trimStart, trimEnd]
    | some d =>
      have hd : IsSolid ('-' :: ' ' :: d.toList) := hdescription _ (List.mem_singleton.2 rfl)
      have htrim := trim_spaced_cons hd (List.forall_mem_nil _)
      simp [namePart, descriptionPart, htrim]

/-- The type of a written tag is told from its other parts. -/
theorem typeText_eq (h : IsWritableTag t) : (sectionOf t).typeText =
    (t.type.map TypeExpr.print, trim (spaced (namePart t ++ descriptionPart t))) := by
  have hbehind := List.forall_mem_append.2 ⟨h.isSolid_namePart, h.isSolid_descriptionPart⟩
  rw [Section.typeText, sectionOf, List.append_assoc]
  cases htype : t.type with
  | some e =>
    obtain ⟨htitle, he⟩ := h.typed e htype
    have hpart : typePart t = ['\x7b' :: (e.print ++ ['\x7d'])] := by rw [typePart, htype]; rfl
    have hsolid := h.isSolid_typePart _ (hpart ▸ List.mem_singleton.2 rfl)
    rw [if_pos (List.contains_iff_mem.2 htitle), hpart, List.singleton_append,
      trim_spaced_cons hsolid hbehind, takeBraced_braced he]
    rfl
  | none =>
    have hpart : typePart t = [] := by rw [typePart, htype]; rfl
    rw [hpart, List.nil_append, takeBraced_of_head? (h.head?_ne_brace htype), ite_self]
    rfl

/-- The type of a written tag is read back. -/
theorem type_eq (h : IsWritableTag t) :
    ((t.type.map TypeExpr.print).bind fun s => (TypeExpr.parse s).toOption) = t.type := by
  cases htype : t.type with
  | none => rfl
  | some e => simp [(h.typed e htype).2.parse_print, Except.toOption]

/-- The name of a written tag is told from its description. -/
theorem takeName_eq (h : IsWritableTag t) (htitle : t.title ∈ namedTitles) {n rest : List Char}
    (hn : takeName (trim (spaced (namePart t ++ descriptionPart t))) = (n, rest)) :
    textOrNone (plainName n) = t.name ∧ rest = trim (spaced (descriptionPart t)) := by
  cases hname : t.name with
  | some name =>
    have hplain := (h.named name hname).2
    have hsolid : IsSolid name.toList := h.isSolid_namePart _ (by simp [namePart, hname])
    have hpart : namePart t = [name.toList] := by simp [namePart, hname]
    rw [hpart, List.singleton_append, trim_spaced_cons hsolid h.isSolid_descriptionPart,
      hplain.takeName_eq, Prod.mk.injEq] at hn
    obtain ⟨rfl, rfl⟩ := hn
    rw [hplain.plainName_eq, textOrNone_toList hplain.ne_nil,
      trimStart_spaced h.isSolid_descriptionPart]
    exact ⟨rfl, rfl⟩
  | none =>
    -- a description without a name would be read as a name
    have hdescription : t.description = none := by
      cases hd : t.description with
      | none => rfl
      | some d => simpa [hname, hd] using h.description_named htitle
    have hparts : namePart t = [] ∧ descriptionPart t = [] := by
      simp [namePart, descriptionPart, hname, hdescription]
    rw [hparts.1, hparts.2] at hn
    cases hn
    rw [hparts.2]
    exact ⟨rfl, rfl⟩

/-- The description of a written tag is read back. -/
theorem description_eq (h : IsWritableTag t) :
    textOrNone (stripHyphen (trim (trim (spaced (descriptionPart t))))) = t.description := by
  have hsolid := h.isSolid_descriptionPart
  cases hdescription : t.description with
  | none =>
    have hpart : descriptionPart t = [] := by simp [descriptionPart, hdescription]
    rw [hpart]
    rfl
  | some d =>
    have hpart : descriptionPart t = ['-' :: ' ' :: d.toList] := by
      simp [descriptionPart, hdescription]
    obtain ⟨hd, -⟩ := h.described d hdescription
    have hhyphen : IsSolid ('-' :: ' ' :: d.toList) := hsolid _ (by simp [hpart])
    rw [hpart, trim_spaced_cons hhyphen (List.forall_mem_nil _), spaced, List.flatMap_nil,
      List.append_nil, hhyphen.toIsTrimmed.trim_eq, stripHyphen_hyphen hd.toIsTrimmed,
      textOrNone_toList hd.ne_nil]

/-- A tag is read from its text. -/
theorem tag_eq (h : IsWritableTag t) : (sectionOf t).tag = t := by
  have htitle_eq : (sectionOf t).title = t.title := rfl
  unfold Section.tag
  rw [h.typeText_eq, htitle_eq]
  by_cases htitle : t.title ∈ namedTitles
  · cases hn : takeName (trim (spaced (namePart t ++ descriptionPart t))) with
    | mk n rest =>
      obtain ⟨hname, rfl⟩ := h.takeName_eq htitle hn
      simp only [List.contains_iff_mem.2 htitle, if_true, hn, hname, h.description_eq, h.type_eq]
  · have hname : t.name = none := by
      cases hname : t.name with
      | none => rfl
      | some n => exact absurd (h.named n hname).1 htitle
    have hpart : namePart t = [] := by simp [namePart, hname]
    have hcontains : namedTitles.contains t.title = false := by simpa using htitle
    simp only [hcontains, Bool.false_eq_true, if_false, hpart, List.nil_append, h.description_eq,
      h.type_eq, ← hname]

/-! ## Lines of tags -/

/-- In front of its description, a tag has no line ends. -/
theorem isLineEnd_writeHead (h : IsWritableTag t) : ∀ c ∈ writeHead t, isLineEnd c = false := by
  have htitle : ∀ c ∈ t.title.toList, isLineEnd c = false := fun c hc =>
    isLineEnd_of_not_isBlank (isBlank_of_isWord (h.title.word c hc))
  have hparts : ∀ p ∈ typePart t ++ namePart t, ∀ c ∈ p, isBlank c = false :=
    List.forall_mem_append.2 ⟨fun p hp => h.isBlank_of_mem_typePart hp,
      fun p hp => h.isBlank_of_mem_namePart hp⟩
  rw [writeHead, List.forall_mem_cons, List.forall_mem_append]
  refine ⟨by decide, htitle, fun c hc => ?_⟩
  obtain ⟨p, hp, hc⟩ := List.mem_flatMap.1 hc
  rcases List.mem_cons.1 hc with rfl | hc
  · decide
  · exact isLineEnd_of_not_isBlank (hparts p hp c hc)

/-- The first line of a tag starts with its title, and the other ones are those of its
description. -/
theorem openLines_writeTag (h : IsWritableTag t) : ∃ first, openLines (writeTag t) =
    ('@' :: first) :: (t.description.elim [] fun d => (lines d.toList).tail) := by
  have hhead := h.isLineEnd_writeHead
  cases hdescription : t.description with
  | none =>
    have hwrite : writeTag t = writeHead t ++ [] := by
      simp [writeTag, writeHead, descriptionPart, hdescription]
    rw [hwrite, openLines_append hhead]
    exact ⟨_, rfl⟩
  | some d =>
    have hwrite : writeTag t = (writeHead t ++ [' ', '-', ' ']) ++ d.toList := by
      simp [writeTag, writeHead, descriptionPart, hdescription, spaced]
    have hhyphen : ∀ c ∈ [' ', '-', ' '], isLineEnd c = false := by
      have hall : [' ', '-', ' '].all (!isLineEnd ·) = true := by decide
      simpa using hall
    have hlines := openLines_append (List.forall_mem_append.2 ⟨hhead, hhyphen⟩) d.toList
    rw [hwrite, hlines, Option.elim, (h.described d hdescription).1.lines_eq]
    exact ⟨_, rfl⟩

/-- A written tag is a passage of lines. -/
theorem isPassage_writeTag (h : IsWritableTag t) : IsPassage (writeTag t) := by
  refine ⟨h.isSolid_writeTag, fun c hc hend => ?_⟩
  have hwrite : writeTag t = writeHead t ++ spaced (descriptionPart t) := by
    simp [writeTag, writeHead, spaced]
  rw [hwrite] at hc
  rcases List.mem_append.1 hc with hc | hc
  · rw [h.isLineEnd_writeHead c hc] at hend
    cases hend
  · obtain ⟨p, hp, hc⟩ := List.mem_flatMap.1 hc
    obtain ⟨d, hd, rfl⟩ := List.mem_map.1 hp
    have hline := (h.described d (Option.mem_toList.1 hd)).1.lineEnds
    simp only [List.mem_cons] at hc
    rcases hc with rfl | rfl | rfl | hc
    · cases hend
    · cases hend
    · cases hend
    · exact hline c hc hend

/-- Only the first line of a written tag opens a section. -/
theorem lines_writeTag (h : IsWritableTag t) : ∃ first more,
    lines (writeTag t) = ('@' :: first) :: more ∧ ∀ line ∈ more, opensSection line = false := by
  obtain ⟨first, hlines⟩ := h.openLines_writeTag
  refine ⟨first, _, h.isPassage_writeTag.lines_eq.trans hlines, ?_⟩
  cases hdescription : t.description with
  | none => exact List.forall_mem_nil _
  | some d => exact (h.described d hdescription).2

end IsWritableTag

end ApiDoc.Comment
