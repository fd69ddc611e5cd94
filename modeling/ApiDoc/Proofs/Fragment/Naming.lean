import ApiDoc.Fragment
import ApiDoc.Proofs.Comment.TypeText
import ApiDoc.Proofs.Comment.Writing
import ApiDoc.Proofs.TypeExpr.Schema

/-!
# Names of definitions

A comment with a typedef tag stores a definition under its name. Other tags refer to it by the same
name, with the suffix `model` or without it: as the type of a parameter, a response or a property,
as the type of the items of a list, or as what another definition builds on. All of them agree:
`Comment.IsDefinitionName.references_agree`.
-/

namespace ApiDoc

open Text

/-! ## Lists of a named type -/

namespace TypeExpr

variable {t : List Char}

/-- A bare name is one token. -/
theorem IsBareName.lexesAs_ofList (h : IsBareName (String.ofList t)) : LexesAs t [.word t] := by
  have hlexes := h.lexesAs
  rwa [String.toList_ofList] at hlexes

/-- A bare name is a type by itself. -/
theorem IsBareName.derives_ofList (h : IsBareName (String.ofList t)) :
    Derives .member [.word t] (.named (String.ofList t)) := by
  obtain ⟨hstarts, -, hlast⟩ := h
  rw [String.toList_ofList] at hstarts
  exact .bare (.named ⟨hstarts, 0, by simp, hlast⟩)

/-- A list that is written with brackets. -/
theorem parse_brackets (h : IsBareName (String.ofList t)) :
    parse (t ++ "[]".toList) = .ok (.applied "Array" [.named (String.ofList t)]) := by
  have hlist : LexesAs (t ++ "[]".toList) ([.word t] ++ [.openBracket, .closeBracket]) :=
    h.lexesAs_ofList.append_sign rfl (lexesAs_nil.cons_sign rfl)
  exact hlist.parse_eq (by simp) h.derives_ofList.array.alone

/-- A list that is written with a dot behind its container. The dot belongs to the word in front of
it. -/
theorem parse_dotted (h : IsBareName (String.ofList t)) :
    parse ("Array.<".toList ++ t ++ ">".toList) =
      .ok (.applied "Array" [.named (String.ofList t)]) := by
  have hword : LexesAs "Array.".toList [.word "Array.".toList] :=
    lexesAs_word (by decide) (List.all_eq_true.1 (by decide))
  have hname : IsName "Array.".toList "Array" := ⟨by decide, 1, by decide, by decide⟩
  have hlist := hword.append_sign (c := '<') rfl
    (h.lexesAs_ofList.append_sign (c := '>') rfl lexesAs_nil)
  have harguments :
      ∀ p ∈ [([Token.word t], TypeExpr.named (String.ofList t))], Derives .union p.1 p.2 :=
    List.forall_mem_singleton.2 h.derives_ofList.alone
  have hderives : Derives .primary _ (.applied "Array" [.named (String.ofList t)]) :=
    .applied hname (List.mem_cons_of_mem Token.dotLess (List.mem_singleton.2 rfl)) harguments
  exact hlist.parse_eq (by simp) hderives.bare.alone

end TypeExpr

namespace Comment

open TypeExpr

/-! ## Comments of one line -/

/-- A comment on one line. -/
def oneLine (s : List Char) : List Char := Cut.source (' ' :: (s ++ [' ']))

/-- The texts of the sections of a comment. -/
def sectionTexts (content : List Char) : List (List Char) := (sections (lines (unwrap content))).2

/-- The tags of a comment are those that its sections are read as. -/
theorem tags_block (content : List Char) :
    (block content).tags = (sectionTexts content).filterMap readTag? := by
  rw [block, titledSections, List.map_filterMap]
  rfl

/-- A comment on one line has no decoration but spaces. -/
theorem unwrap_oneLine {s : List Char} (hs : IsSolid ('@' :: s))
    (hline : ∀ c ∈ s, isLineEnd c = false) : unwrap (' ' :: ('@' :: s ++ [' '])) = '@' :: s := by
  have hcontent : ∀ c ∈ ' ' :: ('@' :: s ++ [' ']), isLineEnd c = false := by
    rw [List.forall_mem_cons, List.forall_mem_append, List.forall_mem_cons]
    exact ⟨by decide, ⟨by decide, hline⟩, List.forall_mem_singleton.2 (by decide)⟩
  have hlines : lines (' ' :: ('@' :: s ++ [' '])) = [' ' :: ('@' :: s ++ [' '])] :=
    lines_unlines (List.forall_mem_singleton.2 hcontent) (by simp)
  have hstrip : stripLine (' ' :: ('@' :: s ++ [' '])) = [] ++ '@' :: s ++ [' '] := rfl
  rw [unwrap, hlines, List.map_singleton, hstrip]
  exact hs.toIsTrimmed.trim_append (List.forall_mem_nil _)
    (List.forall_mem_singleton.2 (by decide))

/-- A comment on one line has one section and no description. -/
theorem sections_oneLine {s : List Char} (hs : IsSolid ('@' :: s))
    (hline : ∀ c ∈ s, isLineEnd c = false) :
    sections (lines (unwrap (' ' :: ('@' :: s ++ [' '])))) = ([], ['@' :: s]) := by
  have hlines : lines ('@' :: s) = ['@' :: s] :=
    lines_unlines (List.forall_mem_singleton.2 (List.forall_mem_cons.2 ⟨by decide, hline⟩))
      (by simp)
  rw [unwrap_oneLine hs hline, hlines]
  rfl

/-- Spaces around a text close no comment. -/
theorem unclosed_oneLine {s : List Char} (h : ¬ closingMark <:+: s) :
    ¬ closingMark <:+: ' ' :: (s ++ [' ']) := by
  have hspace : ' ' ∉ closingMark := by decide
  intro hclosing
  have hcontent : closingMark <:+: [] ++ ' ' :: (s ++ [' ']) := hclosing
  rcases infix_of_infix_append_cons hspace hcontent with hfront | hbehind
  · exact absurd (slash_mem hfront) List.not_mem_nil
  · rcases infix_of_infix_append_cons hspace hbehind with hs | hend
    · exact h hs
    · exact absurd (slash_mem hend) List.not_mem_nil

/-- A tag without a description is read from a comment of one line. -/
theorem IsWritableTag.blocks_oneLine {t : Tag} (h : IsWritableTag t)
    (hdescription : t.description = none) (hname : ∀ n ∈ t.name, ¬ closingMark <:+: n.toList) :
    blocks (oneLine (writeTag t)) =
      [{ tags := [t], source := String.ofList (oneLine (writeTag t)) }] := by
  have hhead : writeHead t = writeTag t := by
    simp [writeHead, writeTag, descriptionPart, hdescription]
  have hline : ∀ c ∈ writeTag t, isLineEnd c = false := hhead ▸ h.isLineEnd_writeHead
  have hunclosed : ¬ closingMark <:+: writeTag t :=
    h.unclosed_writeTag hname (by simp [hdescription])
  have hsections : sections (lines (unwrap (' ' :: (writeTag t ++ [' '])))) = ([], [writeTag t]) :=
    sections_oneLine h.isSolid_writeTag (List.forall_mem_cons.1 hline).2
  have hread : readTag? (writeTag t) = some t := by
    rw [readTag?, h.ofText?_writeTag, Option.map_some, h.tag_eq]
  have htags : (titledSections (' ' :: (writeTag t ++ [' ']))).map Section.tag = [t] := by
    rw [titledSections, hsections, List.map_filterMap]
    exact List.filterMap_cons_some hread
  rw [blocks, oneLine, contents_source (unclosed_oneLine hunclosed), List.map_singleton, block,
    htags, hsections]
  rfl

/-- A typedef tag without a description. -/
def typedefTag (name : List Char) (type : Option TypeExpr) : Tag where
  title := "typedef"
  name := some (String.ofList name)
  type := type

/-- A typedef with a plain name and a well-formed type can be written. -/
theorem isWritableTag_typedefTag {name : List Char} {type : Option TypeExpr}
    (hname : IsPlainName name) (htype : ∀ e ∈ type, e.WellFormed)
    (hbrace : type = none → name.head? ≠ some '\x7b') : IsWritableTag (typedefTag name type) := by
  have htyped : "typedef" ∈ typedTitles := by decide
  have hnamed : "typedef" ∈ namedTitles := by decide
  have htitle : IsTitle "typedef" := by decide
  refine ⟨htitle, fun e he => ⟨htyped, htype e he⟩, ?_, ?_, ?_, fun _ _ => rfl⟩
  · rintro n ⟨⟩
    rw [String.toList_ofList]
    exact ⟨hnamed, hname⟩
  · rintro hnone n ⟨⟩
    rw [String.toList_ofList]
    exact hbrace hnone
  · rintro d ⟨⟩

/-- A typedef comment of one line stores a definition under the name that is written in it. -/
theorem IsWritableTag.blocks_typedefTag {name : List Char} {type : Option TypeExpr}
    (h : IsWritableTag (typedefTag name type)) (hclosed : ¬ closingMark <:+: name)
    (markOf : String → Option Mark) :
    (blocks (oneLine (writeTag (typedefTag name type)))).map (Fragment.ofBlock markOf) =
      [.ok { definitions := [(String.ofList name, ⟨baseOf (typedefTag name type), [], []⟩)] }] := by
  have hunclosed : ∀ n ∈ (typedefTag name type).name, ¬ closingMark <:+: n.toList := by
    rintro n ⟨⟩
    rwa [String.toList_ofList]
  have hplain := (h.named _ rfl).2.ne_nil
  have hname : nonempty? (typedefTag name type).name = some (String.ofList name) :=
    nonempty?_eq_some_iff.2 ⟨rfl, by simpa using hplain⟩
  have htitle : TagKind.ofTitle? "typedef" = some .typedef := by decide
  have hkind : (typedefTag name type).kind? = some .typedef := htitle
  rw [h.blocks_oneLine rfl hunclosed, List.map_singleton, Fragment.ofBlock]
  simp only [hkind, Definition.ofTags, hname]
  rfl

end Comment

/-! ## What a tag says -/

/-- Whether a tag declares a parameter, a response or a property, the schema of it is that value. -/
structure Tag.HasSchema (tag : Tag) (v : Value) : Prop where
  parameter : (Parameter.ofTag tag).toValue.field? "schema" = some v
  response : ∀ headers, (Response.ofTag headers tag).2.toValue.field? "schema" = some v
  property : ∀ readOnly, (Property.ofTag readOnly tag).toValue = v

/-- A response is written with the schema that it has. -/
theorem Response.field?_schema (r : Response) :
    r.toValue.field? "schema" = r.schema.map Schema.toValue := by
  obtain ⟨description, headers, schema⟩ := r
  cases headers <;> cases schema <;> rfl

/-- Whatever a tag with a schema declares has that schema. -/
theorem Tag.hasSchema_of_schemaOf? {tag : Tag} {s : Schema} (h : schemaOf? tag.type = some s) :
    tag.HasSchema s.toValue where
  parameter := by
    rw [Parameter.ofTag, ParameterShape.ofTag, h]
    cases tag.description <;> rfl
  response headers := by
    have hschema : (Response.ofTag headers tag).2.schema = some s := h
    rw [Response.field?_schema, hschema, Option.map_some]
  property readOnly := by
    rw [Property.ofTag, h]
    rfl

namespace Comment

open TypeExpr

/-! ## Names -/

/-- A name that definitions are stored under and that types can name: it has no dots, and in lower
case it is no type keyword. -/
structure IsDefinitionName (n : List Char) : Prop where
  starts : startsName n = true
  chars : ∀ c ∈ n, isWord c = true ∨ c = '$' ∨ c = '-'
  keyword : lower (String.ofList n) ∉ typeKeywords

instance (n : List Char) : Decidable (IsDefinitionName n) :=
  decidable_of_iff (startsName n = true ∧
      n.all (fun c => isWord c || c == '$' || c == '-') = true ∧
      lower (String.ofList n) ∉ typeKeywords)
    ⟨fun h => ⟨h.1, by simpa [or_assoc] using h.2.1, h.2.2⟩,
      fun h => ⟨h.starts, by simpa [or_assoc] using h.chars, h.keyword⟩⟩

/-- The name with the suffix that tells that it is one of a definition. -/
def modelText (n : List Char) : List Char := n ++ ".model".toList

namespace IsDefinitionName

variable {n t : List Char}

/-- A name of a definition has characters of names only. -/
theorem isNameChar (h : IsDefinitionName n) {c : Char} (hc : c ∈ n) : isNameChar c = true := by
  rcases h.chars c hc with hword | rfl | rfl
  · simp [TypeExpr.isNameChar, hword]
  · decide
  · decide

/-- A name of a definition has no dots. -/
theorem not_mem (h : IsDefinitionName n) : '.' ∉ n := by
  intro hc
  rcases h.chars '.' hc with hword | hdollar | hhyphen
  · exact absurd hword (by decide)
  · exact absurd hdollar (by decide)
  · exact absurd hhyphen (by decide)

/-- A name of a definition is not empty. -/
theorem ne_nil (h : IsDefinitionName n) : n ≠ [] := by
  rintro rfl
  cases h.starts

/-- A name of a definition is a bare name. -/
theorem isBareName (h : IsDefinitionName n) : IsBareName (String.ofList n) where
  starts := by rw [String.toList_ofList]; exact h.starts
  chars c hc := h.isNameChar (by rwa [String.toList_ofList] at hc)
  last hlast := by
    rw [String.toList_ofList] at hlast
    exact h.not_mem (List.mem_of_getLast? hlast)

/-- A name of a definition with the suffix is a bare name. -/
theorem isBareName_modelText (h : IsDefinitionName n) :
    IsBareName (String.ofList (modelText n)) where
  starts := by
    rw [String.toList_ofList]
    obtain ⟨c, rest, rfl⟩ := List.exists_cons_of_ne_nil h.ne_nil
    exact h.starts
  chars := by
    rw [String.toList_ofList, modelText, List.forall_mem_append]
    exact ⟨fun c hc => h.isNameChar hc, List.all_eq_true.1 (by decide)⟩
  last := by
    rw [String.toList_ofList, modelText, List.getLast?_append_of_ne_nil _ (by decide)]
    decide

/-- A name of a definition is plain. -/
theorem isPlainName (h : IsDefinitionName n) : IsPlainName n := by
  refine ⟨h.ne_nil, fun c hc => ⟨isBlank_of_isNameChar (h.isNameChar hc), fun hsign => ?_⟩⟩
  have hsigns : ['[', ']', '='].all (!TypeExpr.isNameChar ·) = true := by decide
  have hnot := List.all_eq_true.1 hsigns c hsign
  simp [h.isNameChar hc] at hnot

/-! ## Types -/

/-- A name of a definition is not the empty text. -/
theorem ofList_ne_empty (h : IsDefinitionName n) : String.ofList n ≠ "" := by
  simpa using h.ne_nil

/-- A name of a definition has no suffix. -/
theorem model?_ofList (h : IsDefinitionName n) : model? (String.ofList n) = none := by
  rw [model?, modelName?_of_not_mem (by rw [String.toList_ofList]; exact h.not_mem)]
  rfl

/-- The suffix of a name is told from the name. -/
theorem model?_modelText (h : IsDefinitionName n) :
    model? (String.ofList (modelText n)) = some (String.ofList n) := by
  have hmodel : IsModelName (String.ofList n) (String.ofList (modelText n)) := by
    rw [IsModelName, String.toList_ofList, String.toList_ofList]
    exact ⟨h.not_mem, [], rfl, .inl rfl⟩
  rw [model?, modelName?_eq_some_iff.2 hmodel]
  exact nonempty?_eq_some_iff.2 ⟨rfl, h.ofList_ne_empty⟩

/-- A name of a definition is no inline type. -/
theorem not_mem_inlineTypes (h : IsDefinitionName n) : lower (String.ofList n) ∉ inlineTypes := by
  have hkeywords : inlineTypes.all (typeKeywords.contains ·) = true := by decide
  intro hinline
  exact h.keyword (List.contains_iff_mem.1 (List.all_eq_true.1 hkeywords _ hinline))

/-- A name with a dot is not kept inline. -/
theorem lower_not_mem_inlineTypes {s : String} (h : '.' ∈ s.toList) : lower s ∉ inlineTypes := by
  have hdots : inlineTypes.all (!·.toList.contains '.') = true := by decide
  intro hinline
  have hnot := List.all_eq_true.1 hdots _ hinline
  simp [dot_mem_lower h] at hnot

/-- A name of a definition is written as a reference to it. -/
theorem leafSchema_ofList (h : IsDefinitionName n) :
    leafSchema (String.ofList n) = .ref (String.ofList n) := by
  rw [leafSchema, if_neg (by simpa using h.not_mem_inlineTypes), h.model?_ofList, Option.getD_none]

/-- A name with the suffix is written as a reference to the name. -/
theorem leafSchema_modelText (h : IsDefinitionName n) :
    leafSchema (String.ofList (modelText n)) = .ref (String.ofList n) := by
  have hdot : '.' ∈ (String.ofList (modelText n)).toList := by simp [modelText]
  rw [leafSchema, if_neg (by simpa using lower_not_mem_inlineTypes hdot), h.model?_modelText,
    Option.getD_some]

/-- Both forms of a name are bare names. -/
theorem isBareName_of_mem (h : IsDefinitionName n) (ht : t ∈ [n, modelText n]) :
    IsBareName (String.ofList t) := by
  rcases List.mem_pair.1 ht with rfl | rfl
  · exact h.isBareName
  · exact h.isBareName_modelText

/-- Both forms of a name are written as a reference to it. -/
theorem leafSchema_of_mem (h : IsDefinitionName n) (ht : t ∈ [n, modelText n]) :
    leafSchema (String.ofList t) = .ref (String.ofList n) := by
  rcases List.mem_pair.1 ht with rfl | rfl
  · exact h.leafSchema_ofList
  · exact h.leafSchema_modelText

/-- Both forms of a name name the same type. -/
theorem namedType_of_mem (h : IsDefinitionName n) (ht : t ∈ [n, modelText n]) :
    namedType (String.ofList t) = String.ofList n := by
  rcases List.mem_pair.1 ht with rfl | rfl
  · rw [namedType, h.model?_ofList, Option.getD_none, if_neg (by simpa using h.keyword)]
  · rw [namedType, h.model?_modelText, Option.getD_some]

/-- Both forms of a name are read as types. -/
theorem parse_of_mem (h : IsDefinitionName n) (ht : t ∈ [n, modelText n]) :
    parse t = .ok (.named (String.ofList t)) := by
  have hprint := (WellFormed.named (h.isBareName_of_mem ht)).parse_print
  rwa [print, String.toList_ofList] at hprint

/-- A list of the type has items that refer to the definition. -/
theorem schema?_list (h : IsDefinitionName n) (ht : t ∈ [n, modelText n]) :
    schema? (.applied "Array" [.named (String.ofList t)]) =
      some (.container "array" (.ref (String.ofList n))) := by
  have hne := (h.isBareName_of_mem ht).ne_empty
  have harray : lower "Array" = "array" := by decide
  rw [schema?_applied (by decide) (List.cons_ne_nil _ _), itemSchema_applied_single (by decide),
    itemSchema_named hne, h.leafSchema_of_mem ht, harray]

/-- A definition with the type builds on the definition. -/
theorem baseOf_eq (h : IsDefinitionName n) (ht : t ∈ [n, modelText n]) {tag : Tag}
    (htype : tag.type = some (.named (String.ofList t))) : baseOf tag = some (String.ofList n) := by
  have hname : nonempty? (some (String.ofList t)) = some (String.ofList t) :=
    nonempty?_eq_some_iff.2 ⟨rfl, (h.isBareName_of_mem ht).ne_empty⟩
  have hbare : bareType (.named (String.ofList t)) = String.ofList n := by
    rw [bareType, typeOfParts, name, hname]
    exact h.namedType_of_mem ht
  rw [baseOf, htype]
  simp only [name, hname, hbare]
  rw [if_neg (by simpa using h.not_mem_inlineTypes)]
  exact nonempty?_eq_some_iff.2 ⟨rfl, h.ofList_ne_empty⟩

end IsDefinitionName

/-! ## References -/

/-- Behind every title that has a type, the text in braces is read as a type with that schema,
whatever stands behind the braces, in every comment where such a section stands. -/
def GivesSchema (text : List Char) (v : Value) : Prop :=
  ∀ title ∈ typedTitles, ∀ behind, ∃ tag, readTag? (typedText title text behind) = some tag ∧
    tag.title = canonicalTitle title ∧ tag.HasSchema v ∧
    ∀ content, typedText title text behind ∈ sectionTexts content → tag ∈ (block content).tags

/-- A character that is neither blank nor a brace. -/
def isInner (c : Char) : Bool := !isBlank c && c != '\x7b' && c != '\x7d'

/-- Characters of names are neither blanks nor braces. -/
theorem isInner_of_isNameChar {c : Char} (h : isNameChar c = true) : isInner c = true := by
  have hopen : c ≠ '\x7b' := by
    rintro rfl
    exact absurd h (by decide)
  have hclose : c ≠ '\x7d' := by
    rintro rfl
    exact absurd h (by decide)
  simp [isInner, isBlank_of_isNameChar h, hopen, hclose]

/-- What a text in braces is read as, if it has no blanks and no braces of its own. -/
theorem givesSchema_of_parse {text : List Char} {e : TypeExpr} {s : Schema}
    (hchars : ∀ c ∈ text, isInner c = true) (hparse : parse text = .ok e)
    (hschema : e.schema? = some s) : GivesSchema text s.toValue := by
  intro title htitle behind
  have hblank : ∀ c ∈ text, isBlank c = false := by
    intro c hc
    have hinner := hchars c hc
    simp only [isInner, Bool.and_eq_true, Bool.not_eq_true'] at hinner
    exact hinner.1.1
  have hbalanced : IsBalanced text :=
    isBalanced_of_not_mem (fun hc => absurd (hchars _ hc) (by decide))
      fun hc => absurd (hchars _ hc) (by decide)
  have htrimmed : IsTrimmed text :=
    ⟨fun c hc => hblank c (List.mem_of_head? hc), fun c hc => hblank c (List.mem_of_getLast? hc)⟩
  have htype : (parse (trim text)).toOption = some e := by
    rw [htrimmed.trim_eq, hparse]
    rfl
  have hread := readTag?_typedText htitle hbalanced behind
  refine ⟨_, hread, rfl, Tag.hasSchema_of_schemaOf? ?_, fun content hcontent => ?_⟩
  · simp only [htype]
    exact hschema
  · rw [tags_block]
    exact List.mem_filterMap.2 ⟨_, hcontent, hread⟩

namespace IsDefinitionName

variable {n t : List Char}

/-- Both forms of a name have neither blanks nor braces. -/
theorem isInner_of_mem (h : IsDefinitionName n) (ht : t ∈ [n, modelText n]) :
    ∀ c ∈ t, isInner c = true := by
  intro c hc
  exact isInner_of_isNameChar ((h.isBareName_of_mem ht).chars c (by rwa [String.toList_ofList]))

/-- A name with the suffix gives a reference. -/
theorem givesSchema_modelText (h : IsDefinitionName n) :
    GivesSchema (modelText n) (Schema.ref (String.ofList n)).toValue := by
  have ht : modelText n ∈ [n, modelText n] := by simp
  have hschema :
      schema? (.named (String.ofList (modelText n))) = some (.ref (String.ofList n)) := by
    rw [schema?, name, schemaOfParts, h.model?_modelText, Option.map_some]
  exact givesSchema_of_parse (h.isInner_of_mem ht) (h.parse_of_mem ht) hschema

/-- An array of a name gives an array of references. -/
theorem givesSchema_dotted (h : IsDefinitionName n) (ht : t ∈ [n, modelText n]) :
    GivesSchema ("Array.<".toList ++ t ++ ">".toList)
      (Schema.container "array" (.ref (String.ofList n))).toValue := by
  refine givesSchema_of_parse ?_ (parse_dotted (h.isBareName_of_mem ht)) (h.schema?_list ht)
  rw [List.forall_mem_append, List.forall_mem_append]
  exact ⟨⟨List.all_eq_true.1 (by decide), h.isInner_of_mem ht⟩, List.all_eq_true.1 (by decide)⟩

/-- A name with brackets behind it gives an array of references. -/
theorem givesSchema_brackets (h : IsDefinitionName n) (ht : t ∈ [n, modelText n]) :
    GivesSchema (t ++ "[]".toList)
      (Schema.container "array" (.ref (String.ofList n))).toValue := by
  refine givesSchema_of_parse ?_ (parse_brackets (h.isBareName_of_mem ht)) (h.schema?_list ht)
  rw [List.forall_mem_append]
  exact ⟨h.isInner_of_mem ht, List.all_eq_true.1 (by decide)⟩

/-! ## Definitions -/

/-- The definition of a comment that names nothing else. -/
theorem exists_definition (h : IsDefinitionName n) (markOf : String → Option Mark) :
    ∃ d, (blocks (oneLine ("@typedef ".toList ++ n))).map (Fragment.ofBlock markOf) =
      [.ok { definitions := [(String.ofList n, d)] }] := by
  have hbrace : n.head? ≠ some '\x7b' := fun hhead =>
    absurd (h.isNameChar (List.mem_of_head? hhead)) (by decide)
  have htag : IsWritableTag (typedefTag n none) :=
    isWritableTag_typedefTag h.isPlainName (by rintro e ⟨⟩) fun _ => hbrace
  have htext : writeTag (typedefTag n none) = "@typedef ".toList ++ n := by
    simp [writeTag, typedefTag, spaced, typePart, namePart, descriptionPart]
  have hclosed : ¬ closingMark <:+: n := fun hclosing =>
    absurd (h.isNameChar (slash_mem hclosing)) (by decide)
  exact ⟨_, htext ▸ htag.blocks_typedefTag hclosed markOf⟩

/-- The definition of a comment that names a type too. -/
theorem exists_extension (h : IsDefinitionName n) (ht : t ∈ [n, modelText n]) {m : List Char}
    (hm : IsPlainName m) (hclosed : ¬ closingMark <:+: m) (markOf : String → Option Mark) :
    ∃ d, (blocks (oneLine (typedText "typedef" t (' ' :: m)))).map (Fragment.ofBlock markOf) =
        [.ok { definitions := [(String.ofList m, d)] }] ∧
      d.toValue.field? "allOf" = some (.array [definitionRef (String.ofList n)]) := by
  have htag : IsWritableTag (typedefTag m (some (.named (String.ofList t)))) := by
    refine isWritableTag_typedefTag hm ?_ (by rintro ⟨⟩)
    rintro e ⟨⟩
    exact .named (h.isBareName_of_mem ht)
  have htext : writeTag (typedefTag m (some (.named (String.ofList t)))) =
      typedText "typedef" t (' ' :: m) := by
    simp [writeTag, typedefTag, typedText, spaced, typePart, namePart, descriptionPart, print]
  have hblocks := htag.blocks_typedefTag hclosed markOf
  rw [htext, h.baseOf_eq ht rfl] at hblocks
  exact ⟨_, hblocks, rfl⟩

/-- The key of a definition and all references to it have the same name: those from a parameter, a
response or a property, from the items of a list, and from a definition that builds on it. -/
theorem references_agree (h : IsDefinitionName n) (markOf : String → Option Mark) :
    (∃ d, (blocks (oneLine ("@typedef ".toList ++ n))).map (Fragment.ofBlock markOf) =
      [.ok { definitions := [(String.ofList n, d)] }]) ∧
    GivesSchema (modelText n) (definitionRef (String.ofList n)) ∧
    ∀ t ∈ [n, modelText n],
      GivesSchema ("Array.<".toList ++ t ++ ">".toList)
        (.record [("type", .text "array"), ("items", definitionRef (String.ofList n))]) ∧
      GivesSchema (t ++ "[]".toList)
        (.record [("type", .text "array"), ("items", definitionRef (String.ofList n))]) ∧
      ∀ m, IsPlainName m → ¬ closingMark <:+: m →
        ∃ d, (blocks (oneLine (typedText "typedef" t (' ' :: m)))).map (Fragment.ofBlock markOf) =
            [.ok { definitions := [(String.ofList m, d)] }] ∧
          d.toValue.field? "allOf" = some (.array [definitionRef (String.ofList n)]) :=
  ⟨h.exists_definition markOf, h.givesSchema_modelText, fun _ ht =>
    ⟨h.givesSchema_dotted ht, h.givesSchema_brackets ht, fun _ hm hclosed =>
      h.exists_extension ht hm hclosed markOf⟩⟩

/-- A name with a dollar sign, a hyphen and a type keyword in it. -/
theorem references_agree_dollar :
    (∃ d, (blocks "/** @typedef $my-String */".toList).map (Fragment.ofBlock fun _ => none) =
      [.ok { definitions := [("$my-String", d)] }]) ∧
    (∃ tag, readTag? "@returns \x7b$my-String.model\x7d".toList = some tag ∧
      tag.title = "returns" ∧ tag.HasSchema (definitionRef "$my-String")) ∧
    (∃ tag, readTag? "@param \x7b$my-String[]\x7d names.body - Names".toList = some tag ∧
      tag.title = "param" ∧
      tag.HasSchema (.record [("type", .text "array"), ("items", definitionRef "$my-String")])) ∧
    ∃ d, (blocks "/** @typedef \x7b$my-String.model\x7d Pet */".toList).map
          (Fragment.ofBlock fun _ => none) =
        [.ok { definitions := [("Pet", d)] }] ∧
      d.toValue.field? "allOf" = some (.array [definitionRef "$my-String"]) := by
  have h : IsDefinitionName "$my-String".toList := by decide +kernel
  have hmodel : modelText "$my-String".toList = "$my-String.model".toList := by decide
  obtain ⟨hdefinition, hschema, hreferences⟩ := references_agree h fun _ => none
  rw [hmodel] at hschema
  rw [hmodel, List.forall_mem_cons, List.forall_mem_singleton] at hreferences
  obtain ⟨⟨-, hlist, -⟩, -, -, hextension⟩ := hreferences
  obtain ⟨tag, hread, htitle, hitems, -⟩ := hlist "param" (by decide) " names.body - Names".toList
  obtain ⟨tag', hread', htitle', hmodel', -⟩ := hschema "returns" (by decide) []
  have hreturns : typedText "returns" "$my-String.model".toList [] =
      "@returns \x7b$my-String.model\x7d".toList := by decide
  have hparam : typedText "param" ("$my-String".toList ++ "[]".toList)
      " names.body - Names".toList =
        "@param \x7b$my-String[]\x7d names.body - Names".toList := by decide
  have hbase : oneLine (typedText "typedef" "$my-String.model".toList " Pet".toList) =
      "/** @typedef \x7b$my-String.model\x7d Pet */".toList := by decide
  have halone : oneLine ("@typedef ".toList ++ "$my-String".toList) =
      "/** @typedef $my-String */".toList := by decide
  rw [hparam] at hread
  rw [hreturns] at hread'
  rw [← halone, ← hbase]
  exact ⟨hdefinition, ⟨tag', hread', htitle', hmodel'⟩, ⟨tag, hread, htitle, hitems⟩,
    hextension "Pet".toList (by decide) (by decide)⟩

end IsDefinitionName

end Comment

end ApiDoc
