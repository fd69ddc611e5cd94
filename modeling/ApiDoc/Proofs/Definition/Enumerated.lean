import ApiDoc.Definition
import ApiDoc.Proofs.Tag.Enumeration

/-!
# Enumerations in parameters and properties

A parameter reads its enumeration from the whole description. A property first takes the example out
of the description, and reads the enumeration from the example with a marker put in front of it
again. Both come to the same enumeration (`enumerations_agree`): the marker that is put in front is
found as the first one, whatever markers the example has, and trimming the example once or twice is
the same.
-/

namespace ApiDoc

open Text

/-! ## Examples -/

/-- The example of a text: what stands behind the first marker, if that is not blank. -/
def exampleOf? (s : List Char) : Option (List Char) :=
  ((splitExample s).2.map trim).filter (!·.isEmpty)

/-- An example is trimmed and not empty. -/
theorem isSolid_of_exampleOf? {s t : List Char} (h : exampleOf? s = some t) : IsSolid t := by
  obtain ⟨hmap, hne⟩ := Option.filter_eq_some_iff.1 h
  obtain ⟨tail, -, rfl⟩ := Option.map_eq_some_iff.1 hmap
  exact ⟨isTrimmed_trim tail, by simpa using hne⟩

/-- A marker in front of an example is the first one, and the example stands behind it. -/
theorem exampleOf?_marker {t : List Char} (ht : IsSolid t) :
    exampleOf? ("-eg:".toList ++ t) = some t := by
  have hmarker : afterMarker? ('-' :: ([] ++ 'e' :: 'g' :: ':' :: t)) = some (trimStart t) :=
    afterMarker?_hyphen (List.forall_mem_nil _) t
  have hcut : splitExample ("-eg:".toList ++ t) = ([], some (trimStart t)) := by
    have htext : "-eg:".toList ++ t = '-' :: ([] ++ 'e' :: 'g' :: ':' :: t) := rfl
    rw [htext, splitExample, hmarker]
  rw [exampleOf?, hcut, Option.map_some, trim_trimStart, ht.toIsTrimmed.trim_eq]
  exact Option.filter_some_pos (by simpa using ht.ne_nil)

namespace Enumeration

/-- The enumeration of a text is that of its example. -/
theorem ofText_eq (s : List Char) : ofText s = (exampleOf? s).elim ⟨"string", none⟩ ofList := by
  rw [ofText, exampleOf?]
  obtain ⟨before, tail⟩ := splitExample s
  cases tail with
  | none => rfl
  | some tail =>
    simp only [Option.map_some]
    cases htrim : trim tail with
    | nil => rfl
    | cons c rest => rfl

/-- The example with a marker in front of it has the enumeration of the whole text. -/
theorem ofText_marker (s : List Char) :
    ((exampleOf? s).elim ⟨"string", none⟩ fun t => ofText ("-eg:".toList ++ t)) = ofText s := by
  rw [ofText_eq s]
  cases hexample : exampleOf? s with
  | none => rfl
  | some t =>
    have ht : IsSolid t := isSolid_of_exampleOf? hexample
    simp only [Option.elim_some]
    rw [ofText_eq, exampleOf?_marker ht, Option.elim_some]

end Enumeration

/-! ## Parameters and properties -/

/-- A value shows the type of an enumeration, and its values just if there are any. -/
structure Value.Enumerates (v : Value) (e : Enumeration) : Prop where
  type : v.field? "type" = some (.text e.type)
  values : v.field? "enum" = e.values.map textsValue

variable {tag : Tag}

/-- A parameter with an enumeration is written with its values. -/
theorem Parameter.bare_enumerates (field : FieldName) (description : Option String)
    (e : Enumeration) : (Parameter.mk field description (.bare e)).toValue.Enumerates e := by
  obtain ⟨type, values⟩ := e
  cases description <;> cases values <;> exact ⟨rfl, rfl⟩

/-- A property with the values of an enumeration is written with them. -/
theorem Property.bare_enumerates (description : String) (items : Option Schema) (readOnly : Bool)
    (e : Enumeration) :
    (Property.bare e.type description items readOnly
      (e.values.map .enum)).toValue.Enumerates e := by
  obtain ⟨type, values⟩ := e
  cases items <;> cases readOnly <;> cases values <;> exact ⟨rfl, rfl⟩

/-- A parameter tag of the type `enum` takes its enumeration from its text. -/
theorem Parameter.ofTag_of_enum (hschema : schemaOf? tag.type = none)
    (henum : bareTypeOf tag.type = "enum") :
    Parameter.ofTag tag = ⟨.ofTag tag, tag.description, .bare (.ofText tag.text)⟩ := by
  simp [ofTag, ParameterShape.ofTag, hschema, henum]

/-- A property of an enumerated type has the enumeration of its whole description. -/
theorem Property.ofTag_of_enum (hschema : schemaOf? tag.type = none)
    (henum : bareTypeOf tag.type = "enum") (readOnly : Bool) :
    Property.ofTag readOnly tag =
      .bare (Enumeration.ofText tag.text).type (String.ofList (trim (splitExample tag.text).1))
        (firstItemOf? tag.type) readOnly ((Enumeration.ofText tag.text).values.map .enum) := by
  have hmarker := Enumeration.ofText_marker tag.text
  rw [exampleOf?] at hmarker
  rw [ofTag, hschema]
  simp only [henum, beq_self_eq_true, if_true, hmarker]

/-- A parameter and a property with one description and one type that is a bare `enum` show the same
type and the same values, or neither shows values: what the description says as a whole. -/
theorem enumerations_agree {p q : Tag} (hdescription : p.description = q.description)
    (htype : p.type = q.type) (hschema : schemaOf? p.type = none)
    (henum : bareTypeOf p.type = "enum") (readOnly : Bool) :
    (Parameter.ofTag p).toValue.field? "type" = (Property.ofTag readOnly q).toValue.field? "type" ∧
      (Parameter.ofTag p).toValue.field? "enum" =
        (Property.ofTag readOnly q).toValue.field? "enum" ∧
      (Parameter.ofTag p).toValue.Enumerates (.ofText p.text) := by
  have htext : q.text = p.text := by rw [Tag.text, Tag.text, hdescription]
  have hp : (Parameter.ofTag p).toValue.Enumerates (.ofText p.text) := by
    rw [Parameter.ofTag_of_enum hschema henum]
    exact Parameter.bare_enumerates _ _ _
  have hq : (Property.ofTag readOnly q).toValue.Enumerates (.ofText p.text) := by
    rw [Property.ofTag_of_enum (htype ▸ hschema) (htype ▸ henum), htext]
    exact Property.bare_enumerates _ _ _ _
  exact ⟨hp.type.trans hq.type.symm, hp.values.trans hq.values.symm, hp⟩

/-- The description has two markers and blanks around its example. -/
theorem enumerations_agree_twoMarkers :
    let type := TypeExpr.named "enum"
    let description := "Level -eg:  size: - eg: 1 , 2 "
    let p : Tag := ⟨"param", some "level.query", some description, some type⟩
    let q : Tag := ⟨"property", some "level.required", some description, some type⟩
    (Parameter.ofTag p).toValue.field? "type" = (Property.ofTag true q).toValue.field? "type" ∧
      (Parameter.ofTag p).toValue.field? "enum" = (Property.ofTag true q).toValue.field? "enum" ∧
      (Parameter.ofTag p).toValue.Enumerates ⟨"size", some ["- eg: 1", "2"]⟩ := by
  intro type description p q
  have htext : Enumeration.ofText p.text = ⟨"size", some ["- eg: 1", "2"]⟩ := by decide +kernel
  have hschema : (schemaOf? p.type).isNone = true := by decide +kernel
  rw [← htext]
  exact enumerations_agree rfl rfl (Option.isNone_iff_eq_none.1 hschema) (by decide +kernel) true

end ApiDoc
