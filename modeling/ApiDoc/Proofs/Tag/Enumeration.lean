import ApiDoc.Proofs.Text.Lines
import ApiDoc.Proofs.Text.Split
import ApiDoc.Tag.Parameter

/-!
# Enumerations, written and read

An enumeration is written behind a description, as in `Level - eg: integer:1,2`, and read from there
again: `Enumeration.ofText_withExample`. The description may hold hyphens, colons and parts of a
marker, but no whole marker, because the text is cut at the first one. The values may hold markers,
and if a type stands in front of them also colons.
-/

namespace ApiDoc

open Text

variable {p s t : List Char} {c : Char}

/-! ## Markers -/

/-- An example marker occurs in a text: a hyphen, perhaps blanks, and `eg:`. -/
def HasMarker (s : List Char) : Prop :=
  ∃ before blanks after, (∀ c ∈ blanks, isBlank c = true) ∧
    s = before ++ '-' :: (blanks ++ 'e' :: 'g' :: ':' :: after)

/-- A marker starts with a hyphen. -/
theorem afterMarker?_of_ne (h : c ≠ '-') (s : List Char) : afterMarker? (c :: s) = none := by
  unfold afterMarker?
  split
  · next heq => exact absurd (List.cons.inj heq).1 h
  · rfl

/-- A hyphen, blanks and `eg:` are a marker. -/
theorem afterMarker?_hyphen {blanks : List Char} (h : ∀ c ∈ blanks, isBlank c = true)
    (after : List Char) :
    afterMarker? ('-' :: (blanks ++ 'e' :: 'g' :: ':' :: after)) = some (trimStart after) := by
  have hstart : trimStart ('e' :: 'g' :: ':' :: after) = 'e' :: 'g' :: ':' :: after := rfl
  rw [afterMarker?, trimStart_append h, hstart]
  rfl

/-- What a marker in front of a text consists of. -/
theorem exists_of_afterMarker? {tail : List Char} (h : afterMarker? s = some tail) :
    ∃ blanks after, (∀ c ∈ blanks, isBlank c = true) ∧
      s = '-' :: (blanks ++ 'e' :: 'g' :: ':' :: after) := by
  unfold afterMarker? at h
  split at h
  · next rest =>
    split at h
    · next after hrest =>
      refine ⟨rest.takeWhile isBlank, after, fun c hc => List.mem_takeWhile_imp hc, ?_⟩
      rw [← hrest, takeWhile_append_trimStart]
    · cases h
  · cases h

/-- Behind a hyphen there is a marker just if `eg:` comes after the blanks. -/
theorem isSome_afterMarker?_iff :
    (afterMarker? ('-' :: s)).isSome = true ↔ ['e', 'g', ':'] <+: trimStart s := by
  constructor
  · intro h
    obtain ⟨tail, htail⟩ := Option.isSome_iff_exists.1 h
    obtain ⟨blanks, after, hblanks, heq⟩ := exists_of_afterMarker? htail
    obtain ⟨-, rfl⟩ := List.cons.inj heq
    rw [trimStart_append hblanks]
    exact List.prefix_append ['e', 'g', ':'] after
  · rintro ⟨after, hafter⟩
    have hblanks : ∀ c ∈ s.takeWhile isBlank, isBlank c = true :=
      fun c hc => List.mem_takeWhile_imp hc
    have hs : s.takeWhile isBlank ++ 'e' :: 'g' :: ':' :: after = s := by
      rw [show 'e' :: 'g' :: ':' :: after = trimStart s from hafter, takeWhile_append_trimStart]
    rw [← hs, afterMarker?_hyphen hblanks]
    rfl

/-- A marker in a text starts it or occurs behind its first character. -/
theorem hasMarker_cons_iff :
    HasMarker (c :: s) ↔ (afterMarker? (c :: s)).isSome = true ∨ HasMarker s := by
  constructor
  · rintro ⟨before, blanks, after, hblanks, heq⟩
    cases before with
    | nil =>
      rw [heq, List.nil_append, afterMarker?_hyphen hblanks]
      exact .inl rfl
    | cons d before =>
      obtain ⟨-, rfl⟩ := List.cons.inj heq
      exact .inr ⟨before, blanks, after, hblanks, rfl⟩
  · rintro (h | ⟨before, blanks, after, hblanks, rfl⟩)
    · obtain ⟨tail, htail⟩ := Option.isSome_iff_exists.1 h
      obtain ⟨blanks, after, hblanks, heq⟩ := exists_of_afterMarker? htail
      exact ⟨[], blanks, after, hblanks, heq⟩
    · exact ⟨c :: before, blanks, after, hblanks, rfl⟩

/-- There is an example exactly if there is a marker. -/
theorem isSome_splitExample_iff : (splitExample s).2.isSome = true ↔ HasMarker s := by
  induction s with
  | nil =>
    refine ⟨fun h => absurd h Bool.false_ne_true, ?_⟩
    rintro ⟨before, blanks, after, -, heq⟩
    simp at heq
  | cons c s ih =>
    rw [hasMarker_cons_iff, ← ih, splitExample]
    cases hmarker : afterMarker? (c :: s) with
    | some tail => simp
    | none => simp

instance (s : List Char) : Decidable (HasMarker s) :=
  decidable_of_iff ((splitExample s).2.isSome = true) isSome_splitExample_iff

/-! ## The first marker -/

/-- A text that is put behind another one does not complete a marker, if it starts with a space and
its first character that is not blank is a hyphen. -/
theorem afterMarker?_append (h : afterMarker? (c :: s) = none) {rest : List Char}
    (ht : trimStart t = '-' :: rest) : afterMarker? (c :: (s ++ ' ' :: t)) = none := by
  by_cases hc : c = '-'
  · subst hc
    rw [← Option.not_isSome_iff_eq_none, isSome_afterMarker?_iff] at h ⊢
    intro hprefix
    cases hstart : trimStart s with
    | nil =>
      -- only blanks stand between the two hyphens
      have hblanks : ∀ c ∈ s, isBlank c = true := List.dropWhile_eq_nil_iff.1 hstart
      have hspace : trimStart (' ' :: t) = trimStart t := rfl
      rw [trimStart_append hblanks, hspace, ht, List.cons_prefix_cons] at hprefix
      exact absurd hprefix.1 (by decide)
    | cons d more =>
      rw [trimStart_append_of_eq_cons hstart, ← List.cons_append, ← hstart] at hprefix
      exact h (prefix_of_prefix_append_cons (by decide) hprefix)
  · exact afterMarker?_of_ne hc _

/-- A text without markers belongs to what stands in front of the first marker behind it. -/
theorem splitExample_append (hp : ¬ HasMarker p) {rest : List Char}
    (ht : trimStart t = '-' :: rest) :
    splitExample (p ++ ' ' :: t) =
      (p ++ (splitExample (' ' :: t)).1, (splitExample (' ' :: t)).2) := by
  induction p with
  | nil => rfl
  | cons c p ih =>
    rw [hasMarker_cons_iff, not_or, Option.not_isSome_iff_eq_none] at hp
    obtain ⟨hstart, hp⟩ := hp
    rw [List.cons_append, splitExample, afterMarker?_append hstart ht, ih hp]
    rfl

/-- A text with an example behind it. -/
def withExample (p spec : List Char) : List Char := p ++ " - eg: ".toList ++ spec

/-- The example is found behind the marker that it is written with. -/
theorem splitExample_withExample (hp : ¬ HasMarker p) (spec : List Char) :
    splitExample (withExample p spec) = (p ++ [' '], some (trimStart spec)) := by
  have htext : withExample p spec =
      p ++ ' ' :: '-' :: ([' '] ++ 'e' :: 'g' :: ':' :: ' ' :: spec) := by simp [withExample]
  have hblank : ∀ c ∈ [' '], isBlank c = true := List.forall_mem_singleton.2 (by decide)
  have hcut : splitExample (' ' :: '-' :: ([' '] ++ 'e' :: 'g' :: ':' :: ' ' :: spec)) =
      ([' '], some (trimStart spec)) := by
    rw [splitExample, afterMarker?_of_ne (by decide), splitExample, afterMarker?_hyphen hblank]
    rfl
  rw [htext, splitExample_append hp rfl, hcut]

/-! ## Values -/

variable {values : List (List Char)}

namespace Enumeration

/-- The values that a list with commas is read as. -/
theorem map_trim_splitAll (hne : values ≠ []) (h : ∀ v ∈ values, IsTrimmed v ∧ ',' ∉ v) :
    ((splitAll ',' (join [','] values)).map fun v => String.ofList (trim v)) =
      values.map String.ofList := by
  rw [splitAll_join hne fun v hv => (h v hv).2]
  exact List.map_congr_left fun v hv => by rw [(h v hv).1.trim_eq]

/-- A trimmed text behind a marker is read as a list of values. -/
theorem ofText_withExample_eq (hp : ¬ HasMarker p) {spec : List Char} (hspec : IsSolid spec) :
    ofText (withExample p spec) = ofList spec := by
  rw [ofText, splitExample_withExample hp]
  simp only
  rw [trim_trimStart, hspec.toIsTrimmed.trim_eq]
  obtain ⟨c, rest, rfl⟩ := List.exists_cons_of_ne_nil hspec.ne_nil
  rfl

/-- A type in front of a colon is that of the values behind it. -/
theorem ofList_typed (ht : IsSolid t) (hcolon : ':' ∉ t) (values : List Char) :
    ofList (t ++ ':' :: values) = ⟨String.ofList t,
      some ((splitAll ',' values).map fun v => String.ofList (trim v))⟩ := by
  rw [ofList, splitFirst_append hcolon]
  simp only [ht.toIsTrimmed.trim_eq]
  have hne : t.isEmpty = false := List.isEmpty_eq_false_iff.2 ht.ne_nil
  rw [if_neg (by simp [hne])]

/-- Without a colon the values are texts. -/
theorem ofList_untyped {spec : List Char} (hcolon : ':' ∉ spec) :
    ofList spec = ⟨"string",
      some ((splitAll ',' spec).map fun v => String.ofList (trim v))⟩ := by
  rw [ofList, splitFirst_of_not_mem hcolon]
  rfl

/-- A type and its values stand as they are in the fields of an enumeration. -/
theorem fields_values (type : String) (values : List String) :
    fields ⟨type, some values⟩ = [("type", .text type), ("enum", .array (values.map .text))] := rfl

/-- Values that are written behind a description are read again: with their type, if one is written
in front of them, and as texts otherwise. They are the fields of the enumeration. -/
theorem ofText_withExample {p : List Char} {values : List (List Char)} (hp : ¬ HasMarker p)
    (hne : values ≠ []) (hvalues : ∀ v ∈ values, IsTrimmed v ∧ ',' ∉ v) :
    (∀ t, IsSolid t → ':' ∉ t →
      ofText (withExample p (t ++ ':' :: join [','] values)) =
        ⟨String.ofList t, some (values.map String.ofList)⟩ ∧
      (ofText (withExample p (t ++ ':' :: join [','] values))).fields =
        [("type", .text (String.ofList t)),
          ("enum", .array ((values.map String.ofList).map .text))]) ∧
    (join [','] values ≠ [] → (∀ v ∈ values, ':' ∉ v) →
      ofText (withExample p (join [','] values)) =
        ⟨"string", some (values.map String.ofList)⟩ ∧
      (ofText (withExample p (join [','] values))).fields =
        [("type", .text "string"), ("enum", .array ((values.map String.ofList).map .text))]) := by
  have htrimmed : IsTrimmed (join [','] values) :=
    isTrimmed_join (by decide) fun v hv => (hvalues v hv).1
  refine ⟨fun t ht hcolon => ?_, fun hjoin hcolon => ?_⟩
  · have hspec : IsSolid (t ++ ':' :: join [','] values) :=
      ⟨ht.toIsTrimmed.append_cons htrimmed (by decide), by simp⟩
    rw [ofText_withExample_eq hp hspec, ofList_typed ht hcolon, map_trim_splitAll hne hvalues]
    exact ⟨rfl, fields_values _ _⟩
  · rw [ofText_withExample_eq hp ⟨htrimmed, hjoin⟩,
      ofList_untyped (not_mem_join (by decide) hcolon), map_trim_splitAll hne hvalues]
    exact ⟨rfl, fields_values _ _⟩

/-- A description with hyphens, a colon and half a marker, and values that are empty, or hold a
marker and colons. -/
theorem ofText_withExample_halfMarker :
    ofText "Level: - -eg - eg: level:a:b - eg: c,,d".toList =
        ⟨"level", some ["a:b - eg: c", "", "d"]⟩ ∧
      (ofText "Level: - -eg - eg: ,a".toList).fields =
        [("type", .text "string"), ("enum", .array [.text "", .text "a"])] := by
  have hp : ¬ HasMarker "Level: - -eg".toList := by decide
  have hvalues : ∀ v ∈ ["a:b - eg: c".toList, [], ['d']], IsTrimmed v ∧ ',' ∉ v := by decide
  have huntyped : ∀ v ∈ [[], ['a']], IsTrimmed v ∧ ',' ∉ v := by decide
  exact ⟨((ofText_withExample hp (by decide) hvalues).1 "level".toList (by decide) (by decide)).1,
    ((ofText_withExample hp (by decide) huntyped).2 (by decide) (by decide)).2⟩

end Enumeration

end ApiDoc
