import ApiDoc.Proofs.Text.Blank
import ApiDoc.Proofs.Text.Digit
import ApiDoc.Proofs.Text.Split
import ApiDoc.Tag.Response

/-!
# Texts of header tags

The text of a header tag is cut at hyphens between blanks. What stands in front of the first one has
a type and a status code in front of a dot, and the name of the header behind the dot. The first run
of word characters is the type and the first run of digits is the status code, wherever they are.

So a text is malformed exactly if it has no dot there or no digit in front of the dot
(`Header.ofText?_eq_none_iff`), and a header is read as it is written, but with a digit in its type
the status code is taken from the type (`Header.IsWritable.ofText?_headerText`).
-/

namespace ApiDoc

open Text

variable {s before blanks after tail : List Char} {b c : Char}

/-! ## Hyphens between blanks -/

/-- A hyphen between blanks occurs in a text. -/
def HasHyphen (s : List Char) : Prop :=
  ∃ before b b' after, isBlank b = true ∧ isBlank b' = true ∧
    s = before ++ b :: '-' :: b' :: after

/-- What stands in front of the first hyphen between blanks, without the blanks there. If there is
no such hyphen, it is the whole text. -/
inductive IsFront : List Char → List Char → Prop
  | whole {s : List Char} : ¬ HasHyphen s → IsFront s s
  | cut {before blanks after : List Char} {b : Char} :
      blanks ≠ [] → (∀ c ∈ blanks, isBlank c = true) → isBlank b = true →
      (∀ c ∈ before.getLast?, isBlank c = false) → ¬ HasHyphen (before ++ blanks) →
      IsFront (before ++ blanks ++ '-' :: b :: after) before

/-- A hyphen between blanks is passed with the blanks behind it. -/
theorem afterHyphen?_blanks (hne : blanks ≠ []) (hblanks : ∀ c ∈ blanks, isBlank c = true)
    (hb : isBlank b = true) (after : List Char) :
    afterHyphen? (blanks ++ '-' :: b :: after) = some (trimStart after) := by
  have hstart : trimStart (blanks ++ '-' :: b :: after) = '-' :: b :: after := by
    rw [trimStart_append hblanks]
    rfl
  obtain ⟨c, rest, rfl⟩ := List.exists_cons_of_ne_nil hne
  rw [afterHyphen?.eq_def]
  simp only [List.cons_append] at hstart ⊢
  rw [if_pos (hblanks c List.mem_cons_self), hstart]
  simp only [if_pos hb]

/-- What a hyphen between blanks in front of a text consists of. -/
theorem exists_of_afterHyphen? (h : afterHyphen? s = some tail) :
    ∃ blanks b after, blanks ≠ [] ∧ (∀ c ∈ blanks, isBlank c = true) ∧ isBlank b = true ∧
      s = blanks ++ '-' :: b :: after := by
  cases s with
  | nil => cases h
  | cons c rest =>
    rw [afterHyphen?.eq_def] at h
    simp only at h
    split at h
    · next hc =>
      split at h
      · next b after hstart =>
        split at h
        · next hb =>
          refine ⟨(c :: rest).takeWhile isBlank, b, after, ?_,
            fun d hd => List.mem_takeWhile_imp hd, hb, ?_⟩
          · rw [List.takeWhile_cons_of_pos hc]
            exact List.cons_ne_nil _ _
          · rw [← hstart, takeWhile_append_trimStart]
        · cases h
      · cases h
    · cases h

/-- There is something behind a hyphen just if blanks are on both sides of it. -/
theorem isSome_afterHyphen?_iff : (afterHyphen? s).isSome = true ↔
    ∃ blanks b after, blanks ≠ [] ∧ (∀ c ∈ blanks, isBlank c = true) ∧ isBlank b = true ∧
      s = blanks ++ '-' :: b :: after := by
  constructor
  · intro h
    obtain ⟨tail, htail⟩ := Option.isSome_iff_exists.1 h
    exact exists_of_afterHyphen? htail
  · rintro ⟨blanks, b, after, hne, hblanks, hb, rfl⟩
    rw [afterHyphen?_blanks hne hblanks hb]
    rfl

/-- A hyphen between blanks starts the text or occurs behind its first character. -/
theorem hasHyphen_cons_iff :
    HasHyphen (c :: s) ↔ (afterHyphen? (c :: s)).isSome = true ∨ HasHyphen s := by
  constructor
  · rintro ⟨before, b, b', after, hb, hb', heq⟩
    cases before with
    | nil =>
      rw [isSome_afterHyphen?_iff]
      exact .inl ⟨[b], b', after, List.cons_ne_nil _ _, List.forall_mem_singleton.2 hb, hb', heq⟩
    | cons d before =>
      obtain ⟨-, rfl⟩ := List.cons.inj heq
      exact .inr ⟨before, b, b', after, hb, hb', rfl⟩
  · rintro (h | ⟨before, b, b', after, hb, hb', rfl⟩)
    · obtain ⟨blanks, b', after, hne, hblanks, hb', heq⟩ := isSome_afterHyphen?_iff.1 h
      obtain ⟨before, b, rfl⟩ := (List.eq_nil_or_concat blanks).resolve_left hne
      refine ⟨before, b, b', after, hblanks b (by simp), hb', ?_⟩
      simpa using heq
    · exact ⟨c :: before, b, b', after, hb, hb', rfl⟩

theorem not_hasHyphen_nil : ¬ HasHyphen [] := by
  rintro ⟨before, b, b', after, -, -, heq⟩
  simp at heq

/-- There is no hyphen between blanks that starts with a character that is not blank. -/
theorem hasHyphen_append_iff {front : List Char} (hfront : ∀ c ∈ front, isBlank c = false) :
    HasHyphen (front ++ s) ↔ HasHyphen s := by
  induction front with
  | nil => rfl
  | cons c front ih =>
    obtain ⟨hc, hfront⟩ := List.forall_mem_cons.1 hfront
    rw [List.cons_append, hasHyphen_cons_iff, ih hfront, or_iff_right]
    simp [afterHyphen?, hc]

/-! ## The first cut -/

/-- A text is split just if it has a hyphen between blanks. -/
theorem isSome_splitHyphen_iff : (splitHyphen s).2.isSome = true ↔ HasHyphen s := by
  induction s with
  | nil => exact iff_of_false Bool.false_ne_true not_hasHyphen_nil
  | cons c s ih =>
    rw [hasHyphen_cons_iff, ← ih, splitHyphen]
    cases afterHyphen? (c :: s) with
    | some tail => simp
    | none => simp

instance (s : List Char) : Decidable (HasHyphen s) :=
  decidable_of_iff ((splitHyphen s).2.isSome = true) isSome_splitHyphen_iff

/-- A text without such a hyphen stays whole. -/
theorem splitHyphen_of_not_hasHyphen (h : ¬ HasHyphen s) : splitHyphen s = (s, none) := by
  induction s with
  | nil => rfl
  | cons c s ih =>
    rw [hasHyphen_cons_iff, not_or, Option.not_isSome_iff_eq_none] at h
    rw [splitHyphen, h.1, ih h.2]
    rfl

/-- Blanks up to a hyphen do not reach behind a text whose last character is not blank. -/
theorem afterHyphen?_append (hs : s ≠ []) (hlast : ∀ c ∈ s.getLast?, isBlank c = false)
    (hne : blanks ≠ []) (h : ¬ HasHyphen (s ++ blanks)) (rest : List Char) :
    afterHyphen? (s ++ blanks ++ rest) = none := by
  rw [← Option.not_isSome_iff_eq_none, isSome_afterHyphen?_iff]
  rintro ⟨blanks', b, after, hne', hblanks', hb, heq⟩
  have hinit : s <+: s ++ blanks ++ rest := ⟨blanks ++ rest, by simp⟩
  have hlt : blanks'.length < s.length := by
    by_contra hle
    -- otherwise the text would consist of blanks
    have hwithin : s <+: blanks' := List.prefix_of_prefix_length_le hinit
      (heq ▸ List.prefix_append blanks' _) (by omega)
    have hblank := hblanks' _ (hwithin.subset (List.getLast_mem hs))
    rw [hlast _ (List.getLast?_eq_getLast_of_ne_nil hs)] at hblank
    cases hblank
  have hpos := List.length_pos_of_ne_nil hne
  have hcut : blanks' ++ ['-', b] <+: s ++ blanks := by
    refine List.prefix_of_prefix_length_le ?_ (List.prefix_append _ rest) ?_
    · rw [heq]
      exact ⟨after, by simp⟩
    · simp only [List.length_append, List.length_cons, List.length_nil]
      omega
  obtain ⟨more, hmore⟩ := hcut
  obtain ⟨front, b', rfl⟩ := (List.eq_nil_or_concat blanks').resolve_left hne'
  exact h ⟨front, b', b, more, hblanks' b' (by simp), hb, by simpa using hmore.symm⟩

/-- The text is cut where its front ends. -/
theorem splitHyphen_append (hne : blanks ≠ []) (hblanks : ∀ c ∈ blanks, isBlank c = true)
    (hb : isBlank b = true) (hlast : ∀ c ∈ before.getLast?, isBlank c = false)
    (h : ¬ HasHyphen (before ++ blanks)) (after : List Char) :
    splitHyphen (before ++ blanks ++ '-' :: b :: after) = (before, some (trimStart after)) := by
  induction before with
  | nil =>
    have hafter := afterHyphen?_blanks hne hblanks hb after
    obtain ⟨c, rest, rfl⟩ := List.exists_cons_of_ne_nil hne
    rw [List.cons_append] at hafter
    rw [List.nil_append, List.cons_append, splitHyphen, hafter]
    rfl
  | cons c before ih =>
    have hnone := afterHyphen?_append (List.cons_ne_nil c before) hlast hne h ('-' :: b :: after)
    rw [List.cons_append, hasHyphen_cons_iff, not_or] at h
    have hrest : ∀ d ∈ before.getLast?, isBlank d = false := by
      intro d hd
      refine hlast d ?_
      rw [List.getLast?_cons, hd]
      rfl
    rw [List.cons_append, List.cons_append, splitHyphen]
    rw [List.cons_append, List.cons_append] at hnone
    rw [hnone, ih hrest h.2]
    rfl

/-- A text that starts with a hyphen between blanks has nothing in front of it. -/
theorem isFront_nil (h : afterHyphen? s = some tail) : IsFront s [] := by
  obtain ⟨blanks, b, after, hne, hblanks, hb, rfl⟩ := exists_of_afterHyphen? h
  have hnot : ¬ HasHyphen ([] ++ blanks) := by
    rintro ⟨before, b', b'', after', -, -, heq⟩
    have hmem : '-' ∈ blanks := by
      rw [show blanks = before ++ b' :: '-' :: b'' :: after' from heq]
      simp
    exact absurd (hblanks '-' hmem) (by decide)
  exact .cut hne hblanks hb (fun c hc => by cases hc) hnot

/-- A character that does not start a hyphen between blanks belongs to the front. -/
theorem IsFront.cons (h : afterHyphen? (c :: s) = none) (hs : IsFront s before) :
    IsFront (c :: s) (c :: before) := by
  have hstart : ¬ (afterHyphen? (c :: s)).isSome = true := by rw [h]; exact Bool.false_ne_true
  cases hs with
  | whole hs => exact .whole (mt hasHyphen_cons_iff.1 (not_or.2 ⟨hstart, hs⟩))
  | cut hne hblanks hb hlast hnot =>
    rename_i blanks after b
    rw [isSome_afterHyphen?_iff] at hstart
    have hlast' : ∀ d ∈ (c :: before).getLast?, isBlank d = false := by
      intro d hd
      obtain rfl | ⟨front, e, rfl⟩ := List.eq_nil_or_concat before
      · -- a blank in front of the blanks would be the first of them
        cases hd
        rw [Bool.eq_false_iff]
        intro hc
        exact hstart ⟨c :: blanks, b, after, List.cons_ne_nil _ _,
          List.forall_mem_cons.2 ⟨hc, hblanks⟩, hb, rfl⟩
      · refine hlast d ?_
        simpa [List.getLast?_cons] using hd
    have hnot' : ¬ HasHyphen (c :: before ++ blanks) := by
      rw [List.cons_append, hasHyphen_cons_iff, not_or, isSome_afterHyphen?_iff]
      refine ⟨?_, hnot⟩
      rintro ⟨blanks', b', after', hne', hblanks', hb', heq⟩
      refine hstart ⟨blanks', b', after' ++ '-' :: b :: after, hne', hblanks', hb', ?_⟩
      rw [← List.cons_append, heq]
      simp
    exact .cut hne hblanks hb hlast' hnot'

/-- There is a front, and the text is cut where it ends. -/
theorem isFront_splitHyphen (s : List Char) : IsFront s (splitHyphen s).1 := by
  induction s with
  | nil => exact .whole not_hasHyphen_nil
  | cons c s ih =>
    rw [splitHyphen]
    cases h : afterHyphen? (c :: s) with
    | some tail => exact isFront_nil h
    | none => exact ih.cons h

/-- The front of a text is the first part of the split. -/
theorem isFront_iff : IsFront s before ↔ (splitHyphen s).1 = before := by
  constructor
  · rintro (h | ⟨hne, hblanks, hb, hlast, h⟩)
    · rw [splitHyphen_of_not_hasHyphen h]
    · rw [splitHyphen_append hne hblanks hb hlast h]
  · rintro rfl
    exact isFront_splitHyphen s

/-! ## Runs of characters -/

section Runs

variable {p : Char → Bool}

/-- The first run of characters of a kind is empty just if there are none. -/
theorem firstRun_eq_nil_iff : firstRun p s = [] ↔ ∀ c ∈ s, p c = false := by
  induction s with
  | nil => simp [firstRun]
  | cons c s ih =>
    cases hc : p c with
    | true => simp [firstRun, hc]
    | false =>
      rw [List.forall_mem_cons, ← ih]
      simp [firstRun, hc]

/-- The first run is what stands between characters that are not of the class and one that is not
of the class either. -/
theorem firstRun_append {run : List Char} (hbefore : ∀ c ∈ before, p c = false) (hne : run ≠ [])
    (hrun : ∀ c ∈ run, p c = true) (hafter : ∀ c ∈ after.head?, p c = false) :
    firstRun p (before ++ run ++ after) = run := by
  obtain ⟨c, rest, rfl⟩ := List.exists_cons_of_ne_nil hne
  have hdrop : (before ++ (c :: rest) ++ after).dropWhile (!p ·) = c :: rest ++ after := by
    rw [List.append_assoc, List.dropWhile_append_of_pos (by simpa using hbefore)]
    exact List.dropWhile_cons_of_neg (by simp [hrun c List.mem_cons_self])
  rw [firstRun, hdrop, List.takeWhile_append_of_pos hrun]
  cases after with
  | nil => simp
  | cons d after => simp [hafter d rfl]

end Runs

/-! ## Malformed texts -/

namespace Header

/-- There is no dot in front of the first hyphen between blanks, or no digit in front of the first
dot there. -/
def IsMalformed (s : List Char) : Prop :=
  ∃ front, IsFront s front ∧
    ('.' ∉ front ∨ ∀ c ∈ front.takeWhile (· != '.'), isDecimal c = false)

section Reading

variable {front : List Char} {rest : Option (List Char)}

/-- What is read from a text whose target has a dot. -/
theorem ofText?_eq (hs : splitHyphen s = (front ++ '.' :: after, rest)) (hfront : '.' ∉ front) :
    ofText? s =
      if (firstRun isWord front).isEmpty || (firstRun isDecimal front).isEmpty then none
      else some (String.ofList (firstRun isDecimal front),
        String.ofList ((splitAll '.' after).headD []),
        ⟨String.ofList (firstRun isWord front),
          rest.map fun r => String.ofList (splitHyphen r).1⟩) := by
  have hparts : splitAll '.' (front ++ '.' :: after) =
      front :: (splitAll '.' after).headD [] :: (splitAll '.' after).tail := by
    rw [splitAll_append hfront]
    cases hafter : splitAll '.' after with
    | nil => exact absurd hafter (splitWhere_ne_nil _ after)
    | cons name more => rfl
  rw [ofText?, hs]
  simp only [hparts]

/-- A header has its status code in front of the dot, its name behind it, and its description behind
the hyphen. -/
theorem ofText?_of_isDecimal (hs : splitHyphen s = (front ++ '.' :: after, rest))
    (hfront : '.' ∉ front) (hdigit : ∃ c ∈ front, isDecimal c = true) :
    ofText? s = some (String.ofList (firstRun isDecimal front),
      String.ofList ((splitAll '.' after).headD []),
      ⟨String.ofList (firstRun isWord front),
        rest.map fun r => String.ofList (splitHyphen r).1⟩) := by
  obtain ⟨c, hc, hdecimal⟩ := hdigit
  have hcode : firstRun isDecimal front ≠ [] := by
    rw [Ne, firstRun_eq_nil_iff]
    intro h
    rw [h c hc] at hdecimal
    cases hdecimal
  have htype : firstRun isWord front ≠ [] := by
    rw [Ne, firstRun_eq_nil_iff]
    intro h
    have hword := isWord_of_isDecimal hdecimal
    rw [h c hc] at hword
    cases hword
  rw [ofText?_eq hs hfront, if_neg]
  simp [hcode, htype]

/-- A text declares no header exactly if it is malformed. -/
theorem ofText?_eq_none_iff : ofText? s = none ↔ IsMalformed s := by
  have hmalformed : IsMalformed s ↔ '.' ∉ (splitHyphen s).1 ∨
      ∀ c ∈ (splitHyphen s).1.takeWhile (· != '.'), isDecimal c = false := by
    simp [IsMalformed, isFront_iff]
  rw [hmalformed]
  by_cases hdot : '.' ∈ (splitHyphen s).1
  · obtain ⟨front, after, heq, hfront⟩ := List.eq_append_cons_of_mem hdot
    have hs : splitHyphen s = (front ++ '.' :: after, (splitHyphen s).2) := by rw [← heq]
    have htake : (front ++ '.' :: after).takeWhile (· != '.') = front := by
      rw [List.takeWhile_append_of_pos]
      · simp
      · intro c hc
        simpa using fun h : c = '.' => hfront (h ▸ hc)
    rw [heq, htake]
    -- the status code is the first run of digits in front of the dot
    by_cases hdigit : ∀ c ∈ front, isDecimal c = false
    · refine iff_of_true ?_ (.inr hdigit)
      rw [ofText?_eq hs hfront, firstRun_eq_nil_iff.2 hdigit]
      simp
    · have hexists : ∃ c ∈ front, isDecimal c = true := by simpa using hdigit
      rw [ofText?_of_isDecimal hs hfront hexists]
      simp [hdigit]
  · refine iff_of_true ?_ (.inl hdot)
    cases hs : splitHyphen s with
    | mk target rest =>
      rw [hs] at hdot
      rw [ofText?, hs]
      simp only [splitAll_of_not_mem hdot]

instance (s : List Char) : Decidable (IsMalformed s) :=
  decidable_of_iff _ ofText?_eq_none_iff

end Reading

/-! ## Written headers -/

/-- What stands in front of the dot of a header tag. -/
def headerFront (type code : List Char) : List Char :=
  '\x7b' :: (type ++ '\x7d' :: ' ' :: code)

/-- The text of a header tag. -/
def headerText (type code name description : List Char) : List Char :=
  headerFront type code ++ '.' :: name ++ " - ".toList ++ description

/-- The parts of a header, each of which ends where it is written to end. -/
structure IsWritable (type code name description : List Char) : Prop where
  type_ne : type ≠ []
  type_word : ∀ c ∈ type, isWord c = true
  code_ne : code ≠ []
  code_decimal : ∀ c ∈ code, isDecimal c = true
  name_ne : name ≠ []
  name_chars : ∀ c ∈ name, isBlank c = false ∧ c ≠ '.'
  described : IsSolid description
  unhyphened : ¬ HasHyphen description

/-- A digit is no blank. -/
theorem isBlank_of_isDecimal (h : isDecimal c = true) : isBlank c = false :=
  isBlank_of_isWord (isWord_of_isDecimal h)

/-- Nothing is passed where no hyphen comes after the blanks. -/
theorem afterHyphen?_eq_none (h : (trimStart s).head? ≠ some '-') : afterHyphen? s = none := by
  rw [← Option.not_isSome_iff_eq_none, isSome_afterHyphen?_iff]
  rintro ⟨blanks, b, after, -, hblanks, -, rfl⟩
  rw [trimStart_append hblanks] at h
  exact h rfl

namespace IsWritable

variable {type code name description : List Char}

/-- The only blanks in front of the description are the space between type and code and the one in
front of the hyphen. -/
theorem not_hasHyphen (h : IsWritable type code name description) :
    ¬ HasHyphen (headerFront type code ++ '.' :: name ++ [' ']) := by
  have htype : ∀ c ∈ '\x7b' :: (type ++ ['\x7d']), isBlank c = false := by
    rw [List.forall_mem_cons, List.forall_mem_append]
    exact ⟨by decide, fun c hc => isBlank_of_isWord (h.type_word c hc),
      List.forall_mem_singleton.2 (by decide)⟩
  have htarget : ∀ c ∈ code ++ '.' :: name, isBlank c = false := by
    rw [List.forall_mem_append, List.forall_mem_cons]
    exact ⟨fun c hc => isBlank_of_isDecimal (h.code_decimal c hc), by decide,
      fun c hc => (h.name_chars c hc).1⟩
  -- the only blank inside is in front of the status code, which starts with a digit
  have hspace : ¬ (afterHyphen? (' ' :: (code ++ '.' :: name ++ [' ']))).isSome = true := by
    obtain ⟨d, code, rfl⟩ := List.exists_cons_of_ne_nil h.code_ne
    have hd := h.code_decimal d List.mem_cons_self
    have hstart : trimStart (' ' :: (d :: code ++ '.' :: name ++ [' '])) =
        d :: code ++ '.' :: name ++ [' '] := by
      refine (trimStart_eq_self ?_ : trimStart (d :: code ++ '.' :: name ++ [' ']) = _)
      rintro c ⟨⟩
      exact isBlank_of_isDecimal hd
    rw [Option.not_isSome_iff_eq_none]
    refine afterHyphen?_eq_none ?_
    rw [hstart]
    rintro ⟨⟩
    exact absurd hd (by decide)
  have htext : headerFront type code ++ '.' :: name ++ [' '] =
      '\x7b' :: (type ++ ['\x7d']) ++ ' ' :: (code ++ '.' :: name ++ [' ']) := by
    simp [headerFront]
  rw [htext, hasHyphen_append_iff htype, hasHyphen_cons_iff, not_or, hasHyphen_append_iff htarget]
  exact ⟨hspace, by decide⟩

/-- A written header is split where its description starts. -/
theorem splitHyphen_headerText (h : IsWritable type code name description) :
    splitHyphen (headerText type code name description) =
      (headerFront type code ++ '.' :: name, some description) := by
  have htext : headerText type code name description =
      headerFront type code ++ '.' :: name ++ [' '] ++ '-' :: ' ' :: description := by
    simp [headerText]
  have hlast : ∀ c ∈ (headerFront type code ++ '.' :: name).getLast?, isBlank c = false := by
    intro c hc
    rw [List.getLast?_append_of_ne_nil _ (List.cons_ne_nil '.' name)] at hc
    rcases List.mem_cons.1 (List.mem_of_getLast? hc) with rfl | hc
    · decide
    · exact (h.name_chars c hc).1
  rw [htext, splitHyphen_append (List.cons_ne_nil _ _) (List.forall_mem_singleton.2 (by decide))
    (by decide) hlast h.not_hasHyphen, trimStart_eq_self h.described.head]

/-- The front of a written header has no dot. -/
theorem not_mem_headerFront (h : IsWritable type code name description) :
    '.' ∉ headerFront type code := by
  have hdot : isWord '.' = false ∧ isDecimal '.' = false := by decide
  simp only [headerFront, List.mem_cons, List.mem_append, not_or]
  refine ⟨by decide, fun hc => ?_, by decide, by decide, fun hc => ?_⟩
  · rw [h.type_word '.' hc] at hdot
    cases hdot.1
  · rw [h.code_decimal '.' hc] at hdot
    cases hdot.2

/-- The first word is the type. -/
theorem firstRun_isWord (h : IsWritable type code name description) :
    firstRun isWord (headerFront type code) = type := by
  have hbrace : ∀ c ∈ ['\x7b'], isWord c = false := List.forall_mem_singleton.2 (by decide)
  have hbehind : ∀ c ∈ ('\x7d' :: ' ' :: code).head?, isWord c = false := by
    rintro c ⟨⟩
    decide
  exact firstRun_append hbrace h.type_ne h.type_word hbehind

/-- The first digits are those of the status code, if the type has none. -/
theorem firstRun_code (h : IsWritable type code name description)
    (htype : ∀ c ∈ type, isDecimal c = false) :
    firstRun isDecimal (headerFront type code) = code := by
  have hbefore : ∀ c ∈ '\x7b' :: (type ++ ['\x7d', ' ']), isDecimal c = false := by
    rw [List.forall_mem_cons, List.forall_mem_append, List.forall_mem_cons,
      List.forall_mem_singleton]
    exact ⟨by decide, htype, by decide, by decide⟩
  have hbehind : ∀ c ∈ ([] : List Char).head?, isDecimal c = false := by
    rintro c ⟨⟩
  have hrun := firstRun_append hbefore h.code_ne h.code_decimal hbehind
  simpa [headerFront] using hrun

/-- The first digits are those of the type, if it has some. -/
theorem firstRun_digits {before digits behind code : List Char}
    (hbefore : ∀ c ∈ before, isDecimal c = false) (hne : digits ≠ [])
    (hdigits : ∀ c ∈ digits, isDecimal c = true)
    (hbehind : ∀ c ∈ behind.head?, isDecimal c = false) :
    firstRun isDecimal (headerFront (before ++ digits ++ behind) code) = digits := by
  have hfront : ∀ c ∈ '\x7b' :: before, isDecimal c = false :=
    List.forall_mem_cons.2 ⟨by decide, hbefore⟩
  have hend : ∀ c ∈ (behind ++ '\x7d' :: ' ' :: code).head?, isDecimal c = false := by
    cases behind with
    | nil =>
      rintro c ⟨⟩
      decide
    | cons d behind => exact hbehind
  have hrun := firstRun_append hfront hne hdigits hend
  simpa [headerFront] using hrun

/-- A header is read as it is written, with the first digits as the status code. -/
theorem ofText?_headerText (h : IsWritable type code name description) :
    ofText? (headerText type code name description) =
      some (String.ofList (firstRun isDecimal (headerFront type code)), String.ofList name,
        ⟨String.ofList type, some (String.ofList description)⟩) := by
  obtain ⟨d, rest, hcode⟩ := List.exists_cons_of_ne_nil h.code_ne
  have hdigit : ∃ c ∈ headerFront type code, isDecimal c = true :=
    ⟨d, by simp [headerFront, hcode], h.code_decimal d (by simp [hcode])⟩
  have hname : '.' ∉ name := fun hc => (h.name_chars '.' hc).2 rfl
  rw [ofText?_of_isDecimal h.splitHyphen_headerText h.not_mem_headerFront hdigit,
    h.firstRun_isWord, splitAll_of_not_mem hname, Option.map_some,
    splitHyphen_of_not_hasHyphen h.unhyphened]
  rfl

end IsWritable

end Header

end ApiDoc
