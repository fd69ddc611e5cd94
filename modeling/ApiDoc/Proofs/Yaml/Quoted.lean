import ApiDoc.Proofs.Json.RoundTrip
import ApiDoc.Yaml.Scalar

/-!
# JSON strings as quoted scalars

A JSON string is read as a scalar in quotation marks. Its escapes are read as the characters that
they stand for, but three characters that end a line stand in it as themselves (`isRawBreak`): at
those the scalar is folded, and no line that they start may look like the mark of a document
(`hasMarkLine`). Such a line is the only obstacle, and a string without these characters is read
exactly: `doubleQuoted_inQuotes`.
-/

namespace ApiDoc.Yaml

open Json (escapeChar escapeChar_cases)

variable {c : Char} {s t tail : List Char}

/-- A character that ends a line and stands in a JSON string as itself. -/
def isRawBreak (c : Char) : Bool := c.toNat == 0x85 || c.toNat == 0x2028 || c.toNat == 0x2029

/-- Whether a text starts with the mark of a document, as it stands in a JSON string. -/
def startsMark : List Char → Bool
  | '-' :: '-' :: '-' :: c :: _ => c == ' ' || isRawBreak c
  | '.' :: '.' :: '.' :: c :: _ => c == ' ' || isRawBreak c
  | _ => false

/-- Whether a line behind the first one starts with the mark of a document. -/
def hasMarkLine : List Char → Bool
  | [] => false
  | c :: s => (isRawBreak c && startsMark s) || hasMarkLine s

/-- A text as it stands in a JSON string, from behind the opening mark on. -/
def inQuotes (s tail : List Char) : List Char := s.flatMap escapeChar ++ '"' :: tail

@[simp]
theorem inQuotes_nil (tail : List Char) : inQuotes [] tail = '"' :: tail := rfl

@[simp]
theorem inQuotes_cons (c : Char) (s tail : List Char) :
    inQuotes (c :: s) tail = escapeChar c ++ inQuotes s tail := by
  simp [inQuotes]

/-! ## Characters -/

/-- What breaks a line as itself is a line break. -/
theorem isBreak_of_isRawBreak (h : isRawBreak c = true) : isBreak c = true := by
  simp only [isRawBreak, Bool.or_eq_true] at h
  simp only [isBreak, Bool.or_eq_true]
  tauto

/-- A character that is no control differs from every control. -/
theorem ne_of_not_control (h : ¬c.toNat < 32) {d : Char} (hd : d.toNat < 32) : c ≠ d := by
  rintro rfl
  exact h hd

/-- The other characters that end a line are written as escapes. -/
theorem isBreak_of_not_control (h : ¬c.toNat < 32) : isBreak c = isRawBreak c := by
  have hne : ∀ d : Char, d.toNat < 32 → (c == d) = false := fun d hd =>
    beq_eq_false_iff_ne.2 (ne_of_not_control h hd)
  simp [isBreak, isRawBreak, hne '\n' (by decide), hne '\r' (by decide)]

/-- A line break of one character is taken alone. -/
theorem takeBreak?_cons (h : c ≠ '\r') (s : List Char) :
    takeBreak? (c :: s) =
      if isBreak c then some (if c.toNat == 0x2028 || c.toNat == 0x2029 then c else '\n', s)
      else none := by
  rw [takeBreak?]
  exact fun _ heq _ => h heq

/-- The short escapes of JSON are escapes of YAML with the same meaning. -/
theorem shortEscape?_of_json {e : Char} {n : Nat} (h : Json.shortEscape? e = some n) :
    shortEscape? e = some (Char.ofNat n) := by
  unfold Json.shortEscape? at h
  split at h <;> cases h <;> rfl

/-- An escape by the digits of a code below 32 is read as the character of that code. -/
theorem codeEscape_hex4 {n : Nat} (h : n < 32) (tail : List Char) :
    codeEscape 4 (Text.hex 4 n ++ tail) = .ok ([Char.ofNat n], tail) := by
  obtain ⟨a, b, c, d, hhex, hcode⟩ := Json.exists_hex4 h
  simp only [Json.hex4?, Option.bind_eq_bind, Option.bind_eq_some_iff, Option.pure_def,
    Option.some.injEq] at hcode
  obtain ⟨x, hx, y, hy, z, hz, w, hw, rfl⟩ := hcode
  have hvalues : ([a, b, c, d].mapM Json.hexValue?) = some [x, y, z, w] := by
    simp [hx, hy, hz, hw]
  have hfold : [x, y, z, w].foldl (fun n d => 16 * n + d) 0 =
      ((x * 16 + y) * 16 + z) * 16 + w := by
    simp only [List.foldl_cons, List.foldl_nil]
    omega
  rw [hhex, codeEscape]
  simp only [List.cons_append, List.nil_append, List.take_succ_cons, List.take_zero, hvalues, hfold,
    List.drop_succ_cons, List.drop_zero, codePoint, List.length_cons, List.length_nil]
  rw [if_neg (by omega), if_neg (by omega), if_neg (by omega), if_neg (by omega),
    if_neg (by omega)]

/-- A character stands in a string as an escape, which is read as this character, or as itself. -/
theorem escape_or_self (c : Char) :
    ((c ≠ ' ' ∧ isRawBreak c = false) ∧
      ∃ letters, escapeChar c = '\\' :: letters ∧
        ∀ tail, escape (letters ++ tail) = .ok ([c], tail)) ∨
      (¬c.toNat < 32 ∧ c ≠ '"' ∧ c ≠ '\\' ∧ escapeChar c = [c]) := by
  have hsolid : ∀ n ∈ [34, 92, 47, 8, 12, 10, 13, 9] ++ List.range 32,
      Char.ofNat n ≠ ' ' ∧ isRawBreak (Char.ofNat n) = false := by
    decide
  have hc : Char.ofNat c.toNat = c := Char.ofNat_toNat c
  rcases escapeChar_cases c with ⟨e, heq, hcode⟩ | ⟨hcontrol, heq⟩ | hself
  · have hmem : ∀ n, Json.shortEscape? e = some n → n ∈ [34, 92, 47, 8, 12, 10, 13, 9] := by
      intro n hn
      unfold Json.shortEscape? at hn
      split at hn <;> cases hn <;> decide
    have hescape := shortEscape?_of_json hcode
    rw [hc] at hescape
    refine .inl ⟨hc ▸ hsolid c.toNat (List.mem_append_left _ (hmem _ hcode)), [e], heq, ?_⟩
    intro tail
    simp only [List.singleton_append, escape, hescape]
  · have hmem : c.toNat ∈ List.range 32 := List.mem_range.2 hcontrol
    refine .inl ⟨hc ▸ hsolid c.toNat (List.mem_append_right _ hmem), _, heq, fun tail => ?_⟩
    have hcode := codeEscape_hex4 hcontrol tail
    rw [hc] at hcode
    exact hcode
  · exact .inr hself

/-- A character of ASCII that is no control. -/
def isAsciiText (c : Char) : Bool := decide (32 ≤ c.toNat) && decide (c.toNat < 127)

/-- A string has the characters of its text that are no controls, and printable ones. -/
theorem of_mem_escapeChar {d : Char} (h : d ∈ escapeChar c) :
    (d = c ∧ ¬c.toNat < 32) ∨ isAsciiText d = true := by
  rcases escapeChar_cases c with ⟨e, heq, hcode⟩ | ⟨hcontrol, heq⟩ | ⟨hcontrol, -, -, heq⟩
  · have he : isAsciiText e = true := by
      unfold Json.shortEscape? at hcode
      split at hcode
      any_goals decide
      cases hcode
    rw [heq] at h
    rcases List.mem_cons.1 h with rfl | h
    · exact .inr (by decide)
    · rw [List.mem_singleton.1 h]
      exact .inr he
  · have hhex : ∀ n < 32, ('\\' :: 'u' :: Text.hex 4 n).all isAsciiText = true := by decide +kernel
    rw [heq] at h
    exact .inr (List.all_eq_true.1 (hhex c.toNat hcontrol) d h)
  · rw [heq] at h
    exact .inl ⟨List.mem_singleton.1 h, hcontrol⟩

/-- No character of ASCII but a control breaks a line. -/
theorem isBreak_of_isAsciiText (h : isAsciiText c = true) : isBreak c = false := by
  rw [isAsciiText, Bool.and_eq_true, decide_eq_true_eq, decide_eq_true_eq] at h
  rw [isBreak_of_not_control (Nat.not_lt.2 h.1)]
  have hne : ∀ n, 127 ≤ n → (c.toNat == n) = false := fun n hn => beq_eq_false_iff_ne.2 (by omega)
  rw [isRawBreak, hne _ (by decide), hne _ (by decide), hne _ (by decide)]
  rfl

/-- The characters of a string are those of its text that are no controls, and ASCII. -/
theorem of_mem_stringText {str : String} (h : c ∈ Json.stringText str) :
    (c ∈ str.toList ∧ ¬c.toNat < 32) ∨ isAsciiText c = true := by
  rcases List.mem_cons.1 h with rfl | h
  · exact .inr (by decide)
  rcases List.mem_append.1 h with h | h
  · obtain ⟨d, hd, hc⟩ := List.mem_flatMap.1 h
    rcases of_mem_escapeChar hc with ⟨rfl, hcontrol⟩ | hprintable
    · exact .inl ⟨hd, hcontrol⟩
    · exact .inr hprintable
  · rw [List.mem_singleton.1 h]
    exact .inr (by decide)

/-- A character that is written as itself is in the string. -/
theorem mem_stringText {str : String} (h : c ∈ str.toList) (hself : escapeChar c = [c]) :
    c ∈ Json.stringText str := by
  refine List.mem_cons_of_mem _ (List.mem_append_left _ (List.mem_flatMap.2 ⟨c, h, ?_⟩))
  rw [hself]
  exact List.mem_singleton_self c

/-! ## Texts in quotation marks -/

/-- A text is shorter than its string. -/
theorem length_lt_inQuotes (s tail : List Char) : s.length < (inQuotes s tail).length := by
  induction s with
  | nil => simp
  | cons c s ih =>
    have hc : 0 < (escapeChar c).length := by
      rcases escape_or_self c with ⟨-, letters, heq, -⟩ | ⟨-, -, -, heq⟩ <;> simp [heq]
    rw [inQuotes_cons, List.length_append, List.length_cons]
    omega

/-- What starts with none of the two marks starts with a character of the text. -/
theorem exists_of_inQuotes_eq_cons (h : inQuotes s tail = c :: t) (hquote : c ≠ '"')
    (hback : c ≠ '\\') : ∃ s', s = c :: s' ∧ t = inQuotes s' tail := by
  cases s with
  | nil => exact absurd (List.cons.inj h).1.symm hquote
  | cons d s =>
    rw [inQuotes_cons] at h
    rcases escape_or_self d with ⟨-, letters, heq, -⟩ | ⟨-, -, -, heq⟩
    · rw [heq, List.cons_append] at h
      exact absurd (List.cons.inj h).1.symm hback
    · rw [heq, List.singleton_append] at h
      obtain ⟨rfl, rfl⟩ := List.cons.inj h
      exact ⟨s, rfl, rfl⟩

/-- Spaces and raw line breaks are written as themselves. -/
theorem inQuotes_of_blank (h : c = ' ' ∨ isRawBreak c = true) (s tail : List Char) :
    inQuotes (c :: s) tail = c :: inQuotes s tail := by
  rcases escape_or_self c with ⟨⟨hspace, hbreak⟩, -⟩ | ⟨-, -, -, heq⟩
  · rcases h with h | h
    · exact absurd h hspace
    · exact absurd h (by simp [hbreak])
  · rw [inQuotes_cons, heq, List.singleton_append]

/-- The blanks in front of what is in quotes are the spaces in front of the text. -/
theorem takeWhile_inQuotes (s tail : List Char) :
    (inQuotes s tail).takeWhile (fun c => c == ' ' || c == '\t') = s.takeWhile (· == ' ') ∧
      (inQuotes s tail).dropWhile (fun c => c == ' ' || c == '\t') =
        inQuotes (s.dropWhile (· == ' ')) tail := by
  induction s with
  | nil => exact ⟨rfl, rfl⟩
  | cons c s ih =>
    by_cases hc : c = ' '
    · subst hc
      rw [inQuotes_of_blank (.inl rfl)]
      simpa using ih
    · rw [List.takeWhile_cons_of_neg (by simp [hc]), List.dropWhile_cons_of_neg (by simp [hc]),
        inQuotes_cons]
      rcases escape_or_self c with ⟨-, letters, heq, -⟩ | ⟨hcontrol, -, -, heq⟩
      · rw [heq]
        exact ⟨rfl, rfl⟩
      · have htab : c ≠ '\t' := ne_of_not_control hcontrol (by decide)
        rw [heq, List.singleton_append]
        simp [hc, htab]

/-- A word in quotes ends at a space or at a raw line break. -/
theorem endsToken_inQuotes (s tail : List Char) :
    endsToken (inQuotes s tail) = s.head?.any fun c => c == ' ' || isRawBreak c := by
  cases s with
  | nil => rfl
  | cons c s =>
    rw [inQuotes_cons, List.head?_cons, Option.any_some]
    rcases escape_or_self c with ⟨⟨hspace, hbreak⟩, letters, heq, -⟩ | ⟨hcontrol, -, -, heq⟩
    · have hescape : endsToken ('\\' :: (letters ++ inQuotes s tail)) = false := rfl
      rw [heq, List.cons_append, hescape, hbreak, beq_eq_false_iff_ne.2 hspace]
      rfl
    · have htab : c ≠ '\t' := ne_of_not_control hcontrol (by decide)
      rw [heq, List.singleton_append, endsToken, isBreak_of_not_control hcontrol,
        beq_eq_false_iff_ne.2 htab, Bool.or_false]

/-- A mark of a document stands in a string as itself. -/
theorem isDocumentMark_inQuotes (s tail : List Char) :
    isDocumentMark (inQuotes s tail) = startsMark s := by
  -- hyphens and dots are written as themselves, so three of them come of three
  have hsplit : ∀ {d : Char} {s t : List Char}, inQuotes s tail = d :: t → d = '-' ∨ d = '.' →
      ∃ s', s = d :: s' ∧ t = inQuotes s' tail := by
    rintro d s t heq (rfl | rfl) <;> exact exists_of_inQuotes_eq_cons heq (by decide) (by decide)
  have hends : ∀ s, endsToken (inQuotes s tail) = true →
      ∃ c s', s = c :: s' ∧ (c == ' ' || isRawBreak c) = true := by
    intro s h
    rw [endsToken_inQuotes] at h
    cases s with
    | nil => cases h
    | cons c s => exact ⟨c, s, rfl, h⟩
  rw [Bool.eq_iff_iff]
  constructor
  · intro h
    unfold isDocumentMark at h
    split at h
    · next rest heq =>
      obtain ⟨s₁, rfl, h₁⟩ := hsplit heq (.inl rfl)
      obtain ⟨s₂, rfl, h₂⟩ := hsplit h₁.symm (.inl rfl)
      obtain ⟨s₃, rfl, rfl⟩ := hsplit h₂.symm (.inl rfl)
      obtain ⟨c, s, rfl, hc⟩ := hends s₃ h
      exact hc
    · next rest heq =>
      obtain ⟨s₁, rfl, h₁⟩ := hsplit heq (.inr rfl)
      obtain ⟨s₂, rfl, h₂⟩ := hsplit h₁.symm (.inr rfl)
      obtain ⟨s₃, rfl, rfl⟩ := hsplit h₂.symm (.inr rfl)
      obtain ⟨c, s, rfl, hc⟩ := hends s₃ h
      exact hc
    · cases h
  · intro h
    unfold startsMark at h
    split at h
    · next c s =>
      have hline : inQuotes ('-' :: '-' :: '-' :: c :: s) tail =
        '-' :: '-' :: '-' :: inQuotes (c :: s) tail := rfl
      rw [hline, isDocumentMark, endsToken_inQuotes]
      exact h
    · next c s =>
      have hline : inQuotes ('.' :: '.' :: '.' :: c :: s) tail =
        '.' :: '.' :: '.' :: inQuotes (c :: s) tail := rfl
      rw [hline, isDocumentMark, endsToken_inQuotes]
      exact h
    · cases h

/-- A raw line break in quotes is taken. -/
theorem takeBreak?_inQuotes_of_isRawBreak (h : isRawBreak c = true) (s tail : List Char) :
    takeBreak? (inQuotes (c :: s) tail) =
      some (if c.toNat == 0x2028 || c.toNat == 0x2029 then c else '\n', inQuotes s tail) := by
  have hreturn : c ≠ '\r' := by
    rintro rfl
    exact absurd h (by decide)
  rw [inQuotes_of_blank (.inr h), takeBreak?_cons hreturn, if_pos (isBreak_of_isRawBreak h)]

/-- No other character in quotes is taken for a line break. -/
theorem takeBreak?_inQuotes_eq_none (h : ∀ c ∈ s.head?, isRawBreak c = false) (tail : List Char) :
    takeBreak? (inQuotes s tail) = none := by
  cases s with
  | nil => rfl
  | cons c s =>
    rw [inQuotes_cons]
    rcases escape_or_self c with ⟨-, letters, heq, -⟩ | ⟨hcontrol, -, -, heq⟩
    · rw [heq]
      rfl
    · rw [heq, List.singleton_append, takeBreak?_cons (ne_of_not_control hcontrol (by decide)),
        isBreak_of_not_control hcontrol, h c rfl]
      rfl

/-! ## Lines of a string -/

/-- A character that breaks no line leaves whether a mark starts one. -/
theorem hasMarkLine_cons (h : isRawBreak c = false) (s : List Char) :
    hasMarkLine (c :: s) = hasMarkLine s := by
  rw [hasMarkLine, h, Bool.false_and, Bool.false_or]

/-- Spaces in front leave whether a mark starts a line. -/
theorem hasMarkLine_dropWhile (s : List Char) :
    hasMarkLine (s.dropWhile (· == ' ')) = hasMarkLine s := by
  induction s with
  | nil => rfl
  | cons c s ih =>
    by_cases hc : c = ' '
    · subst hc
      rw [List.dropWhile_cons_of_pos rfl, ih, hasMarkLine_cons (by decide)]
    · rw [List.dropWhile_cons_of_neg (by simp [hc])]

/-- What a line break that stands in a string as itself is read as. -/
def rawBreak (c : Char) : Char := if c.toNat == 0x2028 || c.toNat == 0x2029 then c else '\n'

/-- A line in quotes that starts with a mark is malformed. -/
theorem quotedBreaks_of_startsMark (h : startsMark s = true) (n : Nat) (tail : List Char) :
    quotedBreaks (n + 1) (inQuotes s tail) = .error .malformed := by
  rw [quotedBreaks, isDocumentMark_inQuotes, if_pos h]

/-- A further line break in quotes is kept. -/
theorem quotedBreaks_of_isRawBreak (hmark : startsMark s = false)
    (hs : s.dropWhile (· == ' ') = c :: t) (hc : isRawBreak c = true) (n : Nat)
    (tail : List Char) :
    quotedBreaks (n + 1) (inQuotes s tail) =
      prepend [rawBreak c] (quotedBreaks n (inQuotes t tail)) := by
  rw [quotedBreaks, isDocumentMark_inQuotes, hmark]
  simp only [Bool.false_eq_true, if_false, (takeWhile_inQuotes s tail).2, hs,
    takeBreak?_inQuotes_of_isRawBreak hc]
  rfl

/-- Line breaks in quotes end where another character comes behind the spaces. -/
theorem quotedBreaks_of_not_isRawBreak (hmark : startsMark s = false)
    (hs : ∀ c ∈ (s.dropWhile (· == ' ')).head?, isRawBreak c = false) (n : Nat)
    (tail : List Char) :
    quotedBreaks (n + 1) (inQuotes s tail) =
      .ok ([], inQuotes (s.dropWhile (· == ' ')) tail) := by
  rw [quotedBreaks, isDocumentMark_inQuotes, hmark]
  simp only [Bool.false_eq_true, if_false, (takeWhile_inQuotes s tail).2,
    takeBreak?_inQuotes_eq_none hs]

/-- Line breaks are passed over up to the next line with other characters, unless one of the lines
starts with the mark of a document. -/
theorem quotedBreaks_inQuotes (s : List Char) :
    ((startsMark s || hasMarkLine s) = true ∧
        ∀ n tail, s.length < n → quotedBreaks n (inQuotes s tail) = .error .malformed) ∨
      ∃ breaks s', s'.length ≤ s.length ∧ (startsMark s || hasMarkLine s) = hasMarkLine s' ∧
        ∀ n tail, s.length < n →
          quotedBreaks n (inQuotes s tail) = .ok (breaks, inQuotes s' tail) := by
  -- on the length, since the spaces in front of a line are passed over at once
  induction hlen : s.length using Nat.strongRecOn generalizing s with
  | ind length ih =>
    subst hlen
    cases hmark : startsMark s with
    | true =>
      refine .inl ⟨rfl, fun n tail hn => ?_⟩
      obtain ⟨n, rfl⟩ := Nat.exists_eq_add_of_lt hn
      exact quotedBreaks_of_startsMark hmark _ tail
    | false =>
    have hsub : (s.dropWhile (· == ' ')).length ≤ s.length := (s.dropWhile_sublist _).length_le
    rw [← hasMarkLine_dropWhile s, Bool.false_or]
    by_cases hbreak : ∃ c t, s.dropWhile (· == ' ') = c :: t ∧ isRawBreak c = true
    · obtain ⟨c, t, hs, hc⟩ := hbreak
      rw [hs, List.length_cons] at hsub
      rw [hs, hasMarkLine, hc, Bool.true_and]
      rcases ih t.length (by omega) t rfl with ⟨hbad, hbreaks⟩ | ⟨breaks, s', hs', heq, hbreaks⟩
      · refine .inl ⟨hbad, fun n tail hn => ?_⟩
        obtain ⟨n, rfl⟩ := Nat.exists_eq_add_of_lt hn
        rw [quotedBreaks_of_isRawBreak hmark hs hc, hbreaks _ tail (by omega)]
        rfl
      · refine .inr ⟨rawBreak c :: breaks, s', by omega, heq, fun n tail hn => ?_⟩
        obtain ⟨n, rfl⟩ := Nat.exists_eq_add_of_lt hn
        rw [quotedBreaks_of_isRawBreak hmark hs hc, hbreaks _ tail (by omega)]
        rfl
    · refine .inr ⟨[], s.dropWhile (· == ' '), hsub, rfl, fun n tail hn => ?_⟩
      obtain ⟨n, rfl⟩ := Nat.exists_eq_add_of_lt hn
      refine quotedBreaks_of_not_isRawBreak hmark (fun c hc => ?_) _ tail
      obtain ⟨t, ht⟩ := List.head?_eq_some_iff.1 hc
      exact Bool.eq_false_iff.2 fun hraw => hbreak ⟨c, t, ht, hraw⟩

/-- Spaces in front of a line break are dropped, and the break is folded. -/
theorem quotedSpace_of_isRawBreak (hs : s.dropWhile (· == ' ') = c :: t)
    (hc : isRawBreak c = true) (tail : List Char) :
    quotedSpace (inQuotes s tail) =
      (quotedBreaks ((inQuotes t tail).length + 1) (inQuotes t tail)).map
        fun r => (foldBreak (rawBreak c) r.1, r.2) := by
  have hbreak := takeBreak?_inQuotes_of_isRawBreak hc t tail
  simp only [quotedSpace, (takeWhile_inQuotes s tail).2, hs, hbreak]
  split
  · next heq => rw [heq]; rfl
  · next heq => rw [heq]; rfl

/-- Spaces in front of another character are kept. -/
theorem quotedSpace_of_not_isRawBreak
    (hs : ∀ c ∈ (s.dropWhile (· == ' ')).head?, isRawBreak c = false) (tail : List Char) :
    quotedSpace (inQuotes s tail) =
      .ok (s.takeWhile (· == ' '), inQuotes (s.dropWhile (· == ' ')) tail) := by
  have hne : inQuotes (s.dropWhile (· == ' ')) tail ≠ [] :=
    List.ne_nil_of_length_pos (Nat.zero_lt_of_lt (length_lt_inQuotes _ tail))
  simp only [quotedSpace, (takeWhile_inQuotes s tail).1, (takeWhile_inQuotes s tail).2,
    takeBreak?_inQuotes_eq_none hs]
  rw [if_neg (by simpa using hne)]

/-- Spaces in a string are read as they are, and line breaks with the spaces around them as what
they fold to. -/
theorem quotedSpace_inQuotes (hc : c = ' ' ∨ isRawBreak c = true) (s : List Char) :
    (hasMarkLine (c :: s) = true ∧
        ∀ tail, quotedSpace (inQuotes (c :: s) tail) = .error .malformed) ∨
      ∃ piece s', s'.length ≤ s.length ∧ hasMarkLine (c :: s) = hasMarkLine s' ∧
        ((∀ d ∈ c :: s, isRawBreak d = false) → piece ++ s' = c :: s) ∧
        ∀ tail, quotedSpace (inQuotes (c :: s) tail) = .ok (piece, inQuotes s' tail) := by
  rw [← hasMarkLine_dropWhile (c :: s)]
  by_cases hbreak : ∃ b t, (c :: s).dropWhile (· == ' ') = b :: t ∧ isRawBreak b = true
  · obtain ⟨b, t, hs, hb⟩ := hbreak
    have hsub : (b :: t).Sublist (c :: s) := hs ▸ (c :: s).dropWhile_sublist _
    have hlength : t.length ≤ s.length := Nat.le_of_succ_le_succ hsub.length_le
    have hfuel : ∀ tail, t.length < (inQuotes t tail).length + 1 := fun tail =>
      Nat.lt_succ_of_lt (length_lt_inQuotes t tail)
    rw [hs, hasMarkLine, hb, Bool.true_and]
    rcases quotedBreaks_inQuotes t with ⟨hbad, hbreaks⟩ | ⟨breaks, s', hs', heq, hbreaks⟩
    · refine .inl ⟨hbad, fun tail => ?_⟩
      rw [quotedSpace_of_isRawBreak hs hb, hbreaks _ tail (hfuel tail)]
      rfl
    · refine .inr ⟨foldBreak (rawBreak b) breaks, s', by omega, heq, fun hnone => ?_,
        fun tail => ?_⟩
      · have hfalse := hnone b (hsub.subset List.mem_cons_self)
        exact absurd hb (by simp [hfalse])
      · rw [quotedSpace_of_isRawBreak hs hb, hbreaks _ tail (hfuel tail)]
        rfl
  · have hhead : ∀ d ∈ ((c :: s).dropWhile (· == ' ')).head?, isRawBreak d = false := by
      intro d hd
      obtain ⟨t, ht⟩ := List.head?_eq_some_iff.1 hd
      exact Bool.eq_false_iff.2 fun hraw => hbreak ⟨d, t, ht, hraw⟩
    -- the first character is a space, so that something is passed over
    have hspace : c = ' ' := by
      refine hc.resolve_right fun hraw => hbreak ⟨c, s, ?_, hraw⟩
      refine List.dropWhile_cons_of_neg ?_
      rw [beq_iff_eq]
      rintro rfl
      exact absurd hraw (by decide)
    have hlength : ((c :: s).dropWhile (· == ' ')).length ≤ s.length := by
      rw [hspace, List.dropWhile_cons_of_pos rfl]
      exact (s.dropWhile_sublist _).length_le
    exact .inr ⟨_, _, hlength, rfl, fun _ => List.takeWhile_append_dropWhile,
      quotedSpace_of_not_isRawBreak hhead⟩

/-- The first piece of a string: an escape, spaces and line breaks, or a character. -/
theorem doubleQuoted_inQuotes_cons (c : Char) (s : List Char) :
    (hasMarkLine (c :: s) = true ∧
        ∀ n tail, doubleQuoted (n + 1) (inQuotes (c :: s) tail) = .error .malformed) ∨
      ∃ piece s', s'.length ≤ s.length ∧ hasMarkLine (c :: s) = hasMarkLine s' ∧
        ((∀ d ∈ c :: s, isRawBreak d = false) → piece ++ s' = c :: s) ∧
        ∀ n tail, doubleQuoted (n + 1) (inQuotes (c :: s) tail) =
          prepend piece (doubleQuoted n (inQuotes s' tail)) := by
  rcases escape_or_self c with ⟨⟨-, hraw⟩, letters, heq, hescape⟩ | ⟨hcontrol, hquote, hback, heq⟩
  · refine .inr ⟨[c], s, Nat.le_refl _, hasMarkLine_cons hraw s, fun _ => rfl, fun n tail => ?_⟩
    have hnot : ('\\' == '"') = false := by decide
    rw [inQuotes_cons, heq, List.cons_append, doubleQuoted, hnot]
    simp only [Bool.false_eq_true, if_false, beq_self_eq_true, if_true, hescape]
  -- from here on the character is written as itself
  have hline : ∀ tail, inQuotes (c :: s) tail = c :: inQuotes s tail := fun tail => by
    rw [inQuotes_cons, heq, List.singleton_append]
  have hquote : (c == '"') = false := beq_eq_false_iff_ne.2 hquote
  have hback : (c == '\\') = false := beq_eq_false_iff_ne.2 hback
  have htab : (c == '\t') = false := beq_eq_false_iff_ne.2 (ne_of_not_control hcontrol (by decide))
  -- a space or a line break takes what follows it along, since breaks are folded
  by_cases hblank : c = ' ' ∨ isRawBreak c = true
  · have htest : (c == ' ' || isRawBreak c) = true := by simpa using hblank
    rcases quotedSpace_inQuotes hblank s with
      ⟨hbad, hspace⟩ | ⟨piece, s', hs', hsame, hkeep, hspace⟩
    · refine .inl ⟨hbad, fun n tail => ?_⟩
      rw [hline, doubleQuoted, hquote, hback, htab, isBreak_of_not_control hcontrol, Bool.or_false,
        htest, ← hline, hspace]
      rfl
    · refine .inr ⟨piece, s', hs', hsame, hkeep, fun n tail => ?_⟩
      rw [hline, doubleQuoted, hquote, hback, htab, isBreak_of_not_control hcontrol, Bool.or_false,
        htest, ← hline, hspace]
      rfl
  · obtain ⟨hspace, hraw⟩ := not_or.1 hblank
    have hraw : isRawBreak c = false := Bool.eq_false_iff.2 hraw
    refine .inr ⟨[c], s, Nat.le_refl _, hasMarkLine_cons hraw s, fun _ => rfl, fun n tail => ?_⟩
    rw [hline, doubleQuoted, hquote, hback, htab, isBreak_of_not_control hcontrol, hraw,
      beq_eq_false_iff_ne.2 hspace]
    rfl

/-- A JSON string is read as a scalar in quotation marks, unless one of its lines starts with the
mark of a document. Without line breaks the scalar is the string. -/
theorem doubleQuoted_inQuotes (s : List Char) :
    (hasMarkLine s = true ∧
        ∀ n tail, s.length < n → doubleQuoted n (inQuotes s tail) = .error .malformed) ∨
      (hasMarkLine s = false ∧ ∃ content,
        ((∀ c ∈ s, isRawBreak c = false) → content = s) ∧
        ∀ n tail, s.length < n → doubleQuoted n (inQuotes s tail) = .ok (content, tail)) := by
  -- by the length, since one step may read several characters
  induction hlen : s.length using Nat.strongRecOn generalizing s with
  | ind length ih =>
    subst hlen
    cases s with
    | nil =>
      refine .inr ⟨rfl, [], fun _ => rfl, fun n tail hn => ?_⟩
      obtain ⟨n, rfl⟩ := Nat.exists_eq_add_of_lt hn
      rfl
    | cons c s =>
      rcases doubleQuoted_inQuotes_cons c s with
        ⟨hbad, hstep⟩ | ⟨piece, s', hs', hsame, hkeep, hstep⟩
      · refine .inl ⟨hbad, fun n tail hn => ?_⟩
        obtain ⟨n, rfl⟩ := Nat.exists_eq_add_of_lt hn
        exact hstep _ tail
      have hlength : s'.length < (c :: s).length := Nat.lt_succ_of_le hs'
      rw [hsame]
      rcases ih s'.length hlength s' rfl with ⟨hbad, hrest⟩ | ⟨hgood, content, hcontent, hrest⟩
      · refine .inl ⟨hbad, fun n tail hn => ?_⟩
        obtain ⟨n, rfl⟩ := Nat.exists_eq_add_of_lt hn
        rw [hstep, hrest _ tail (by omega)]
        rfl
      · refine .inr ⟨hgood, piece ++ content, fun hnone => ?_, fun n tail hn => ?_⟩
        · have hsplit := hkeep hnone
          rw [← hsplit, hcontent fun d hd => hnone d (hsplit ▸ List.mem_append_right piece hd)]
        · obtain ⟨n, rfl⟩ := Nat.exists_eq_add_of_lt hn
          rw [hstep, hrest _ tail (by omega)]
          rfl

/-! ## Strings -/

/-- A string in front of a text is what is in quotes behind its opening mark. -/
theorem stringText_append (str : String) (tail : List Char) :
    Json.stringText str ++ tail = '"' :: inQuotes str.toList tail := by
  simp [Json.stringText, inQuotes]

/-- A text on one line has no mark on a further line. -/
theorem hasMarkLine_of_all (h : s.all (!isRawBreak ·) = true) : hasMarkLine s = false := by
  induction s with
  | nil => rfl
  | cons c s ih =>
    rw [List.all_cons, Bool.and_eq_true, Bool.not_eq_true'] at h
    rw [hasMarkLine_cons h.1, ih h.2]

/-- What a JSON string is read as. -/
def quotedContent (str : String) : List Char :=
  match doubleQuoted (str.toList.length + 1) (inQuotes str.toList []) with
  | .ok (content, _) => content
  | .error _ => []

/-- A string is read as one thing, whatever the bound and the text behind it. -/
theorem doubleQuoted_of_not_hasMarkLine {str : String} (h : hasMarkLine str.toList = false)
    {n : Nat} (hn : str.toList.length < n) (tail : List Char) :
    doubleQuoted n (inQuotes str.toList tail) = .ok (quotedContent str, tail) := by
  rcases doubleQuoted_inQuotes str.toList with ⟨hbad, -⟩ | ⟨-, content, -, hread⟩
  · rw [h] at hbad
    cases hbad
  · rw [quotedContent, hread _ [] (Nat.lt_succ_self _), hread n tail hn]

/-- A string with a mark at the start of a line is malformed. -/
theorem doubleQuoted_of_hasMarkLine {str : String} (h : hasMarkLine str.toList = true) {n : Nat}
    (hn : str.toList.length < n) (tail : List Char) :
    doubleQuoted n (inQuotes str.toList tail) = .error .malformed := by
  rcases doubleQuoted_inQuotes str.toList with ⟨-, hread⟩ | ⟨hgood, -⟩
  · exact hread n tail hn
  · rw [h] at hgood
    cases hgood

/-- A string on one line is read as its text. -/
theorem quotedContent_of_all {str : String} (h : str.toList.all (!isRawBreak ·) = true) :
    quotedContent str = str.toList := by
  rcases doubleQuoted_inQuotes str.toList with ⟨hbad, -⟩ | ⟨-, content, hkeep, hread⟩
  · rw [hasMarkLine_of_all h] at hbad
    cases hbad
  · rw [quotedContent, hread _ [] (Nat.lt_succ_self _)]
    exact hkeep fun c hc => by simpa using List.all_eq_true.1 h c hc

end ApiDoc.Yaml
