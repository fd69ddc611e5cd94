import ApiDoc.Proofs.Json.Numerals
import ApiDoc.Yaml.Resolve
import ApiDoc.Yaml.Scalar

/-!
# JSON words as plain scalars

A number, a truth value and the word for nothing stand in a JSON text without quotation marks, and
are read as plain scalars. The scalar is the word (`plain_of_comma`, `plain_of_newline`), and it has
a value, which is a truth value just if the word was one (`exists_atomOf_atomText`). It need not be
the same value: a power of ten without a point, as in `1e+16`, is a text.
-/

namespace ApiDoc

open Json (isNumberChar)

variable {s t ds rest : List Char}

namespace Yaml

/-! ## Forms of numbers -/

/-- A digit may stand in a number. -/
theorem isDigitMark_of_isDigit {c : Char} (h : c.isDigit = true) : isDigitMark c = true := by
  rw [isDigitMark, h, Bool.true_or]

/-- A run of digits ends where a character of another kind comes. -/
theorem dropWhile_isDigitMark (hds : ∀ c ∈ ds, c.isDigit = true)
    (hrest : ∀ c ∈ rest.head?, isDigitMark c = false) :
    (ds ++ rest).dropWhile isDigitMark = rest := by
  rw [List.dropWhile_append_of_pos fun c hc => isDigitMark_of_isDigit (hds c hc)]
  cases rest with
  | nil => rfl
  | cons c rest => exact List.dropWhile_cons_of_neg (by simp [hrest c rfl])

/-- A power of ten has the form of an exponent. -/
theorem isExponentForm_of_isPower (h : IsPower t) : isExponentForm t = true := by
  cases h with
  | none => rfl
  | @some sign ds hsign hds =>
    have hdigits : allOf Char.isDigit ds = true := by
      rw [allOf, Bool.and_eq_true]
      exact ⟨by simpa using hds.1, List.all_eq_true.2 hds.2⟩
    rw [isExponentForm, hdigits]
    rcases hsign with rfl | rfl <;> rfl

/-- Digits with a fraction have the form of a number with a point. -/
theorem isPointForm_point {fraction power : List Char} (hds : IsDigits ds)
    (hfraction : ∀ c ∈ fraction, c.isDigit = true) (hpower : IsPower power) :
    isPointForm (ds ++ '.' :: (fraction ++ power)) = true := by
  obtain ⟨c, ds, rfl⟩ := List.exists_cons_of_ne_nil hds.1
  obtain ⟨hc, hds⟩ := List.forall_mem_cons.1 hds.2
  have hpoint : (ds ++ '.' :: (fraction ++ power)).dropWhile isDigitMark =
      '.' :: (fraction ++ power) := dropWhile_isDigitMark hds (by simp; decide)
  have hrest : (fraction ++ power).dropWhile isDigitMark = power := by
    refine dropWhile_isDigitMark hfraction fun c hc => ?_
    cases hpower with
    | none => cases hc
    | some _ _ =>
      cases hc
      decide
  rw [List.cons_append, isPointForm, hc, hpoint]
  simp only [hrest, isExponentForm_of_isPower hpower, Bool.true_and]

/-- Digits alone do not have the form of a number with a point. -/
theorem isPointForm_whole (hds : IsDigits ds) : isPointForm ds = false := by
  obtain ⟨c, ds, rfl⟩ := List.exists_cons_of_ne_nil hds.1
  have hrest : (ds ++ []).dropWhile isDigitMark = [] :=
    dropWhile_isDigitMark (List.forall_mem_cons.1 hds.2).2 (by simp)
  rw [List.append_nil] at hrest
  rw [isPointForm, hrest]
  exact Bool.and_false _

/-- A digit with a power of ten does not have the form of a decimal. -/
theorem isDecimalForm_power (d sign : Char) (ds : List Char) :
    isDecimalForm (d :: 'e' :: sign :: ds) = false := by
  have hmark : isDigitMark 'e' = false := by decide
  simp [isDecimalForm, hmark]

/-- A digit with a power of ten does not have the form of an integer. -/
theorem isIntForm_power (d sign : Char) (ds : List Char) :
    isIntForm (d :: 'e' :: sign :: ds) = false := by
  have hmark : isDigitMark 'e' = false := by decide
  have hoctal : allOf (fun c => ('0' ≤ c && c ≤ '7') || c == '_') ('e' :: sign :: ds) = false := by
    simp [allOf]
  have hsixties : afterSixties? (('e' :: sign :: ds).dropWhile isDigitMark) = none := by
    rw [List.dropWhile_cons_of_neg (by simp [hmark])]
    rfl
  refine Bool.or_eq_false_iff.2 ⟨Bool.or_eq_false_iff.2 ⟨?_, isDecimalForm_power d sign ds⟩, ?_⟩
  · split
    · next heq => cases heq
    · next heq => cases heq
    · next heq =>
      cases heq
      exact hoctal
    · rfl
  · simp only [hsixties]
    exact Bool.and_false _

/-- A power of ten without a point is no form of a number. -/
theorem forms_power {power : List Char} (digit : Option Char) (hpower : IsPower power)
    (hne : power ≠ []) :
    isPointForm (digit.toList ++ power) = false ∧ isIntForm (digit.toList ++ power) = false := by
  cases hpower with
  | none => exact absurd rfl hne
  | some _ _ =>
    cases digit with
    | none => exact ⟨rfl, rfl⟩
    | some d =>
      refine ⟨?_, isIntForm_power d _ _⟩
      have hmark : isDigitMark 'e' = false := by decide
      rw [Option.toList_some, List.singleton_append, isPointForm,
        List.dropWhile_cons_of_neg (by simp [hmark])]
      exact Bool.and_false _

/-- A text that does not start with two digits is no moment. -/
theorem moment?_of_twoDigits? (h : twoDigits? t = none) (loose : Bool) :
    moment? loose t = none := by
  rw [moment?, h]
  rfl

/-- A power of ten with at most one digit in front does not start like a date. -/
theorem twoDigits?_power {power : List Char} (digit : Option Char) (hpower : IsPower power)
    (hne : power ≠ []) :
    twoDigits? (digit.toList ++ power) = none ∧
      twoDigits? ('-' :: (digit.toList ++ power)) = none := by
  cases hpower with
  | none => exact absurd rfl hne
  | some _ _ =>
    cases digit with
    | none => exact ⟨rfl, rfl⟩
    | some d =>
      have hletter : (d.isDigit && 'e'.isDigit) = false := Bool.and_false _
      refine ⟨?_, rfl⟩
      rw [Option.toList_some, List.singleton_append, twoDigits?, hletter]
      rfl

/-- Digits without a leading zero have the form of an integer. -/
theorem isIntForm_whole (hds : IsDigits ds) (hzero : ds.head? = some '0' → ds = ['0']) :
    isIntForm ds = true := by
  have hdecimal : isDecimalForm ds = true := by
    obtain ⟨c, ds, rfl⟩ := List.exists_cons_of_ne_nil hds.1
    by_cases hc : c = '0'
    · rw [hzero (by rw [hc]; rfl)]
      rfl
    · obtain ⟨hdigit, hrest⟩ := List.forall_mem_cons.1 hds.2
      have hrange : '1' ≤ c ∧ c ≤ '9' := by
        have hall : "0123456789+-.e".toList.all (fun d =>
          !d.isDigit || d == '0' || (decide ('1' ≤ d) && decide (d ≤ '9'))) = true := by decide
        have htest := of_isNumberChar hall (isNumberChar_of_isDigit hdigit)
        simpa [hdigit, hc] using htest
      have hmarks : ds.all isDigitMark = true :=
        List.all_eq_true.2 fun d hd => isDigitMark_of_isDigit (hrest d hd)
      rw [isDecimalForm]
      · simp [hrange, hmarks]
      · rintro heq -
        exact hc heq
  unfold isIntForm
  rw [hdecimal, Bool.or_true, Bool.true_or]

/-! ## Types of numbers -/

/-- A number is not changed when its sign is taken away. -/
theorem unsigned_of_isNumeral (h : IsNumeral t) : unsigned t = t := by
  rw [unsigned]
  · exact fun rest => (h.ne_sign rest).1
  · exact fun rest => (h.ne_sign rest).2

/-- A text with a digit is no word without digits. -/
theorem ofList_ne_of_isDigit (h : ∃ c ∈ t, c.isDigit = true) {word : String}
    (hword : word.toList.all (!·.isDigit) = true) : String.ofList t ≠ word := by
  rintro rfl
  obtain ⟨c, hc, hdigit⟩ := h
  rw [String.toList_ofList] at hword
  have hnot := List.all_eq_true.1 hword c hc
  rw [hdigit] at hnot
  cases hnot

/-- A text without line feeds loses none. -/
theorem withoutLineFeed_eq_self (h : '\n' ∉ t) : withoutLineFeed t = t := by
  have hlast : t.getLast? ≠ some '\n' := fun heq => h (List.mem_of_getLast? heq)
  rw [withoutLineFeed, beq_eq_false_iff_ne.2 hlast]
  rfl

/-- The words that have a meaning of their own have no digits, so a number has the type of its
form. -/
theorem typeOf_of_isDigit (h : ∃ c ∈ t, c.isDigit = true) (hline : '\n' ∉ t) :
    typeOf (String.ofList t) =
      if isFloatForm t then .float
      else if isIntForm (unsigned t) then .int
      else if (moment? false t).isSome then .moment
      else .text := by
  have hbool : boolWords.any (·.1 == String.ofList t) = false := by
    have hwords : boolWords.all (fun e => e.1.toList.all (!·.isDigit)) = true := by decide
    refine List.any_eq_false.2 fun e he heq => ?_
    exact ofList_ne_of_isDigit h (List.all_eq_true.1 hwords e he) (beq_iff_eq.1 heq).symm
  have hcontains : ∀ words : List String, words.all (fun w => w.toList.all (!·.isDigit)) = true →
      words.contains (String.ofList t) = false := by
    intro words hwords
    rw [List.contains_eq_any_beq, List.any_eq_false]
    intro w hw heq
    exact ofList_ne_of_isDigit h (List.all_eq_true.1 hwords w hw) (beq_iff_eq.1 heq)
  have hmerge : (String.ofList t == "<<") = false :=
    beq_eq_false_iff_ne.2 (ofList_ne_of_isDigit h (by decide))
  have hdefault : (String.ofList t == "=") = false :=
    beq_eq_false_iff_ne.2 (ofList_ne_of_isDigit h (by decide))
  rw [typeOf, String.toList_ofList, withoutLineFeed_eq_self hline, hbool, hmerge, hdefault,
    hcontains nullWords (by decide), hcontains ["!", "&", "*"] (by decide)]
  simp only [Bool.false_eq_true, if_false]

/-- A number without its sign is its numeral. -/
theorem unsigned_of_signed (h : IsNumeral s) (ht : t = s ∨ t = '-' :: s) : unsigned t = s := by
  rcases ht with rfl | rfl
  · exact unsigned_of_isNumeral h
  · rfl

/-- The characters of a numeral are in it with its sign too. -/
theorem mem_of_signed (ht : t = s ∨ t = '-' :: s) {c : Char} (hc : c ∈ s) : c ∈ t := by
  rcases ht with rfl | rfl
  · exact hc
  · exact List.mem_cons_of_mem _ hc

/-- A number with its sign has characters of numbers only. -/
theorem isNumberChar_of_signed (h : IsNumeral s) (ht : t = s ∨ t = '-' :: s) :
    ∀ c ∈ t, isNumberChar c = true := by
  rcases ht with rfl | rfl
  · exact h.isNumberChar
  · exact List.forall_mem_cons.2 ⟨by decide, h.isNumberChar⟩

/-- A number has the form of a floating-point number just if it has a point. -/
theorem isFloatForm_of_signed (h : IsNumeral s) (ht : t = s ∨ t = '-' :: s) :
    isFloatForm t = isPointForm s := by
  obtain ⟨d, hd, hdigit⟩ := h.exists_digit
  have hcontains : ∀ (words : List (List Char)) (u : List Char), d ∈ u →
      words.all (·.all (!·.isDigit)) = true → words.contains u = false := by
    intro words u hu hwords
    rw [List.contains_eq_any_beq, List.any_eq_false]
    intro w hw heq
    rw [← beq_iff_eq.1 heq] at hw
    have hnot := List.all_eq_true.1 (List.all_eq_true.1 hwords u hw) d hu
    rw [hdigit] at hnot
    cases hnot
  have hpoint : ∀ rest, t ≠ '.' :: rest := by
    obtain ⟨c, rest, rfl, hc⟩ := h.start
    rcases ht with rfl | rfl
    · rintro rest' heq
      obtain ⟨rfl, -⟩ := List.cons.inj heq
      rcases hc with hc | hc <;> exact absurd hc (by decide)
    · exact fun _ heq => absurd (List.cons.inj heq).1 (by decide)
  unfold isFloatForm
  rw [unsigned_of_signed h ht, hcontains _ s hd (by decide),
    hcontains _ t (mem_of_signed ht hd) (by decide), Bool.or_false, Bool.or_false]
  split
  · next heq => exact absurd rfl (hpoint _)
  · exact Bool.or_false _

/-! ## Values of numbers -/

/-- A number is in lower case. -/
theorem lowerAfter_of_isNumberChar (h : ∀ c ∈ t, isNumberChar c = true) (before : List Char) :
    Text.lowerAfter before t = t := by
  induction t generalizing before with
  | nil => rfl
  | cons c t ih =>
    obtain ⟨hc, ht⟩ := List.forall_mem_cons.1 h
    have hall : "0123456789+-.e".toList.all (fun c =>
      !decide (c.toNat = 0x130) && !decide (c.toNat = 0x3A3) && Text.lowerChar c == c) = true := by
      decide
    have htest := of_isNumberChar hall hc
    simp only [Bool.and_eq_true, Bool.not_eq_true', decide_eq_false_iff_not, beq_iff_eq] at htest
    rw [Text.lowerAfter, if_neg htest.1.1, if_neg htest.1.2, htest.2, ih ht]

/-- A number has no underscores. -/
theorem filter_of_isNumberChar (h : ∀ c ∈ t, isNumberChar c = true) : t.filter (· != '_') = t := by
  have hall : "0123456789+-.e".toList.all (· != '_') = true := by decide
  exact List.filter_eq_self.2 fun c hc => of_isNumberChar hall (h c hc)

/-- A number has no colons. -/
theorem not_contains_colon (h : ∀ c ∈ t, isNumberChar c = true) : t.contains ':' = false := by
  have hcolon : ':' ∉ t := fun hmem => absurd (h ':' hmem) (by decide)
  simpa using hcolon

/-- Digits without a leading zero that are not too many are an integer. -/
theorem exists_intOf (hds : IsDigits ds) (hzero : ds.head? = some '0' → ds = ['0'])
    (hlength : ds.length ≤ Numeral.maxDigits) : ∃ i, intOf ds = .ok i := by
  have hnumeral := IsNumeral.whole hds hzero hlength
  by_cases hhead : ds.head? = some '0'
  · exact ⟨0, by rw [hzero hhead]; rfl⟩
  · have hne : ∀ rest, ds ≠ '0' :: rest := by
      rintro rest rfl
      exact hhead rfl
    obtain ⟨i, hi⟩ := Numeral.exists_integer? hds hnumeral hlength
    refine ⟨i, ?_⟩
    unfold intOf
    split
    · exact absurd rfl (hne _)
    · exact absurd rfl (hne _)
    · exact absurd rfl (hne _)
    · exact absurd rfl (hne _)
    · rw [not_contains_colon hnumeral.isNumberChar, hi]
      rfl

/-- Digits with a fraction are a floating-point number. -/
theorem exists_floatOf {fraction power : List Char} (hds : IsDigits ds)
    (hfraction : ∀ c ∈ fraction, c.isDigit = true) (hpower : IsPower power) :
    ∃ x, floatOf (ds ++ '.' :: (fraction ++ power)) = .ok x := by
  have hnumeral := IsNumeral.point hds hfraction hpower
  have hword : ∀ word : List Char, word.all (!·.isDigit) = true →
      (ds ++ '.' :: (fraction ++ power) == word) = false := by
    intro word hword
    rw [beq_eq_false_iff_ne]
    rintro rfl
    obtain ⟨c, hc, hdigit⟩ := hnumeral.exists_digit
    have hnot := List.all_eq_true.1 hword c hc
    rw [hdigit] at hnot
    cases hnot
  obtain ⟨x, hx⟩ := Numeral.exists_float? hds hfraction hpower
  refine ⟨x, ?_⟩
  rw [floatOf, hword _ (by decide), hword _ (by decide),
    not_contains_colon hnumeral.isNumberChar, hx]
  rfl

/-- The body of a number is its numeral. -/
theorem floatBody_of_signed (h : IsNumeral s) (ht : t = s ∨ t = '-' :: s) : floatBody t = s := by
  rw [floatBody, filter_of_isNumberChar (isNumberChar_of_signed h ht), unsigned_of_signed h ht,
    Text.lower, String.toList_ofList, String.toList_ofList,
    lowerAfter_of_isNumberChar h.isNumberChar]

/-- A number is read as a number, or as a text if it has a power of ten and no point. -/
theorem exists_atomOf_number (h : IsNumber t) (mark : Option Mark) :
    ∃ a, atomOf mark (typeOf (String.ofList t)) (String.ofList t) = .ok a ∧ ∀ b, a ≠ .bool b := by
  obtain ⟨s, hs, ht⟩ := h
  have hchars := isNumberChar_of_signed hs ht
  obtain ⟨d, hd, hdigit⟩ := hs.exists_digit
  have hline : '\n' ∉ t := fun hmem => absurd (hchars _ hmem) (by decide)
  have hbare : (String.ofList t).toList.filter (· != '_') = t := by
    rw [String.toList_ofList, filter_of_isNumberChar hchars]
  have hunsigned := unsigned_of_signed hs ht
  have hbody := floatBody_of_signed hs ht
  have hnonempty : t ≠ [] := List.ne_nil_of_mem (mem_of_signed ht hd)
  rw [typeOf_of_isDigit ⟨d, mem_of_signed ht hd, hdigit⟩ hline, isFloatForm_of_signed hs ht,
    hunsigned]
  -- a number with a point or without one is read as such, one with a power only is a text
  cases hs with
  | whole hds hzero hlength =>
    obtain ⟨i, hi⟩ := exists_intOf hds hzero hlength
    rw [isPointForm_whole hds, isIntForm_whole hds hzero]
    simp only [Bool.false_eq_true, if_false, if_true, atomOf, hbare, hunsigned, hi]
    rw [if_neg (by simpa using hds.1)]
    exact ⟨_, rfl, fun b heq => by cases heq⟩
  | point hds hfraction hpower =>
    obtain ⟨x, hx⟩ := exists_floatOf hds hfraction hpower
    rw [isPointForm_point hds hfraction hpower]
    simp only [if_true, atomOf, hbare]
    rw [if_neg (by simpa using hnonempty), String.toList_ofList, hbody, hx]
    exact ⟨_, rfl, fun b heq => by cases heq⟩
  | power digit hdigit hpower hne =>
    have hmoment : moment? false t = none := by
      obtain ⟨hplain, hminus⟩ := twoDigits?_power digit hpower hne
      rcases ht with rfl | rfl
      · exact moment?_of_twoDigits? hplain false
      · exact moment?_of_twoDigits? hminus false
    rw [(forms_power digit hpower hne).1, (forms_power digit hpower hne).2, hmoment]
    exact ⟨.text (String.ofList t), rfl, fun b heq => by cases heq⟩

/-! ## Words of atoms -/

/-- The words that stand in a JSON text without quotation marks. -/
def IsWord (t : List Char) : Prop :=
  t = "null".toList ∨ t = "true".toList ∨ t = "false".toList ∨ IsNumber t

/-- An atom that is written without quotation marks. -/
def IsBare : Atom → Prop
  | .null | .bool _ | .int _ => True
  | .float x => x.isFinite = true
  | _ => False

/-- The text of an atom without quotation marks is a word. -/
theorem isWord_of_atomText {a : Atom} (ha : IsBare a) (h : Json.atomText a = .ok t) : IsWord t := by
  cases a with
  | null =>
    cases h
    exact .inl rfl
  | bool b =>
    cases h
    cases b
    · exact .inr (.inr (.inl rfl))
    · exact .inr (.inl rfl)
  | int i => exact .inr (.inr (.inr (isNumber_of_intText h)))
  | float x =>
    cases h
    exact .inr (.inr (.inr (isNumber_of_floatText ha)))
  | text s => exact ha.elim
  | bytes bs => exact ha.elim
  | moment m mark => exact ha.elim

/-- The word of an atom has a value, which is a truth value just if the atom is that one. -/
theorem exists_atomOf_atomText {a : Atom} (ha : IsBare a) (h : Json.atomText a = .ok t)
    (mark : Option Mark) :
    ∃ a', atomOf mark (typeOf (String.ofList t)) (String.ofList t) = .ok a' ∧
      ∀ b, a' = .bool b ↔ a = .bool b := by
  have hnumber : IsNumber t → (∀ b, a ≠ .bool b) →
      ∃ a', atomOf mark (typeOf (String.ofList t)) (String.ofList t) = .ok a' ∧
        ∀ b, a' = .bool b ↔ a = .bool b := by
    intro ht hne
    obtain ⟨a', ha', hne'⟩ := exists_atomOf_number ht mark
    exact ⟨a', ha', fun b => iff_of_false (hne' b) (hne b)⟩
  cases a with
  | null =>
    cases h
    exact ⟨.null, rfl, fun b => Iff.rfl⟩
  | bool b =>
    cases h
    cases b
    · exact ⟨.bool false, rfl, fun b => Iff.rfl⟩
    · exact ⟨.bool true, rfl, fun b => Iff.rfl⟩
  | int i => exact hnumber (isNumber_of_intText h) fun b heq => by cases heq
  | float x =>
    cases h
    exact hnumber (isNumber_of_floatText ha) fun b heq => by cases heq
  | text s => exact ha.elim
  | bytes bs => exact ha.elim
  | moment m mark => exact ha.elim

/-! ## Words as plain scalars -/

/-- The characters of words are few enough to try them all. -/
theorem IsWord.all {p : Char → Bool} (hp : "aeflnrstu0123456789+-.".toList.all p = true)
    (h : IsWord t) : ∀ c ∈ t, p c = true := by
  have hwords : ∀ word : List Char,
      word.all ("aeflnrstu0123456789+-.".toList.contains ·) = true → ∀ c ∈ word, p c = true := by
    intro word hword c hc
    exact List.all_eq_true.1 hp c (by simpa using List.all_eq_true.1 hword c hc)
  rcases h with rfl | rfl | rfl | ⟨s, hs, ht⟩
  · exact hwords _ (by decide)
  · exact hwords _ (by decide)
  · exact hwords _ (by decide)
  · intro c hc
    refine of_isNumberChar ?_ (isNumberChar_of_signed hs ht c hc)
    have hsub :
        "0123456789+-.e".toList.all ("aeflnrstu0123456789+-.".toList.contains ·) = true := by
      decide
    exact List.all_eq_true.2 (hwords _ hsub)

/-- A word starts with a letter or a digit, perhaps behind a minus sign. -/
theorem IsWord.start (h : IsWord t) :
    ∃ c rest, "efnt0123456789".toList.contains c = true ∧
      (t = c :: rest ∨ t = '-' :: c :: rest) := by
  rcases h with rfl | rfl | rfl | ⟨s, hs, ht⟩
  · exact ⟨'n', _, by decide, .inl rfl⟩
  · exact ⟨'t', _, by decide, .inl rfl⟩
  · exact ⟨'f', _, by decide, .inl rfl⟩
  · obtain ⟨c, rest, rfl, hc⟩ := hs.start
    refine ⟨c, rest, ?_, ht⟩
    rcases hc with hc | rfl
    · have hall : "0123456789+-.e".toList.all (fun d =>
        !d.isDigit || "efnt0123456789".toList.contains d) = true := by decide
      have htest := of_isNumberChar hall (isNumberChar_of_isDigit hc)
      rwa [hc, Bool.not_true, Bool.false_or] at htest
    · decide

/-- A plain scalar goes on with a character that is no blank, colon or mark. -/
theorem endsPlain_cons {c : Char} (hbreak : endsToken [c] = false) (hcolon : c ≠ ':')
    (hmark : (isFlowMark c || c == '?') = false) (inFlow : Bool) (s : List Char) :
    endsPlain inFlow (c :: s) = false := by
  unfold endsPlain
  refine Bool.or_eq_false_iff.2 ⟨hbreak, ?_⟩
  split
  · next heq => exact absurd (List.cons.inj heq).1 hcolon
  · next heq =>
    cases heq
    rw [hmark, Bool.and_false]
  · next heq => cases heq

/-- A plain scalar goes on with all characters of a word. -/
theorem endsPlain_word (h : IsWord t) {c : Char} (hc : c ∈ t) (inFlow : Bool) (s : List Char) :
    endsPlain inFlow (c :: s) = false := by
  have hall : "aeflnrstu0123456789+-.".toList.all (fun c =>
    !endsToken [c] && c != ':' && !(isFlowMark c || c == '?')) = true := by decide
  have htest := h.all hall c hc
  simp only [Bool.and_eq_true, Bool.not_eq_true', bne_iff_ne] at htest
  exact endsPlain_cons htest.1.1 htest.1.2 htest.2 inFlow s

/-- Where a plain scalar ends there is no further piece of it. -/
theorem plainPiece_of_endsPlain {inFlow : Bool} (h : endsPlain inFlow t = true) :
    plainPiece inFlow t = ([], t) := by
  cases t with
  | nil => rfl
  | cons c t => rw [plainPiece, if_pos h]

/-- A word is a piece of a plain scalar in front of what ends one. -/
theorem plainPiece_word {inFlow : Bool} (h : IsWord t) (hrest : endsPlain inFlow rest = true) :
    plainPiece inFlow (t ++ rest) = (t, rest) := by
  have hall : ∀ c ∈ t, ∀ s, endsPlain inFlow (c :: s) = false :=
    fun c hc s => endsPlain_word h hc inFlow s
  clear h
  induction t with
  | nil => exact plainPiece_of_endsPlain hrest
  | cons c t ih =>
    obtain ⟨hc, ht⟩ := List.forall_mem_cons.1 hall
    rw [List.cons_append, plainPiece, if_neg (by simp [hc]), ih ht]

/-- A word in front of a comma is read to its end. -/
theorem plain_of_comma (h : IsWord t) (n : Nat) (indent : Int) (column : Nat) (rest : List Char) :
    plain true (n + 1) indent column (t ++ ',' :: rest) = (t, false, ',' :: rest) := by
  obtain ⟨c, cs, -, hstart⟩ := h.start
  have hne : t ≠ [] := by rcases hstart with rfl | rfl <;> exact List.cons_ne_nil _ _
  obtain ⟨d, ds, rfl⟩ := List.exists_cons_of_ne_nil hne
  rw [plain, plainPiece_word h rfl]
  rfl

/-- A text that is empty or starts with the end of a list or an object. -/
def Closes (t : List Char) : Prop := ∀ c ∈ t.head?, c = ']' ∨ c = '\x7d'

/-- A text that closes is empty or starts with a closing bracket or brace. -/
theorem Closes.cases (h : Closes t) :
    t = [] ∨ (∃ rest, t = ']' :: rest) ∨ ∃ rest, t = '\x7d' :: rest := by
  cases t with
  | nil => exact .inl rfl
  | cons c rest =>
    rcases h c rfl with rfl | rfl
    · exact .inr (.inl ⟨rest, rfl⟩)
    · exact .inr (.inr ⟨rest, rfl⟩)

/-- Spaces in front of what closes are passed over. -/
theorem plainBreaks_replicate (ht : Closes t) (k column : Nat) :
    plainBreaks column (List.replicate k ' ' ++ t) = (some [], column + k, t) := by
  induction k generalizing column with
  | zero => rcases ht.cases with rfl | ⟨rest, rfl⟩ | ⟨rest, rfl⟩ <;> rfl
  | succ k ih =>
    rw [List.replicate_succ, List.cons_append, plainBreaks, if_pos (beq_self_eq_true ' '), ih,
      Nat.add_right_comm, Nat.add_assoc]

/-- A new line in front of what closes is one space. -/
theorem plainSpace_newline (ht : Closes t) (k : Nat) :
    plainSpace ('\n' :: (List.replicate k ' ' ++ t)) = ⟨[' '], some k, t⟩ := by
  have hmark : isDocumentMark (List.replicate k ' ' ++ t) = false := by
    cases k with
    | zero => rcases ht.cases with rfl | ⟨rest, rfl⟩ | ⟨rest, rfl⟩ <;> rfl
    | succ k => rfl
  have hbreak : takeBreak? ('\n' :: (List.replicate k ' ' ++ t)) =
      some ('\n', List.replicate k ' ' ++ t) := rfl
  have htail : ('\n' :: (List.replicate k ' ' ++ t)).dropWhile (· == ' ') =
      '\n' :: (List.replicate k ' ' ++ t) := rfl
  rw [plainSpace, htail, hbreak]
  simp only [hmark, Bool.false_eq_true, if_false, plainBreaks_replicate ht, Nat.zero_add]
  rfl

/-- A word at the end of a line is a plain scalar of its own, and the line break is passed over with
it. -/
theorem plain_of_newline {inFlow : Bool} (h : IsWord t) (hrest : Closes rest)
    (hend : endsPlain inFlow rest = true) {k : Nat} {indent : Int}
    (hindent : (!inFlow && decide ((k : Int) < indent)) = false) (n column : Nat) :
    plain inFlow (n + 1) indent column (t ++ '\n' :: (List.replicate k ' ' ++ rest)) =
      (t, true, rest) := by
  obtain ⟨c, cs, -, hstart⟩ := h.start
  have hne : t ≠ [] := by rcases hstart with rfl | rfl <;> exact List.cons_ne_nil _ _
  have hbreak : endsPlain inFlow ('\n' :: (List.replicate k ' ' ++ rest)) = true := rfl
  have hpiece := plainPiece_word h hbreak
  obtain ⟨d, ds, rfl⟩ := List.exists_cons_of_ne_nil hne
  have hcomment : (rest.head? == some '#') = false := by
    rcases hrest.cases with rfl | ⟨rest, rfl⟩ | ⟨rest, rfl⟩ <;> rfl
  have hnone : plain inFlow n indent k rest = ([], false, rest) := by
    cases n with
    | zero => rfl
    | succ n => rw [plain, plainPiece_of_endsPlain hend]
  rw [plain, hpiece]
  simp only [plainSpace_newline hrest, hcomment, Option.getD_some, hindent, hnone]
  rfl

end Yaml

end ApiDoc
