import ApiDoc.Text.Blank
import ApiDoc.Text.Lines
import ApiDoc.Text.Word
import Mathlib.Data.List.DropRight

/-!
# Blanks, words and trimmed texts

Word characters are not blank, and blanks include every line end. A text is trimmed if neither its
first nor its last character is blank; such a text stays as it is when blanks around it are taken
away.
-/

namespace ApiDoc.Text

/-- The code points of blanks. -/
def blankPoints : List Nat :=
  [9, 10, 11, 12, 13, 28, 29, 30, 31, 32, 0x85, 0xA0, 0x1680, 0x2000, 0x2001, 0x2002, 0x2003,
   0x2004, 0x2005, 0x2006, 0x2007, 0x2008, 0x2009, 0x200A, 0x2028, 0x2029, 0x202F, 0x205F, 0x3000]

/-- Blanks are found among their code points. -/
theorem mem_blankPoints {c : Char} (h : isBlank c = true) : c.toNat ∈ blankPoints := by
  simp only [isBlank, Bool.or_eq_true, Bool.and_eq_true, decide_eq_true_eq, beq_iff_eq] at h
  simp only [blankPoints, List.mem_cons, List.not_mem_nil, or_false]
  omega

/-- Line ends are blanks. -/
theorem isBlank_of_isLineEnd {c : Char} (h : isLineEnd c = true) : isBlank c = true := by
  simp only [isLineEnd, isBlank, Bool.or_eq_true, Bool.and_eq_true, decide_eq_true_eq,
    beq_iff_eq] at h ⊢
  omega

/-- What is no blank is no line end. -/
theorem isLineEnd_of_not_isBlank {c : Char} (h : isBlank c = false) : isLineEnd c = false := by
  rw [Bool.eq_false_iff]
  intro hend
  rw [isBlank_of_isLineEnd hend] at h
  cases h

/-- Characters of words are no blanks. -/
theorem isBlank_of_isWord {c : Char} (h : isWord c = true) : isBlank c = false := by
  have hpoints : ∀ n ∈ blankPoints, isWord (Char.ofNat n) = false := by decide +kernel
  rw [Bool.eq_false_iff]
  intro hblank
  have hword := hpoints c.toNat (mem_blankPoints hblank)
  rw [Char.ofNat_toNat, h] at hword
  cases hword

/-! ## Trimmed texts -/

/-- Neither the first nor the last character is blank. -/
structure IsTrimmed (s : List Char) : Prop where
  head : ∀ c ∈ s.head?, isBlank c = false
  last : ∀ c ∈ s.getLast?, isBlank c = false

instance (s : List Char) : Decidable (IsTrimmed s) :=
  decidable_of_iff (s.head?.all (!isBlank ·) = true ∧ s.getLast?.all (!isBlank ·) = true)
    ⟨fun h => ⟨by simpa [Option.all_eq_true] using h.1, by simpa [Option.all_eq_true] using h.2⟩,
      fun h => ⟨by simpa [Option.all_eq_true] using h.head,
        by simpa [Option.all_eq_true] using h.last⟩⟩

variable {s : List Char}

/-- Nothing is trimmed in front of a text that starts with no blank. -/
theorem trimStart_eq_self (h : ∀ c ∈ s.head?, isBlank c = false) : trimStart s = s := by
  cases s with
  | nil => rfl
  | cons c rest => exact List.dropWhile_cons_of_neg (by simp [h c rfl])

/-- Nothing is trimmed behind a text that ends with no blank. -/
theorem trimEnd_eq_self (h : ∀ c ∈ s.getLast?, isBlank c = false) : trimEnd s = s := by
  rw [← List.head?_reverse] at h
  rw [trimEnd, show s.reverse.dropWhile isBlank = s.reverse from trimStart_eq_self h,
    List.reverse_reverse]

/-- Nothing is trimmed of a trimmed text. -/
theorem IsTrimmed.trim_eq (h : IsTrimmed s) : trim s = s := by
  rw [trim, trimStart_eq_self h.head, trimEnd_eq_self h.last]

/-- Nothing is trimmed of a text without such characters. -/
theorem trimBy_eq_self {p : Char → Bool} (h : ∀ c ∈ s, p c = false) : trimBy p s = s := by
  have hdrop : ∀ r : List Char, (∀ c ∈ r, p c = false) → r.dropWhile p = r := by
    intro r hr
    cases r with
    | nil => rfl
    | cons c rest => exact List.dropWhile_cons_of_neg (by simp [hr c List.mem_cons_self])
  rw [trimBy, hdrop s h, hdrop s.reverse fun c hc => h c (List.mem_reverse.1 hc),
    List.reverse_reverse]

/-- Blanks in front of a text are taken away. -/
theorem trimStart_append {blanks : List Char} (h : ∀ c ∈ blanks, isBlank c = true)
    (s : List Char) : trimStart (blanks ++ s) = trimStart s :=
  List.dropWhile_append_of_pos h

/-- A text that is not blank is trimmed the same in front of another. -/
theorem trimStart_append_of_eq_cons {c : Char} {rest : List Char} (h : trimStart s = c :: rest)
    (t : List Char) : trimStart (s ++ t) = c :: (rest ++ t) := by
  have hdrop : s.dropWhile isBlank = c :: rest := h
  rw [trimStart, List.dropWhile_append, hdrop]
  rfl

/-- Blanks behind a text are taken away. -/
theorem trimEnd_append {blanks : List Char} (h : ∀ c ∈ blanks, isBlank c = true)
    (s : List Char) : trimEnd (s ++ blanks) = trimEnd s := by
  rw [trimEnd, List.reverse_append,
    List.dropWhile_append_of_pos fun c hc => h c (List.mem_reverse.1 hc), trimEnd]

/-- Blanks around a trimmed text are taken away, and nothing else. -/
theorem IsTrimmed.trim_append {front back : List Char} (hs : IsTrimmed s)
    (hfront : ∀ c ∈ front, isBlank c = true) (hback : ∀ c ∈ back, isBlank c = true) :
    trim (front ++ s ++ back) = s := by
  rw [trim, List.append_assoc, trimStart_append hfront]
  cases s with
  | nil =>
    have hnil : trimStart back = [] := List.dropWhile_eq_nil_iff.2 hback
    rw [List.nil_append, hnil]
    rfl
  | cons c rest =>
    rw [trimStart_eq_self (s := c :: rest ++ back) hs.head, trimEnd_append hback,
      trimEnd_eq_self hs.last]

/-! ## What trimming leaves -/

/-- What was trimmed in front starts with no blank. -/
theorem isBlank_of_head?_trimStart {c : Char} (h : c ∈ (trimStart s).head?) :
    isBlank c = false := by
  have hnot := List.head?_dropWhile_not isBlank s
  rw [show (s.dropWhile isBlank).head? = some c from h] at hnot
  simpa using hnot

/-- A text is the blanks in front of it and the rest. -/
theorem takeWhile_append_trimStart (s : List Char) : s.takeWhile isBlank ++ trimStart s = s :=
  List.takeWhile_append_dropWhile

/-- What is left of a text that was trimmed behind is the front of it. -/
theorem isPrefix_trimEnd (s : List Char) : trimEnd s <+: s := by
  have hprefix := List.reverse_prefix.2 (List.dropWhile_suffix (l := s.reverse) isBlank)
  rwa [List.reverse_reverse] at hprefix

/-- A text without the blanks around it is trimmed. -/
theorem isTrimmed_trim (s : List Char) : IsTrimmed (trim s) := by
  refine ⟨fun c hc => ?_, fun c hc => ?_⟩
  · obtain ⟨tail, htail⟩ := isPrefix_trimEnd (trimStart s)
    refine isBlank_of_head?_trimStart (s := s) ?_
    rw [← htail, List.head?_append, show (trimEnd (trimStart s)).head? = some c from hc]
    rfl
  · rw [trim, trimEnd, List.getLast?_reverse] at hc
    exact isBlank_of_head?_trimStart hc

/-- Characters of a class are taken away at the end up to the last one that is not of the class. -/
theorem rdropWhile_append_cons {p : Char → Bool} {c : Char} (hc : p c = false)
    (before after : List Char) :
    (before ++ c :: after).rdropWhile p = before ++ c :: after.rdropWhile p := by
  have hreverse : (before ++ c :: after).reverse = after.reverse ++ c :: before.reverse := by simp
  rw [List.rdropWhile, hreverse, List.dropWhile_append, List.dropWhile_cons_of_neg (by simp [hc]),
    List.rdropWhile]
  split
  · next hempty => simp [List.isEmpty_iff.1 hempty]
  · simp

/-- Blanks are taken away only up to the last character that is not blank. -/
theorem trimEnd_append_cons {c : Char} (hc : isBlank c = false) (before after : List Char) :
    trimEnd (before ++ c :: after) = before ++ c :: trimEnd after :=
  rdropWhile_append_cons hc before after

/-- A space in front is trimmed. -/
theorem trim_space_cons (s : List Char) : trim (' ' :: s) = trim s := by
  have hspace : ∀ c ∈ [' '], isBlank c = true := List.forall_mem_singleton.2 (by decide)
  rw [trim, ← List.singleton_append, trimStart_append hspace, trim]

/-- Trimming a text that was trimmed in front. -/
theorem trim_trimStart (s : List Char) : trim (trimStart s) = trim s := by
  simp [trim, trimStart, List.dropWhile_idempotent]

/-- Trimming behind twice is trimming once. -/
theorem trimEnd_trimEnd (s : List Char) : trimEnd (trimEnd s) = trimEnd s := by
  simp [trimEnd, List.dropWhile_idempotent]

/-- Trimming a text that was trimmed behind. -/
theorem trim_trimEnd (s : List Char) : trim (trimEnd s) = trim s := by
  have hsplit := takeWhile_append_trimStart s
  have hblanks : ∀ c ∈ s.takeWhile isBlank, isBlank c = true :=
    fun c hc => List.mem_takeWhile_imp hc
  cases hstart : trimStart s with
  | nil =>
    rw [hstart, List.append_nil] at hsplit
    have hnil : trimEnd s = [] := by
      rw [← hsplit]
      exact trimEnd_append hblanks []
    rw [trim, trim, hstart, hnil]
    rfl
  | cons c after =>
    have hc : isBlank c = false := isBlank_of_head?_trimStart (s := s) (by rw [hstart]; rfl)
    have hend (t : List Char) : trimEnd (c :: t) = c :: trimEnd t := trimEnd_append_cons hc [] t
    rw [hstart] at hsplit
    rw [← hsplit, trimEnd_append_cons hc, trim, trim, trimStart_append hblanks,
      trimStart_append hblanks, trimStart_eq_self (by simp [hc]), trimStart_eq_self (by simp [hc]),
      hend, hend, trimEnd_trimEnd]

/-- The end of a trimmed text without the blanks in front of it is trimmed. -/
theorem IsTrimmed.trimStart_of_suffix {t : List Char} (hs : IsTrimmed s) (ht : t <:+ s) :
    IsTrimmed (trimStart t) := by
  refine ⟨fun c hc => isBlank_of_head?_trimStart hc, fun c hc => hs.last c ?_⟩
  obtain ⟨front, rfl⟩ := (List.dropWhile_suffix isBlank).trans ht
  rw [List.getLast?_append, show (t.dropWhile isBlank).getLast? = some c from hc]
  rfl

/-- Trimmed texts around a character that is not blank make a trimmed text. -/
theorem IsTrimmed.append_cons {c : Char} {t : List Char} (hs : IsTrimmed s) (ht : IsTrimmed t)
    (hc : isBlank c = false) : IsTrimmed (s ++ c :: t) := by
  refine ⟨fun d hd => ?_, fun d hd => ?_⟩
  · cases s with
    | nil =>
      cases hd
      exact hc
    | cons e s => exact hs.head d hd
  · rw [List.getLast?_append_of_ne_nil _ (List.cons_ne_nil c t)] at hd
    cases t with
    | nil =>
      cases hd
      exact hc
    | cons e t => exact ht.last d hd

/-- A trimmed text that is not empty. -/
structure IsSolid (s : List Char) : Prop extends IsTrimmed s where
  ne_nil : s ≠ []

instance (s : List Char) : Decidable (IsSolid s) :=
  decidable_of_iff (IsTrimmed s ∧ s ≠ []) ⟨fun h => ⟨h.1, h.2⟩, fun h => ⟨h.toIsTrimmed, h.ne_nil⟩⟩

/-- A text is solid if it starts and ends with solid texts. -/
theorem IsSolid.append {t : List Char} (hs : IsSolid s) (ht : IsSolid t) (between : List Char) :
    IsSolid (s ++ between ++ t) := by
  obtain ⟨c, rest, rfl⟩ := List.exists_cons_of_ne_nil hs.ne_nil
  refine ⟨⟨hs.head, ?_⟩, List.cons_ne_nil _ _⟩
  rw [List.getLast?_append_of_ne_nil _ ht.ne_nil]
  exact ht.last

/-- Blanks are not taken away from a solid text in front. -/
theorem IsSolid.trimEnd_append (hs : IsSolid s) (t : List Char) :
    trimEnd (s ++ t) = s ++ trimEnd t := by
  obtain rfl | ⟨front, c, rfl⟩ := List.eq_nil_or_concat s
  · exact absurd rfl hs.ne_nil
  · have hc : isBlank c = false := hs.last c (by simp)
    simpa using trimEnd_append_cons hc front t

/-- A text without blanks is solid if it is not empty. -/
theorem isSolid_of_not_isBlank (hne : s ≠ []) (h : ∀ c ∈ s, isBlank c = false) : IsSolid s :=
  ⟨⟨fun c hc => h c (List.mem_of_head? hc), fun c hc => h c (List.mem_of_getLast? hc)⟩, hne⟩

end ApiDoc.Text
