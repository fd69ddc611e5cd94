import ApiDoc.Proofs.TypeExpr.Tokens
import ApiDoc.Text.Lines

/-!
# What tokens spell

Tokens spell a text if the text is the tokens with blanks around them, where a word stands in front
of no further character of a word and a dot alone in front of no `<`. The tokens of a text are the
only ones that spell it: `tokens_eq_ok_iff`.

So a text can be read exactly if it has no character but blanks and those of tokens, and reading it
loses nothing but the blanks. A space between neighbours is enough to keep them apart.
-/

namespace ApiDoc.TypeExpr

open Text

variable {s rest : List Char} {t : Token} {ts : List Token}

/-- A token goes no further in front of a text: a word has taken every character that it can, and
is no dot that makes a sign with what follows. -/
def Token.IsWhole : Token → List Char → Prop
  | .word w, rest =>
    w ≠ [] ∧ (∀ c ∈ w, isNameChar c = true) ∧ (∀ c ∈ rest.head?, isNameChar c = false) ∧
      (w = ['.'] → rest.head? ≠ some '<')
  | _, _ => True

/-- A text is these tokens, with blanks in front of each and behind the last. -/
inductive Spells : List Token → List Char → Prop where
  | blank {s : List Char} (h : ∀ c ∈ s, isBlank c = true) : Spells [] s
  | token {blanks rest : List Char} {t : Token} {ts : List Token}
      (hblanks : ∀ c ∈ blanks, isBlank c = true) (ht : t.IsWhole rest) (h : Spells ts rest) :
      Spells (t :: ts) (blanks ++ (t.chars ++ rest))

/-! ## The tokens of a text spell it -/

/-- A sign is a token whatever stands behind it. -/
theorem isWhole_of_sign? {c : Char} (h : sign? c = some t) (rest : List Char) :
    t.IsWhole rest := by
  unfold sign? at h
  split at h <;> cases h <;> trivial

/-- Behind a run of characters of names comes another character. -/
theorem isNameChar_head?_dropWhile (s : List Char) :
    ∀ c ∈ (s.dropWhile isNameChar).head?, isNameChar c = false := by
  intro c hc
  have hnot := List.head?_dropWhile_not isNameChar s
  rw [show (s.dropWhile isNameChar).head? = some c from hc] at hnot
  simpa using hnot

/-- The text of a first token, behind its blanks. -/
theorem Spells.of_trimStart (hs : trimStart s = t.chars ++ rest) (ht : t.IsWhole rest)
    (h : Spells ts rest) : Spells (t :: ts) s := by
  have hblanks : ∀ c ∈ s.takeWhile isBlank, isBlank c = true :=
    fun c hc => List.mem_takeWhile_imp hc
  have hspells := Spells.token hblanks ht h
  rwa [← hs, takeWhile_append_trimStart] at hspells

/-- A text is spelled by the tokens that are read of it. -/
theorem spells_of_tokens (h : tokens s = .ok ts) : Spells ts s := by
  fun_induction tokens s generalizing ts with
  | case1 s hs =>
    cases h
    exact .blank (List.dropWhile_eq_nil_iff.1 hs)
  | case2 s rest hs ih =>
    obtain ⟨us, hus, rfl⟩ := exists_of_map_eq_ok h
    exact .of_trimStart hs trivial (ih hus)
  | case3 s c rest hdot hs u hu ih =>
    obtain ⟨us, hus, rfl⟩ := exists_of_map_eq_ok h
    have hsplit : trimStart s = u.chars ++ rest := by
      rw [hs, (eq_of_sign? hu).2, List.singleton_append]
    exact .of_trimStart hsplit (isWhole_of_sign? hu rest) (ih hus)
  | case4 s c rest hdot hs hu hc ih =>
    obtain ⟨us, hus, rfl⟩ := exists_of_map_eq_ok h
    have hsplit : trimStart s
        = (c :: rest.takeWhile isNameChar) ++ rest.dropWhile isNameChar := by
      rw [hs, List.cons_append, List.takeWhile_append_dropWhile]
    refine .of_trimStart hsplit ⟨List.cons_ne_nil _ _, ?_, isNameChar_head?_dropWhile rest, ?_⟩
      (ih hus)
    · exact List.forall_mem_cons.2 ⟨hc, fun d hd => List.mem_takeWhile_imp hd⟩
    · -- a dot in front of an angle bracket would have been read as a sign
      intro hword hless
      obtain ⟨rfl, htake⟩ := List.cons.inj hword
      obtain ⟨more, hmore⟩ := List.head?_eq_some_iff.1 hless
      have hrest : rest = '<' :: more := by
        rw [← List.takeWhile_append_dropWhile (p := isNameChar) (l := rest), htake, hmore]
        rfl
      exact hdot more rfl hrest
  | case5 s c rest hdot hs hu hc => cases h

/-- A word is read as a whole in front of a text that it cannot go on with. -/
theorem tokens_of_isWhole {w : List Char} (h : (Token.word w).IsWhole rest) :
    tokens (w ++ rest) = (tokens rest).map (.word w :: ·) := by
  obtain ⟨hne, hchars, hrest, hless⟩ := h
  obtain ⟨c, w, rfl⟩ := List.exists_cons_of_ne_nil hne
  -- a dot alone is a word unless an angle bracket follows
  by_cases hdot : c = '.'
  · subst hdot
    have hname : isNameChar '.' = true := by decide
    obtain ⟨-, hw⟩ := List.forall_mem_cons.1 hchars
    have hstart : trimStart ('.' :: (w ++ rest)) = '.' :: (w ++ rest) :=
      trimStart_eq_self (by simpa using isBlank_of_isNameChar hname)
    have hnot : ∀ more, '.' = '.' → w ++ rest = '<' :: more → False := by
      intro more _ heq
      cases w with
      | nil => exact hless rfl (by rw [show rest = _ from heq]; rfl)
      | cons d w =>
        obtain ⟨rfl, -⟩ := List.cons.inj heq
        exact absurd (hw '<' List.mem_cons_self) (by decide)
    have hend : rest.takeWhile isNameChar = [] ∧ rest.dropWhile isNameChar = rest := by
      cases rest with
      | nil => exact ⟨rfl, rfl⟩
      | cons d rest => simp [hrest d rfl]
    rw [List.cons_append, tokens_of_trimStart hstart hnot, sign?_of_isNameChar hname,
      List.takeWhile_append_of_pos hw, List.dropWhile_append_of_pos hw, hend.1, hend.2,
      List.append_nil]
    simp only [hname, if_true]
  · exact tokens_of_word hchars hdot hrest

/-- A token is read in front of a text that it goes no further in. -/
theorem Token.IsWhole.tokens_append (h : t.IsWhole rest) :
    tokens (t.chars ++ rest) = (tokens rest).map (t :: ·) := by
  cases t with
  | word w => exact tokens_of_isWhole h
  | dotLess =>
    have hdot : isBlank '.' = false := by decide
    exact tokens_of_dotLess (trimStart_eq_self (by simpa [Token.chars] using hdot))
  | _ => exact tokens_of_sign rfl rest

/-- The tokens that spell a text are read of it. -/
theorem Spells.tokens_eq (h : Spells ts s) : tokens s = .ok ts := by
  induction h with
  | blank h => simpa [tokens_nil] using tokens_append_of_isBlank h tokens_nil
  | token hblanks ht _ ih =>
    refine tokens_append_of_isBlank hblanks ?_
    rw [ht.tokens_append, ih]
    rfl

/-- The tokens of a text are the only ones that spell it. -/
theorem tokens_eq_ok_iff : tokens s = .ok ts ↔ Spells ts s :=
  ⟨spells_of_tokens, Spells.tokens_eq⟩

/-! ## Characters of tokens -/

/-- The forms of a token: `.<`, a sign of one character, or a run of characters of words. -/
def Token.HasForm (t : Token) : Prop :=
  t.chars = ['.', '<'] ∨ (∃ c ∈ "<>(),|[]*?!=".toList, t.chars = [c]) ∨
    (t.chars ≠ [] ∧ ∀ c ∈ t.chars, isWord c = true ∨ c ∈ "$.-".toList)

/-- A character that may stand in a type expression. -/
def IsTypeChar (c : Char) : Prop :=
  isBlank c = true ∨ isWord c = true ∨ c ∈ "$.-<>(),|[]*?!=".toList

/-- Names have characters of words and three signs. -/
theorem isNameChar_iff {c : Char} :
    isNameChar c = true ↔ isWord c = true ∨ c ∈ "$.-".toList := by
  simp [isNameChar, or_assoc]

/-- A token that goes no further has one of the forms. -/
theorem Token.IsWhole.hasForm (h : t.IsWhole rest) : t.HasForm := by
  cases t with
  | word w => exact .inr (.inr ⟨h.1, fun c hc => isNameChar_iff.1 (h.2.1 c hc)⟩)
  | dotLess => exact .inl rfl
  | _ => exact .inr (.inl ⟨_, by decide, rfl⟩)

/-- The signs of names and of tokens are signs of types. -/
theorem mem_typeSigns {c : Char} (h : c ∈ "$.-".toList ∨ c ∈ "<>(),|[]*?!=".toList) :
    c ∈ "$.-<>(),|[]*?!=".toList := List.mem_append.2 h

/-- Tokens have no blanks. -/
theorem Token.HasForm.isBlank_eq_false (h : t.HasForm) :
    ∀ c ∈ t.chars, isBlank c = false := by
  have hsigns : "<>(),|[]*?!=".toList.all (!isBlank ·) = true := by decide
  rcases h with h | ⟨d, hd, h⟩ | ⟨-, h⟩
  · rw [h]
    exact List.forall_mem_cons.2 ⟨by decide, List.forall_mem_singleton.2 (by decide)⟩
  · rw [h]
    exact List.forall_mem_singleton.2 (by simpa using List.all_eq_true.1 hsigns d hd)
  · exact fun c hc => isBlank_of_isNameChar (isNameChar_iff.2 (h c hc))

/-- A token has only characters that may stand in types. -/
theorem Token.HasForm.isTypeChar (h : t.HasForm) : ∀ c ∈ t.chars, IsTypeChar c := by
  rcases h with h | ⟨d, hd, h⟩ | ⟨-, h⟩
  · rw [h]
    exact List.forall_mem_cons.2 ⟨.inr (.inr (by decide)),
      List.forall_mem_singleton.2 (.inr (.inr (by decide)))⟩
  · rw [h]
    exact List.forall_mem_singleton.2 (.inr (.inr (mem_typeSigns (.inr hd))))
  · exact fun c hc => (h c hc).elim (fun hw => .inr (.inl hw))
      fun hs => .inr (.inr (mem_typeSigns (.inl hs)))

/-- The tokens that spell a text have the forms of tokens. -/
theorem Spells.hasForm (h : Spells ts s) : ∀ t ∈ ts, t.HasForm := by
  induction h with
  | blank => exact List.forall_mem_nil _
  | token _ ht _ ih => exact List.forall_mem_cons.2 ⟨ht.hasForm, ih⟩

/-- The tokens are the text without its blanks. -/
theorem Spells.flatMap_chars (h : Spells ts s) :
    ts.flatMap Token.chars = s.filter (!isBlank ·) := by
  induction h with
  | blank h => exact (List.filter_eq_nil_iff.2 fun c hc => by simp [h c hc]).symm
  | @token blanks rest t ts hblanks ht _ ih =>
    have hfront : blanks.filter (!isBlank ·) = [] :=
      List.filter_eq_nil_iff.2 fun c hc => by simp [hblanks c hc]
    have hchars : t.chars.filter (!isBlank ·) = t.chars :=
      List.filter_eq_self.2 fun c hc => by simp [ht.hasForm.isBlank_eq_false c hc]
    rw [List.flatMap_cons, ih, List.filter_append, List.filter_append, hfront, hchars,
      List.nil_append]

/-- A text that is spelled has only characters that may stand in types. -/
theorem Spells.isTypeChar (h : Spells ts s) : ∀ c ∈ s, IsTypeChar c := by
  induction h with
  | blank h => exact fun c hc => .inl (h c hc)
  | token hblanks ht _ ih =>
    exact List.forall_mem_append.2 ⟨fun c hc => .inl (hblanks c hc),
      List.forall_mem_append.2 ⟨ht.hasForm.isTypeChar, ih⟩⟩

/-- A character of type expressions that is not blank starts a token. -/
theorem IsTypeChar.isNameChar {c : Char} (h : IsTypeChar c) (hblank : isBlank c = false)
    (hsign : sign? c = none) : isNameChar c = true := by
  have hsigns : "<>(),|[]*?!=".toList.all (fun d => (sign? d).isSome) = true := by decide
  rcases h with h | h | h
  · rw [hblank] at h
    cases h
  · exact isNameChar_iff.2 (.inl h)
  · rcases List.mem_append.1 (show c ∈ "$.-".toList ++ "<>(),|[]*?!=".toList from h) with h | h
    · exact isNameChar_iff.2 (.inr h)
    · have hsome := List.all_eq_true.1 hsigns c h
      rw [hsign] at hsome
      cases hsome

/-- A text of such characters is read as tokens. -/
theorem exists_tokens (h : ∀ c ∈ s, IsTypeChar c) : ∃ ts, tokens s = .ok ts := by
  have hbehind {s rest : List Char} (text : List Char) (hs : trimStart s = text ++ rest)
      (h : ∀ c ∈ s, IsTypeChar c) : ∀ c ∈ rest, IsTypeChar c := fun c hc =>
    h c ((List.dropWhile_suffix isBlank).subset
      (show c ∈ trimStart s from hs ▸ List.mem_append_right text hc))
  fun_induction tokens s with
  | case1 s hs => exact ⟨[], rfl⟩
  | case2 s rest hs ih =>
    obtain ⟨us, hus⟩ := ih (hbehind ['.', '<'] hs h)
    exact ⟨_, by rw [hus]; rfl⟩
  | case3 s c rest hdot hs u hu ih =>
    obtain ⟨us, hus⟩ := ih (hbehind [c] hs h)
    exact ⟨_, by rw [hus]; rfl⟩
  | case4 s c rest hdot hs hu hc ih =>
    have hrest := hbehind [c] hs h
    obtain ⟨us, hus⟩ := ih fun d hd => hrest d ((List.dropWhile_suffix _).subset hd)
    exact ⟨_, by rw [hus]; rfl⟩
  | case5 s c rest hdot hs hu hc =>
    have hmem : c ∈ s :=
      (List.dropWhile_suffix isBlank).subset (show c ∈ trimStart s by rw [hs]; simp)
    have hblank : isBlank c = false := isBlank_of_head?_trimStart (s := s) (by rw [hs]; rfl)
    exact absurd ((h c hmem).isNameChar hblank hu) hc

/-! ## Tokens with spaces between them -/

/-- A token that is whole somewhere is whole in front of a space and at the end. -/
theorem Token.IsWhole.of_head? (h : t.IsWhole rest) (after : List Char)
    (hafter : ∀ c ∈ after.head?, c = ' ') : t.IsWhole after := by
  cases t with
  | word w =>
    refine ⟨h.1, h.2.1, fun c hc => ?_, fun _ hless => ?_⟩
    · rw [hafter c hc]
      decide
    · exact absurd (hafter '<' hless) (by decide)
  | _ => trivial

/-- Tokens of a text spell the text of them with single spaces between neighbours. -/
theorem Spells.join_space (h : Spells ts s) : Spells ts (join [' '] (ts.map Token.chars)) := by
  induction h with
  | blank => exact .blank (List.forall_mem_nil _)
  | @token blanks rest t ts _ ht _ ih =>
    have hnone : ∀ c ∈ ([] : List Char), isBlank c = true := List.forall_mem_nil _
    cases ts with
    | nil =>
      have hlast := Spells.token hnone (ht.of_head? [] (by simp)) (.blank hnone)
      simpa [join] using hlast
    | cons u us =>
      -- the space is a blank in front of the next token
      have hspace : ∀ c ∈ [' '], isBlank c = true := List.forall_mem_singleton.2 (by decide)
      have hrest : Spells (u :: us) (' ' :: join [' '] ((u :: us).map Token.chars)) :=
        spells_of_tokens (tokens_append_of_isBlank hspace ih.tokens_eq)
      have hfirst := Spells.token hnone (ht.of_head? _ (by simp)) hrest
      simpa [join] using hfirst

/-- A text can be read into tokens exactly if each of its characters is blank, a word character or
one of the signs. Its tokens are then the text without the blanks, each has one of the three forms,
a word among them stands in front of no further character of a word, and they are also the tokens
of their texts with single spaces between them. -/
theorem tokens_spelling (s : List Char) :
    ((∃ ts, tokens s = .ok ts) ↔
      ∀ c ∈ s, isBlank c = true ∨ isWord c = true ∨ c ∈ "$.-<>(),|[]*?!=".toList) ∧
    ∀ ts, tokens s = .ok ts →
      ts.flatMap Token.chars = s.filter (!isBlank ·) ∧ (∀ t ∈ ts, t.HasForm) ∧ Spells ts s ∧
      tokens (join [' '] (ts.map Token.chars)) = .ok ts := by
  refine ⟨⟨?_, exists_tokens⟩, fun ts h => ?_⟩
  · rintro ⟨ts, h⟩
    exact (tokens_eq_ok_iff.1 h).isTypeChar
  · have hspells := tokens_eq_ok_iff.1 h
    exact ⟨hspells.flatMap_chars, hspells.hasForm, hspells, hspells.join_space.tokens_eq⟩

/-- Dots go to the word in front of them, and make a sign where there is none. -/
theorem tokens_spelling_dots :
    tokens "Map.<.<a\t, -b>".toList = .ok [.word "Map.".toList, .less, .dotLess, .word ['a'],
      .comma, .word "-b".toList, .greater] ∧
    tokens "Map. < .< a , -b >".toList = .ok [.word "Map.".toList, .less, .dotLess, .word ['a'],
      .comma, .word "-b".toList, .greater] ∧
    ¬ ∃ ts, tokens "a/b".toList = .ok ts := by
  have htokens : tokens "Map.<.<a\t, -b>".toList = .ok [.word "Map.".toList, .less, .dotLess,
      .word ['a'], .comma, .word "-b".toList, .greater] :=
    eq_ok_of_toOption (by decide +kernel)
  refine ⟨htokens, ((tokens_spelling _).2 _ htokens).2.2.2, fun h => ?_⟩
  exact absurd ((tokens_spelling _).1.1 h '/' (by decide)) (by decide)

end ApiDoc.TypeExpr
