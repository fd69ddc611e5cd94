import ApiDoc.Proofs.Except
import ApiDoc.Proofs.Text.Blank
import ApiDoc.TypeExpr.Token

/-!
# Tokens of texts

What the first token of a text is, and what the text behind it gives: a sign is one character, and
a word takes every character that it can. A space ends a token, so the tokens of two texts with a
space between them are those of both: `tokens_append_space`.
-/

namespace ApiDoc.TypeExpr

open Text

/-- Characters of names are no blanks. -/
theorem isBlank_of_isNameChar {c : Char} (h : isNameChar c = true) : isBlank c = false := by
  simp only [isNameChar, Bool.or_eq_true, beq_iff_eq] at h
  rcases h with ((h | rfl) | rfl) | rfl
  · exact isBlank_of_isWord h
  all_goals decide

/-- A sign is one of twelve characters, and its token has just that one. -/
theorem eq_of_sign? {c : Char} {t : Token} (h : sign? c = some t) :
    c ∈ "<>(),|[]*?!=".toList ∧ t.chars = [c] := by
  unfold sign? at h
  split at h <;> cases h <;> exact ⟨by decide, rfl⟩

/-- A character of names is no sign. -/
theorem sign?_of_isNameChar {c : Char} (h : isNameChar c = true) : sign? c = none := by
  have hsigns : "<>(),|[]*?!=".toList.all (!isNameChar ·) = true := by decide
  cases hc : sign? c with
  | none => rfl
  | some t =>
    have hnot := List.all_eq_true.1 hsigns c (eq_of_sign? hc).1
    simp [h] at hnot

theorem tokens_nil : tokens [] = .ok [] := by
  rw [tokens]
  rfl

/-- What the first character that is not blank makes of a text, unless `.<` starts there. -/
theorem tokens_of_trimStart {s rest : List Char} {c : Char} (h : trimStart s = c :: rest)
    (hdot : ∀ more, c = '.' → rest = '<' :: more → False) :
    tokens s =
      match sign? c with
      | some t => (tokens rest).map (t :: ·)
      | none =>
        if isNameChar c then
          (tokens (rest.dropWhile isNameChar)).map (.word (c :: rest.takeWhile isNameChar) :: ·)
        else .error (.unexpectedCharacter (s.headD c)) := by
  rw [tokens, h]
  split
  · next heq => cases heq
  · next heq =>
    obtain ⟨rfl, rfl⟩ := List.cons.inj heq
    exact (hdot _ rfl rfl).elim
  · next heq =>
    obtain ⟨rfl, rfl⟩ := List.cons.inj heq
    rfl

/-- A dot in front of an angle bracket makes one token with it. -/
theorem tokens_of_dotLess {s rest : List Char} (h : trimStart s = '.' :: '<' :: rest) :
    tokens s = (tokens rest).map (.dotLess :: ·) := by
  rw [tokens, h]
  rfl

/-- A character that is neither blank nor a dot is a sign or starts a word. -/
theorem tokens_cons {c : Char} (hblank : isBlank c = false) (hdot : c ≠ '.') (s : List Char) :
    tokens (c :: s) =
      match sign? c with
      | some t => (tokens s).map (t :: ·)
      | none =>
        if isNameChar c then
          (tokens (s.dropWhile isNameChar)).map (.word (c :: s.takeWhile isNameChar) :: ·)
        else .error (.unexpectedCharacter c) := by
  have hstart : trimStart (c :: s) = c :: s := trimStart_eq_self (by simpa using hblank)
  exact tokens_of_trimStart hstart fun _ hc _ => hdot hc

/-- A sign is read, whatever stands behind it. -/
theorem tokens_of_sign {c : Char} {t : Token} (h : sign? c = some t) (s : List Char) :
    tokens (c :: s) = (tokens s).map (t :: ·) := by
  have hsigns : "<>(),|[]*?!=".toList.all (fun d => !isBlank d && d != '.') = true := by decide
  obtain ⟨hblank, hdot⟩ : isBlank c = false ∧ c ≠ '.' := by
    simpa using List.all_eq_true.1 hsigns c (eq_of_sign? h).1
  rw [tokens_cons hblank hdot, h]

/-- A word that does not start with a dot is read as a whole if no character of a word stands
behind it. -/
theorem tokens_of_word {c : Char} {w s : List Char} (hw : ∀ d ∈ c :: w, isNameChar d = true)
    (hc : c ≠ '.') (hs : ∀ d ∈ s.head?, isNameChar d = false) :
    tokens (c :: w ++ s) = (tokens s).map (.word (c :: w) :: ·) := by
  obtain ⟨hname, hw⟩ := List.forall_mem_cons.1 hw
  have hend : s.takeWhile isNameChar = [] ∧ s.dropWhile isNameChar = s := by
    cases s with
    | nil => exact ⟨rfl, rfl⟩
    | cons d s => simp [hs d rfl]
  rw [List.cons_append, tokens_cons (isBlank_of_isNameChar hname) hc, sign?_of_isNameChar hname,
    List.takeWhile_append_of_pos hw, List.dropWhile_append_of_pos hw, hend.1, hend.2,
    List.append_nil]
  simp only [hname, if_true]

/-- The words among the tokens of a text consist of characters of words. -/
theorem isNameChar_of_tokens {s : List Char} {ts : List Token} (h : tokens s = .ok ts)
    {w : List Char} (hw : .word w ∈ ts) : ∀ c ∈ w, isNameChar c = true := by
  fun_induction tokens s generalizing ts with
  | case1 s hs =>
    cases h
    cases hw
  | case2 s rest hs ih =>
    obtain ⟨us, hus, rfl⟩ := exists_of_map_eq_ok h
    exact ih hus (by simpa using hw)
  | case3 s c rest hs hne t ht ih =>
    obtain ⟨us, hus, rfl⟩ := exists_of_map_eq_ok h
    rcases List.mem_cons.1 hw with rfl | hw
    · unfold sign? at ht
      split at ht <;> cases ht
    · exact ih hus hw
  | case4 s c rest hs hne ht hc ih =>
    obtain ⟨us, hus, rfl⟩ := exists_of_map_eq_ok h
    rcases List.mem_cons.1 hw with heq | hw
    · cases heq
      exact List.forall_mem_cons.2 ⟨hc, fun d hd => List.mem_takeWhile_imp hd⟩
    · exact ih hus hw
  | case5 s c rest hs hne ht hc => cases h

/-! ## Texts with a space between them -/

/-- Blanks in front of a text are no tokens. -/
theorem tokens_append_of_isBlank {blanks t : List Char} {ts : List Token}
    (hblanks : ∀ c ∈ blanks, isBlank c = true) (h : tokens t = .ok ts) :
    tokens (blanks ++ t) = .ok ts := by
  rw [tokens] at h ⊢
  rw [trimStart_append hblanks]
  split at h
  · exact h
  · exact h
  · next c rest _ _ =>
    cases hsign : sign? c with
    | some t => simpa only [hsign] using h
    | none =>
      by_cases hc : isNameChar c = true
      · simpa only [hsign, if_pos hc] using h
      · -- only a fault tells how many blanks there are
        simp only [hsign, if_neg hc] at h
        cases h

/-- A run of characters ends at the first one of another kind. -/
theorem takeWhile_append_cons_of_neg {p : Char → Bool} {c : Char} (hc : p c = false)
    (s t : List Char) :
    (s ++ c :: t).takeWhile p = s.takeWhile p ∧
      (s ++ c :: t).dropWhile p = s.dropWhile p ++ c :: t := by
  induction s with
  | nil => simp [hc]
  | cons d s ih =>
    by_cases hd : p d = true
    · simpa [hd] using ih
    · simp [hd]

/-- A space behind a text does not make `.<` of its last dot. -/
theorem not_dotLess_append_space {c : Char} {rest : List Char}
    (h : ∀ more, c = '.' → rest = '<' :: more → False) (t more : List Char) (hc : c = '.') :
    rest ++ ' ' :: t = '<' :: more → False := by
  intro heq
  cases rest with
  | nil => exact absurd (List.cons.inj heq).1 (by decide)
  | cons d rest =>
    obtain ⟨rfl, -⟩ := List.cons.inj heq
    exact h rest hc rfl

/-- Tokens may be put in front and behind in either order. -/
theorem map_append_cons (t : Token) (us : List Token) (x : Except TypeFault (List Token)) :
    (x.map (· ++ us)).map (t :: ·) = (x.map (t :: ·)).map (· ++ us) := by
  cases x <;> rfl

/-- A space ends a token, and behind it the tokens of the other text follow. What cannot be read in
front of the space cannot be read with it either. -/
theorem tokens_append_space {t : List Char} {us : List Token} (ht : tokens t = .ok us)
    (s : List Char) : tokens (s ++ ' ' :: t) = (tokens s).map (· ++ us) := by
  fun_induction tokens s with
  | case1 s hs =>
    have hblanks : ∀ c ∈ s ++ [' '], isBlank c = true := by
      refine List.forall_mem_append.2 ⟨List.dropWhile_eq_nil_iff.1 hs, ?_⟩
      exact List.forall_mem_singleton.2 (by decide)
    have htokens := tokens_append_of_isBlank hblanks ht
    rwa [List.append_assoc] at htokens
  | case2 s rest hs ih =>
    have htrim : trimStart (s ++ ' ' :: t) = '.' :: '<' :: (rest ++ ' ' :: t) :=
      trimStart_append_of_eq_cons hs _
    rw [tokens_of_dotLess htrim, ih, map_append_cons]
  | case3 s c rest hdot hs u hu ih =>
    rw [tokens_of_trimStart (trimStart_append_of_eq_cons hs _) (not_dotLess_append_space hdot t),
      hu]
    simp only [ih, map_append_cons]
  -- a word ends at the space
  | case4 s c rest hdot hs hu hc ih =>
    have hspace : isNameChar ' ' = false := by decide
    obtain ⟨htake, hdrop⟩ := takeWhile_append_cons_of_neg hspace rest t
    rw [tokens_of_trimStart (trimStart_append_of_eq_cons hs _) (not_dotLess_append_space hdot t),
      hu]
    simp only [if_pos hc, htake, hdrop, ih, map_append_cons]
  | case5 s c rest hdot hs hu hc =>
    rw [tokens_of_trimStart (trimStart_append_of_eq_cons hs _) (not_dotLess_append_space hdot t),
      hu]
    cases s with
    | nil => cases hs
    | cons d s =>
      simp only [if_neg hc]
      rfl

end ApiDoc.TypeExpr
