import ApiDoc.Proofs.TypeExpr.Grammar
import ApiDoc.Proofs.TypeExpr.Tokens

/-!
# Markers in type expressions

The markers `?`, `!` and `=` are no part of the tree of an expression. Taking all of them out of an
expression leaves one with the same tree (`derives_unmarked`), and one more in front of a text or
behind it makes no difference, neither for a text that has a tree nor for one that has none
(`parse_drops_markers`).

In front of a union a marker is skipped before anything is read. Behind a union it belongs to the
last member, which is a phrase with the same tree with the marker and without it.
-/

namespace ApiDoc.TypeExpr

variable {ts : List Token} {e : TypeExpr} {m : Token}

/-- A sign that is read and dropped. -/
def isMarker (t : Token) : Bool := t == .question || t == .bang || t == .equals

/-- Tokens without the markers among them. -/
def unmarked (ts : List Token) : List Token := ts.filter (!isMarker ·)

/-- Tokens in a row without their markers. -/
@[simp] theorem unmarked_append (ts us : List Token) :
    unmarked (ts ++ us) = unmarked ts ++ unmarked us :=
  List.filter_append ts us

/-- A marker in front is left out. -/
theorem unmarked_cons_of_isMarker (hm : isMarker m = true) (ts : List Token) :
    unmarked (m :: ts) = unmarked ts :=
  List.filter_cons_of_neg (by simp [hm])

/-- A token that is no marker is kept. -/
theorem unmarked_cons (hm : isMarker m = false) (ts : List Token) :
    unmarked (m :: ts) = m :: unmarked ts :=
  List.filter_cons_of_pos (by simp [hm])

/-- What may stand behind a member is a marker. -/
theorem isMarker_of_mem (hm : m ∈ [Token.equals, .bang, .question]) : isMarker m = true := by
  have hall : ∀ t ∈ [Token.equals, .bang, .question], isMarker t = true := by decide
  exact hall m hm

/-! ## Taking all markers out -/

/-- Parts between separators without their markers. -/
theorem unmarked_intercalate {sep : Token} (hsep : isMarker sep = false)
    (parts : List (List Token)) :
    unmarked ([sep].intercalate parts) = [sep].intercalate (parts.map unmarked) := by
  cases parts with
  | nil => rfl
  | cons part parts =>
    have hrest : unmarked (parts.flatMap (sep :: ·)) = (parts.map unmarked).flatMap (sep :: ·) := by
      induction parts with
      | nil => rfl
      | cons next parts ih =>
        simp only [List.flatMap_cons, List.map_cons, unmarked_append, unmarked_cons hsep, ih]
    rw [intercalate_cons, unmarked_append, hrest, List.map_cons, intercalate_cons]

/-- Taking the markers out of a phrase leaves a phrase with the same tree. -/
theorem derives_unmarked {p : Phrase} (h : Derives p ts e) : Derives p (unmarked ts) e := by
  -- only two rules have a marker in them, and both have the tree of what is marked
  induction h with
  | alone _ ih => exact ih.alone
  | @several ps hps _ ih =>
    have hmembers : ∀ q ∈ ps.map fun p => (unmarked p.1, p.2), Derives .member q.1 q.2 :=
      List.forall_mem_map.2 ih
    have hunion := Derives.several (by simpa using hps) hmembers
    rw [unmarked_intercalate (by decide)]
    simpa [Function.comp_def] using hunion
  | bare _ ih => exact ih.bare
  | array _ ih =>
    rw [unmarked_append]
    exact ih.array
  | @markedBehind ts e m hm _ ih =>
    rw [unmarked_append, unmarked_cons_of_isMarker (isMarker_of_mem hm)]
    simpa [unmarked] using ih
  | markedInFront hm _ ih =>
    rw [unmarked_cons_of_isMarker (isMarker_of_mem (by grind))]
    exact ih
  | inParens _ ih =>
    rw [unmarked_cons (by decide), unmarked_append]
    exact ih.inParens
  | any => exact .any
  | named hn => exact .named hn
  | @applied w n sign ps hn hsign _ ih =>
    have harguments : ∀ q ∈ ps.map fun p => (unmarked p.1, p.2), Derives .union q.1 q.2 :=
      List.forall_mem_map.2 ih
    have happlied := Derives.applied hn hsign harguments
    have hsigns : ∀ t ∈ [Token.dotLess, .less], isMarker t = false := by decide
    rw [unmarked_cons rfl, unmarked_cons (hsigns sign hsign), unmarked_append,
      unmarked_intercalate (by decide), unmarked_cons (by decide)]
    simpa [Function.comp_def, unmarked] using happlied

/-- A phrase has at least one token. -/
theorem Derives.ne_nil {p : Phrase} (h : Derives p ts e) : ts ≠ [] := by
  induction h with
  | alone _ ih => exact ih
  | @several ps hps h ih =>
    obtain ⟨p, q, ps, rfl⟩ : ∃ p q qs, ps = p :: q :: qs := by
      match ps, hps with
      | p :: q :: qs, _ => exact ⟨p, q, qs, rfl⟩
    rw [List.map_cons, intercalate_cons]
    exact List.append_ne_nil_of_left_ne_nil (ih p List.mem_cons_self) _
  | bare _ ih => exact ih
  | array | markedBehind | markedInFront | inParens | any | named | applied => simp

/-! ## A marker in front -/

/-- A union is what the parser reads with nothing left over, if it may call itself often enough. -/
theorem derives_union_iff {n : Nat} (hn : 6 * ts.length + 3 ≤ n) :
    Derives .union ts e ↔ unionExpr n ts = .ok (e, []) := by
  constructor
  · intro h
    have hread := h.isRead n [] hn (by simp [Phrase.EndsBefore])
    rwa [List.append_nil] at hread
  · intro h
    obtain ⟨us, rfl, hus⟩ := (sound n).union h
    rwa [List.append_nil]

/-- A marker in front of a union is passed over. -/
theorem unionExpr_cons (hm : isLeadingMarker m = true) (n : Nat) (ts : List Token) :
    unionExpr n (m :: ts) = unionExpr n ts := by
  have hprimary (n : Nat) : primaryExpr n (m :: ts) = primaryExpr n ts := by
    rw [← primaryExpr_dropWhile, List.dropWhile_cons_of_pos hm, primaryExpr_dropWhile]
  match n with
  | 0 => rfl
  | 1 => rfl
  | n + 2 => rw [unionExpr, unionExpr, memberExpr, memberExpr, hprimary]

/-- A marker in front of a union says nothing. -/
theorem derives_union_cons_iff (hm : isLeadingMarker m = true) :
    Derives .union (m :: ts) e ↔ Derives .union ts e := by
  have hlength : (m :: ts).length = ts.length + 1 := rfl
  rw [derives_union_iff (n := 6 * ts.length + 9) (by omega), unionExpr_cons hm,
    ← derives_union_iff (by omega)]

/-! ## A marker behind -/

/-- A primary expression does not end with a marker. -/
theorem Derives.isMarker_getLast? {p : Phrase} (h : Derives p ts e) (hp : p = .primary) :
    ∀ t ∈ ts.getLast?, isMarker t = false := by
  induction h with
  | alone | several | bare | array | markedBehind => cases hp
  | markedInFront _ h ih =>
    intro t ht
    rw [List.getLast?_cons_of_ne_nil h.ne_nil] at ht
    exact ih rfl t ht
  | inParens => simp [List.getLast?_cons, isMarker]
  | any => simp [isMarker]
  | named => simp [isMarker]
  | applied => simp [List.getLast?_cons, isMarker]

/-- The marker that a member ends with is taken away. -/
theorem derives_member_of_append (hm : isMarker m = true) (h : Derives .member (ts ++ [m]) e) :
    Derives .member ts e := by
  generalize hus : ts ++ [m] = us at h
  cases h with
  | bare h =>
    have hlast := h.isMarker_getLast? rfl m (by simp [← hus])
    rw [hm] at hlast
    cases hlast
  | array h =>
    have hlast := congrArg List.getLast? hus
    simp only [List.getLast?_append, List.getLast?_singleton, List.getLast?_cons_cons,
      Option.some_or, Option.some.injEq] at hlast
    subst hlast
    cases hm
  | markedBehind _ h =>
    obtain ⟨rfl, -⟩ := List.append_inj' hus rfl
    exact h

/-- A union ends with a member, and every member with the same tree can stand in its place. -/
theorem Derives.exists_lastMember (h : Derives .union ts e) :
    ∃ front us r, ts = front ++ us ∧ Derives .member us r ∧
      ∀ vs, Derives .member vs r → Derives .union (front ++ vs) e := by
  cases h with
  | alone h => exact ⟨[], ts, e, rfl, h, fun vs hvs => hvs.alone⟩
  | @several ps hps h =>
    obtain ⟨p, q, ps, rfl⟩ : ∃ p q qs, ps = p :: (qs ++ [q]) := by
      match ps, hps with
      | p :: q :: qs, _ =>
        exact ⟨p, _, _, by rw [List.dropLast_append_getLast (List.cons_ne_nil q qs)]⟩
    obtain ⟨hp, hps⟩ := List.forall_mem_cons.1 h
    obtain ⟨hps, hq⟩ := List.forall_mem_append.1 hps
    refine ⟨p.1 ++ (ps.map Prod.fst).flatMap (.bar :: ·) ++ [.bar], q.1, q.2, ?_, ?_, ?_⟩
    · simp [intercalate_cons]
    · exact hq q (List.mem_singleton.2 rfl)
    · intro vs hvs
      have hall : ∀ r ∈ p :: (ps ++ [(vs, q.2)]), Derives .member r.1 r.2 :=
        List.forall_mem_cons.2 ⟨hp, List.forall_mem_append.2 ⟨hps, List.forall_mem_singleton.2 hvs⟩⟩
      simpa [intercalate_cons] using Derives.several (by simp) hall

/-- A marker behind a union says nothing. -/
theorem derives_union_append_iff (hm : m ∈ [Token.equals, .bang, .question]) :
    Derives .union (ts ++ [m]) e ↔ Derives .union ts e := by
  constructor
  · intro h
    obtain ⟨front, us, r, hsplit, hus, hfront⟩ := h.exists_lastMember
    -- the marker is the last token of the last member
    obtain ⟨us, rfl⟩ : ∃ vs, us = vs ++ [m] := by
      have hlast := congrArg List.getLast? hsplit
      rw [List.getLast?_append_of_ne_nil _ hus.ne_nil, List.getLast?_concat] at hlast
      exact ⟨_, (List.dropLast_append_getLast? m hlast.symm).symm⟩
    rw [← List.append_assoc] at hsplit
    obtain ⟨rfl, -⟩ := List.append_inj' hsplit rfl
    exact hfront us (derives_member_of_append (isMarker_of_mem hm) hus)
  · intro h
    obtain ⟨front, us, r, rfl, hus, hfront⟩ := h.exists_lastMember
    rw [List.append_assoc]
    exact hfront _ (hus.markedBehind hm)

/-! ## Texts -/

/-- Tokens are read as a tree just if they are a union with that tree. -/
theorem ofTokens_eq_ok_iff_derives : ofTokens ts = .ok e ↔ Derives .union ts e :=
  ofTokens_eq_ok_iff.trans ⟨And.right, fun h => ⟨h.ne_nil, h⟩⟩

/-- A change of the tokens that makes no difference for unions makes none for a text. -/
theorem parse_iff_of_tokens {s t : List Char} {f : List Token → List Token}
    (hs : tokens t = (tokens s).map f)
    (hf : ∀ ts, Derives .union (f ts) e ↔ Derives .union ts e) :
    parse t = .ok e ↔ parse s = .ok e := by
  constructor
  · intro h
    obtain ⟨us, hus, h⟩ := exists_of_bind_eq_ok h
    rw [hs] at hus
    obtain ⟨ts, hts, rfl⟩ := exists_of_map_eq_ok hus
    rw [parse, hts]
    exact ofTokens_eq_ok_iff_derives.2 ((hf ts).1 (ofTokens_eq_ok_iff_derives.1 h))
  · intro h
    obtain ⟨ts, hts, h⟩ := exists_of_bind_eq_ok h
    rw [parse, hs, hts]
    exact ofTokens_eq_ok_iff_derives.2 ((hf ts).2 (ofTokens_eq_ok_iff_derives.1 h))

/-- Tokens that have a tree have it without the markers among them. A text has the trees that it has
with `?` or `!` in front, and those that it has with `?`, `!` or `=` behind a space at its end. -/
theorem parse_drops_markers :
    (∀ ts e, ofTokens ts = .ok e → ofTokens (unmarked ts) = .ok e) ∧
    (∀ s e, ∀ c ∈ ['?', '!'], parse (c :: s) = .ok e ↔ parse s = .ok e) ∧
    ∀ s e, ∀ c ∈ ['?', '!', '='], parse (s ++ [' ', c]) = .ok e ↔ parse s = .ok e := by
  refine ⟨fun ts e h => ?_, fun s e c hc => ?_, fun s e c hc => ?_⟩
  · rw [ofTokens_eq_ok_iff_derives] at h ⊢
    exact derives_unmarked h
  · obtain ⟨m, hsign, hm⟩ : ∃ m, sign? c = some m ∧ isLeadingMarker m = true := by
      simp only [List.mem_cons, List.not_mem_nil, or_false] at hc
      rcases hc with rfl | rfl
      · exact ⟨_, rfl, rfl⟩
      · exact ⟨_, rfl, rfl⟩
    exact parse_iff_of_tokens (tokens_of_sign hsign s) fun ts => derives_union_cons_iff hm
  · obtain ⟨m, hsign, hm⟩ : ∃ m, sign? c = some m ∧ m ∈ [Token.equals, .bang, .question] := by
      simp only [List.mem_cons, List.not_mem_nil, or_false] at hc
      rcases hc with rfl | rfl | rfl
      · exact ⟨_, rfl, by decide⟩
      · exact ⟨_, rfl, by decide⟩
      · exact ⟨_, rfl, by decide⟩
    have hlast : tokens [c] = .ok [m] := by
      rw [tokens_of_sign hsign, tokens_nil]
      rfl
    exact parse_iff_of_tokens (tokens_append_space hlast s) fun ts => derives_union_append_iff hm

/-- The tokens of `?A<!B=>[]!` without their markers, and the text `(A|B)[]` with markers around. -/
theorem parse_drops_markers_array :
    (∃ e, ofTokens [.question, .word ['A'], .less, .bang, .word ['B'], .equals, .greater,
          .openBracket, .closeBracket, .bang] = .ok e ∧
        ofTokens [.word ['A'], .less, .word ['B'], .greater, .openBracket, .closeBracket] = .ok e) ∧
    ∃ e, parse "(A|B)[]".toList = .ok e ∧ parse "!(A|B)[]".toList = .ok e ∧
      parse "(A|B)[] =".toList = .ok e := by
  obtain ⟨htokens, hfront, hbehind⟩ := parse_drops_markers
  have hmarked : ofTokens [.question, .word ['A'], .less, .bang, .word ['B'], .equals, .greater,
      .openBracket, .closeBracket, .bang] = .ok (arrayOf (.applied "A" [.named "B"])) := rfl
  have haccepts : (parse "(A|B)[]".toList).isOk = true := by decide +kernel
  refine ⟨⟨_, hmarked, htokens _ _ hmarked⟩, ?_⟩
  cases hparse : parse "(A|B)[]".toList with
  | error fault =>
    rw [hparse] at haccepts
    cases haccepts
  | ok e =>
    exact ⟨e, rfl, (hfront _ e '!' (by decide)).2 hparse, (hbehind _ e '=' (by decide)).2 hparse⟩

end ApiDoc.TypeExpr
