import ApiDoc.Proofs.TypeExpr.Grammar
import ApiDoc.Proofs.TypeExpr.Tokens
import ApiDoc.Text.Lines

/-!
# Printed type expressions

A type expression is printed as its name, as `C<a,b>`, as `(a|b)` or as `*`. The expressions that
texts have as their trees are exactly the well-formed ones, and each of them is the tree of what it
is printed as (`wellFormed_iff_parse_print`).

A printed expression is a primary expression: its tokens are read one by one, since behind a name
there is always a sign (`LexesAs`).
-/

namespace ApiDoc.TypeExpr

/-! ## Well-formed expressions -/

/-- A name of a type as it stands in an expression. -/
structure IsBareName (n : String) : Prop where
  starts : startsName n.toList = true
  chars : ∀ c ∈ n.toList, isNameChar c = true
  last : n.toList.getLast? ≠ some '.'

instance (n : String) : Decidable (IsBareName n) :=
  decidable_of_iff (startsName n.toList = true ∧ n.toList.all isNameChar = true ∧
      n.toList.getLast? ≠ some '.')
    ⟨fun h => ⟨h.1, List.all_eq_true.1 h.2.1, h.2.2⟩,
      fun h => ⟨h.starts, List.all_eq_true.2 h.chars, h.last⟩⟩

/-- A bare name is not empty. -/
theorem IsBareName.ne_empty {n : String} (h : IsBareName n) : n ≠ "" := by
  rintro rfl
  cases h.starts

/-- An expression with the parts of one form only, and that form all the way down. -/
inductive WellFormed : TypeExpr → Prop where
  | named {n : String} (hn : IsBareName n) : WellFormed (.named n)
  | applied {n : String} {es : List TypeExpr} (hn : IsBareName n) (h : ∀ e ∈ es, WellFormed e) :
      WellFormed (.applied n es)
  | union {es : List TypeExpr} (hes : 2 ≤ es.length) (h : ∀ e ∈ es, WellFormed e) :
      WellFormed (.union es)
  | any : WellFormed .any

mutual

/-- The text of an expression. -/
def print : TypeExpr → List Char
  | mk (some n) _ _ _ => n.toList
  | mk none c (some as) _ =>
    ((c.bind name).getD "").toList ++ '<' :: (Text.join [','] (printAll as) ++ ['>'])
  | mk none _ none (some ms) => '(' :: (Text.join ['|'] (printAll ms) ++ [')'])
  | mk none _ none none => ['*']

/-- The texts of expressions. -/
def printAll : List TypeExpr → List (List Char)
  | [] => []
  | e :: es => print e :: printAll es

end

theorem printAll_eq_map (es : List TypeExpr) : printAll es = es.map print := by
  induction es with
  | nil => rfl
  | cons e es ih => rw [printAll, ih, List.map_cons]

/-- A container is printed with its arguments between commas. -/
theorem print_applied (n : String) (es : List TypeExpr) :
    print (.applied n es) = n.toList ++ '<' :: (Text.join [','] (es.map print) ++ ['>']) := by
  rw [print, printAll_eq_map]
  rfl

/-- A union is printed with its members between bars, in parentheses. -/
theorem print_union (es : List TypeExpr) :
    print (.union es) = '(' :: (Text.join ['|'] (es.map print) ++ [')']) := by
  rw [print, printAll_eq_map]

/-- What holds of the characters of all parts and of the separator holds of the joined text. -/
theorem forall_mem_join {P : Char → Prop} {sep : Char} {parts : List (List Char)} (hsep : P sep)
    (h : ∀ part ∈ parts, ∀ c ∈ part, P c) : ∀ c ∈ Text.join [sep] parts, P c := by
  induction parts with
  | nil => exact List.forall_mem_nil P
  | cons part parts ih =>
    obtain ⟨hpart, hparts⟩ := List.forall_mem_cons.1 h
    cases parts with
    | nil => exact hpart
    | cons next rest =>
      have hjoin : Text.join [sep] (part :: next :: rest)
          = part ++ sep :: Text.join [sep] (next :: rest) := by simp [Text.join]
      rw [hjoin]
      exact List.forall_mem_append.2 ⟨hpart, List.forall_mem_cons.2 ⟨hsep, ih hparts⟩⟩

/-- A character of names, or one of the signs that expressions are printed with. -/
def IsPrintChar (c : Char) : Prop := isNameChar c = true ∨ c ∈ "<>(),|*".toList

/-- No blank is printed. -/
theorem IsPrintChar.isBlank_eq_false {c : Char} (h : IsPrintChar c) : Text.isBlank c = false := by
  have hsigns : "<>(),|*".toList.all (!Text.isBlank ·) = true := by decide
  rcases h with h | h
  · exact isBlank_of_isNameChar h
  · simpa using List.all_eq_true.1 hsigns c h

/-- Expressions are printed without braces and slashes. -/
theorem IsPrintChar.not_mem {c : Char} (h : IsPrintChar c) : c ∉ ['\x7b', '\x7d', '/'] := by
  have hothers : ['\x7b', '\x7d', '/'].all
      (fun d => !isNameChar d && !"<>(),|*".toList.contains d) = true := by decide
  intro hc
  have hnot := List.all_eq_true.1 hothers c hc
  rcases h with h | h
  · simp [h] at hnot
  · simp only [List.contains_iff_mem.2 h] at hnot
    simp at hnot

/-- Expressions are printed with characters of names and signs only. -/
theorem WellFormed.isPrintChar {e : TypeExpr} (h : WellFormed e) :
    ∀ c ∈ print e, IsPrintChar c := by
  have hsigns : ∀ c ∈ "<>(),|*".toList, IsPrintChar c := fun c hc => .inr hc
  induction h with
  | named hn => exact fun c hc => .inl (hn.chars c hc)
  | applied hn _ ih =>
    have harguments := forall_mem_join (hsigns ',' (by decide)) (List.forall_mem_map.2 ih)
    rw [print_applied, List.forall_mem_append, List.forall_mem_cons, List.forall_mem_append]
    exact ⟨fun c hc => .inl (hn.chars c hc), hsigns '<' (by decide), harguments,
      List.forall_mem_singleton.2 (hsigns '>' (by decide))⟩
  | union _ _ ih =>
    have hmembers := forall_mem_join (hsigns '|' (by decide)) (List.forall_mem_map.2 ih)
    rw [print_union, List.forall_mem_cons, List.forall_mem_append]
    exact ⟨hsigns '(' (by decide), hmembers, List.forall_mem_singleton.2 (hsigns ')' (by decide))⟩
  | any => exact List.forall_mem_singleton.2 (hsigns '*' (by decide))

/-! ## What the parser gives is well-formed -/

/-- The name that a word stands for is a bare name. -/
theorem IsName.isBareName {w : List Char} {n : String} (h : IsName w n)
    (hw : ∀ c ∈ w, isNameChar c = true) : IsBareName n := by
  obtain ⟨hstarts, dots, rfl, hlast⟩ := h
  refine ⟨?_, fun c hc => hw c (List.mem_append_left _ hc), hlast⟩
  cases hn : n.toList with
  | nil =>
    -- a word of dots does not start as a name does
    rw [hn, List.nil_append] at hstarts
    cases dots <;> cases hstarts
  | cons c rest =>
    rw [hn] at hstarts
    exact hstarts

/-- What is in a part is in the parts between separators. -/
theorem mem_intercalate {α : Type} {sep : α} {parts : List (List α)} {part : List α} {x : α}
    (hpart : part ∈ parts) (hx : x ∈ part) : x ∈ [sep].intercalate parts := by
  cases parts with
  | nil => cases hpart
  | cons first parts =>
    rw [intercalate_cons]
    rcases List.mem_cons.1 hpart with rfl | hpart
    · exact List.mem_append_left _ hx
    · exact List.mem_append_right _ (List.mem_flatMap.2 ⟨part, hpart, List.mem_cons_of_mem _ hx⟩)

/-- The tree of a phrase is well-formed. -/
theorem Derives.wellFormed {p : Phrase} {ts : List Token} {e : TypeExpr} (h : Derives p ts e)
    (hts : ∀ w, .word w ∈ ts → ∀ c ∈ w, isNameChar c = true) : WellFormed e := by
  induction h with
  | alone _ ih => exact ih hts
  | several hps _ ih =>
    refine .union (by simpa using hps) fun e he => ?_
    obtain ⟨p, hp, rfl⟩ := List.mem_map.1 he
    exact ih p hp fun w hw => hts w (mem_intercalate (List.mem_map_of_mem hp) hw)
  | bare _ ih => exact ih hts
  | array _ ih =>
    have harray : IsBareName "Array" := by decide
    refine .applied harray (List.forall_mem_singleton.2 (ih fun w hw => ?_))
    exact hts w (List.mem_append_left _ hw)
  | markedBehind _ _ ih => exact ih fun w hw => hts w (List.mem_append_left _ hw)
  | markedInFront _ _ ih => exact ih fun w hw => hts w (List.mem_cons_of_mem _ hw)
  | inParens _ ih => exact ih fun w hw => hts w (List.mem_cons_of_mem _ (List.mem_append_left _ hw))
  | any => exact .any
  | named hn => exact .named (hn.isBareName (hts _ (List.mem_singleton.2 rfl)))
  | applied hn _ _ ih =>
    refine .applied (hn.isBareName (hts _ List.mem_cons_self)) fun e he => ?_
    obtain ⟨p, hp, rfl⟩ := List.mem_map.1 he
    refine ih p hp fun w hw => hts w (List.mem_cons_of_mem _ (List.mem_cons_of_mem _ ?_))
    exact List.mem_append_left _ (mem_intercalate (List.mem_map_of_mem hp) hw)

/-- What the parser gives is well-formed. -/
theorem wellFormed_of_parse {s : List Char} {e : TypeExpr} (h : parse s = .ok e) :
    WellFormed e := by
  obtain ⟨ts, hts, -, hderives⟩ := parse_eq_ok_iff.1 h
  exact hderives.wellFormed fun w hw => isNameChar_of_tokens hts hw

/-! ## What is printed has its tree -/

/-- The text is read as these tokens in front of every text that a word does not go on with. -/
def LexesAs (text : List Char) (ts : List Token) : Prop :=
  ∀ s, (∀ c ∈ s.head?, isNameChar c = false) → tokens (text ++ s) = (tokens s).map (ts ++ ·)

theorem lexesAs_nil : LexesAs [] [] := by
  intro s _
  cases h : tokens s <;> simp [h, Except.map]

/-- A sign in front of a text is one more token. -/
theorem LexesAs.cons_sign {c : Char} {t : Token} {text : List Char} {ts : List Token}
    (hc : sign? c = some t) (h : LexesAs text ts) : LexesAs (c :: text) (t :: ts) := by
  intro s hs
  rw [List.cons_append, tokens_of_sign hc, h s hs]
  cases tokens s <;> rfl

/-- A sign is no character of names. -/
theorem isNameChar_of_sign? {c : Char} {t : Token} (h : sign? c = some t) :
    isNameChar c = false := by
  rw [Bool.eq_false_iff]
  intro hc
  rw [sign?_of_isNameChar hc] at h
  cases h

/-- A sign ends the word in front of it. -/
theorem LexesAs.append_sign {c : Char} {t : Token} {text text' : List Char} {ts ts' : List Token}
    (h : LexesAs text ts) (hc : sign? c = some t) (h' : LexesAs text' ts') :
    LexesAs (text ++ c :: text') (ts ++ t :: ts') := by
  intro s hs
  have hbehind : ∀ d ∈ (c :: text' ++ s).head?, isNameChar d = false := by
    simpa using isNameChar_of_sign? hc
  rw [List.append_assoc, h _ hbehind, h'.cons_sign hc s hs]
  cases tokens s <;> simp [Except.map]

/-- A word is one token. -/
theorem lexesAs_word {w : List Char} (hstarts : startsName w = true)
    (hchars : ∀ c ∈ w, isNameChar c = true) : LexesAs w [.word w] := by
  intro s hs
  cases w with
  | nil => cases hstarts
  | cons c w =>
    have hdot : c ≠ '.' := by
      rintro rfl
      cases hstarts
    exact tokens_of_word hchars hdot hs

/-- A bare name is read as one word. -/
theorem IsBareName.lexesAs {n : String} (h : IsBareName n) : LexesAs n.toList [.word n.toList] :=
  lexesAs_word h.starts h.chars

/-- A text whose tokens are a union is read as its tree. -/
theorem LexesAs.parse_eq {text : List Char} {ts : List Token} {e : TypeExpr} (h : LexesAs text ts)
    (hne : ts ≠ []) (he : Derives .union ts e) : parse text = .ok e := by
  have htokens : tokens text = .ok ts := by simpa [tokens_nil, Except.map] using h [] (by simp)
  exact parse_eq_ok_iff.2 ⟨ts, htokens, hne, he⟩

/-- Texts with signs between them are read one after another. -/
theorem lexesAs_intercalate {c : Char} {t : Token} (hc : sign? c = some t)
    {text : TypeExpr → List Char} {ts : TypeExpr → List Token} {es : List TypeExpr}
    (h : ∀ e ∈ es, LexesAs (text e) (ts e)) :
    LexesAs (Text.join [c] (es.map text)) ([t].intercalate (es.map ts)) := by
  induction es with
  | nil => exact lexesAs_nil
  | cons e es ih =>
    obtain ⟨he, hes⟩ := List.forall_mem_cons.1 h
    cases es with
    | nil => simpa [Text.join, List.intercalate] using he
    | cons e' es =>
      have hjoin := he.append_sign hc (ih hes)
      simpa [Text.join, List.intercalate] using hjoin

/-- Members between bars, in parentheses, are a union. -/
theorem derives_union {es : List TypeExpr} {ts : TypeExpr → List Token} (hes : 2 ≤ es.length)
    (h : ∀ e ∈ es, Derives .primary (ts e) e) :
    Derives .primary (.openParen :: ([Token.bar].intercalate (es.map ts) ++ [.closeParen]))
      (.union es) := by
  have hmembers : ∀ p ∈ es.map fun e => (ts e, e), Derives .member p.1 p.2 := by
    simpa using fun e he => (h e he).bare
  simpa [Function.comp_def] using (Derives.several (by simpa using hes) hmembers).inParens

/-- Arguments between commas, behind a name, are a container of them. -/
theorem derives_applied {n : String} {es : List TypeExpr} {ts : TypeExpr → List Token}
    (hn : IsBareName n) (h : ∀ e ∈ es, Derives .primary (ts e) e) :
    Derives .primary
      (.word n.toList :: .less :: ([Token.comma].intercalate (es.map ts) ++ [.greater]))
      (.applied n es) := by
  have hname : IsName n.toList n := ⟨hn.starts, 0, by simp, hn.last⟩
  have harguments : ∀ p ∈ es.map fun e => (ts e, e), Derives .union p.1 p.2 := by
    simpa using fun e he => (h e he).bare.alone
  simpa [Function.comp_def] using Derives.applied hname (by decide : Token.less ∈ _) harguments

/-- A printed expression is read as a primary expression with that tree. -/
theorem WellFormed.exists_tokens {e : TypeExpr} (h : WellFormed e) :
    ∃ ts, ts ≠ [] ∧ Derives .primary ts e ∧ LexesAs (print e) ts := by
  induction h with
  | named hn =>
    exact ⟨_, List.cons_ne_nil _ _, .named ⟨hn.starts, 0, by simp, hn.last⟩, hn.lexesAs⟩
  | @applied n es hn _ ih =>
    choose! ts _ hderives hlexes using ih
    refine ⟨_, List.cons_ne_nil _ _, derives_applied hn hderives, ?_⟩
    have hjoin := lexesAs_intercalate (c := ',') rfl hlexes
    rw [print_applied]
    exact hn.lexesAs.append_sign rfl (hjoin.append_sign rfl lexesAs_nil)
  | @union es hes _ ih =>
    choose! ts _ hderives hlexes using ih
    refine ⟨_, List.cons_ne_nil _ _, derives_union hes hderives, ?_⟩
    have hjoin := lexesAs_intercalate (c := '|') rfl hlexes
    rw [print_union]
    exact (hjoin.append_sign rfl lexesAs_nil).cons_sign rfl
  | any => exact ⟨_, List.cons_ne_nil _ _, .any, lexesAs_nil.cons_sign rfl⟩

/-- A well-formed expression is read back from its text. -/
theorem WellFormed.parse_print {e : TypeExpr} (h : WellFormed e) : parse (print e) = .ok e := by
  obtain ⟨ts, hne, hderives, hlexes⟩ := h.exists_tokens
  exact hlexes.parse_eq hne hderives.bare.alone

/-- An expression is well-formed exactly if it is the tree of what it is printed as, and exactly if
some text has it as its tree. So printing the tree of a text and reading it again changes
nothing. -/
theorem wellFormed_iff_parse_print :
    (∀ e, WellFormed e ↔ parse (print e) = .ok e) ∧
    (∀ e, WellFormed e ↔ ∃ s, parse s = .ok e) ∧
    ∀ s, (parse s >>= fun e => parse (print e)) = parse s := by
  refine ⟨fun e => ⟨WellFormed.parse_print, wellFormed_of_parse⟩, fun e => ⟨?_, ?_⟩, fun s => ?_⟩
  · exact fun h => ⟨print e, h.parse_print⟩
  · rintro ⟨s, h⟩
    exact wellFormed_of_parse h
  · cases h : parse s with
    | error fault => rfl
    | ok e => exact (wellFormed_of_parse h).parse_print

end ApiDoc.TypeExpr
