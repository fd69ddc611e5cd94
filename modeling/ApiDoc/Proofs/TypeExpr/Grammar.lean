import ApiDoc.Proofs.Except
import ApiDoc.TypeExpr.Parser
import Mathlib.Data.List.DropRight

/-!
# The grammar of type expressions

A union is members with bars between them. A member is a primary expression with markers and `[]`
behind it. A primary expression is a name, a name with arguments, the wildcard or a union in
parentheses, with markers in front of it. `Derives` says which tokens are such a phrase and which
tree they have.

The parser reads from a list of tokens the longest phrase that it starts with:
* `sound` says that what it reads is a phrase with the tree that it gives;
* `Derives.isRead` says that it reads every phrase that the next token does not go on with;
* `parse_eq_ok_iff` puts both together for a text.
-/

namespace ApiDoc.TypeExpr

/-! ## Phrases and their trees -/

/-- A word and the name that it stands for: the word starts as names do, and the name is the word
without the dots at its end. -/
def IsName (w : List Char) (n : String) : Prop :=
  startsName w = true ∧
    ∃ dots, w = n.toList ++ List.replicate dots '.' ∧ n.toList.getLast? ≠ some '.'

/-- The kinds of phrases. -/
inductive Phrase where
  | union
  | member
  | primary

/-- The tokens of a phrase, and its tree. -/
inductive Derives : Phrase → List Token → TypeExpr → Prop where
  /-- A member alone is the union of itself. -/
  | alone {ts : List Token} {e : TypeExpr} (h : Derives .member ts e) : Derives .union ts e
  /-- Two members or more have bars between them. -/
  | several {ps : List (List Token × TypeExpr)} (hps : 2 ≤ ps.length)
      (h : ∀ p ∈ ps, Derives .member p.1 p.2) :
      Derives .union ([Token.bar].intercalate (ps.map Prod.fst)) (.union (ps.map Prod.snd))
  | bare {ts : List Token} {e : TypeExpr} (h : Derives .primary ts e) : Derives .member ts e
  /-- Brackets behind a member make the list of it. -/
  | array {ts : List Token} {e : TypeExpr} (h : Derives .member ts e) :
      Derives .member (ts ++ [.openBracket, .closeBracket]) (.applied "Array" [e])
  | markedBehind {ts : List Token} {e : TypeExpr} {m : Token}
      (hm : m ∈ [Token.equals, .bang, .question]) (h : Derives .member ts e) :
      Derives .member (ts ++ [m]) e
  | markedInFront {ts : List Token} {e : TypeExpr} {m : Token} (hm : m ∈ [Token.question, .bang])
      (h : Derives .primary ts e) : Derives .primary (m :: ts) e
  | inParens {ts : List Token} {e : TypeExpr} (h : Derives .union ts e) :
      Derives .primary (.openParen :: (ts ++ [.closeParen])) e
  | any : Derives .primary [.star] .any
  | named {w : List Char} {n : String} (hn : IsName w n) : Derives .primary [.word w] (.named n)
  /-- The arguments, if there are any, have commas between them. -/
  | applied {w : List Char} {n : String} {sign : Token} {ps : List (List Token × TypeExpr)}
      (hn : IsName w n) (hsign : sign ∈ [Token.dotLess, .less])
      (h : ∀ p ∈ ps, Derives .union p.1 p.2) :
      Derives .primary
        (.word w :: sign :: ([Token.comma].intercalate (ps.map Prod.fst) ++ [.greater]))
        (.applied n (ps.map Prod.snd))

/-- The name of a word is the word without the dots at its end. -/
theorem isName_iff {w : List Char} {n : String} :
    IsName w n ↔ startsName w = true ∧ nameOf w = n := by
  refine and_congr_right fun _ => ⟨?_, ?_⟩
  · rintro ⟨dots, rfl, hlast⟩
    have hrest : n.toList.reverse.dropWhile (· == '.') = n.toList.reverse := by
      rw [← List.head?_reverse] at hlast
      cases h : n.toList.reverse with
      | nil => rfl
      | cons c rest => simp_all
    rw [nameOf, List.reverse_append, List.reverse_replicate,
      List.dropWhile_append_of_pos (by simp), hrest, List.reverse_reverse, String.ofList_toList]
  · rintro rfl
    refine ⟨(w.reverse.takeWhile (· == '.')).length, ?_, ?_⟩
    · have hdots : w.reverse.takeWhile (· == '.')
          = List.replicate (w.reverse.takeWhile (· == '.')).length '.' :=
        List.eq_replicate_of_mem fun c hc => by simpa using List.mem_takeWhile_imp hc
      rw [nameOf, String.toList_ofList, ← List.reverse_replicate, ← hdots, ← List.reverse_append,
        List.takeWhile_append_dropWhile, List.reverse_reverse]
    · rw [nameOf, String.toList_ofList, List.getLast?_reverse]
      intro h
      have := List.head?_dropWhile_not (· == '.') w.reverse
      rw [h] at this
      simp at this

/-- Parts with a separator between neighbours are the first part, and then each further part with
a separator in front. -/
theorem intercalate_cons {α : Type} (sep : α) (part : List α) (parts : List (List α)) :
    [sep].intercalate (part :: parts) = part ++ parts.flatMap (sep :: ·) := by
  induction parts generalizing part with
  | nil => simp [List.intercalate]
  | cons next parts ih =>
    have := ih next
    simp_all [List.intercalate]

/-! ## What the parser reads is a phrase -/

variable {n : Nat} {ts rest : List Token} {e : TypeExpr} {es : List TypeExpr}

/-- The tokens are a phrase with that tree, and the rest behind it. -/
def Starts (p : Phrase) (e : TypeExpr) (ts rest : List Token) : Prop :=
  ∃ us, ts = us ++ rest ∧ Derives p us e

/-- The tokens are phrases with those trees, each with a separator in front, and the rest behind
them. -/
def StartsEach (sep : Token) (p : Phrase) (es : List TypeExpr) (ts rest : List Token) : Prop :=
  ∃ ps : List (List Token × TypeExpr), ts = (ps.map Prod.fst).flatMap (sep :: ·) ++ rest ∧
    es = ps.map Prod.snd ∧ ∀ q ∈ ps, Derives p q.1 q.2

theorem startsEach_nil (sep : Token) (p : Phrase) (rest : List Token) :
    StartsEach sep p [] rest rest :=
  ⟨[], rfl, rfl, List.forall_mem_nil _⟩

/-- A phrase behind a separator, and further ones behind it. -/
theorem Starts.cons_each {sep : Token} {p : Phrase} {behind : List Token}
    (h : Starts p e ts behind) (hs : StartsEach sep p es behind rest) :
    StartsEach sep p (e :: es) (sep :: ts) rest := by
  obtain ⟨us, rfl, hus⟩ := h
  obtain ⟨ps, rfl, rfl, hps⟩ := hs
  exact ⟨(us, e) :: ps, by simp, rfl, List.forall_mem_cons.2 ⟨hus, hps⟩⟩

/-- What the parser reads with a bound on the depth of its calls is a phrase, or the part of one
that the function is for, and the tree is the one that it gives. -/
structure Sound (n : Nat) : Prop where
  union {ts rest : List Token} {e : TypeExpr} (h : unionExpr n ts = .ok (e, rest)) :
    Starts .union e ts rest
  members {ts rest : List Token} {es : List TypeExpr} (h : moreMembers n ts = .ok (es, rest)) :
    StartsEach .bar .member es ts rest
  member {ts rest : List Token} {e : TypeExpr} (h : memberExpr n ts = .ok (e, rest)) :
    Starts .member e ts rest
  primary {ts rest : List Token} {e : TypeExpr} (h : primaryExpr n ts = .ok (e, rest)) :
    Starts .primary e ts rest
  applied {name : String} {ts rest : List Token} {e : TypeExpr}
    (h : appliedExpr n name ts = .ok (e, rest)) :
    ∃ ps : List (List Token × TypeExpr),
      ts = [Token.comma].intercalate (ps.map Prod.fst) ++ .greater :: rest ∧
      e = .applied name (ps.map Prod.snd) ∧ ∀ p ∈ ps, Derives .union p.1 p.2
  first {ts rest : List Token} {es : List TypeExpr} (h : firstArgument n ts = .ok (es, rest)) :
    (es = [] ∧ ts = rest ∧ rest.head? = some .greater) ∨ ∃ e, es = [e] ∧ Starts .union e ts rest
  arguments {ts rest : List Token} {es : List TypeExpr} (h : moreArguments n ts = .ok (es, rest)) :
    StartsEach .comma .union es ts rest

/-- A token that was expected came first. -/
theorem eq_cons_of_expect {wanted : Token} (h : expect wanted ts = .ok rest) :
    ts = wanted :: rest := by
  cases ts with
  | nil => cases h
  | cons t ts =>
    rw [expect] at h
    split at h
    · next heq => rw [heq, Except.ok.inj h]
    · cases h

/-- The markers and brackets that are read behind a member belong to it. -/
theorem suffixes_sound {us : List Token} {r : TypeExpr} (he : Derives .member us e)
    (h : suffixes e ts = .ok (r, rest)) :
    ∃ vs, ts = vs ++ rest ∧ Derives .member (us ++ vs) r := by
  fun_induction suffixes e ts generalizing us with
  | case1 e ts ih =>
    obtain ⟨vs, rfl, hvs⟩ := ih he.array h
    exact ⟨.openBracket :: .closeBracket :: vs, rfl, by simpa using hvs⟩
  | case2 e ts hne =>
    obtain ⟨ts', hexpect, -⟩ := exists_of_map_eq_ok h
    exact absurd (eq_cons_of_expect hexpect) (hne ts')
  | case3 e ts ih =>
    obtain ⟨vs, rfl, hvs⟩ := ih (he.markedBehind (m := .equals) (by decide)) h
    exact ⟨.equals :: vs, rfl, by simpa using hvs⟩
  | case4 e ts ih =>
    obtain ⟨vs, rfl, hvs⟩ := ih (he.markedBehind (m := .bang) (by decide)) h
    exact ⟨.bang :: vs, rfl, by simpa using hvs⟩
  | case5 e ts ih =>
    obtain ⟨vs, rfl, hvs⟩ := ih (he.markedBehind (m := .question) (by decide)) h
    exact ⟨.question :: vs, rfl, by simpa using hvs⟩
  | case6 e ts =>
    cases h
    exact ⟨[], rfl, by simpa using he⟩

/-- What is read as a union is one, if one call less is sound. -/
theorem Sound.union_succ (hn : Sound n) (h : unionExpr (n + 1) ts = .ok (e, rest)) :
    Starts .union e ts rest := by
  rw [unionExpr] at h
  obtain ⟨⟨e₁, ts₁⟩, hfirst, h⟩ := exists_of_bind_eq_ok h
  obtain ⟨⟨es, ts₂⟩, hmore, h⟩ := exists_of_bind_eq_ok h
  cases h
  obtain ⟨us, rfl, hus⟩ := hn.member hfirst
  obtain ⟨ps, rfl, rfl, hps⟩ := hn.members hmore
  cases ps with
  | nil => exact ⟨us, rfl, hus.alone⟩
  | cons p ps =>
    have hall : ∀ q ∈ (us, e₁) :: p :: ps, Derives .member q.1 q.2 :=
      List.forall_mem_cons.2 ⟨hus, hps⟩
    refine ⟨_, ?_, .several (by simp) hall⟩
    rw [List.map_cons (l := p :: ps), intercalate_cons, List.append_assoc]

/-- What is read as further members of a union are members. -/
theorem Sound.members_succ (hn : Sound n) (h : moreMembers (n + 1) ts = .ok (es, rest)) :
    StartsEach .bar .member es ts rest := by
  unfold moreMembers at h
  split at h
  · next => contradiction
  · next heq =>
    cases heq
    obtain ⟨⟨e₁, ts₁⟩, hfirst, h⟩ := exists_of_bind_eq_ok h
    obtain ⟨⟨es, ts₂⟩, hmore, h⟩ := exists_of_bind_eq_ok h
    cases h
    exact (hn.member hfirst).cons_each (hn.members hmore)
  · cases h
    exact startsEach_nil _ _ rest

/-- What is read as a member is one. -/
theorem Sound.member_succ (hn : Sound n) (h : memberExpr (n + 1) ts = .ok (e, rest)) :
    Starts .member e ts rest := by
  rw [memberExpr] at h
  obtain ⟨⟨e₁, ts₁⟩, hfirst, hbehind⟩ := exists_of_bind_eq_ok h
  obtain ⟨us, rfl, hus⟩ := hn.primary hfirst
  obtain ⟨vs, rfl, hvs⟩ := suffixes_sound hus.bare hbehind
  exact ⟨us ++ vs, by rw [List.append_assoc], hvs⟩

/-- Markers in front of a primary phrase are dropped. -/
theorem primaryExpr_dropWhile (n : Nat) (ts : List Token) :
    primaryExpr n (ts.dropWhile isLeadingMarker) = primaryExpr n ts := by
  cases n with
  | zero => rfl
  | succ n => rw [primaryExpr, primaryExpr, List.dropWhile_idempotent]

/-- A primary expression that has no marker in front. -/
theorem Sound.unmarked_succ (hn : Sound n) (hts : ts.dropWhile isLeadingMarker = ts)
    (h : primaryExpr (n + 1) ts = .ok (e, rest)) : Starts .primary e ts rest := by
  rw [primaryExpr, hts] at h
  split at h
  · cases h
  · obtain ⟨⟨e₁, ts₁⟩, hinner, h⟩ := exists_of_bind_eq_ok h
    obtain ⟨ts₂, hclose, h⟩ := exists_of_bind_eq_ok h
    cases h
    obtain ⟨us, rfl, hus⟩ := hn.union hinner
    obtain rfl := eq_cons_of_expect hclose
    exact ⟨_, by simp, hus.inParens⟩
  · cases h
    exact ⟨[.star], rfl, .any⟩
  · next w ts =>
    split at h
    · next hw =>
      have hname : IsName w (nameOf w) := isName_iff.2 ⟨hw, rfl⟩
      split at h
      · obtain ⟨ps, rfl, rfl, hps⟩ := hn.applied h
        exact ⟨_, by simp, .applied hname (by decide : Token.dotLess ∈ _) hps⟩
      · obtain ⟨ps, rfl, rfl, hps⟩ := hn.applied h
        exact ⟨_, by simp, .applied hname (by decide : Token.less ∈ _) hps⟩
      · cases h
        exact ⟨[.word w], rfl, .named hname⟩
    · cases h
  · cases h

/-- What is read as a primary phrase is one. -/
theorem Sound.primary_succ (hn : Sound n) (h : primaryExpr (n + 1) ts = .ok (e, rest)) :
    Starts .primary e ts rest := by
  induction ts with
  | nil => exact hn.unmarked_succ rfl h
  | cons t ts ih =>
    by_cases ht : isLeadingMarker t = true
    · rw [← primaryExpr_dropWhile, List.dropWhile_cons_of_pos ht, primaryExpr_dropWhile] at h
      obtain ⟨us, rfl, hus⟩ := ih h
      have hmarker : t ∈ [Token.question, .bang] := by simpa [isLeadingMarker] using ht
      exact ⟨t :: us, rfl, hus.markedInFront hmarker⟩
    · exact hn.unmarked_succ (List.dropWhile_cons_of_neg ht) h

/-- What is read as the arguments of a container are unions between commas. -/
theorem Sound.applied_succ (hn : Sound n) {name : String}
    (h : appliedExpr (n + 1) name ts = .ok (e, rest)) :
    ∃ ps : List (List Token × TypeExpr),
      ts = [Token.comma].intercalate (ps.map Prod.fst) ++ .greater :: rest ∧
      e = .applied name (ps.map Prod.snd) ∧ ∀ p ∈ ps, Derives .union p.1 p.2 := by
  rw [appliedExpr] at h
  obtain ⟨⟨es₁, ts₁⟩, hfirst, h⟩ := exists_of_bind_eq_ok h
  obtain ⟨⟨es₂, ts₂⟩, hmore, h⟩ := exists_of_bind_eq_ok h
  obtain ⟨ts₃, hclose, h⟩ := exists_of_bind_eq_ok h
  cases h
  obtain rfl := eq_cons_of_expect hclose
  obtain ⟨ps, rfl, rfl, hps⟩ := hn.arguments hmore
  rcases hn.first hfirst with ⟨rfl, rfl, hhead⟩ | ⟨e₁, rfl, us, rfl, hus⟩
  · -- without a first argument the closing sign is next, so there are no others either
    cases ps with
    | nil => exact ⟨[], rfl, rfl, by simp⟩
    | cons p ps => simp at hhead
  · refine ⟨(us, e₁) :: ps, ?_, rfl, List.forall_mem_cons.2 ⟨hus, hps⟩⟩
    rw [List.map_cons, intercalate_cons, List.append_assoc]

/-- What is read as the first argument is a union, or there is none. -/
theorem Sound.first_succ (hn : Sound n) (h : firstArgument (n + 1) ts = .ok (es, rest)) :
    (es = [] ∧ ts = rest ∧ rest.head? = some .greater) ∨
      ∃ e, es = [e] ∧ Starts .union e ts rest := by
  unfold firstArgument at h
  split at h
  · next => contradiction
  · cases h
    exact .inl ⟨rfl, rfl, rfl⟩
  · next heq _ =>
    cases heq
    obtain ⟨⟨e₁, ts₁⟩, hfirst, h⟩ := exists_of_bind_eq_ok h
    cases h
    exact .inr ⟨e₁, rfl, hn.union hfirst⟩

/-- What is read as further arguments are unions. -/
theorem Sound.arguments_succ (hn : Sound n) (h : moreArguments (n + 1) ts = .ok (es, rest)) :
    StartsEach .comma .union es ts rest := by
  unfold moreArguments at h
  split at h
  · next => contradiction
  · next heq =>
    cases heq
    obtain ⟨⟨e₁, ts₁⟩, hfirst, h⟩ := exists_of_bind_eq_ok h
    obtain ⟨⟨es, ts₂⟩, hmore, h⟩ := exists_of_bind_eq_ok h
    cases h
    exact (hn.union hfirst).cons_each (hn.arguments hmore)
  · cases h
    exact startsEach_nil _ _ rest

/-- What the parser reads is a phrase, whatever the bound. -/
theorem sound (n : Nat) : Sound n := by
  induction n with
  | zero => constructor <;> intros <;> contradiction
  | succ n hn =>
    exact ⟨hn.union_succ, hn.members_succ, hn.member_succ, hn.primary_succ, hn.applied_succ,
      hn.first_succ, hn.arguments_succ⟩

/-! ## The parser reads every phrase -/

/-- The tokens that a phrase would go on with if they stood behind it. -/
def Phrase.continuing : Phrase → List Token
  | .primary => [.less, .dotLess]
  | .member => [.less, .dotLess, .openBracket, .equals, .bang, .question]
  | .union => [.less, .dotLess, .openBracket, .equals, .bang, .question, .bar]

/-- The phrase does not go on with the rest. -/
def Phrase.EndsBefore (p : Phrase) (rest : List Token) : Prop :=
  ∀ t ∈ rest.head?, t ∉ p.continuing

/-- The parser reads the tokens as a phrase with that tree, in front of a rest that the phrase does
not go on with, if the bound on the depth of calls is large enough for their number. Behind a member
it goes on with the markers and brackets of the rest. -/
def Phrase.IsRead : Phrase → List Token → TypeExpr → Prop
  | .union, ts, e => ∀ n rest, 6 * ts.length + 3 ≤ n → Phrase.union.EndsBefore rest →
      unionExpr n (ts ++ rest) = .ok (e, rest)
  | .member, ts, e => ∀ n rest, 6 * ts.length + 2 ≤ n → Phrase.primary.EndsBefore rest →
      memberExpr n (ts ++ rest) = suffixes e rest
  | .primary, ts, e => ∀ n rest, 6 * ts.length + 1 ≤ n → Phrase.primary.EndsBefore rest →
      primaryExpr n (ts ++ rest) = .ok (e, rest)

/-- A phrase ends before a token that it would not go on with. -/
theorem Phrase.endsBefore_cons {p : Phrase} {t : Token} :
    p.EndsBefore (t :: rest) ↔ t ∉ p.continuing := by
  simp [Phrase.EndsBefore]

/-- A phrase that goes on with fewer tokens ends wherever the other one does. -/
theorem Phrase.EndsBefore.mono {p q : Phrase} (h : p.EndsBefore rest)
    (hpq : ∀ t ∈ q.continuing, t ∈ p.continuing) : q.EndsBefore rest :=
  fun t ht hq => h t ht (hpq t hq)

/-- A phrase ends before a separator, and before the rest if nothing is in between. -/
theorem Phrase.EndsBefore.flatMap {p : Phrase} {sep : Token} (h : p.EndsBefore rest)
    (hsep : sep ∉ p.continuing) (parts : List (List Token)) :
    p.EndsBefore (parts.flatMap (sep :: ·) ++ rest) := by
  cases parts with
  | nil => exact h
  | cons part parts => exact Phrase.endsBefore_cons.2 hsep

/-- No suffixes are read where a member ends. -/
theorem suffixes_of_endsBefore (e : TypeExpr) (h : Phrase.member.EndsBefore rest) :
    suffixes e rest = .ok (e, rest) := by
  cases rest with
  | nil => rfl
  | cons t rest =>
    rw [Phrase.endsBefore_cons] at h
    cases t <;> simp_all [Phrase.continuing, suffixes]

/-- No members are read where a union ends. -/
theorem moreMembers_of_endsBefore (n : Nat) (h : Phrase.union.EndsBefore rest) :
    moreMembers (n + 1) rest = .ok ([], rest) := by
  cases rest with
  | nil => rfl
  | cons t rest =>
    rw [Phrase.endsBefore_cons] at h
    cases t <;> simp_all [Phrase.continuing, moreMembers]

/-- Members behind a first one are read if each of them is. -/
theorem moreMembers_of_isRead {ps : List (List Token × TypeExpr)}
    (hps : ∀ p ∈ ps, Phrase.member.IsRead p.1 p.2) (hrest : Phrase.union.EndsBefore rest)
    (hn : 6 * ((ps.map Prod.fst).flatMap (Token.bar :: ·)).length + 1 ≤ n) :
    moreMembers n ((ps.map Prod.fst).flatMap (.bar :: ·) ++ rest) =
      .ok (ps.map Prod.snd, rest) := by
  obtain ⟨n, rfl⟩ : ∃ m, n = m + 1 := ⟨n - 1, by omega⟩
  induction ps generalizing n with
  | nil => exact moreMembers_of_endsBefore n hrest
  | cons p ps ih =>
    obtain ⟨hp, hps⟩ := List.forall_mem_cons.1 hps
    simp only [List.map_cons, List.flatMap_cons, List.cons_append, List.append_assoc,
      List.length_cons, List.length_append] at hn ⊢
    have hend : Phrase.member.EndsBefore ((ps.map Prod.fst).flatMap (.bar :: ·) ++ rest) :=
      (hrest.mono (by decide)).flatMap (by decide) _
    rw [moreMembers, hp n _ (by omega) (hend.mono (by decide)), suffixes_of_endsBefore _ hend]
    obtain ⟨n, rfl⟩ : ∃ m, n = m + 1 := ⟨n - 1, by omega⟩
    have hmore := ih hps n (by omega)
    simp only [bind, Except.bind, hmore]
    rfl

/-- Arguments behind a first one are read if each of them is. -/
theorem moreArguments_of_isRead {ps : List (List Token × TypeExpr)}
    (hps : ∀ p ∈ ps, Phrase.union.IsRead p.1 p.2) (rest : List Token)
    (hn : 6 * ((ps.map Prod.fst).flatMap (Token.comma :: ·)).length + 1 ≤ n) :
    moreArguments n ((ps.map Prod.fst).flatMap (.comma :: ·) ++ .greater :: rest)
      = .ok (ps.map Prod.snd, .greater :: rest) := by
  obtain ⟨n, rfl⟩ : ∃ m, n = m + 1 := ⟨n - 1, by omega⟩
  induction ps generalizing n with
  | nil => rfl
  | cons p ps ih =>
    obtain ⟨hp, hps⟩ := List.forall_mem_cons.1 hps
    simp only [List.map_cons, List.flatMap_cons, List.cons_append, List.append_assoc,
      List.length_cons, List.length_append] at hn ⊢
    have hend : Phrase.union.EndsBefore
        ((ps.map Prod.fst).flatMap (.comma :: ·) ++ .greater :: rest) :=
      (Phrase.endsBefore_cons.2 (by decide)).flatMap (by decide) _
    rw [moreArguments, hp n _ (by omega) hend]
    obtain ⟨n, rfl⟩ : ∃ m, n = m + 1 := ⟨n - 1, by omega⟩
    have hmore := ih hps n (by omega)
    simp only [bind, Except.bind, hmore]
    rfl

/-- A member alone is read as a union. -/
theorem isRead_alone (h : Phrase.member.IsRead ts e) : Phrase.union.IsRead ts e := by
  intro n rest hn hrest
  obtain ⟨n, rfl⟩ : ∃ m, n = m + 2 := ⟨n - 2, by omega⟩
  rw [unionExpr, h (n + 1) rest (by omega) (hrest.mono (by decide)),
    suffixes_of_endsBefore e (hrest.mono (by decide))]
  simp only [bind, Except.bind, moreMembers_of_endsBefore n hrest]
  rfl

/-- Several members are read as a union of them. -/
theorem isRead_several {ps : List (List Token × TypeExpr)} (hps : 2 ≤ ps.length)
    (h : ∀ p ∈ ps, Phrase.member.IsRead p.1 p.2) :
    Phrase.union.IsRead ([Token.bar].intercalate (ps.map Prod.fst)) (.union (ps.map Prod.snd)) := by
  intro n rest hn hrest
  obtain ⟨p, q, ps, rfl⟩ : ∃ p q qs, ps = p :: q :: qs := by
    match ps, hps with
    | p :: q :: qs, _ => exact ⟨p, q, qs, rfl⟩
  obtain ⟨hp, hmore⟩ := List.forall_mem_cons.1 h
  rw [List.map_cons, intercalate_cons] at hn ⊢
  rw [List.length_append] at hn
  obtain ⟨n, rfl⟩ : ∃ m, n = m + 1 := ⟨n - 1, by omega⟩
  have hend : Phrase.member.EndsBefore
      (((q :: ps).map Prod.fst).flatMap (.bar :: ·) ++ rest) :=
    (hrest.mono (by decide)).flatMap (by decide) _
  rw [List.append_assoc, unionExpr, hp n _ (by omega) (hend.mono (by decide)),
    suffixes_of_endsBefore _ hend]
  have hbehind := moreMembers_of_isRead (n := n) hmore hrest (by omega)
  simp only [bind, Except.bind, hbehind]
  rfl

/-- A primary phrase alone is read as a member. -/
theorem isRead_bare (h : Phrase.primary.IsRead ts e) : Phrase.member.IsRead ts e := by
  intro n rest hn hrest
  obtain ⟨n, rfl⟩ : ∃ m, n = m + 1 := ⟨n - 1, by omega⟩
  rw [memberExpr, h n rest (by omega) hrest]
  rfl

/-- Brackets behind a member are read as an array of it. -/
theorem isRead_array (h : Phrase.member.IsRead ts e) :
    Phrase.member.IsRead (ts ++ [.openBracket, .closeBracket]) (.applied "Array" [e]) := by
  intro n rest hn _
  rw [List.length_append] at hn
  have hend : Phrase.primary.EndsBefore (.openBracket :: .closeBracket :: rest) :=
    Phrase.endsBefore_cons.2 (by decide)
  rw [List.append_assoc]
  exact h n _ (by omega) hend

/-- A marker behind a member is dropped. -/
theorem isRead_markedBehind {m : Token} (hm : m ∈ [Token.equals, .bang, .question])
    (h : Phrase.member.IsRead ts e) : Phrase.member.IsRead (ts ++ [m]) e := by
  intro n rest hn _
  rw [List.length_append] at hn
  have hmarkers : ∀ t ∈ [Token.equals, .bang, .question], t ∉ Phrase.primary.continuing := by
    decide
  have hend : Phrase.primary.EndsBefore ([m] ++ rest) := Phrase.endsBefore_cons.2 (hmarkers m hm)
  rw [List.append_assoc, h n _ (by omega) hend]
  simp only [List.mem_cons, List.not_mem_nil, or_false] at hm
  rcases hm with rfl | rfl | rfl <;> rfl

/-- A marker in front of a primary phrase is dropped. -/
theorem isRead_markedInFront {m : Token} (hm : m ∈ [Token.question, .bang])
    (h : Phrase.primary.IsRead ts e) : Phrase.primary.IsRead (m :: ts) e := by
  intro n rest hn hrest
  have hmarker : isLeadingMarker m = true := by simpa [isLeadingMarker] using hm
  rw [List.length_cons] at hn
  rw [List.cons_append, ← primaryExpr_dropWhile, List.dropWhile_cons_of_pos hmarker,
    primaryExpr_dropWhile, h n rest (by omega) hrest]

/-- A union in parentheses is read as a primary phrase. -/
theorem isRead_inParens (h : Phrase.union.IsRead ts e) :
    Phrase.primary.IsRead (.openParen :: (ts ++ [.closeParen])) e := by
  intro n rest hn _
  simp only [List.length_cons, List.length_append] at hn
  obtain ⟨n, rfl⟩ : ∃ m, n = m + 1 := ⟨n - 1, by omega⟩
  have hinner := h n (.closeParen :: rest) (by omega) (Phrase.endsBefore_cons.2 (by decide))
  simp [primaryExpr, isLeadingMarker, hinner, expect, bind, Except.bind, pure, Except.pure]

/-- A name is read as a type. -/
theorem isRead_named {w : List Char} {name : String} (hw : IsName w name) :
    Phrase.primary.IsRead [.word w] (.named name) := by
  intro n rest hn hrest
  obtain ⟨n, rfl⟩ : ∃ m, n = m + 1 := ⟨n - 1, by omega⟩
  obtain ⟨hstarts, rfl⟩ := isName_iff.1 hw
  rw [primaryExpr]
  show (if startsName w = true then _ else _) = _
  rw [if_pos hstarts]
  cases rest with
  | nil => rfl
  | cons t rest =>
    rw [Phrase.endsBefore_cons] at hrest
    cases t <;> simp_all [Phrase.continuing]

/-- No union starts with the sign that closes arguments, so a first argument is read as one. -/
theorem firstArgument_of_unionExpr (h : unionExpr n ts = .ok (e, rest)) :
    firstArgument (n + 1) ts = .ok ([e], rest) := by
  unfold firstArgument
  split
  · next => contradiction
  · match n, h with
    | _ + 3, h => cases h
  · next heq _ =>
    cases heq
    rw [h]
    rfl

/-- Arguments are read one after another up to the closing sign. -/
theorem appliedExpr_of_isRead {ps : List (List Token × TypeExpr)}
    (h : ∀ p ∈ ps, Phrase.union.IsRead p.1 p.2) (name : String) (rest : List Token)
    (hn : 6 * ([Token.comma].intercalate (ps.map Prod.fst)).length + 5 ≤ n) :
    appliedExpr n name ([Token.comma].intercalate (ps.map Prod.fst) ++ .greater :: rest)
      = .ok (.applied name (ps.map Prod.snd), rest) := by
  obtain ⟨n, rfl⟩ : ∃ m, n = m + 2 := ⟨n - 2, by omega⟩
  cases ps with
  | nil => rfl
  | cons p ps =>
    obtain ⟨hp, hmore⟩ := List.forall_mem_cons.1 h
    rw [List.map_cons, intercalate_cons, List.length_append] at hn
    have hend : Phrase.union.EndsBefore
        ((ps.map Prod.fst).flatMap (.comma :: ·) ++ .greater :: rest) :=
      (Phrase.endsBefore_cons.2 (by decide)).flatMap (by decide) _
    have hfirst := firstArgument_of_unionExpr (hp n _ (by omega) hend)
    have hbehind := moreArguments_of_isRead (n := n + 1) hmore rest (by omega)
    rw [List.map_cons, intercalate_cons, List.append_assoc, appliedExpr]
    simp only [bind, Except.bind, hfirst, hbehind]
    rfl

/-- A name with arguments is read as a container of them. -/
theorem isRead_applied {w : List Char} {name : String} {sign : Token}
    {ps : List (List Token × TypeExpr)} (hw : IsName w name) (hsign : sign ∈ [Token.dotLess, .less])
    (h : ∀ p ∈ ps, Phrase.union.IsRead p.1 p.2) :
    Phrase.primary.IsRead
      (.word w :: sign :: ([Token.comma].intercalate (ps.map Prod.fst) ++ [.greater]))
      (.applied name (ps.map Prod.snd)) := by
  intro n rest hn _
  simp only [List.length_cons, List.length_append] at hn
  obtain ⟨n, rfl⟩ : ∃ m, n = m + 1 := ⟨n - 1, by omega⟩
  obtain ⟨hstarts, rfl⟩ := isName_iff.1 hw
  have harguments := appliedExpr_of_isRead (n := n) h (nameOf w) rest (by omega)
  rw [primaryExpr, List.cons_append, List.cons_append, List.append_assoc]
  show (if startsName w = true then _ else _) = _
  rw [if_pos hstarts]
  simp only [List.mem_cons, List.not_mem_nil, or_false] at hsign
  rcases hsign with rfl | rfl <;> exact harguments

/-- The parser reads every phrase. -/
theorem Derives.isRead {p : Phrase} (h : Derives p ts e) : p.IsRead ts e := by
  induction h with
  | alone _ ih => exact isRead_alone ih
  | several hps _ ih => exact isRead_several hps ih
  | bare _ ih => exact isRead_bare ih
  | array _ ih => exact isRead_array ih
  | markedBehind hm _ ih => exact isRead_markedBehind hm ih
  | markedInFront hm _ ih => exact isRead_markedInFront hm ih
  | inParens _ ih => exact isRead_inParens ih
  | any =>
    intro n rest hn _
    obtain ⟨n, rfl⟩ : ∃ m, n = m + 1 := ⟨n - 1, by omega⟩
    rfl
  | named hw => exact isRead_named hw
  | applied hw hsign _ ih => exact isRead_applied hw hsign ih

/-! ## Trees of texts -/

/-- The parser accepts the tokens of a union, and no others. -/
theorem ofTokens_eq_ok_iff : ofTokens ts = .ok e ↔ ts ≠ [] ∧ Derives .union ts e := by
  constructor
  · intro h
    rw [ofTokens] at h
    split at h
    · cases h
    · next hne =>
      obtain ⟨⟨e₁, rest⟩, hread, hend⟩ := exists_of_bind_eq_ok h
      obtain ⟨us, rfl, hus⟩ := (sound _).union hread
      cases rest with
      | nil =>
        cases hend
        exact ⟨by simpa using hne, by simpa using hus⟩
      | cons t rest => cases hend
  · rintro ⟨hne, h⟩
    -- no phrase of these tokens needs a deeper call than the parser allows
    have hread := h.isRead (6 * ts.length + 6) [] (by omega) (by simp [Phrase.EndsBefore])
    rw [List.append_nil] at hread
    rw [ofTokens, if_neg (by simpa using hne)]
    simp only [bind, Except.bind, hread]
    rfl

/-- The text has tokens, at least one, that are a union with that tree. -/
def HasTree (s : List Char) (e : TypeExpr) : Prop :=
  ∃ ts, tokens s = .ok ts ∧ ts ≠ [] ∧ Derives .union ts e

/-- The parser accepts just the texts with a tree, and gives the tree. -/
theorem parse_eq_ok_iff {s : List Char} : parse s = .ok e ↔ HasTree s e := by
  constructor
  · intro h
    obtain ⟨ts, hts, h⟩ := exists_of_bind_eq_ok h
    exact ⟨ts, hts, ofTokens_eq_ok_iff.1 h⟩
  · rintro ⟨ts, hts, h⟩
    rw [parse, hts]
    exact ofTokens_eq_ok_iff.2 h

/-- The parser gives the tree of a text that has one and a fault for every other text. No text has
two trees. -/
theorem parse_accepts_grammar (s : List Char) :
    (∀ e, parse s = .ok e ↔ HasTree s e) ∧
    ((∃ fault, parse s = .error fault) ↔ ¬ ∃ e, HasTree s e) ∧
    ∀ e e', HasTree s e → HasTree s e' → e = e' := by
  refine ⟨fun e => parse_eq_ok_iff, ?_, ?_⟩
  · cases h : parse s with
    | error fault =>
      simp only [← parse_eq_ok_iff, h]
      simp
    | ok e =>
      simp only [← parse_eq_ok_iff, h]
      simp
  · intro e e' he he'
    have h := parse_eq_ok_iff.2 he
    rw [parse_eq_ok_iff.2 he'] at h
    exact (Except.ok.inj h).symm

/-- The text `?A<B|C[]>` has one tree, and `A<` has none. -/
theorem parse_accepts_grammar_application :
    (∃ e, HasTree "?A<B|C[]>".toList e ∧ ∀ e', HasTree "?A<B|C[]>".toList e' → e' = e) ∧
    ¬ ∃ e, HasTree "A<".toList e := by
  have haccepts : (parse "?A<B|C[]>".toList).isOk = true := by decide +kernel
  have hrejects : (parse "A<".toList).isOk = false := by decide +kernel
  constructor
  · cases hparse : parse "?A<B|C[]>".toList with
    | error fault => rw [hparse] at haccepts; cases haccepts
    | ok e =>
      have htree := ((parse_accepts_grammar _).1 e).1 hparse
      exact ⟨e, htree, fun e' he' => (parse_accepts_grammar _).2.2 e' e he' htree⟩
  · refine (parse_accepts_grammar _).2.1.1 ?_
    cases hparse : parse "A<".toList with
    | error fault => exact ⟨fault, rfl⟩
    | ok e => rw [hparse] at hrejects; cases hrejects

end ApiDoc.TypeExpr
