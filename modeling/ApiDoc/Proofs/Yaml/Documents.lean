import ApiDoc.Proofs.Yaml.Flow
import Mathlib.Data.List.Forall2

/-!
# Tokens of documents that were written as JSON

A document without infinities and NaN whose keys are texts is written as JSON, and the YAML reader
takes the text for the tokens of a document in brackets and braces (`tokensOf`), whatever the
layout. It cannot be read if a text of the document has a line that starts with the mark of a
document (`scan_of_valueText`), and what characters the written text has depends on the texts alone
(`all_valueText`).
-/

namespace ApiDoc

namespace Value

/-- A document that JSON has a text for: all but infinities, NaN, bytes, moments, pairs and sets,
with integers that are not too long and with different texts as the keys of an object. -/
inductive IsDocument : Value → Prop where
  | bare {a : Atom} {t : List Char} (h : Yaml.IsBare a) (ht : Json.atomText a = .ok t) :
      IsDocument (.atom a)
  | text (s : String) : IsDocument (.text s)
  | list (m : Option Mark) {items : List Value} (h : ∀ v ∈ items, IsDocument v) :
      IsDocument (.list m items)
  | object (m : Option Mark) {entries : List (Atom × Value)}
      (htexts : ∀ e ∈ entries, ∃ key, e.1 = .text key) (hdistinct : (entries.map Prod.fst).Nodup)
      (h : ∀ e ∈ entries, IsDocument e.2) : IsDocument (.object m entries)

/-! ## The texts of a document -/

/-- A test of a key that is a text. -/
def onKey (p : String → Bool) : Atom → Bool
  | .text key => p key
  | _ => true

mutual

/-- Whether the texts among the keys of a document pass one test, and its other texts another. -/
def allTexts (p q : String → Bool) : Value → Bool
  | .atom (.text s) => q s
  | .list _ items => allItems p q items
  | .object _ entries => allEntries p q entries
  | _ => true

/-- Whether the texts of items pass. -/
def allItems (p q : String → Bool) : List Value → Bool
  | [] => true
  | v :: rest => allTexts p q v && allItems p q rest

/-- Whether the texts of entries pass. -/
def allEntries (p q : String → Bool) : List (Atom × Value) → Bool
  | [] => true
  | (k, v) :: rest => (onKey p k && allTexts p q v) && allEntries p q rest

end

variable {p q p' q' : String → Bool} {v : Value}

theorem allTexts_list (m : Option Mark) (items : List Value) :
    allTexts p q (.list m items) = items.all (allTexts p q) := by
  rw [allTexts]
  induction items with
  | nil => rfl
  | cons v items ih => rw [allItems, ih, List.all_cons]

theorem allTexts_object (m : Option Mark) (entries : List (Atom × Value)) :
    allTexts p q (.object m entries) = entries.all fun e => onKey p e.1 && e.2.allTexts p q := by
  rw [allTexts]
  induction entries with
  | nil => rfl
  | cons e entries ih => rw [allEntries, ih, List.all_cons]

/-- An atom without quotation marks has no text to test. -/
theorem allTexts_of_isBare {a : Atom} (h : Yaml.IsBare a) : allTexts p q (.atom a) = true := by
  cases a with
  | text s => exact h.elim
  | _ => rfl

/-- Texts that pass two tests pass both together. -/
theorem IsDocument.allTexts_and (h : v.IsDocument) :
    allTexts (fun s => p s && p' s) (fun s => q s && q' s) v =
      (allTexts p q v && allTexts p' q' v) := by
  induction h with
  | bare ha _ => simp only [allTexts_of_isBare ha, Bool.and_self]
  | text s => rfl
  | list m _ ih =>
    rw [Bool.eq_iff_iff, Bool.and_eq_true]
    simp only [allTexts_list, List.all_eq_true]
    rw [← forall₂_and]
    exact forall₂_congr fun v hv => by rw [ih v hv, Bool.and_eq_true]
  | object m htexts _ _ ih =>
    rw [Bool.eq_iff_iff, Bool.and_eq_true]
    simp only [allTexts_object, List.all_eq_true]
    rw [← forall₂_and]
    refine forall₂_congr fun e he => ?_
    obtain ⟨key, hkey⟩ := htexts e he
    simp only [ih e he, hkey, onKey, Bool.and_eq_true]
    exact and_and_and_comm

/-- All texts of a document pass tests that every text passes. -/
theorem IsDocument.allTexts_of_forall (h : v.IsDocument) (hp : ∀ s, p s = true)
    (hq : ∀ s, q s = true) : allTexts p q v = true := by
  induction h with
  | bare ha _ => exact allTexts_of_isBare ha
  | text s => exact hq s
  | list m _ ih => exact (allTexts_list m _).trans (List.all_eq_true.2 ih)
  | object m htexts _ _ ih =>
    refine (allTexts_object m _).trans (List.all_eq_true.2 fun e he => ?_)
    obtain ⟨key, hkey⟩ := htexts e he
    rw [hkey, onKey, hp, ih e he]
    rfl

end Value

namespace Json

/-! ## Texts of lists and objects -/

/-- Texts in brackets, each one on a line of its own. -/
def bracketed (left right : Char) (depth : Nat) : List (List Char) → List Char
  | [] => [left, right]
  | u :: us => left :: (newline (depth + 1) ++ u ++
      us.flatMap (fun u => ',' :: (newline (depth + 1) ++ u)) ++ newline depth ++ [right])

/-- The text of an entry of an object. -/
def IsEntryText (depth : Nat) (e : Atom × Value) (t : List Char) : Prop :=
  ∃ key first, keyText e.1 = .ok key ∧ valueText depth e.2 = .ok first ∧
    t = key ++ ':' :: ' ' :: first

variable {depth : Nat} {t : List Char} {m : Option Mark}

/-- The text of items is that of each of them, behind a comma and on a line of its own. -/
theorem exists_of_itemsText {items : List Value} (h : itemsText depth items = .ok t) :
    ∃ us, List.Forall₂ (fun v u => valueText depth v = .ok u) items us ∧
      t = us.flatMap fun u => ',' :: (newline depth ++ u) := by
  induction items generalizing t with
  | nil =>
    cases h
    exact ⟨[], .nil, rfl⟩
  | cons v items ih =>
    rw [itemsText] at h
    obtain ⟨first, hfirst, h⟩ := exists_of_bind_eq_ok h
    obtain ⟨rest, hrest, h⟩ := exists_of_bind_eq_ok h
    cases h
    obtain ⟨us, hus, rfl⟩ := ih hrest
    exact ⟨first :: us, .cons hfirst hus, rfl⟩

/-- The text of a list is that of its items in brackets. -/
theorem exists_of_listText {items : List Value} (h : valueText depth (.list m items) = .ok t) :
    ∃ us, List.Forall₂ (fun v u => valueText (depth + 1) v = .ok u) items us ∧
      t = bracketed '[' ']' depth us := by
  cases items with
  | nil =>
    cases h
    exact ⟨[], .nil, rfl⟩
  | cons v items =>
    rw [valueText] at h
    obtain ⟨first, hfirst, h⟩ := exists_of_bind_eq_ok h
    obtain ⟨rest, hrest, h⟩ := exists_of_bind_eq_ok h
    cases h
    obtain ⟨us, hus, rfl⟩ := exists_of_itemsText hrest
    exact ⟨first :: us, .cons hfirst hus, rfl⟩

/-- The text of entries is that of each of them, behind a comma and on a line of its own. -/
theorem exists_of_entriesText {entries : List (Atom × Value)}
    (h : entriesText depth entries = .ok t) :
    ∃ us, List.Forall₂ (IsEntryText depth) entries us ∧
      t = us.flatMap fun u => ',' :: (newline depth ++ u) := by
  induction entries generalizing t with
  | nil =>
    cases h
    exact ⟨[], .nil, rfl⟩
  | cons e entries ih =>
    rw [entriesText] at h
    obtain ⟨key, hkey, h⟩ := exists_of_bind_eq_ok h
    obtain ⟨first, hfirst, h⟩ := exists_of_bind_eq_ok h
    obtain ⟨rest, hrest, h⟩ := exists_of_bind_eq_ok h
    cases h
    obtain ⟨us, hus, rfl⟩ := ih hrest
    refine ⟨_ :: us, .cons ⟨key, first, hkey, hfirst, rfl⟩ hus, ?_⟩
    simp

/-- The text of an object is that of its entries in braces. -/
theorem exists_of_objectText {entries : List (Atom × Value)}
    (h : valueText depth (.object m entries) = .ok t) :
    ∃ us, List.Forall₂ (IsEntryText (depth + 1)) entries us ∧
      t = bracketed '\x7b' '\x7d' depth us := by
  cases entries with
  | nil =>
    cases h
    exact ⟨[], .nil, rfl⟩
  | cons e entries =>
    rw [valueText] at h
    obtain ⟨key, hkey, h⟩ := exists_of_bind_eq_ok h
    obtain ⟨first, hfirst, h⟩ := exists_of_bind_eq_ok h
    obtain ⟨rest, hrest, h⟩ := exists_of_bind_eq_ok h
    cases h
    obtain ⟨us, hus, rfl⟩ := exists_of_entriesText hrest
    refine ⟨_ :: us, .cons ⟨key, first, hkey, hfirst, rfl⟩ hus, ?_⟩
    simp [bracketed]

/-- Items have a text if each of them has one. -/
theorem exists_itemsText_eq_ok {items : List Value}
    (h : ∀ v ∈ items, ∃ u, valueText depth v = .ok u) : ∃ t, itemsText depth items = .ok t := by
  induction items with
  | nil => exact ⟨[], rfl⟩
  | cons v items ih =>
    obtain ⟨⟨u, hu⟩, hitems⟩ := List.forall_mem_cons.1 h
    obtain ⟨t, ht⟩ := ih hitems
    exact ⟨_, by rw [itemsText, hu, ht]; rfl⟩

/-- Entries have a text if their keys are texts and each value has one. -/
theorem exists_entriesText_eq_ok {entries : List (Atom × Value)}
    (htexts : ∀ e ∈ entries, ∃ key, e.1 = .text key)
    (h : ∀ e ∈ entries, ∃ u, valueText depth e.2 = .ok u) :
    ∃ t, entriesText depth entries = .ok t := by
  induction entries with
  | nil => exact ⟨[], rfl⟩
  | cons e entries ih =>
    obtain ⟨⟨u, hu⟩, hentries⟩ := List.forall_mem_cons.1 h
    obtain ⟨⟨key, hkey⟩, htexts⟩ := List.forall_mem_cons.1 htexts
    obtain ⟨t, ht⟩ := ih htexts hentries
    exact ⟨_, by rw [entriesText, hkey, hu, ht]; rfl⟩

/-- A document is written at any depth. -/
theorem exists_valueText {v : Value} (h : v.IsDocument) (depth : Nat) :
    ∃ t, valueText depth v = .ok t := by
  induction h generalizing depth with
  | bare _ ht => exact ⟨_, ht⟩
  | text s => exact ⟨stringText s, rfl⟩
  | @list m items _ ih =>
    cases items with
    | nil => exact ⟨_, rfl⟩
    | cons v items =>
      obtain ⟨hv, hitems⟩ := List.forall_mem_cons.1 ih
      obtain ⟨u, hu⟩ := hv (depth + 1)
      obtain ⟨t, ht⟩ := exists_itemsText_eq_ok fun w hw => hitems w hw (depth + 1)
      exact ⟨_, by rw [valueText, hu, ht]; rfl⟩
  | @object m entries htexts _ _ ih =>
    cases entries with
    | nil => exact ⟨_, rfl⟩
    | cons e entries =>
      obtain ⟨he, hentries⟩ := List.forall_mem_cons.1 ih
      obtain ⟨⟨key, hkey⟩, htexts⟩ := List.forall_mem_cons.1 htexts
      obtain ⟨u, hu⟩ := he (depth + 1)
      obtain ⟨t, ht⟩ := exists_entriesText_eq_ok htexts fun e he => hentries e he (depth + 1)
      exact ⟨_, by rw [valueText, hkey, hu, ht]; rfl⟩

/-- A test holds of texts in brackets just if it holds of each text. -/
theorem all_bracketed {p : Char → Bool} {left right : Char} (hleft : p left = true)
    (hright : p right = true) (hcomma : p ',' = true) (hspace : p ' ' = true)
    (hline : p '\n' = true) (us : List (List Char)) :
    (bracketed left right depth us).all p = us.all (·.all p) := by
  have hnewline : ∀ d, (newline d).all p = true := fun d => by simp [newline, hline, hspace]
  cases us with
  | nil => simp [bracketed, hleft, hright]
  | cons u us =>
    have hrest : (us.flatMap fun u => ',' :: (newline (depth + 1) ++ u)).all p =
        us.all (·.all p) := by
      simp only [List.all_flatMap, List.all_cons, List.all_append, hcomma, hnewline, Bool.true_and]
    simp only [bracketed, List.all_cons, List.all_append, hleft, hright, hnewline, hrest,
      List.all_nil, Bool.true_and, Bool.and_true]

end Json

namespace Yaml

open Json (valueText stringText bracketed)

variable {v : Value} {t : List Char} {depth : Nat}

/-! ## Characters -/

/-- Whether a test holds of the characters of a text that are written as themselves. -/
def allWritten (p : Char → Bool) (s : String) : Bool :=
  s.toList.all fun c => decide (c.toNat < 32) || p c

variable {p : Char → Bool}

/-- A test that holds of ASCII holds of a string just if it holds of what is written as itself. -/
theorem all_stringText (hp : ∀ c, isAsciiText c = true → p c = true) (s : String) :
    (stringText s).all p = allWritten p s := by
  rw [Bool.eq_iff_iff, allWritten, List.all_eq_true, List.all_eq_true]
  refine ⟨fun h c hc => ?_, fun h c hc => ?_⟩
  · rw [Bool.or_eq_true, decide_eq_true_eq]
    by_cases hascii : isAsciiText c = true
    · exact .inr (hp c hascii)
    rcases Json.escapeChar_cases c with ⟨e, -, hcode⟩ | ⟨hcontrol, -⟩ | ⟨-, -, -, heq⟩
    · -- what has an escape of one letter is a control or stands in ASCII
      rw [isAsciiText, Bool.and_eq_true, decide_eq_true_eq, decide_eq_true_eq] at hascii
      unfold Json.shortEscape? at hcode
      split at hcode
      any_goals
        have hcode := Option.some.inj hcode
        omega
      cases hcode
    · exact .inl hcontrol
    · exact .inr (h c (mem_stringText hc heq))
  · rcases of_mem_stringText hc with ⟨hmem, hcontrol⟩ | hascii
    · simpa [hcontrol] using h c hmem
    · exact hp c hascii

/-- What holds of related items one by one holds of all of them. -/
theorem all_eq_of_forall₂ {α β : Type} {R : α → β → Prop} {xs : List α} {ys : List β}
    (h : List.Forall₂ R xs ys) {f : α → Bool} {g : β → Bool}
    (heq : ∀ x ∈ xs, ∀ y, R x y → g y = f x) : ys.all g = xs.all f := by
  induction h with
  | nil => rfl
  | cons hxy _ ih =>
    obtain ⟨hx, hxs⟩ := List.forall_mem_cons.1 heq
    rw [List.all_cons, List.all_cons, hx _ hxy, ih hxs]

/-- The characters of a written document are those of its texts that are written as themselves,
characters of ASCII and line feeds. -/
theorem all_valueText (h : v.IsDocument) (hp : ∀ c, isAsciiText c = true → p c = true)
    (hline : p '\n' = true) (ht : valueText depth v = .ok t) :
    t.all p = v.allTexts (allWritten p) (allWritten p) := by
  have hbracketed : ∀ {left right : Char} (d : Nat) (us : List (List Char)),
      isAsciiText left = true → isAsciiText right = true →
      (bracketed left right d us).all p = us.all (·.all p) :=
    fun d us hleft hright => Json.all_bracketed (hp _ hleft) (hp _ hright) (hp _ (by decide))
      (hp _ (by decide)) hline us
  induction h generalizing t depth with
  | bare ha _ =>
    rw [valueText] at ht
    rw [Value.allTexts_of_isBare ha, List.all_eq_true]
    intro c hc
    exact hp c ((isWord_of_atomText ha ht).all (by decide) c hc)
  | text s =>
    cases ht
    exact all_stringText hp s
  | list m _ ih =>
    obtain ⟨us, hus, rfl⟩ := Json.exists_of_listText ht
    rw [hbracketed depth us (by decide) (by decide), Value.allTexts_list]
    exact all_eq_of_forall₂ hus fun v hv u hu => ih v hv hu
  | object m htexts _ _ ih =>
    obtain ⟨us, hus, rfl⟩ := Json.exists_of_objectText ht
    rw [hbracketed depth us (by decide) (by decide), Value.allTexts_object]
    refine all_eq_of_forall₂ hus fun e he u hu => ?_
    obtain ⟨key, hkey⟩ := htexts e he
    obtain ⟨k, first, hk, hfirst, rfl⟩ := hu
    rw [hkey] at hk ⊢
    cases hk
    rw [List.all_append, List.all_cons, List.all_cons, all_stringText hp, ih e he hfirst,
      hp ':' (by decide), hp ' ' (by decide)]
    rfl

/-- No carriage return is written. -/
theorem carriageReturn_not_mem_write (h : v.IsDocument) (ht : Json.write v = .ok t) :
    '\r' ∉ t := by
  obtain ⟨t, hvalue, ht⟩ := exists_of_bind_eq_ok ht
  cases ht
  have hwritten : ∀ s, allWritten (· != '\r') s = true := by
    intro s
    refine List.all_eq_true.2 fun c _ => ?_
    by_cases hc : c = '\r'
    · rw [hc]
      rfl
    · simp [hc]
  have hascii : ∀ c, isAsciiText c = true → (c != '\r') = true := by
    intro c hc
    rw [bne_iff_ne]
    rintro rfl
    exact absurd hc (by decide)
  have hall := (all_valueText h hascii (by decide) hvalue).trans
    (h.allTexts_of_forall hwritten hwritten)
  intro hmem
  rcases List.mem_append.1 hmem with hmem | hmem
  · exact absurd (List.all_eq_true.1 hall _ hmem) (by decide)
  · exact absurd (List.mem_singleton.1 hmem) (by decide)

/-! ## Tokens -/

/-- Tokens of several pieces, with a comma between two of them. -/
def separated : List (List Token) → List Token
  | [] => []
  | ts :: rest => ts ++ rest.flatMap (.flowEntry :: ·)

/-- The scalar of an atom that is written without quotation marks. -/
def wordOf (a : Atom) : String := String.ofList ((Json.atomText a).toOption.getD [])

/-- The tokens of an entry with the tokens of its value. -/
def entryTokens (k : Atom) (tokens : List Token) : List Token :=
  match k with
  | .text key => Scanner.keyTokens key ++ tokens
  | _ => tokens

mutual

/-- The tokens of a document. -/
def tokensOf : Value → List Token
  | .atom (.text s) => [.scalar (String.ofList (quotedContent s)) false]
  | .atom a => [.scalar (wordOf a) true]
  | .list _ items => .flowSequenceStart :: (separated (itemsTokens items) ++ [.flowSequenceEnd])
  | .object _ entries =>
    .flowMappingStart :: (separated (entriesTokens entries) ++ [.flowMappingEnd])
  | _ => []

/-- The tokens of items, one by one. -/
def itemsTokens : List Value → List (List Token)
  | [] => []
  | v :: rest => tokensOf v :: itemsTokens rest

/-- The tokens of entries, one by one. -/
def entriesTokens : List (Atom × Value) → List (List Token)
  | [] => []
  | (k, v) :: rest => entryTokens k (tokensOf v) :: entriesTokens rest

end

theorem itemsTokens_eq_map (items : List Value) : itemsTokens items = items.map tokensOf := by
  induction items with
  | nil => rfl
  | cons v items ih => rw [itemsTokens, ih, List.map_cons]

theorem entriesTokens_eq_map (entries : List (Atom × Value)) :
    entriesTokens entries = entries.map fun e => entryTokens e.1 (tokensOf e.2) := by
  induction entries with
  | nil => rfl
  | cons e entries ih => rw [entriesTokens, ih, List.map_cons]

theorem tokensOf_list (m : Option Mark) (items : List Value) :
    tokensOf (.list m items) =
      .flowSequenceStart :: (separated (items.map tokensOf) ++ [.flowSequenceEnd]) := by
  rw [tokensOf, itemsTokens_eq_map]

theorem tokensOf_object (m : Option Mark) (entries : List (Atom × Value)) :
    tokensOf (.object m entries) = .flowMappingStart ::
      (separated (entries.map fun e => entryTokens e.1 (tokensOf e.2)) ++ [.flowMappingEnd]) := by
  rw [tokensOf, entriesTokens_eq_map]

/-- An atom without quotation marks is one plain scalar. -/
theorem tokensOf_of_isBare {a : Atom} (ha : IsBare a) :
    tokensOf (.atom a) = [.scalar (wordOf a) true] := by
  cases a with
  | text s => exact ha.elim
  | _ => rfl

/-- The scalar of an atom is its text. -/
theorem wordOf_of_atomText {a : Atom} (h : Json.atomText a = .ok t) :
    wordOf a = String.ofList t := by
  rw [wordOf, h]
  rfl

section Scan

open Scanner

/-- What is in brackets is read if all the pieces are. -/
theorem scans_bracketed {left right : Char} {opening closing : Token}
    (hb : IsBrackets left right opening closing) {α : Type} {R : α → List Char → Prop}
    {tokens : α → List Token} {good : α → Bool} {xs : List α} {us : List (List Char)}
    (h : List.Forall₂ R xs us)
    (hscans : ∀ x ∈ xs, ∀ u, R x u → Scans AtEntry u (tokens x) (good x)) (depth : Nat) :
    Scans Anywhere (bracketed left right depth us)
      (opening :: (separated (xs.map tokens) ++ [closing])) (xs.all good) := by
  obtain ⟨pieces, rfl, htokens, hgood, hpieces⟩ : ∃ pieces : List Piece,
      pieces.map Piece.text = us ∧ pieces.map Piece.tokens = xs.map tokens ∧
        pieces.all Piece.good = xs.all good ∧
          ∀ q ∈ pieces, Scans AtEntry q.text q.tokens q.good := by
    induction h with
    | nil => exact ⟨[], rfl, rfl, rfl, fun q hq => absurd hq List.not_mem_nil⟩
    | @cons x u xs us hxu _ ih =>
      obtain ⟨hx, hxs⟩ := List.forall_mem_cons.1 hscans
      obtain ⟨pieces, rfl, htokens, hgood, hpieces⟩ := ih hxs
      refine ⟨⟨u, tokens x, good x⟩ :: pieces, rfl, ?_, ?_, ?_⟩
      · rw [List.map_cons, htokens, List.map_cons]
      · rw [List.all_cons, hgood, List.all_cons]
      · exact List.forall_mem_cons.2 ⟨hx u hxu, hpieces⟩
  rw [← htokens, ← hgood]
  cases pieces with
  | nil => exact scans_empty hb
  | cons q pieces =>
    have hbrackets := scans_brackets hb q pieces hpieces depth
    simp only [piecesText, piecesTokens] at hbrackets
    simpa only [List.map_cons, bracketed, separated, List.flatMap_map] using hbrackets

/-- Whether no line of a text starts with the mark of a document. -/
def isUnmarked (s : String) : Bool := !hasMarkLine s.toList

/-- The text of a document is read as its tokens, wherever it stands. -/
theorem scans_valueText (h : v.IsDocument) (ht : valueText depth v = .ok t) :
    Scans Anywhere t (tokensOf v) (v.allTexts isUnmarked isUnmarked) := by
  induction h generalizing t depth with
  | bare ha _ =>
    rw [valueText] at ht
    rw [tokensOf_of_isBare ha, wordOf_of_atomText ht, Value.allTexts_of_isBare ha]
    exact scans_word (isWord_of_atomText ha ht)
  | text s =>
    cases ht
    exact scans_string s
  | list m _ ih =>
    obtain ⟨us, hus, rfl⟩ := Json.exists_of_listText ht
    rw [tokensOf_list, Value.allTexts_list]
    exact scans_bracketed .list hus (fun v hv u hu => (ih v hv hu).atEntry) depth
  | object m htexts _ _ ih =>
    obtain ⟨us, hus, rfl⟩ := Json.exists_of_objectText ht
    rw [tokensOf_object, Value.allTexts_object]
    refine scans_bracketed .object hus (fun e he u hu => ?_) depth
    obtain ⟨key, hkey⟩ := htexts e he
    obtain ⟨k, first, hk, hfirst, rfl⟩ := hu
    rw [hkey] at hk ⊢
    cases hk
    exact scans_entry key (ih e he hfirst)

end Scan

/-- Whether the characters of a text that are written as themselves may stand in a YAML text. -/
def isAllowedText (s : String) : Bool := allWritten isAllowed s

/-- The tokens of a written document, unless its texts have characters or lines that cannot be
read. -/
theorem scan_write (h : v.IsDocument) (ht : Json.write v = .ok t) :
    scan t = if v.allTexts (fun s => isAllowedText s && isUnmarked s)
        (fun s => isAllowedText s && isUnmarked s)
      then .ok (tokensOf v) else .error .malformed := by
  obtain ⟨t, hvalue, ht⟩ := exists_of_bind_eq_ok ht
  cases ht
  have hascii : ∀ c, isAsciiText c = true → isAllowed c = true := fun c hc => by
    rw [isAsciiText, Bool.and_eq_true, decide_eq_true_eq, decide_eq_true_eq] at hc
    simp [isAllowed, hc.1, Nat.le_of_lt_succ hc.2]
  have hchars : (t ++ ['\n']).all isAllowed = v.allTexts isAllowedText isAllowedText := by
    rw [List.all_append, all_valueText h hascii (by decide) hvalue]
    exact Bool.and_true _
  -- a character that is not allowed is found before anything is scanned
  rw [h.allTexts_and, ← hchars]
  cases hallowed : (t ++ ['\n']).all isAllowed with
  | true => exact scan_of_scans (scans_valueText h hvalue) hallowed
  | false =>
    have hany : (t ++ ['\n']).any (!isAllowed ·) = true := by
      rw [← List.not_all_eq_any_not, hallowed]
      rfl
    rw [scan, if_pos hany]
    rfl

end Yaml

end ApiDoc
