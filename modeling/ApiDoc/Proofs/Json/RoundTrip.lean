import ApiDoc.Document.Format
import ApiDoc.Proofs.Assoc.Series
import ApiDoc.Proofs.Value.Plain
import ApiDoc.Tag.Security

/-!
# Reading what was written

A value of the kinds that JSON has is written without a fault, and its text is read as the value
again, with the entries of every object in their order: `IsJson.securityOf_write`. The text of a
value is read in front of any text that cannot make a number longer (`Follows`), whatever the depth
at which it was written: `IsJson.exists_reads`.
-/

namespace ApiDoc

namespace Value

/-- A value of the kinds that JSON has: empty values, truth values, integers that are not too long,
texts, lists of such values and objects with such values under different texts. -/
inductive IsJson : Value → Prop where
  | null : IsJson .null
  | bool (b : Bool) : IsJson (.bool b)
  | int (i : Int) (h : (Nat.toDigits 10 i.natAbs).length ≤ Numeral.maxDigits) : IsJson (.int i)
  | text (s : String) : IsJson (.text s)
  | list (m : Option Mark) {items : List Value} (h : ∀ v ∈ items, IsJson v) :
      IsJson (.list m items)
  | object (m : Option Mark) {entries : List (Atom × Value)}
      (htexts : ∀ e ∈ entries, ∃ key, e.1 = .text key) (hdistinct : (entries.map Prod.fst).Nodup)
      (h : ∀ e ∈ entries, IsJson e.2) : IsJson (.object m entries)

end Value

namespace Json

variable {c : Char} {s t rest : List Char} {v : Value} {n depth : Nat}

/-! ## Texts -/

/-- A character stands in a text as an escape of one letter, by the digits of its code, or as
itself. -/
theorem escapeChar_cases (c : Char) :
    (∃ e, escapeChar c = ['\\', e] ∧ shortEscape? e = some c.toNat) ∨
      (c.toNat < 32 ∧ escapeChar c = '\\' :: 'u' :: Text.hex 4 c.toNat) ∨
      (¬c.toNat < 32 ∧ c ≠ '"' ∧ c ≠ '\\' ∧ escapeChar c = [c]) := by
  have hsame : ∀ d e : Char, (c == d) = true → shortEscape? e = some d.toNat →
      ∃ e', ['\\', e] = ['\\', e'] ∧ shortEscape? e' = some c.toNat :=
    fun d e heq hcode => ⟨e, rfl, by rwa [beq_iff_eq.1 heq]⟩
  unfold escapeChar
  split
  · exact .inl (hsame '"' '"' ‹_› rfl)
  rename_i hquote
  split
  · exact .inl (hsame '\\' '\\' ‹_› rfl)
  rename_i hback
  split
  · exact .inl (hsame '\n' 'n' ‹_› rfl)
  split
  · exact .inl (hsame '\r' 'r' ‹_› rfl)
  split
  · exact .inl (hsame '\t' 't' ‹_› rfl)
  split
  · rename_i hcode
    exact .inl ⟨'f', rfl, congrArg some hcode.symm⟩
  split
  · rename_i hcode
    exact .inl ⟨'b', rfl, congrArg some hcode.symm⟩
  split
  · exact .inr (.inl ⟨‹_›, rfl⟩)
  · refine .inr (.inr ⟨‹_›, fun heq => hquote ?_, fun heq => hback ?_, rfl⟩)
    · exact beq_iff_eq.2 heq
    · exact beq_iff_eq.2 heq

/-- The four hexadecimal digits of a control are read as its code. -/
theorem exists_hex4 (h : n < 32) :
    ∃ a b c d, Text.hex 4 n = [a, b, c, d] ∧ hex4? a b c d = some n := by
  have hall : ∀ n < 32,
      Text.hex 4 n = ['0', '0', (n / 16).digitChar, (n % 16).digitChar] ∧
        hex4? '0' '0' (n / 16).digitChar (n % 16).digitChar = some n := by
    decide +kernel
  exact ⟨_, _, _, _, hall n h⟩

/-- A character is read from how it stands in a text. -/
theorem stringCodes_escapeChar (c : Char) (rest : List Char) :
    stringCodes (escapeChar c ++ rest) = consCode c.toNat (stringCodes rest) := by
  rcases escapeChar_cases c with ⟨e, heq, hcode⟩ | ⟨hcontrol, heq⟩ | ⟨hcontrol, hquote, hback, heq⟩
  · have hletter : e ≠ 'u' := by
      rintro rfl
      cases hcode
    rw [heq, List.cons_append, List.singleton_append, stringCodes]
    · rw [hcode]
    · intro a b c d rest' hu
      exact absurd hu hletter
  · obtain ⟨a, b, c', d, hhex, hcode⟩ := exists_hex4 hcontrol
    rw [heq, hhex]
    simp only [List.cons_append, List.nil_append, stringCodes, hcode]
  · rw [heq, List.singleton_append, stringCodes]
    · simp [hcontrol, hback]
    · exact hquote
    · exact fun _ _ _ _ _ heq _ => absurd heq hback
    · exact fun _ _ heq _ => absurd heq hback

/-- Escaped characters are read as their codes up to the closing quotation mark. -/
theorem stringCodes_flatMap (cs rest : List Char) :
    stringCodes (cs.flatMap escapeChar ++ '"' :: rest) = .ok (cs.map Char.toNat, rest) := by
  induction cs with
  | nil => rfl
  | cons c cs ih =>
    rw [List.flatMap_cons, List.append_assoc, stringCodes_escapeChar, ih]
    rfl

/-- The code of a character is never one of a surrogate, so it gives the character. -/
theorem charOf_toNat (c : Char) :
    (if 0xD800 ≤ c.toNat ∧ c.toNat < 0xE000 then Char.ofNat 0xFFFD else Char.ofNat c.toNat) =
      c := by
  have hvalid : c.toNat < 0xD800 ∨ 0xDFFF < c.toNat ∧ c.toNat < 0x110000 := c.valid
  rw [if_neg (by omega), Char.ofNat_toNat]

/-- No character is a surrogate, so the codes of characters are read one by one. -/
theorem charsOfCodes_map_toNat (cs : List Char) : charsOfCodes (cs.map Char.toNat) = cs := by
  induction cs with
  | nil => rfl
  | cons c cs ih =>
    cases cs with
    | nil => rw [List.map_cons, List.map_nil, charsOfCodes, charOf_toNat]
    | cons d cs =>
      have hvalid : c.toNat < 0xD800 ∨ 0xDFFF < c.toNat ∧ c.toNat < 0x110000 := c.valid
      rw [List.map_cons] at ih
      rw [List.map_cons, List.map_cons, charsOfCodes, if_neg (by omega), charOf_toNat, ih]

/-- A written string is read back. -/
theorem string_stringText (s : String) (rest : List Char) :
    string (s.toList.flatMap escapeChar ++ '"' :: rest) = .ok (s, rest) := by
  rw [string, stringCodes_flatMap]
  simp only [charsOfCodes_map_toNat, String.ofList_toList]

/-! ## Integers -/

/-- A text that cannot make longer the value in front of it. -/
def Follows (rest : List Char) : Prop := ∀ c ∈ rest.head?, c = ',' ∨ c = '\n'

/-- What follows a number starts with no digit. -/
theorem Follows.takeWhile_digits (h : Follows rest) (hs : ∀ c ∈ s, c.isDigit = true) :
    (s ++ rest).takeWhile Char.isDigit = s ∧ (s ++ rest).dropWhile Char.isDigit = rest := by
  rw [List.takeWhile_append_of_pos hs, List.dropWhile_append_of_pos hs]
  cases rest with
  | nil => exact ⟨List.append_nil s, rfl⟩
  | cons c rest =>
    have hc : c.isDigit = false := by
      rcases h c rfl with rfl | rfl <;> decide
    rw [List.takeWhile_cons_of_neg (by simp [hc]), List.dropWhile_cons_of_neg (by simp [hc])]
    exact ⟨List.append_nil s, rfl⟩

/-- What follows a number is neither a fraction nor an exponent. -/
theorem Follows.parts (h : Follows rest) :
    fractionPart rest = (none, rest) ∧ exponentPart rest = (none, rest) := by
  cases rest with
  | nil => exact ⟨rfl, rfl⟩
  | cons c rest => rcases h c rfl with rfl | rfl <;> exact ⟨rfl, rfl⟩

/-- Only the numeral of zero starts with a zero. -/
theorem head?_toDigits (h : n ≠ 0) : (Nat.toDigits 10 n).head? ≠ some '0' := by
  induction n using Nat.strongRecOn with
  | ind n ih =>
    rw [Nat.toDigits_eq_if (by decide)]
    split
    · have hall : ∀ n < 10, n ≠ 0 → [n.digitChar].head? ≠ some '0' := by decide
      exact hall n ‹_› h
    · have hne : Nat.toDigits 10 (n / 10) ≠ [] := Nat.toDigits_ne_nil
      rw [List.head?_append_of_ne_nil _ hne]
      exact ih (n / 10) (by omega) (by omega)

/-- The digits of a number have its value. -/
theorem ofDigits_toDigits (n : Nat) : Numeral.ofDigits (digitValues (Nat.toDigits 10 n)) = n := by
  rw [Numeral.ofDigits, digitValues, List.foldl_map]
  have hn : Nat.ofDigitChars 10 (Nat.toDigits 10 n) 0 = n := Nat.ofDigitChars_ten_toDigits
  rwa [Nat.ofDigitChars_eq_foldl] at hn

/-- The digits of a number are read as its whole part. -/
theorem wholePart?_toDigits (n : Nat) (h : Follows rest) :
    wholePart? (Nat.toDigits 10 n ++ rest) = some (Nat.toDigits 10 n, rest) := by
  have hdigits : ∀ c ∈ Nat.toDigits 10 n, c.isDigit = true :=
    fun c hc => Nat.isDigit_of_mem_toDigits (by decide) (by decide) hc
  obtain ⟨htake, hdrop⟩ := h.takeWhile_digits hdigits
  by_cases hzero : n = 0
  · subst hzero
    rfl
  · obtain ⟨c, ds, hds⟩ := List.exists_cons_of_ne_nil (Nat.toDigits_ne_nil (n := n) (b := 10))
    have hc : c.isDigit = true := hdigits c (hds ▸ List.mem_cons_self)
    have hne : c ≠ '0' := by
      rintro rfl
      exact head?_toDigits hzero (by rw [hds]; rfl)
    rw [hds, List.cons_append, List.dropWhile_cons_of_pos hc] at hdrop
    rw [hds, List.cons_append] at htake
    rw [hds, List.cons_append, wholePart?]
    · rw [if_pos hc, htake, hdrop]
    · exact hne

/-- The digits of a number are read as an integer. -/
theorem unsignedNumber_toDigits (negative : Bool)
    (hlength : (Nat.toDigits 10 n).length ≤ Numeral.maxDigits) (h : Follows rest) :
    unsignedNumber negative (Nat.toDigits 10 n ++ rest) =
      .ok (.int (if negative then -(n : Int) else n), rest) := by
  simp only [unsignedNumber, wholePart?_toDigits n h, h.parts.1, h.parts.2, ofDigits_toDigits]
  simp [Nat.not_lt.2 hlength]

/-- A number is none of the named values. -/
theorem namedValue?_of_isDigit (hc : c.isDigit = true) (s : List Char) :
    namedValue? (c :: s) = none ∧ namedValue? ('-' :: c :: s) = none := by
  have hne : ∀ d : Char, d.isDigit = false → (d == c) = false := by
    intro d hd
    rw [beq_eq_false_iff_ne]
    rintro rfl
    exact Bool.false_ne_true (hd.symm.trans hc)
  constructor
  · simp [namedValue?, namedValues, Text.after?, hne]
  · simp [namedValue?, namedValues, Text.after?, hne]

/-- A digit, perhaps behind a minus sign, starts a number. -/
theorem plainValue_of_isDigit (hc : c.isDigit = true) (s : List Char) :
    plainValue (c :: s) = unsignedNumber false (c :: s) ∧
      plainValue ('-' :: c :: s) = unsignedNumber true (c :: s) := by
  obtain ⟨hplain, hminus⟩ := namedValue?_of_isDigit hc s
  have hne : c ≠ '-' := by
    rintro rfl
    revert hc
    decide
  refine ⟨?_, by rw [plainValue, hminus]⟩
  rw [plainValue, hplain]
  exact fun _ heq => hne (List.cons.inj heq).1

/-! ## Values -/

/-- A value and a text that is read as it in front of any text that may follow. The text starts
neither with a space nor with the end of a list. -/
structure Reads (v : Value) (t : List Char) : Prop where
  start : ∃ c s, t = c :: s ∧ isSpace c = false ∧ c ≠ ']'
  value : ∀ n rest, t.length ≤ n → Follows rest → Json.value n (t ++ rest) = .ok (v.plain, rest)

/-- A value that starts with no quotation mark, bracket or brace is plain. -/
theorem value_of_ne (hquote : c ≠ '"') (hlist : c ≠ '[') (hobject : c ≠ '{') (s : List Char) :
    value (n + 1) (c :: s) = plainValue (c :: s) := by
  rw [value]
  · exact fun _ heq => hquote (List.cons.inj heq).1
  · exact fun _ heq => hlist (List.cons.inj heq).1
  · exact fun _ heq => hobject (List.cons.inj heq).1

/-- Atoms that are no texts are read by their words and digits. -/
theorem reads_of_plainValue {a : Atom} (hquote : c ≠ '"') (hlist : c ≠ '[') (hobject : c ≠ '{')
    (hspace : isSpace c = false) (hend : c ≠ ']')
    (h : ∀ rest, Follows rest → plainValue (c :: s ++ rest) = .ok (.atom a, rest)) :
    Reads (.atom a) (c :: s) := by
  refine ⟨⟨c, s, rfl, hspace, hend⟩, fun n rest hn hrest => ?_⟩
  cases n with
  | zero => cases hn
  | succ n =>
    rw [List.cons_append, value_of_ne hquote hlist hobject, ← List.cons_append, h rest hrest,
      Value.plain_atom]

/-- An integer that is not too long is read back. -/
theorem reads_intText {i : Int} (hi : (Nat.toDigits 10 i.natAbs).length ≤ Numeral.maxDigits) :
    ∃ t, intText i = .ok t ∧ Reads (.int i) t := by
  obtain ⟨c, ds, hds⟩ := List.exists_cons_of_ne_nil (Nat.toDigits_ne_nil (n := i.natAbs) (b := 10))
  have hc : c.isDigit = true :=
    Nat.isDigit_of_mem_toDigits (by decide) (by decide) (hds ▸ List.mem_cons_self)
  have hne : ∀ d : Char, d.isDigit = false → c ≠ d := by
    rintro d hd rfl
    exact Bool.false_ne_true (hd.symm.trans hc)
  have hnumber : ∀ negative rest, Follows rest →
      unsignedNumber negative (c :: ds ++ rest) =
        .ok (.int (if negative then -(i.natAbs : Int) else i.natAbs), rest) :=
    fun negative rest hrest => hds ▸ unsignedNumber_toDigits negative hi hrest
  have htext : intText i = .ok (if i < 0 then '-' :: c :: ds else c :: ds) := by
    rw [intText, Numeral.text?, if_neg (Nat.not_lt.2 hi), hds]
  refine ⟨_, htext, ?_⟩
  -- with the sign and without it the digits are read the same way
  split
  · refine reads_of_plainValue (by decide) (by decide) (by decide) (by decide) (by decide) ?_
    intro rest hrest
    rw [List.cons_append, List.cons_append, (plainValue_of_isDigit hc _).2, ← List.cons_append,
      hnumber true rest hrest]
    simp only [if_true]
    rw [show -(i.natAbs : Int) = i by omega]
  · refine reads_of_plainValue (hne _ (by decide)) (hne _ (by decide)) (hne _ (by decide)) ?_
      (hne _ (by decide)) ?_
    · have hspace : ∀ d : Char, d.isDigit = false → (c == d) = false :=
        fun d hd => beq_eq_false_iff_ne.2 (hne d hd)
      simp [isSpace, hspace]
    · intro rest hrest
      rw [List.cons_append, (plainValue_of_isDigit hc _).1, ← List.cons_append,
        hnumber false rest hrest]
      simp only [Bool.false_eq_true, if_false]
      rw [show (i.natAbs : Int) = i by omega]

/-- A text is read back. -/
theorem reads_stringText (s : String) : Reads (.text s) (stringText s) := by
  refine ⟨⟨'"', _, rfl, by decide, by decide⟩, fun n rest hn _ => ?_⟩
  cases n with
  | zero => cases hn
  | succ n =>
    rw [stringText, List.cons_append, List.append_assoc, List.singleton_append, value,
      Value.plain_atom]
    simp only [string_stringText]

/-! ### Lists and objects -/

/-- A new line is skipped with the spaces behind it. -/
theorem skipSpace_newline (depth : Nat) (s : List Char) :
    skipSpace (newline depth ++ s) = skipSpace s := by
  refine List.dropWhile_append_of_pos fun c hc => ?_
  rcases List.mem_cons.1 hc with rfl | hc
  · decide
  · rw [List.eq_of_mem_replicate hc]
    decide

/-- The text of a value starts with no space. -/
theorem Reads.skipSpace_append (h : Reads v t) (rest : List Char) :
    skipSpace (t ++ rest) = t ++ rest := by
  obtain ⟨c, s, rfl, hspace, -⟩ := h.start
  rw [List.cons_append, skipSpace, List.dropWhile_cons_of_neg (by rw [hspace]; decide)]

/-- A new line may follow a value. -/
theorem follows_newline (depth : Nat) (s : List Char) : Follows (newline depth ++ s) :=
  fun _ hc => .inr (Option.some.inj hc).symm

/-- A comma may follow a value. -/
theorem follows_comma (s : List Char) : Follows (',' :: s) :=
  fun _ hc => .inl (Option.some.inj hc).symm

/-- The items behind a first one are written, and read together with it up to the end of the
list. -/
theorem exists_itemsText {vs : List Value}
    (h : ∀ v ∈ vs, ∃ t, valueText depth v = .ok t ∧ Reads v t) :
    ∃ t, itemsText depth vs = .ok t ∧ ∀ {v first}, Reads v first →
      ∀ n d rest, first.length + t.length < n →
        items n (first ++ (t ++ (newline d ++ ']' :: rest))) =
          .ok (v.plain :: vs.map Value.plain, rest) := by
  -- the reader takes an item before it looks for a comma, so the first one is left open
  induction vs with
  | nil =>
    refine ⟨[], rfl, fun {v first} hv n d rest hn => ?_⟩
    cases n with
    | zero => cases hn
    | succ n =>
      have hfirst : first.length ≤ n := by omega
      rw [items, List.nil_append, hv.value n _ hfirst (follows_newline d _)]
      simp only [skipSpace_newline]
      rfl
  | cons w vs ih =>
    obtain ⟨⟨second, hsecond, hw⟩, hrest⟩ := List.forall_mem_cons.1 h
    obtain ⟨t, ht, hitems⟩ := ih hrest
    refine ⟨',' :: (newline depth ++ second ++ t), ?_, fun {v first} hv n d rest hn => ?_⟩
    · rw [itemsText, hsecond, ht]
      rfl
    cases n with
    | zero => cases hn
    | succ n =>
      simp only [List.length_cons, List.length_append] at hn
      have hfirst : first.length ≤ n := by omega
      have hcomma : ∀ s : List Char, skipSpace (',' :: s) = ',' :: s := fun _ => rfl
      rw [items, List.cons_append, hv.value n _ hfirst (follows_comma _)]
      simp only [hcomma, List.append_assoc, skipSpace_newline, hw.skipSpace_append]
      rw [hitems hw n d rest (by omega)]
      rfl

/-- Items behind a bracket are a list. -/
theorem value_of_items {vs : List Value} (hend : ∀ s', skipSpace s ≠ ']' :: s')
    (h : items n (skipSpace s) = .ok (vs, rest)) :
    value (n + 1) ('[' :: s) = .ok (.array vs, rest) := by
  rw [value]
  split
  · rename_i s' heq
    exact absurd heq (hend s')
  · rw [h]

/-- A list is read back if its items are. -/
theorem reads_list (m : Option Mark) {vs : List Value}
    (h : ∀ v ∈ vs, ∃ t, valueText (depth + 1) v = .ok t ∧ Reads v t) :
    ∃ t, valueText depth (.list m vs) = .ok t ∧ Reads (.list m vs) t := by
  cases vs with
  | nil =>
    refine ⟨['[', ']'], by rw [valueText], ⟨'[', _, rfl, by decide, by decide⟩, ?_⟩
    intro n rest hn _
    cases n with
    | zero => cases hn
    | succ n =>
      rw [Value.plain_list]
      rfl
  | cons v vs =>
    obtain ⟨⟨first, hfirst, hv⟩, hrest⟩ := List.forall_mem_cons.1 h
    obtain ⟨t, ht, hitems⟩ := exists_itemsText hrest
    refine ⟨'[' :: (newline (depth + 1) ++ first ++ t ++ newline depth ++ [']']), ?_,
      ⟨'[', _, rfl, by decide, by decide⟩, ?_⟩
    · rw [valueText, hfirst, ht]
      rfl
    intro n rest hn _
    cases n with
    | zero => cases hn
    | succ n =>
      simp only [List.length_cons, List.length_append, List.length_nil] at hn
      -- the first item does not start like the end of a list
      obtain ⟨c, s, hcs, -, hend⟩ := hv.start
      have hspace : ∀ s, skipSpace (newline (depth + 1) ++ (first ++ s)) = first ++ s := by
        intro s
        rw [skipSpace_newline, hv.skipSpace_append]
      simp only [List.cons_append, List.append_assoc, List.nil_append]
      rw [Value.plain_list, List.map_cons]
      refine value_of_items (fun s' heq => ?_) ?_
      · rw [hspace, hcs] at heq
        exact hend (List.cons.inj heq).1
      · rw [hspace, hitems hv n depth rest (by omega)]

/-- The entries behind a first one are written, and read together with it up to the end of the
object. -/
theorem exists_entriesText {es : List (Atom × Value)} (htexts : ∀ e ∈ es, ∃ key, e.1 = .text key)
    (h : ∀ e ∈ es, ∃ t, valueText depth e.2 = .ok t ∧ Reads e.2 t) :
    ∃ t, entriesText depth es = .ok t ∧ ∀ {v first}, Reads v first →
      ∀ key n d rest, first.length + t.length < n →
        entries n (stringText key ++ ':' :: ' ' :: (first ++ (t ++ (newline d ++ '}' :: rest)))) =
          .ok ((.text key, v.plain) :: Assoc.mapValues Value.plain es, rest) := by
  have hcolon : ∀ s : List Char, skipSpace (':' :: s) = ':' :: s := fun _ => rfl
  have hspace : ∀ s : List Char, skipSpace (' ' :: s) = skipSpace s := fun _ => rfl
  have hcomma : ∀ s : List Char, skipSpace (',' :: s) = ',' :: s := fun _ => rfl
  -- the text of the other entries starts with a comma, so the first entry is read with them
  induction es with
  | nil =>
    refine ⟨[], rfl, fun {v first} hv key n d rest hn => ?_⟩
    cases n with
    | zero => cases hn
    | succ n =>
      have hfirst : first.length ≤ n := by omega
      simp only [stringText, List.cons_append, List.append_assoc, List.nil_append, entries,
        string_stringText, hcolon, hspace, hv.skipSpace_append]
      rw [hv.value n _ hfirst (follows_newline d _)]
      simp only [skipSpace_newline]
      rfl
  | cons e es ih =>
    obtain ⟨⟨second, hsecond, hw⟩, hrest⟩ := List.forall_mem_cons.1 h
    obtain ⟨⟨name, hname⟩, hothers⟩ := List.forall_mem_cons.1 htexts
    obtain ⟨t, ht, hentries⟩ := ih hothers hrest
    obtain ⟨k, w⟩ := e
    cases hname
    refine ⟨',' :: (newline depth ++ stringText name ++ [':', ' '] ++ second ++ t), ?_,
      fun {v first} hv key n d rest hn => ?_⟩
    · rw [entriesText, hsecond, ht]
      rfl
    cases n with
    | zero => cases hn
    | succ n =>
      simp only [List.length_cons, List.length_append] at hn
      have hfirst : first.length ≤ n := by omega
      have hkey : ∀ s, skipSpace (stringText name ++ s) = stringText name ++ s := fun _ => rfl
      rw [stringText]
      simp only [List.cons_append, List.append_assoc, List.nil_append, entries,
        string_stringText, hcolon, hspace, hv.skipSpace_append]
      rw [hv.value n _ hfirst (follows_comma _)]
      simp only [hcomma, skipSpace_newline, hkey]
      rw [hentries hw name n d rest (by omega)]
      rfl

/-- Entries behind a brace are an object. -/
theorem value_of_entries {es : List (Atom × Value)} (hend : ∀ s', skipSpace s ≠ '}' :: s')
    (h : entries n (skipSpace s) = .ok (es, rest)) :
    value (n + 1) ('{' :: s) = .ok (.map (Assoc.ofList es), rest) := by
  rw [value]
  split
  · rename_i s' heq
    exact absurd heq (hend s')
  · rw [h]

/-- An object with different texts for keys is read back if its values are. -/
theorem reads_object (m : Option Mark) {es : List (Atom × Value)}
    (htexts : ∀ e ∈ es, ∃ key, e.1 = .text key) (hdistinct : (es.map Prod.fst).Nodup)
    (h : ∀ e ∈ es, ∃ t, valueText (depth + 1) e.2 = .ok t ∧ Reads e.2 t) :
    ∃ t, valueText depth (.object m es) = .ok t ∧ Reads (.object m es) t := by
  -- entries under different texts are those of a map
  have hmap : Assoc.ofList (Assoc.mapValues Value.plain es) = Assoc.mapValues Value.plain es := by
    have hexact : ∀ e ∈ es, Assoc.IsExact e.1 := by
      intro e he
      obtain ⟨key, hkey⟩ := htexts e he
      exact hkey ▸ Atom.isExact_text key
    have hdifferent : Assoc.Distinct es := ⟨hexact, hdistinct⟩
    exact Assoc.update_eq_append (m := []) (hdifferent.mapValues Value.plain).different
  cases es with
  | nil =>
    refine ⟨['{', '}'], by rw [valueText], ⟨'{', _, rfl, by decide, by decide⟩, ?_⟩
    intro n rest hn _
    cases n with
    | zero => cases hn
    | succ n =>
      rw [Value.plain_object]
      rfl
  | cons e es =>
    obtain ⟨⟨first, hfirst, hv⟩, hrest⟩ := List.forall_mem_cons.1 h
    obtain ⟨⟨key, hkey⟩, hothers⟩ := List.forall_mem_cons.1 htexts
    obtain ⟨t, ht, hentries⟩ := exists_entriesText hothers hrest
    obtain ⟨k, v⟩ := e
    cases hkey
    refine ⟨'{' :: (newline (depth + 1) ++ stringText key ++ [':', ' '] ++ first ++ t ++
      newline depth ++ ['}']), ?_, ⟨'{', _, rfl, by decide, by decide⟩, ?_⟩
    · rw [valueText, hfirst, ht]
      rfl
    intro n rest hn _
    cases n with
    | zero => cases hn
    | succ n =>
      simp only [List.length_cons, List.length_append, List.length_nil] at hn
      simp only [List.cons_append, List.append_assoc, List.nil_append]
      rw [Value.plain_object, ← hmap]
      refine value_of_entries (fun s' heq => ?_) ?_
      · rw [skipSpace_newline] at heq
        exact absurd (List.cons.inj heq).1 (by decide)
      · rw [skipSpace_newline]
        exact hentries hv key n depth rest (by omega)

end Json

open Json

/-- A value of the kinds that JSON has is written at any depth, and its text is read as the value
wherever it stands. -/
theorem Value.IsJson.exists_reads {v : Value} (h : v.IsJson) (depth : Nat) :
    ∃ t, valueText depth v = .ok t ∧ Reads v t := by
  induction h generalizing depth with
  | null =>
    refine ⟨"null".toList, rfl, ?_⟩
    exact reads_of_plainValue (by decide) (by decide) (by decide) (by decide) (by decide)
      fun _ _ => rfl
  | bool b =>
    refine ⟨boolText b, rfl, ?_⟩
    cases b <;>
      exact reads_of_plainValue (by decide) (by decide) (by decide) (by decide) (by decide)
        fun _ _ => rfl
  | int i hi =>
    obtain ⟨t, ht, hreads⟩ := reads_intText hi
    exact ⟨t, by rw [valueText, atomText, ht], hreads⟩
  | text s => exact ⟨stringText s, rfl, reads_stringText s⟩
  | list m _ ih => exact reads_list m fun v hv => ih v hv (depth + 1)
  | object m htexts hdistinct _ ih =>
    exact reads_object m htexts hdistinct fun e he => ih e he (depth + 1)

/-- A value without marks is the same without them. -/
theorem Value.plain_of_unmarked {v : Value} (h : v.Marked fun _ _ => False) : v.plain = v := by
  have hnone : ∀ {w : Value}, (w.Marked fun _ _ => False) → w.mark? = none := by
    intro w hw
    exact Option.eq_none_iff_forall_ne_some.2 fun mark hmark => hw.root hmark
  induction v using Value.induction with
  | step v ih =>
    have hmark := hnone h
    have hparts : ∀ w ∈ v.parts, w.plain = w := fun w hw => ih w hw (h.part hw)
    cases v with
    | atom a => exact plain_atom a
    | list m items =>
      cases hmark
      have hitems : items.map plain = items.map id := List.map_congr_left hparts
      rw [plain_list, hitems, List.map_id]
    | object m entries =>
      cases hmark
      rw [plain_object, Assoc.mapValues_eq_self fun e he => hparts e.2 (snd_mem_parts he)]
    | pair a b =>
      rw [plain, hparts a (List.mem_pair.2 (.inl rfl)), hparts b (List.mem_pair.2 (.inr rfl))]
    | set m items =>
      cases hmark
      rw [plain]

/-- A value of the kinds that JSON has is written as JSON without a fault, and a security
requirement with that text is the value, with every key in its place. -/
theorem Value.IsJson.securityOf_write {v : Value} (h : v.IsJson) :
    ∃ t, Format.json.write v = .ok t ∧ securityOf t = .ok v.plain ∧
      ((v.Marked fun _ _ => False) → securityOf t = .ok v) := by
  obtain ⟨t, ht, hreads⟩ := h.exists_reads 0
  have hwrite : Format.json.write v = .ok (t ++ ['\n']) := by
    rw [Format.write, Json.write, ht]
    rfl
  have hread : Json.read (t ++ ['\n']) = .ok v.plain := by
    have hlength : t.length ≤ (t ++ ['\n']).length + 1 := by
      rw [List.length_append]
      omega
    rw [Json.read, hreads.skipSpace_append, hreads.value _ ['\n'] hlength (follows_newline 0 [])]
    rfl
  have hsecurity : securityOf (t ++ ['\n']) = .ok v.plain := by
    rw [securityOf, hread]
  refine ⟨_, hwrite, hsecurity, fun hmarked => ?_⟩
  rw [hsecurity, plain_of_unmarked hmarked]

/-- A value with marks, controls, quotation marks and empty collections in it. -/
def nestedValue : Value :=
  .object (some (.node 0))
    [(.text "say \"\\\"", .list (some (.node 1)) [.null, .bool true, .int (-12)]),
      (.text "", .map [(.text "é\n\x01", .array [])]), (.text "a", .map [])]

/-- The value is read from its text, but without its marks. -/
theorem Value.IsJson.securityOf_write_nested :
    nestedValue.IsJson ∧ ∃ t, Format.json.write nestedValue = .ok t ∧
      securityOf t = .ok (.map [(.text "say \"\\\"", .array [.null, .bool true, .int (-12)]),
        (.text "", .map [(.text "é\n\x01", .array [])]), (.text "a", .map [])]) := by
  have hjson : nestedValue.IsJson := by
    refine .object _ ?_ (by decide) ?_
    · simp
    · simp only [List.forall_mem_cons, List.not_mem_nil, false_implies, implies_true, and_true]
      refine ⟨.list _ ?_, .object _ (by simp) (by decide) ?_, .object _ (by simp) (by decide) ?_⟩
      · simp only [List.forall_mem_cons, List.not_mem_nil, false_implies, implies_true, and_true]
        exact ⟨.null, .bool true, .int _ (by decide)⟩
      · simp only [List.forall_mem_cons, List.not_mem_nil, false_implies, implies_true, and_true]
        exact .list _ (by simp)
      · simp
  obtain ⟨t, ht, hread, -⟩ := securityOf_write hjson
  refine ⟨hjson, t, ht, ?_⟩
  rw [hread]
  simp [nestedValue, Assoc.mapValues]

end ApiDoc
