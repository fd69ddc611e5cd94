import ApiDoc.Document.Format
import ApiDoc.Proofs.Except
import ApiDoc.Proofs.Value.Sharing
import Mathlib.Data.List.Infix

/-!
# Numbers that JSON has no text for

Infinities and NaN have no text in JSON; the writer writes names for them, as if they were numbers.
Such a name stands in a written text, outside all strings, just if the value shows such a number
(`write_hasName_iff`). Numbers among the keys of objects and in sets are written inside strings.
-/

namespace ApiDoc

/-- Whether a number is neither an infinity nor NaN. -/
def Binary64.isFinite : Binary64 → Bool
  | .finite .. => true
  | _ => false

namespace Value

/-- A node that is neither an infinity nor NaN. -/
def IsFiniteNode (x : Value) : Prop := ∀ f, x = .float f → f.isFinite = true

/-- A value none of whose nodes, keys and items of sets included, is an infinity or NaN. -/
def IsFinite (v : Value) : Prop := v.Every IsFiniteNode

mutual

/-- The floating-point numbers that a value shows, those of its keys and sets apart. -/
def numbers : Value → List Binary64
  | .atom (.float x) => [x]
  | .atom _ => []
  | .list _ items => itemsNumbers items
  | .object _ entries => entriesNumbers entries
  | .pair a b => numbers a ++ numbers b
  | .set _ _ => []

/-- The numbers that items show. -/
def itemsNumbers : List Value → List Binary64
  | [] => []
  | v :: rest => numbers v ++ itemsNumbers rest

/-- The numbers that the values of entries show. -/
def entriesNumbers : List (Atom × Value) → List Binary64
  | [] => []
  | (_, v) :: rest => numbers v ++ entriesNumbers rest

end

/-- The numbers that items show are those of each of them. -/
theorem mem_itemsNumbers {x : Binary64} {items : List Value} :
    x ∈ itemsNumbers items ↔ ∃ v ∈ items, x ∈ v.numbers := by
  induction items with
  | nil => simp [itemsNumbers]
  | cons v items ih => rw [itemsNumbers, List.mem_append, ih, List.exists_mem_cons_iff]

/-- The numbers that entries show are those of each value. -/
theorem mem_entriesNumbers {x : Binary64} {entries : List (Atom × Value)} :
    x ∈ entriesNumbers entries ↔ ∃ e ∈ entries, x ∈ e.2.numbers := by
  induction entries with
  | nil => simp [entriesNumbers]
  | cons e entries ih => rw [entriesNumbers, List.mem_append, ih, List.exists_mem_cons_iff]

/-- What a value shows is among its nodes. -/
theorem node_of_mem_numbers {x : Binary64} {v : Value} (h : x ∈ v.numbers) : Node (.float x) v := by
  induction v using induction with
  | step v ih =>
    cases v with
    | atom a =>
      cases a with
      | float y =>
        rw [List.mem_singleton.1 h]
        exact .self
      | _ => exact absurd h List.not_mem_nil
    | list m items =>
      obtain ⟨w, hw, hx⟩ := mem_itemsNumbers.1 h
      exact .part hw (ih w hw hx)
    | object m entries =>
      obtain ⟨e, he, hx⟩ := mem_entriesNumbers.1 h
      exact .part (snd_mem_parts he) (ih e.2 (snd_mem_parts he) hx)
    | pair a b =>
      rcases List.mem_append.1 h with hx | hx
      · exact .part List.mem_cons_self (ih a List.mem_cons_self hx)
      · have hb : b ∈ (pair a b).parts := List.mem_pair.2 (.inr rfl)
        exact .part hb (ih b hb hx)
    | set m items => exact absurd h List.not_mem_nil

/-- A finite value shows finite numbers only. -/
theorem IsFinite.isFinite_of_mem_numbers {v : Value} (h : v.IsFinite) {x : Binary64}
    (hx : x ∈ v.numbers) : x.isFinite = true :=
  h _ (node_of_mem_numbers hx) x rfl

end Value

namespace Json

/-! ## The text outside strings -/

/-- A text with the quotation marks of its strings and without what stands between them. The flag
tells whether the text starts inside a string, where a backslash takes the next character with
it. -/
def outside : Bool → List Char → List Char
  | _, [] => []
  | false, '"' :: rest => '"' :: outside true rest
  | false, c :: rest => c :: outside false rest
  | true, '"' :: rest => '"' :: outside false rest
  | true, '\\' :: _ :: rest => outside true rest
  | true, _ :: rest => outside true rest

/-- The names of the numbers that JSON has no text for. -/
def numberNames : List (List Char) := ["NaN".toList, "Infinity".toList, "-Infinity".toList]

/-- Whether a text has the name of a number outside its strings. -/
def HasName (t : List Char) : Prop := ∃ name ∈ numberNames, name <:+: outside false t

variable {t t' u u' : List Char}

/-- A text without quotation marks is outside strings. -/
theorem outside_append (h : '"' ∉ t) (rest : List Char) :
    outside false (t ++ rest) = t ++ outside false rest := by
  induction t with
  | nil => rfl
  | cons c t ih =>
    obtain ⟨hc, ht⟩ := List.ne_and_not_mem_of_not_mem_cons h
    rw [List.cons_append, outside, ih ht, List.cons_append]
    exact fun heq => hc heq.symm

/-- A text without quotation marks and backslashes stays inside a string. -/
theorem inside_append (h : ∀ c ∈ t, c ≠ '"' ∧ c ≠ '\\') (rest : List Char) :
    outside true (t ++ rest) = outside true rest := by
  induction t with
  | nil => rfl
  | cons c t ih =>
    obtain ⟨⟨hquote, hbackslash⟩, ht⟩ := List.forall_mem_cons.1 h
    rw [List.cons_append, outside, ih ht]
    · exact hquote
    · exact fun _ _ heq => absurd heq hbackslash

/-- A fixed text without quotation marks and backslashes is inside a string. -/
theorem inside_fixed {s : List Char} (h : s.all (fun c => c != '"' && c != '\\') = true)
    (rest : List Char) : outside true (s ++ rest) = outside true rest := by
  refine inside_append (fun c hc => ?_) rest
  have hchar := List.all_eq_true.1 h c hc
  rwa [Bool.and_eq_true, bne_iff_ne, bne_iff_ne] at hchar

/-- Inside a string a backslash takes the next character with it. -/
theorem inside_backslash (c : Char) (rest : List Char) :
    outside true ('\\' :: c :: rest) = outside true rest := by
  rw [outside]

/-- A character of a string is inside the string, however it is written. -/
theorem inside_escapeChar (c : Char) (rest : List Char) :
    outside true (escapeChar c ++ rest) = outside true rest := by
  have hhex : ∀ n < 32, (Text.hex 4 n).all (fun d => d != '"' && d != '\\') = true := by
    decide +kernel
  unfold escapeChar
  split
  · exact inside_backslash _ _
  · rename_i hquote
    split
    · exact inside_backslash _ _
    · rename_i hbackslash
      split
      · exact inside_backslash _ _
      split
      · exact inside_backslash _ _
      split
      · exact inside_backslash _ _
      split
      · exact inside_backslash _ _
      split
      · exact inside_backslash _ _
      split
      · rename_i hcontrol
        rw [List.cons_append, List.cons_append, inside_backslash, inside_fixed (hhex _ hcontrol)]
      · refine inside_append (List.forall_mem_singleton.2 ⟨?_, ?_⟩) rest
        · exact fun heq => hquote (beq_iff_eq.2 heq)
        · exact fun heq => hbackslash (beq_iff_eq.2 heq)

/-- Escaped characters stay inside a string. -/
theorem inside_flatMap_escapeChar (s : List Char) (rest : List Char) :
    outside true (s.flatMap escapeChar ++ rest) = outside true rest := by
  induction s with
  | nil => rfl
  | cons c s ih => rw [List.flatMap_cons, List.append_assoc, inside_escapeChar, ih]

/-! ## Written texts -/

/-- A text that is outside strings at its end if it is so at its start, and what of it is outside
strings. -/
def Leaves (t u : List Char) : Prop :=
  ∀ rest, outside false (t ++ rest) = u ++ outside false rest

/-- A text without quotation marks leaves itself. -/
theorem leaves_of_not_mem (h : '"' ∉ t) : Leaves t t := outside_append h

/-- Texts in a row leave what each of them leaves. -/
theorem Leaves.append (h : Leaves t u) (h' : Leaves t' u') : Leaves (t ++ t') (u ++ u') := by
  intro rest
  rw [List.append_assoc, h, h', List.append_assoc]

/-- A string leaves its quotation marks. -/
theorem leaves_string {s : List Char} (h : ∀ rest, outside true (s ++ rest) = outside true rest) :
    Leaves ('"' :: (s ++ ['"'])) ['"', '"'] := by
  intro rest
  rw [List.cons_append, List.append_assoc, outside, h, List.singleton_append, outside]
  rfl

/-- A text for numbers: outside its strings there are the names of those that JSON has no text for,
and none of the letters N and I that belongs to anything else. -/
def Shows (t : List Char) (ns : List Binary64) : Prop :=
  ∃ u, Leaves t u ∧ (∀ c ∈ u, c = 'N' ∨ c = 'I' → ∃ x ∈ ns, x.isFinite = false) ∧
    ∀ x ∈ ns, x.isFinite = false → floatText x <:+: u

variable {ns ns' : List Binary64}

/-- Texts in a row show the numbers of each of them. -/
theorem Shows.append (h : Shows t ns) (h' : Shows t' ns') : Shows (t ++ t') (ns ++ ns') := by
  obtain ⟨u, hleaves, hletters, hnames⟩ := h
  obtain ⟨u', hleaves', hletters', hnames'⟩ := h'
  refine ⟨u ++ u', hleaves.append hleaves', ?_, ?_⟩
  · refine List.forall_mem_append.2 ⟨fun c hc hletter => ?_, fun c hc hletter => ?_⟩
    · obtain ⟨x, hx, hinfinite⟩ := hletters c hc hletter
      exact ⟨x, List.mem_append_left _ hx, hinfinite⟩
    · obtain ⟨x, hx, hinfinite⟩ := hletters' c hc hletter
      exact ⟨x, List.mem_append_right _ hx, hinfinite⟩
  · refine List.forall_mem_append.2 ⟨fun x hx hinfinite => ?_, fun x hx hinfinite => ?_⟩
    · exact (hnames x hx hinfinite).trans (List.prefix_append u u').isInfix
    · exact (hnames' x hx hinfinite).trans (List.suffix_append u u').isInfix

/-- Whether a character is no quotation mark and no letter that a name starts with. -/
def isPlainChar (c : Char) : Bool := c != '"' && c != 'N' && c != 'I'

/-- A text that shows no numbers but finite ones. -/
theorem shows_of_leaves (h : Leaves t u) (hplain : ∀ c ∈ u, c ≠ 'N' ∧ c ≠ 'I')
    (hfinite : ∀ x ∈ ns, x.isFinite = true) : Shows t ns := by
  refine ⟨u, h, fun c hc hletter => ?_, fun x hx hinfinite => ?_⟩
  · rcases hletter with rfl | rfl
    · exact absurd rfl (hplain _ hc).1
    · exact absurd rfl (hplain _ hc).2
  · rw [hfinite x hx] at hinfinite
    cases hinfinite

/-- A text of plain characters shows finite numbers. -/
theorem shows_of_isPlainChar (h : ∀ c ∈ t, isPlainChar c = true)
    (hfinite : ∀ x ∈ ns, x.isFinite = true) : Shows t ns := by
  simp only [isPlainChar, Bool.and_eq_true, bne_iff_ne] at h
  refine shows_of_leaves (leaves_of_not_mem fun hquote => (h _ hquote).1.1 rfl)
    (fun c hc => ⟨(h c hc).1.2, (h c hc).2⟩) hfinite

/-- A text of plain characters shows no numbers. -/
theorem shows_frame (h : ∀ c ∈ t, isPlainChar c = true) : Shows t [] :=
  shows_of_isPlainChar h fun _ hx => absurd hx List.not_mem_nil

/-- A fixed text of plain characters shows no numbers. -/
theorem shows_fixed (t : List Char) (h : t.all isPlainChar = true) : Shows t [] :=
  shows_frame (List.all_eq_true.1 h)

/-- A string shows no numbers. -/
theorem shows_string {s : List Char} (h : ∀ rest, outside true (s ++ rest) = outside true rest) :
    Shows ('"' :: (s ++ ['"'])) [] :=
  shows_of_leaves (leaves_string h) (by simp) fun _ hx => absurd hx List.not_mem_nil

/-- The text of a string shows no numbers. -/
theorem shows_stringText (s : String) : Shows (stringText s) [] :=
  shows_string (inside_flatMap_escapeChar s.toList)

/-! ### Atoms and keys -/

/-- The characters of the texts of finite numbers. -/
def isNumberChar (c : Char) : Bool := c.isDigit || "+-.e".toList.contains c

/-- Characters of finite numbers are plain. -/
theorem isPlainChar_of_isNumberChar {c : Char} (h : isNumberChar c = true) :
    isPlainChar c = true := by
  simp only [isPlainChar, Bool.and_eq_true, bne_iff_ne]
  refine ⟨⟨?_, ?_⟩, ?_⟩ <;>
    · rintro rfl
      revert h
      decide

/-- Decimal digits are characters of numbers. -/
theorem isNumberChar_of_mem_toDigits {c : Char} {n : Nat} (h : c ∈ Nat.toDigits 10 n) :
    isNumberChar c = true := by
  rw [isNumberChar, Nat.isDigit_of_mem_toDigits (by decide) (by decide) h, Bool.true_or]

/-- The positional form of digits has characters of numbers only. -/
theorem isNumberChar_positional {digits : List Char} (h : ∀ c ∈ digits, isNumberChar c = true)
    (n : Int) : ∀ c ∈ Binary64.positional digits n, isNumberChar c = true := by
  have hzeros : ∀ k, ∀ c ∈ List.replicate k '0', isNumberChar c = true := by
    intro k c hc
    rw [List.eq_of_mem_replicate hc]
    decide
  unfold Binary64.positional
  split
  · simp only [List.forall_mem_cons, List.forall_mem_append]
    exact ⟨by decide, by decide, hzeros _, h⟩
  · simp only [List.forall_mem_cons, List.forall_mem_append]
    refine ⟨⟨fun c hc => h c (List.mem_of_mem_take hc), hzeros _⟩, by decide, ?_⟩
    split
    · exact List.forall_mem_singleton.2 (by decide)
    · exact fun c hc => h c (List.mem_of_mem_drop hc)

/-- The scientific form of digits has characters of numbers only. -/
theorem isNumberChar_scientific {digits : List Char} (h : ∀ c ∈ digits, isNumberChar c = true)
    (e : Int) : ∀ c ∈ Binary64.scientific digits e, isNumberChar c = true := by
  unfold Binary64.scientific
  simp only [List.forall_mem_cons, List.forall_mem_append]
  refine ⟨?_, by decide, ?_, ?_⟩
  · split
    · exact h
    · exact h
    · obtain ⟨hfirst, hrest⟩ := List.forall_mem_cons.1 h
      exact List.forall_mem_cons.2 ⟨hfirst, List.forall_mem_cons.2 ⟨by decide, hrest⟩⟩
  · split <;> decide
  · split
    · exact List.forall_mem_cons.2 ⟨by decide, fun c hc => isNumberChar_of_mem_toDigits hc⟩
    · exact fun c hc => isNumberChar_of_mem_toDigits hc

/-- The text of a finite number has characters of numbers only. -/
theorem isNumberChar_text {x : Binary64} (h : x.isFinite = true) :
    ∀ c ∈ x.text.toList, isNumberChar c = true := by
  cases x with
  | nan => cases h
  | infinite s => cases h
  | finite s m e =>
    have hdigits : ∀ d, ∀ c ∈ Binary64.significantDigits d, isNumberChar c = true := by
      intro d c hc
      have hmem := (List.dropWhile_sublist _).subset (List.mem_reverse.1 hc)
      exact isNumberChar_of_mem_toDigits (List.mem_reverse.1 hmem)
    rw [Binary64.text, String.toList_ofList, List.forall_mem_append]
    constructor
    · split <;> exact List.all_eq_true.1 (by decide)
    · split
      · exact List.all_eq_true.1 (by decide)
      · unfold Binary64.magnitudeText
        simp only
        split
        · exact isNumberChar_positional (hdigits _) _
        · exact isNumberChar_scientific (hdigits _) _

/-- The text of an integer has characters of numbers only. -/
theorem isNumberChar_intText {i : Int} (h : intText i = .ok t) :
    ∀ c ∈ t, isNumberChar c = true := by
  unfold intText at h
  split at h
  · rename_i s hs
    cases h
    unfold Numeral.text? at hs
    simp only at hs
    split at hs
    · cases hs
    · cases hs
      split
      · exact List.forall_mem_cons.2 ⟨by decide, fun c hc => isNumberChar_of_mem_toDigits hc⟩
      · exact fun c hc => isNumberChar_of_mem_toDigits hc
  · cases h

/-- A finite number has its own text, and not a name. -/
theorem floatText_of_isFinite {x : Binary64} (h : x.isFinite = true) :
    floatText x = x.text.toList := by
  cases x with
  | finite s m e => rfl
  | _ => cases h

/-- The text of a number shows it. -/
theorem shows_floatText (x : Binary64) : Shows (floatText x) [x] := by
  cases hfinite : x.isFinite with
  | true =>
    rw [floatText_of_isFinite hfinite]
    exact shows_of_isPlainChar
      (fun c hc => isPlainChar_of_isNumberChar (isNumberChar_text hfinite c hc))
      (List.forall_mem_singleton.2 hfinite)
  | false =>
    have hquote : '"' ∉ floatText x := by
      cases x with
      | nan => decide
      | infinite s => cases s <;> decide
      | finite s m e => cases hfinite
    refine ⟨floatText x, leaves_of_not_mem hquote, fun c _ _ => ?_, ?_⟩
    · exact ⟨x, List.mem_singleton_self x, hfinite⟩
    · exact List.forall_mem_singleton.2 fun _ => List.infix_rfl

/-- The text of an atom shows the number that it is, if it is one. -/
theorem shows_atomText {a : Atom} (h : atomText a = .ok t) :
    Shows t (Value.atom a).numbers := by
  cases a with
  | null =>
    cases h
    exact shows_fixed _ (by decide)
  | bool b =>
    cases h
    exact shows_fixed _ (by cases b <;> decide)
  | int i =>
    exact shows_frame fun c hc => isPlainChar_of_isNumberChar (isNumberChar_intText h c hc)
  | float x =>
    cases h
    exact shows_floatText x
  | text s =>
    cases h
    exact shows_stringText s
  | bytes bs =>
    cases h
    exact shows_stringText _
  | moment m mark =>
    cases h
    exact shows_stringText _

/-- A key is written as a string, also if it is a number. -/
theorem shows_keyText {k : Atom} (h : keyText k = .ok t) : Shows t [] := by
  have hnumber : ∀ {s : List Char}, (∀ c ∈ s, isNumberChar c = true) →
      ∀ rest, outside true (s ++ rest) = outside true rest := by
    refine fun {s} hs => inside_append fun c hc => ⟨?_, ?_⟩ <;>
      · rintro rfl
        have := hs _ hc
        revert this
        decide
  -- every key is written as a string, so that its number is inside quotation marks
  cases k with
  | null =>
    cases h
    exact shows_stringText _
  | bool b =>
    cases h
    exact shows_string (inside_fixed (by cases b <;> decide))
  | int i =>
    obtain ⟨s, hs, rfl⟩ := exists_of_map_eq_ok h
    exact shows_string (hnumber (isNumberChar_intText hs))
  | float x =>
    cases h
    cases hfinite : x.isFinite with
    | true =>
      rw [floatText_of_isFinite hfinite]
      exact shows_string (hnumber (isNumberChar_text hfinite))
    | false =>
      refine shows_string (inside_fixed ?_)
      cases x with
      | nan => decide
      | infinite s => cases s <;> decide
      | finite s m e => cases hfinite
  | text s =>
    cases h
    exact shows_stringText s
  | bytes bs => cases h
  | moment m mark => cases h

/-! ### Values -/

/-- A new line shows no numbers. -/
theorem shows_newline (depth : Nat) : Shows (newline depth) [] := by
  refine shows_frame (List.forall_mem_cons.2 ⟨by decide, fun c hc => ?_⟩)
  rw [List.eq_of_mem_replicate hc]
  decide

/-- A text for numbers inside a frame. -/
theorem Shows.frame (h : Shows t ns) {before after : List Char}
    (hbefore : Shows before []) (hafter : Shows after []) : Shows (before ++ t ++ after) ns := by
  have hframed := (hbefore.append h).append hafter
  rwa [List.nil_append, List.append_nil] at hframed

mutual

/-- The text of a value shows its numbers. -/
theorem shows_valueText {depth : Nat} {t : List Char} (v : Value)
    (h : valueText depth v = .ok t) : Shows t v.numbers := by
  have hopen : ∀ c, isPlainChar c = true → Shows (c :: newline (depth + 1)) [] :=
    fun c hc => (shows_frame (List.forall_mem_singleton.2 hc)).append (shows_newline (depth + 1))
  have hclose : ∀ c, isPlainChar c = true → Shows (newline depth ++ [c]) [] :=
    fun c hc => (shows_newline depth).append (shows_frame (List.forall_mem_singleton.2 hc))
  match v with
  | .atom a => exact shows_atomText h
  | .list m [] =>
    cases h
    exact shows_fixed _ (by decide)
  | .list m (v :: vs) =>
    rw [valueText] at h
    obtain ⟨first, hfirst, h⟩ := exists_of_bind_eq_ok h
    obtain ⟨rest, hrest, h⟩ := exists_of_bind_eq_ok h
    cases h
    have hitems := (shows_valueText v hfirst).append (shows_itemsText vs hrest)
    simpa only [List.cons_append, List.append_assoc, List.nil_append, Value.numbers,
      Value.itemsNumbers] using hitems.frame (hopen '[' (by decide)) (hclose ']' (by decide))
  | .object m [] =>
    cases h
    exact shows_fixed _ (by decide)
  | .object m ((k, v) :: es) =>
    rw [valueText] at h
    obtain ⟨key, hkey, h⟩ := exists_of_bind_eq_ok h
    obtain ⟨first, hfirst, h⟩ := exists_of_bind_eq_ok h
    obtain ⟨rest, hrest, h⟩ := exists_of_bind_eq_ok h
    cases h
    have hentries := (shows_valueText v hfirst).append (shows_entriesText es hrest)
    have hname := ((hopen '\x7b' (by decide)).append (shows_keyText hkey)).append
      (shows_fixed [':', ' '] (by decide))
    simpa only [List.cons_append, List.append_assoc, List.nil_append, Value.numbers,
      Value.entriesNumbers] using hentries.frame hname (hclose '\x7d' (by decide))
  | .pair a b =>
    rw [valueText] at h
    obtain ⟨first, hfirst, h⟩ := exists_of_bind_eq_ok h
    obtain ⟨second, hsecond, h⟩ := exists_of_bind_eq_ok h
    cases h
    have hcomma : Shows (',' :: newline (depth + 1)) [] := hopen ',' (by decide)
    have hitems := (shows_valueText a hfirst).append (hcomma.append (shows_valueText b hsecond))
    simpa only [List.cons_append, List.append_assoc, List.nil_append, Value.numbers] using
      hitems.frame (hopen '[' (by decide)) (hclose ']' (by decide))
  | .set m items =>
    rw [valueText] at h
    split at h
    · cases h
      exact shows_stringText _
    · cases h

/-- The text of items shows their numbers. -/
theorem shows_itemsText {depth : Nat} {t : List Char} (vs : List Value)
    (h : itemsText depth vs = .ok t) : Shows t (Value.itemsNumbers vs) := by
  match vs with
  | [] =>
    cases h
    exact shows_fixed _ (by decide)
  | v :: vs =>
    rw [itemsText] at h
    obtain ⟨first, hfirst, h⟩ := exists_of_bind_eq_ok h
    obtain ⟨rest, hrest, h⟩ := exists_of_bind_eq_ok h
    cases h
    have hcomma := (shows_fixed [','] (by decide)).append (shows_newline depth)
    simpa only [List.cons_append, List.append_assoc, List.nil_append, Value.itemsNumbers] using
      hcomma.append ((shows_valueText v hfirst).append (shows_itemsText vs hrest))

/-- The text of entries shows the numbers of their values. -/
theorem shows_entriesText {depth : Nat} {t : List Char} (es : List (Atom × Value))
    (h : entriesText depth es = .ok t) : Shows t (Value.entriesNumbers es) := by
  match es with
  | [] =>
    cases h
    exact shows_fixed _ (by decide)
  | (k, v) :: es =>
    rw [entriesText] at h
    obtain ⟨key, hkey, h⟩ := exists_of_bind_eq_ok h
    obtain ⟨first, hfirst, h⟩ := exists_of_bind_eq_ok h
    obtain ⟨rest, hrest, h⟩ := exists_of_bind_eq_ok h
    cases h
    have hcomma := (shows_fixed [','] (by decide)).append (shows_newline depth)
    have hname := (hcomma.append (shows_keyText hkey)).append
      (shows_fixed [':', ' '] (by decide))
    simpa only [List.cons_append, List.append_assoc, List.nil_append, Value.entriesNumbers] using
      hname.append ((shows_valueText v hfirst).append (shows_entriesText es hrest))

end

/-- A written text has the name of a number outside its strings just if the value shows a number
that JSON has no text for. -/
theorem write_hasName_iff {v : Value} (h : write v = .ok t) :
    HasName t ↔ ∃ x ∈ v.numbers, x.isFinite = false := by
  obtain ⟨s, hs, h⟩ := exists_of_bind_eq_ok h
  cases h
  have hend : Shows ['\n'] [] := shows_fixed _ (by decide)
  obtain ⟨u, hleaves, hletters, hnames⟩ := (shows_valueText v hs).append hend
  have houtside : outside false (s ++ ['\n']) = u := by
    have hwhole := hleaves []
    rwa [List.append_nil, outside, List.append_nil] at hwhole
  rw [List.append_nil] at hletters hnames
  rw [HasName, houtside]
  constructor
  · rintro ⟨name, hname, hin⟩
    have hall : ∀ name ∈ numberNames, name.any (fun c => c == 'N' || c == 'I') = true := by
      decide
    obtain ⟨c, hc, hletter⟩ := List.any_eq_true.1 (hall name hname)
    rw [Bool.or_eq_true, beq_iff_eq, beq_iff_eq] at hletter
    exact hletters c (hin.subset hc) hletter
  · rintro ⟨x, hx, hinfinite⟩
    refine ⟨floatText x, ?_, hnames x hx hinfinite⟩
    cases x with
    | nan => decide
    | infinite s => cases s <;> decide
    | finite s m e => cases hinfinite

end Json

end ApiDoc
