import ApiDoc.Proofs.Yaml.Scanning

/-!
# Tokens of JSON texts

A JSON text is read as tokens from wherever it stands (`Scans`): words, strings, entries of objects,
and lists and objects by what they hold (`scans_brackets`). A string cannot be read if one of its
lines starts with the mark of a document. A key on several lines or a very long one is read, but not
known as a key: `keyTokens`.

Main statement: `scan_of_scans`, for a whole text.
-/

namespace ApiDoc.Yaml

namespace Scanner

variable {s s' : Scanner} {c : Char} {t tail rest : List Char}

/-! ## Keys -/

/-- A place for a key is dropped if it is too far back. -/
theorem currentKey_prune (s : Scanner) :
    s.prune.currentKey = s.currentKey.filter (!s.isStale ·) := by
  cases hkeys : s.keys with
  | nil => simp [currentKey, prune, hkeys]
  | cons k ks => simp [currentKey, prune, hkeys]

/-- A colon behind a place for a key makes a key of it. -/
theorem valueMark_of_some {p : KeyStart} (hflow : s.flow ≠ 0) (hp : s.currentKey = some p) :
    s.valueMark = .ok (({ s.setKey none with
      found := (p.id, false) :: s.found, allowKey := false }).forward.emit .value) := by
  have hflow : ((s.setKey none).flow == 0) = false := beq_eq_false_iff_ne.2 hflow
  rw [valueMark, hp]
  simp only [hflow]
  rfl

/-- A colon without a place for a key is a value without one. -/
theorem Calm.valueMark_of_none (h : Calm s) (hflow : s.flow ≠ 0) (hp : s.currentKey = none) :
    s.valueMark = .ok (({ s.setKey none with allowKey := false }).forward.emit .value) := by
  have hflow : (s.flow == 0) = false := beq_eq_false_iff_ne.2 hflow
  have hset : (s.setKey none).flow = s.flow := rfl
  rw [valueMark, hp]
  simp only [enterBlock, hflow, Bool.false_eq_true, if_false, bind, Except.bind, h.dropKey, hset]
  rfl

/-- A colon makes a key of the place on the current level, unless the place is too far back. -/
theorem Calm.reaches_colon (hs : Calm s) (hflow : s.flow ≠ 0) (hrest : s.rest = ':' :: tail)
    {p : KeyStart} (hp : s.currentKey = some p) :
    ∃ s', Reaches s s' ∧ Calm s' ∧ s'.rest = tail ∧ s'.flow = s.flow ∧
      s'.tokens = .value :: s.tokens ∧
      s'.found = if s.isStale p then s.found else (p.id, false) :: s.found := by
  have hvalue : ∀ id, Token.value ≠ .candidate id := fun _ heq => by cases heq
  have hnextRest : s.prune.prune.rest = ':' :: tail := hrest
  have hcalm := hs.prune.prune
  have hnext : ∀ n, s.rest.length < n → (toToken n s.prune).dropStale = .ok s.prune.prune := by
    intro n hn
    have hstart : ∀ c ∈ s.prune.rest.head?, startsToken c = true := by
      rw [show s.prune.rest = ':' :: tail from hrest]
      rintro c ⟨⟩
      decide
    obtain ⟨n, rfl⟩ := Nat.exists_eq_add_of_lt hn
    rw [toToken_eq_self hstart, hs.prune.dropStale]
  have hreaches : ∀ s', s.prune.prune.valueMark = .ok s' → s'.rest = tail → Reaches s s' := by
    intro s' hmark hrest'
    refine hs.reaches_of_step hcalm hnext (by simp [hnextRest]) (fun n _ => ?_) ?_
    · rw [step_colon hnextRest hflow, hmark]
    · rw [hrest', hrest]
      exact Nat.lt_succ_self _
  -- dropping stale places twice drops no more than once
  have hkey : s.prune.prune.currentKey = if s.isStale p then none else some p := by
    have hsame : s.prune.isStale p = s.isStale p := rfl
    rw [currentKey_prune, currentKey_prune, hp]
    cases hstale : s.isStale p <;> simp [hstale, hsame]
  have hid : p.id < s.nextId := by
    refine (hs.places s.currentKey ?_ p hp).2
    rw [hs.keys_eq]
    exact List.mem_cons_self
  have hset : Calm (s.prune.prune.setKey none) := hcalm.setKey fun _ hp => by cases hp
  -- a place that is too far back is lost, and the value has no key then
  cases hstale : s.isStale p with
  | true =>
    rw [hstale] at hkey
    have hcalm' : Calm { s.prune.prune.setKey none with allowKey := false } :=
      ⟨hset.indent, hset.indents, hset.levels, hset.places, hset.tokens, hset.found⟩
    obtain ⟨hbehind, hflow', -⟩ := hcalm'.behind_forward hnextRest hvalue
    have hmark := hcalm.valueMark_of_none hflow hkey
    refine ⟨_, hreaches _ hmark hbehind.rest, hbehind.calm, hbehind.rest, hflow', ?_, ?_⟩
    · exact congrArg (Token.value :: ·) (forward_tokens _).1
    · exact (forward_tokens _).2
  | false =>
    rw [hstale] at hkey
    have hcalm' : Calm { s.prune.prune.setKey none with
        found := (p.id, false) :: s.found, allowKey := false } := by
      refine ⟨hset.indent, hset.indents, hset.levels, hset.places, hset.tokens, ?_⟩
      exact List.forall_mem_cons.2 ⟨hid, hset.found⟩
    obtain ⟨hbehind, hflow', -⟩ := hcalm'.behind_forward hnextRest hvalue
    have hmark := valueMark_of_some (s := s.prune.prune) hflow hkey
    refine ⟨_, hreaches _ hmark hbehind.rest, hbehind.calm, hbehind.rest, hflow', ?_, ?_⟩
    · exact congrArg (Token.value :: ·) (forward_tokens _).1
    · exact (forward_tokens _).2

/-- Whether a text can be the key of an object: on one line, and with its quotation marks no longer
than 1024 characters. -/
def fitsKey (key : String) : Bool :=
  decide ((Json.stringText key).length ≤ 1024) && key.toList.all (!isRawBreak ·)

/-- The tokens of a key and its colon. A key that does not fit lacks the token for keys. -/
def keyTokens (key : String) : List Token :=
  (if fitsKey key then [.key] else []) ++
    [.scalar (String.ofList (quotedContent key)) false, .value]

/-- A key on one line keeps the line, and one on several lines does not. -/
theorem isStale_eq {key : String} {p : KeyStart}
    (hindex : s.index = p.index + (Json.stringText key).length)
    (hsame : (∀ c ∈ Json.stringText key, isBreak c = false) → s.line = p.line)
    (hnext : (∃ c ∈ Json.stringText key, isRawBreak c = true) → p.line < s.line) :
    s.isStale p = !fitsKey key := by
  -- every line break in the written key is a character of the key, since the others are escaped
  have hline : (p.line != s.line) = !key.toList.all (!isRawBreak ·) := by
    cases hall : key.toList.all (!isRawBreak ·) with
    | true =>
      have hnone : ∀ c ∈ Json.stringText key, isBreak c = false := by
        intro c hc
        rcases of_mem_stringText hc with ⟨hmem, hcontrol⟩ | hprintable
        · rw [isBreak_of_not_control hcontrol]
          simpa using List.all_eq_true.1 hall c hmem
        · exact isBreak_of_isAsciiText hprintable
      simp [hsame hnone]
    | false =>
      obtain ⟨c, hc, hraw⟩ := List.all_eq_false.1 hall
      have hraw : isRawBreak c = true := by simpa using hraw
      have hself : Json.escapeChar c = [c] := by
        rcases escape_or_self c with ⟨⟨-, hnot⟩, -⟩ | ⟨-, -, -, heq⟩
        · rw [hnot] at hraw
          cases hraw
        · exact heq
      have hlt := hnext ⟨c, mem_stringText hc hself, hraw⟩
      simpa using Nat.ne_of_lt hlt
  -- the limit is on characters as written, not on those of the key
  have hlength : decide (p.index + 1024 < s.index) =
      !decide ((Json.stringText key).length ≤ 1024) := by
    rw [hindex, ← decide_not]
    exact decide_eq_decide.2 (by omega)
  rw [isStale, hline, hlength, fitsKey, Bool.not_and, Bool.or_comm]

/-- A string is shorter than the text that it is read from. -/
theorem length_lt_of_skipGap {str : String} (hrest : skipGap s.rest = Json.stringText str ++ tail) :
    str.toList.length < s.rest.length ∧ tail.length < s.rest.length := by
  have hgap : (skipGap s.rest).length ≤ s.rest.length := (s.rest.dropWhile_sublist _).length_le
  have hstring := length_lt_inQuotes str.toList tail
  rw [hrest] at hgap
  have hpos : 0 < (Json.stringText str).length := Nat.succ_pos _
  have htail : (Json.stringText str ++ tail).length = (inQuotes str.toList tail).length + 1 := by
    rw [stringText_append]
    rfl
  rw [List.length_append] at hgap htail
  omega

/-- A key of an object with its colon. -/
theorem Calm.reaches_key (hs : Calm s) (hflow : s.flow ≠ 0) (hallow : s.allowKey = true)
    {key : String} (hkey : hasMarkLine key.toList = false)
    (hrest : skipGap s.rest = Json.stringText key ++ ':' :: tail) :
    ∃ s', Reaches s s' ∧ Behind s tail (keyTokens key) s' ∧ s'.flow = s.flow := by
  have hquote : skipGap s.rest = '"' :: inQuotes key.toList (':' :: tail) :=
    hrest.trans (stringText_append key _)
  obtain ⟨hfuel, hlength⟩ := length_lt_of_skipGap hrest
  have hread : ∀ n, s.rest.length < n → doubleQuoted n (inQuotes key.toList (':' :: tail)) =
      .ok (quotedContent key, ':' :: tail) :=
    fun n hn => doubleQuoted_of_not_hasMarkLine hkey (Nat.lt_trans hfuel hn) _
  rw [keyTokens]
  generalize quotedContent key = content at hread ⊢
  obtain ⟨next, hahead, hnext⟩ := hs.exists_ahead (by simp [hquote, startsToken, isBreak])
  have hcalm := hahead.calm
  have hrest' : next.rest = '"' :: inQuotes key.toList (':' :: tail) := hahead.rest.trans hquote
  obtain ⟨line, column, htext, hsame, hbreak⟩ := quotedText_stringText content
    (hcalm.saveKey_of_allowKey (hahead.allow hallow)) (hahead.rest.trans hrest)
  have hscalar : ∀ id, Token.scalar (String.ofList content) false ≠ .candidate id :=
    fun _ heq => by cases heq
  have hvalue : ∀ id, Token.value ≠ .candidate id := fun _ heq => by cases heq
  -- first to the colon, with the place of the key still open
  generalize hs₁ : ({ next.withPlace with allowKey := false }.placed (':' :: tail)
    (next.withPlace.index + (Json.stringText key).length) line column).emit
    (.scalar (String.ofList content) false) = s₁ at htext
  have hreaches : Reaches s s₁ := by
    refine hs.reaches_of_step hcalm hnext (by simp [hrest']) (fun n hn => ?_) ?_
    · rw [step_quote hrest', htext _ (hread n hn)]
    · rw [← hs₁]
      exact hlength
  have hcalm₁ : Calm s₁ := by
    have hplace := hcalm.withPlace
    rw [← hs₁]
    refine Calm.emit ?_ hscalar
    exact ⟨hplace.indent, hplace.indents, hplace.levels, hplace.places, hplace.tokens,
      hplace.found⟩
  have hflow₁ : s₁.flow = s.flow := by
    rw [← hs₁]
    exact hahead.flow
  have hrest₁ : s₁.rest = ':' :: tail := by
    rw [← hs₁]
    rfl
  have hkey₁ : s₁.currentKey = some ⟨next.nextId, false, next.index, next.line, next.column⟩ := by
    rw [← hs₁]
    rfl
  have hstale : s₁.isStale ⟨next.nextId, false, next.index, next.line, next.column⟩ =
      !fitsKey key := by
    rw [← hs₁]
    exact isStale_eq rfl hsame hbreak
  have htokens₁ : s₁.tokens =
      .scalar (String.ofList content) false :: .candidate next.nextId :: next.tokens := by
    rw [← hs₁]
    rfl
  have hfound₁ : s₁.found = next.found := by
    rw [← hs₁]
    rfl
  -- then over the colon, which settles whether the place is a key
  obtain ⟨s', hreaches', hcalm', hrest'', hflow', htokens, hfound⟩ :=
    hcalm₁.reaches_colon (hflow₁ ▸ hflow) hrest₁ hkey₁
  refine ⟨s', hreaches.trans hreaches', ⟨hcalm', hrest'', ?_⟩, hflow'.trans hflow₁⟩
  rw [result_eq_resolve, htokens, htokens₁, hfound, hstale, hfound₁, resolve_cons hvalue,
    resolve_cons hscalar, ← hahead.result]
  cases fitsKey key with
  | true =>
    have hfresh : .candidate next.nextId ∉ next.tokens :=
      fun hmem => Nat.lt_irrefl _ (hcalm.tokens _ hmem)
    simp only [Bool.not_true, Bool.false_eq_true, if_false, if_true, resolve_cons_of_found,
      resolve_found hfresh, result_eq_resolve, List.append_assoc, List.cons_append, List.nil_append]
  | false =>
    have hfresh : ∀ e ∈ next.found, e.1 ≠ next.nextId := fun e he => Nat.ne_of_lt (hcalm.found e he)
    simp only [Bool.not_false, if_true, Bool.false_eq_true, if_false,
      resolve_cons_of_unfound hfresh, result_eq_resolve, List.append_assoc, List.cons_append,
      List.nil_append]

/-! ## Texts wherever they stand -/

/-- A text that is read as its tokens from any state that satisfies a condition, or a text that
cannot be read; `good` tells which one it is. -/
structure Scans (needs : Scanner → Prop) (t : List Char) (tokens : List Token) (good : Bool) :
    Prop where
  start : ∃ c rest, t = c :: rest ∧ (isAsciiText c && c != ' ') = true
  reaches : ∀ {s tail}, Calm s → needs s → skipGap s.rest = t ++ tail → Follow s.flow tail →
    good = true → ∃ s', Reaches s s' ∧ Calm s' ∧ s'.flow = s.flow ∧
      skipGap s'.rest = skipGap tail ∧ s'.result = s.result ++ tokens
  fails : ∀ {s tail}, Calm s → needs s → skipGap s.rest = t ++ tail → good = false → Fails s

/-- A value is read from any state. -/
def Anywhere (_ : Scanner) : Prop := True

/-- An entry of an object is read where a key may start. -/
def AtEntry (s : Scanner) : Prop := s.flow ≠ 0 ∧ s.allowKey = true

variable {needs : Scanner → Prop} {tokens : List Token} {good : Bool}

/-- A text that is read as tokens starts with no gap. -/
theorem Scans.skipGap_append (h : Scans needs t tokens good) (tail : List Char) :
    skipGap (t ++ tail) = t ++ tail := by
  obtain ⟨c, rest, rfl, hc⟩ := h.start
  rw [Bool.and_eq_true, bne_iff_ne] at hc
  have hbreak : c ≠ '\n' := by
    rintro rfl
    exact absurd hc.1 (by decide)
  exact List.dropWhile_cons_of_neg (by simp [hc.2, hbreak])

/-- What is read anywhere is read where a key may start. -/
theorem Scans.atEntry (h : Scans Anywhere t tokens good) : Scans AtEntry t tokens good :=
  ⟨h.start, fun hs _ => h.reaches hs trivial, fun hs _ => h.fails hs trivial⟩

/-- A word is read as one plain scalar. -/
theorem scans_word (h : IsWord t) : Scans Anywhere t [.scalar (String.ofList t) true] true := by
  have hhead : ∃ c rest, t = c :: rest ∧ (isAsciiText c && c != ' ') = true ∧
      startsToken c = true := by
    have hall : "aeflnrstu0123456789+-.".toList.all (fun c =>
      (isAsciiText c && c != ' ') && startsToken c) = true := by decide
    obtain ⟨c, rest, -, hstart⟩ := h.start
    have hne : t ≠ [] := by rcases hstart with rfl | rfl <;> exact List.cons_ne_nil _ _
    obtain ⟨c, rest, rfl⟩ := List.exists_cons_of_ne_nil hne
    have htest := h.all hall c List.mem_cons_self
    exact ⟨c, rest, rfl, Bool.and_eq_true_iff.1 htest⟩
  obtain ⟨c, rest, hcons, hgap, hstart⟩ := hhead
  refine ⟨⟨c, rest, hcons, hgap⟩, fun {s tail} hs _ hrest hfollow _ => ?_,
    fun _ _ _ hgood => by cases hgood⟩
  have hrest' : skipGap s.rest = c :: (rest ++ tail) := by rw [hrest, hcons]; rfl
  refine hs.exists_reaches hrest' hstart fun next hahead hnext => ?_
  have hnext : next.rest = t ++ tail := hahead.rest.trans hrest
  obtain ⟨s', rest', hplain, hlength, hgap', hbehind, hflow⟩ :=
    hahead.calm.exists_plainText h hnext (hahead.flow ▸ hfollow)
  refine ⟨s', fun n hn => ?_, ?_, hbehind.calm, hflow.trans hahead.flow, ?_, ?_⟩
  · obtain ⟨n, rfl⟩ := Nat.exists_eq_add_of_lt hn
    rw [step_word h hnext, hplain]
  · rw [hbehind.rest, List.length_cons, List.length_append]
    omega
  · rw [hbehind.rest, hgap']
  · rw [hbehind.result, hahead.result]

/-- A string is read unless one of its lines starts with the mark of a document. -/
theorem scans_string (str : String) :
    Scans Anywhere (Json.stringText str) [.scalar (String.ofList (quotedContent str)) false]
      (!hasMarkLine str.toList) := by
  have hquote : ∀ {s : Scanner} {tail}, skipGap s.rest = Json.stringText str ++ tail →
      skipGap s.rest = '"' :: inQuotes str.toList tail :=
    fun hrest => hrest.trans (stringText_append str _)
  refine ⟨⟨'"', _, rfl, rfl⟩, fun {s tail} hs _ hrest _ hgood => ?_,
    fun {s tail} hs _ hrest hgood => ?_⟩
  · obtain ⟨hfuel, hlength⟩ := length_lt_of_skipGap hrest
    refine hs.exists_reaches (hquote hrest) (by decide) fun next hahead hnext => ?_
    obtain ⟨s', htext, hbehind, hflow⟩ :=
      hahead.calm.exists_quotedText (quotedContent str) (hahead.rest.trans hrest)
    have hread : ∀ n, s.rest.length < n →
        doubleQuoted n (inQuotes str.toList tail) = .ok (quotedContent str, tail) :=
      fun n hn => doubleQuoted_of_not_hasMarkLine (by simpa using hgood) (Nat.lt_trans hfuel hn) _
    refine ⟨s', fun n hn => ?_, ?_, hbehind.calm, hflow.trans hahead.flow, ?_, ?_⟩
    · rw [step_quote hnext, htext _ (hread n hn)]
    · rw [hbehind.rest]
      exact Nat.lt_succ_of_lt (by simp [inQuotes]; omega)
    · rw [hbehind.rest]
    · rw [hbehind.result, hahead.result]
  · obtain ⟨hfuel, -⟩ := length_lt_of_skipGap hrest
    obtain ⟨next, hahead, hnext⟩ := hs.exists_ahead (by simp [hquote hrest, startsToken, isBreak])
    have hrest' : next.rest = '"' :: inQuotes str.toList tail := hahead.rest.trans (hquote hrest)
    refine hs.fails_of_step hahead.calm hnext (by simp [hrest']) fun n hn => ?_
    obtain ⟨s₁, hsave, -, -, -, hrest₁⟩ := hahead.calm.exists_saveKey
    have hread := doubleQuoted_of_hasMarkLine (by simpa using hgood) (Nat.lt_trans hfuel hn) tail
    rw [step_quote hrest', quotedText, hsave]
    simp only [bind, Except.bind]
    rw [hrest₁, hrest', List.tail_cons, hread]

/-- An entry of an object is read if its key and its value are. -/
theorem scans_entry (key : String) (h : Scans Anywhere t tokens good) :
    Scans AtEntry (Json.stringText key ++ ':' :: ' ' :: t) (keyTokens key ++ tokens)
      (!hasMarkLine key.toList && good) := by
  have hsplit : ∀ tail, (Json.stringText key ++ ':' :: ' ' :: t) ++ tail =
      Json.stringText key ++ ':' :: ' ' :: (t ++ tail) := by simp
  have hgap : ∀ tail, skipGap (' ' :: (t ++ tail)) = t ++ tail := fun tail => h.skipGap_append tail
  refine ⟨⟨'"', _, rfl, rfl⟩, fun {s tail} hs hentry hrest hfollow hgood => ?_,
    fun {s tail} hs hentry hrest hgood => ?_⟩
  · rw [Bool.and_eq_true, Bool.not_eq_true'] at hgood
    rw [hsplit] at hrest
    obtain ⟨s₁, hreaches, hbehind, hflow⟩ := hs.reaches_key hentry.1 hentry.2 hgood.1 hrest
    have hrest₁ : skipGap s₁.rest = t ++ tail := by rw [hbehind.rest, hgap]
    obtain ⟨s', hreaches', hcalm, hflow', hrest', hresult⟩ :=
      h.reaches hbehind.calm trivial hrest₁ (hflow ▸ hfollow) hgood.2
    refine ⟨s', hreaches.trans hreaches', hcalm, hflow'.trans hflow, hrest', ?_⟩
    rw [hresult, hbehind.result, List.append_assoc]
  · rw [hsplit] at hrest
    cases hkey : hasMarkLine key.toList with
    | true => exact (scans_string key).fails hs trivial hrest (by rw [hkey]; rfl)
    | false =>
      rw [hkey] at hgood
      obtain ⟨s₁, hreaches, hbehind, hflow⟩ := hs.reaches_key hentry.1 hentry.2 hkey hrest
      have hrest₁ : skipGap s₁.rest = t ++ tail := by rw [hbehind.rest, hgap]
      exact hreaches.fails (h.fails hbehind.calm trivial hrest₁ hgood)

/-! ## Lists and objects -/

/-- An item of a list or an entry of an object: its text, its tokens, and whether it can be read. -/
structure Piece where
  text : List Char
  tokens : List Token
  good : Bool

/-- The text of pieces behind a first one. -/
def piecesText (depth : Nat) (pieces : List Piece) : List Char :=
  pieces.flatMap fun p => ',' :: (Json.newline depth ++ p.text)

/-- The tokens of pieces behind a first one. -/
def piecesTokens (pieces : List Piece) : List Token :=
  pieces.flatMap fun p => .flowEntry :: p.tokens

/-- The characters and tokens that stand around a list or an object. -/
inductive IsBrackets : Char → Char → Token → Token → Prop where
  | list : IsBrackets '[' ']' .flowSequenceStart .flowSequenceEnd
  | object : IsBrackets '\x7b' '\x7d' .flowMappingStart .flowMappingEnd

/-- Behind a piece come further ones, or the end of the list or object. -/
theorem follow_piecesText {flow : Nat} (hflow : flow ≠ 0) {close : Char}
    (hclose : close = ']' ∨ close = '\x7d') (pieces : List Piece) (depth d : Nat)
    (tail : List Char) :
    Follow flow (piecesText depth pieces ++ (Json.newline d ++ close :: tail)) := by
  have hflow' : (flow != 0) = true := by simpa using hflow
  cases pieces with
  | nil =>
    refine .inr ⟨d, close :: tail, rfl, fun c hc => ?_, ?_⟩
    · cases hc
      exact hclose
    · rw [hflow']
      rcases hclose with rfl | rfl <;> rfl
  | cons p pieces => exact .inl ⟨hflow, _, rfl⟩

/-- The pieces behind a first one, up to the end of the list or object. -/
theorem Calm.reaches_pieces {pieces : List Piece}
    (h : ∀ p ∈ pieces, Scans AtEntry p.text p.tokens p.good) {close : Char}
    (hclose : close = ']' ∨ close = '\x7d') {depth d : Nat} (hs : Calm s) (hflow : s.flow ≠ 0)
    (hrest : skipGap s.rest =
      skipGap (piecesText depth pieces ++ (Json.newline d ++ close :: tail))) :
    (pieces.all Piece.good = true → ∃ s', Reaches s s' ∧ Calm s' ∧ s'.flow = s.flow ∧
      skipGap s'.rest = close :: tail ∧ s'.result = s.result ++ piecesTokens pieces) ∧
    (pieces.all Piece.good = false → Fails s) := by
  induction pieces generalizing s with
  | nil =>
    refine ⟨fun _ => ⟨s, .refl s, hs, rfl, ?_, by simp [piecesTokens]⟩, fun hbad => by cases hbad⟩
    rw [hrest, piecesText, List.flatMap_nil, List.nil_append, skipGap_newline]
    rcases hclose with rfl | rfl <;> rfl
  | cons p pieces ih =>
    obtain ⟨hp, hpieces⟩ := List.forall_mem_cons.1 h
    have htext : piecesText depth (p :: pieces) ++ (Json.newline d ++ close :: tail) =
        ',' :: (Json.newline depth ++
          (p.text ++ (piecesText depth pieces ++ (Json.newline d ++ close :: tail)))) := by
      simp [piecesText]
    have hcomma : ∀ rest : List Char, skipGap (',' :: rest) = ',' :: rest := fun _ => rfl
    rw [htext, hcomma] at hrest
    -- first the comma, then the piece, then the others by induction
    obtain ⟨s₁, hreaches, hbehind, hflow₁, hallow⟩ : ∃ s₁, Reaches s s₁ ∧
        Behind s (Json.newline depth ++
          (p.text ++ (piecesText depth pieces ++ (Json.newline d ++ close :: tail))))
          [.flowEntry] s₁ ∧ s₁.flow = s.flow ∧ s₁.allowKey = true := by
      refine hs.exists_reaches hrest (by decide) fun next hahead hnext => ?_
      obtain ⟨s₁, hentry, hbehind, hflow₁, hallow⟩ := hahead.calm.exists_flowEntry hnext
      refine ⟨s₁, fun n _ => (step_comma hnext n).trans hentry, ?_,
        ⟨hbehind.calm, hbehind.rest, ?_⟩, hflow₁.trans hahead.flow, hallow⟩
      · rw [hbehind.rest]
        exact Nat.lt_succ_self _
      · rw [hbehind.result, hahead.result]
    have hrest₁ : skipGap s₁.rest =
        p.text ++ (piecesText depth pieces ++ (Json.newline d ++ close :: tail)) := by
      rw [hbehind.rest, skipGap_newline, hp.skipGap_append]
    have hentry : AtEntry s₁ := ⟨hflow₁ ▸ hflow, hallow⟩
    have hfollow := follow_piecesText hentry.1 hclose pieces depth d tail
    rw [List.all_cons]
    cases hgood : p.good with
    | false =>
      exact ⟨fun hall => (by cases hall),
        fun _ => hreaches.fails (hp.fails hbehind.calm hentry hrest₁ hgood)⟩
    | true =>
      obtain ⟨s₂, hreaches₂, hcalm₂, hflow₂, hrest₂, hresult₂⟩ :=
        hp.reaches hbehind.calm hentry hrest₁ hfollow hgood
      obtain ⟨hall, hbad⟩ := ih hpieces hcalm₂ (by rw [hflow₂, hflow₁]; exact hflow) hrest₂
      refine ⟨fun hgood' => ?_, fun hgood' => ?_⟩
      · obtain ⟨s', hreaches', hcalm', hflow', hrest', hresult'⟩ := hall hgood'
        refine ⟨s', hreaches.trans (hreaches₂.trans hreaches'), hcalm', ?_, hrest', ?_⟩
        · rw [hflow', hflow₂, hflow₁]
        · rw [hresult', hresult₂, hbehind.result]
          simp [piecesTokens]
      · exact hreaches.fails (hreaches₂.fails (hbad hgood'))

variable {left right : Char} {opening closing : Token}

/-- An opening bracket is read, and the state behind it is one level deeper. -/
theorem Calm.reaches_open (hb : IsBrackets left right opening closing) (hs : Calm s)
    (hrest : skipGap s.rest = left :: rest) :
    ∃ s', Reaches s s' ∧ Behind s rest [opening] s' ∧ s'.flow = s.flow + 1 ∧
      s'.allowKey = true := by
  have hstart : startsToken left = true := by cases hb <;> decide
  have htoken : ∀ id, opening ≠ .candidate id := by cases hb <;> exact fun _ heq => by cases heq
  refine hs.exists_reaches hrest hstart fun next hahead hnext => ?_
  have hstep : ∀ n, next.step n = next.flowStart opening := fun n => by
    cases hb with
    | list => exact (step_brackets n).1 hnext
    | object => exact (step_brackets n).2.1 hnext
  obtain ⟨s', hopen, hbehind, hflow, hallow⟩ := hahead.calm.exists_flowStart hnext htoken
  refine ⟨s', fun n _ => (hstep n).trans hopen, ?_, ⟨hbehind.calm, hbehind.rest, ?_⟩, ?_, hallow⟩
  · rw [hbehind.rest]
    exact Nat.lt_succ_self _
  · rw [hbehind.result, hahead.result]
  · rw [hflow, hahead.flow]

/-- A closing bracket is read, and the state behind it is one level higher. -/
theorem Calm.reaches_close (hb : IsBrackets left right opening closing) (hs : Calm s)
    (hflow : s.flow ≠ 0) (hrest : skipGap s.rest = right :: rest) :
    ∃ s', Reaches s s' ∧ Behind s rest [closing] s' ∧ s'.flow + 1 = s.flow := by
  have hstart : startsToken right = true := by cases hb <;> decide
  have htoken : ∀ id, closing ≠ .candidate id := by cases hb <;> exact fun _ heq => by cases heq
  refine hs.exists_reaches hrest hstart fun next hahead hnext => ?_
  have hstep : ∀ n, next.step n = next.flowEnd closing := fun n => by
    cases hb with
    | list => exact (step_brackets n).2.2.1 hnext
    | object => exact (step_brackets n).2.2.2 hnext
  obtain ⟨s', hclose, hbehind, hflow'⟩ :=
    hahead.calm.exists_flowEnd (hahead.flow ▸ hflow) hnext htoken
  refine ⟨s', fun n _ => (hstep n).trans hclose, ?_, ⟨hbehind.calm, hbehind.rest, ?_⟩, ?_⟩
  · rw [hbehind.rest]
    exact Nat.lt_succ_self _
  · rw [hbehind.result, hahead.result]
  · rw [hflow', hahead.flow]

/-- An empty list or object is read. -/
theorem scans_empty (hb : IsBrackets left right opening closing) :
    Scans Anywhere [left, right] [opening, closing] true := by
  have hleft : (isAsciiText left && left != ' ') = true := by cases hb <;> decide
  have hright : ∀ tail, skipGap (right :: tail) = right :: tail := by
    cases hb <;> exact fun _ => rfl
  refine ⟨⟨left, _, rfl, hleft⟩, fun {s tail} hs _ hrest _ _ => ?_, fun _ _ _ hbad => by cases hbad⟩
  obtain ⟨s₁, hreaches₁, hbehind₁, hflow₁, -⟩ := hs.reaches_open hb hrest
  have hrest₁ : skipGap s₁.rest = right :: tail := by rw [hbehind₁.rest]; exact hright tail
  obtain ⟨s', hreaches', hbehind', hflow'⟩ :=
    hbehind₁.calm.reaches_close hb (by rw [hflow₁]; exact Nat.succ_ne_zero _) hrest₁
  refine ⟨s', hreaches₁.trans hreaches', hbehind'.calm, by omega, by rw [hbehind'.rest], ?_⟩
  rw [hbehind'.result, hbehind₁.result, List.append_assoc]
  rfl

/-- A list or an object is read if all that it holds is. -/
theorem scans_brackets (hb : IsBrackets left right opening closing) (p : Piece)
    (pieces : List Piece) (h : ∀ q ∈ p :: pieces, Scans AtEntry q.text q.tokens q.good)
    (depth : Nat) :
    Scans Anywhere
      (left :: (Json.newline (depth + 1) ++ p.text ++ piecesText (depth + 1) pieces ++
        Json.newline depth ++ [right]))
      (opening :: (p.tokens ++ piecesTokens pieces ++ [closing]))
      ((p :: pieces).all Piece.good) := by
  obtain ⟨hp, hpieces⟩ := List.forall_mem_cons.1 h
  have hleft : (isAsciiText left && left != ' ') = true := by cases hb <;> decide
  have hright : right = ']' ∨ right = '\x7d' := by cases hb <;> decide
  -- both parts start alike: the opening bracket is read, and a piece comes next
  have hinside : ∀ {s : Scanner} {tail : List Char}, Calm s → skipGap s.rest =
      (left :: (Json.newline (depth + 1) ++ p.text ++ piecesText (depth + 1) pieces ++
        Json.newline depth ++ [right])) ++ tail →
      ∃ s₁, Reaches s s₁ ∧ Calm s₁ ∧ AtEntry s₁ ∧ s₁.flow = s.flow + 1 ∧
        s₁.result = s.result ++ [opening] ∧ skipGap s₁.rest =
          p.text ++ (piecesText (depth + 1) pieces ++ (Json.newline depth ++ right :: tail)) := by
    intro s tail hs hrest
    have hrest : skipGap s.rest = left :: (Json.newline (depth + 1) ++
        (p.text ++ (piecesText (depth + 1) pieces ++ (Json.newline depth ++ right :: tail)))) := by
      simpa using hrest
    obtain ⟨s₁, hreaches, hbehind, hflow, hallow⟩ := hs.reaches_open hb hrest
    refine ⟨s₁, hreaches, hbehind.calm, ⟨by rw [hflow]; exact Nat.succ_ne_zero _, hallow⟩, hflow,
      hbehind.result, ?_⟩
    rw [hbehind.rest, skipGap_newline, hp.skipGap_append]
  refine ⟨⟨left, _, rfl, hleft⟩, fun {s tail} hs _ hrest _ hgood => ?_,
    fun {s tail} hs _ hrest hbad => ?_⟩
  · rw [List.all_cons, Bool.and_eq_true] at hgood
    obtain ⟨s₁, hreaches₁, hcalm₁, hentry, hflow₁, hresult₁, hrest₁⟩ := hinside hs hrest
    have hfollow := follow_piecesText hentry.1 hright pieces (depth + 1) depth tail
    obtain ⟨s₂, hreaches₂, hcalm₂, hflow₂, hrest₂, hresult₂⟩ :=
      hp.reaches hcalm₁ hentry hrest₁ hfollow hgood.1
    have hne₂ : s₂.flow ≠ 0 := by rw [hflow₂]; exact hentry.1
    obtain ⟨s₃, hreaches₃, hcalm₃, hflow₃, hrest₃, hresult₃⟩ :=
      (hcalm₂.reaches_pieces hpieces hright hne₂ hrest₂).1 hgood.2
    obtain ⟨s', hreaches', hbehind', hflow'⟩ :=
      hcalm₃.reaches_close hb (by rw [hflow₃]; exact hne₂) hrest₃
    refine ⟨s', hreaches₁.trans (hreaches₂.trans (hreaches₃.trans hreaches')), hbehind'.calm,
      by omega, by rw [hbehind'.rest], ?_⟩
    rw [hbehind'.result, hresult₃, hresult₂, hresult₁]
    simp
  · obtain ⟨s₁, hreaches₁, hcalm₁, hentry, -, -, hrest₁⟩ := hinside hs hrest
    cases hgood : p.good with
    | false => exact hreaches₁.fails (hp.fails hcalm₁ hentry hrest₁ hgood)
    | true =>
      rw [List.all_cons, hgood, Bool.true_and] at hbad
      have hfollow := follow_piecesText hentry.1 hright pieces (depth + 1) depth tail
      obtain ⟨s₂, hreaches₂, hcalm₂, hflow₂, hrest₂, -⟩ :=
        hp.reaches hcalm₁ hentry hrest₁ hfollow hgood
      have hne₂ : s₂.flow ≠ 0 := by rw [hflow₂]; exact hentry.1
      exact hreaches₁.fails (hreaches₂.fails
        ((hcalm₂.reaches_pieces hpieces hright hne₂ hrest₂).2 hbad))

end Scanner

open Scanner

/-- A text of one line feed behind a text that is read wherever it stands. -/
theorem scan_of_scans {t : List Char} {tokens : List Token} {good : Bool}
    (h : Scans Anywhere t tokens good) (hallowed : (t ++ ['\n']).all isAllowed = true) :
    scan (t ++ ['\n']) = if good then .ok tokens else .error .malformed := by
  obtain ⟨c, rest, hcons, hc⟩ := h.start
  have hmark : (t ++ ['\n']).head?.any (·.toNat == 0xFEFF) = false := by
    rw [isAsciiText, Bool.and_eq_true, Bool.and_eq_true, decide_eq_true_eq, decide_eq_true_eq] at hc
    rw [hcons]
    exact beq_eq_false_iff_ne.2 (by omega)
  have hnot : (t ++ ['\n']).any (!isAllowed ·) = false := by
    simpa [List.any_eq_false] using hallowed
  have hcalm : Calm { rest := t ++ ['\n'] } := by
    refine ⟨rfl, rfl, rfl, ?_, fun id hid => absurd hid List.not_mem_nil,
      fun e he => absurd he List.not_mem_nil⟩
    exact List.forall_mem_singleton.2 fun _ hp => by cases hp
  have hrest : skipGap ({ rest := t ++ ['\n'] } : Scanner).rest = t ++ ['\n'] :=
    h.skipGap_append ['\n']
  -- the line feed at the end may follow any value, and nothing comes behind it
  have hfollow : Follow ({ rest := t ++ ['\n'] } : Scanner).flow ['\n'] :=
    .inr ⟨0, [], rfl, fun c hc => absurd hc (Option.not_mem_none c), rfl⟩
  have hscan : scan (t ++ ['\n']) =
      (run ((t ++ ['\n']).length + 2) { rest := t ++ ['\n'] }).map result := by
    rw [scan, hnot, hmark]
    rfl
  rw [hscan]
  cases good with
  | true =>
    obtain ⟨s', hreaches, hcalm', -, hrest', hresult⟩ := h.reaches hcalm trivial hrest hfollow rfl
    obtain ⟨m, hm, hrun⟩ := hreaches _ (Nat.le_refl _)
    have hend : skipGap s'.rest = [] := hrest'
    obtain ⟨next, hahead, hnext⟩ := hcalm'.exists_ahead (by simp [hend])
    rw [hrun, hcalm'.run_of_empty hahead.calm hnext (hahead.rest.trans hend) (by omega)]
    have htokens : (next.setKey none).result = tokens := hahead.result.trans hresult
    exact congrArg Except.ok htokens
  | false =>
    rw [h.fails hcalm trivial hrest rfl _ (Nat.le_refl _)]
    rfl

end ApiDoc.Yaml
