import ApiDoc.Proofs.Yaml.Quoted
import ApiDoc.Proofs.Yaml.Words
import ApiDoc.Yaml.Scanner

/-!
# The scanner on JSON texts

How the scanner moves over the tokens that JSON texts are made of. In such a text no block is open
and no key is needed (`Calm`), so that a step of the scanner depends on little of its state. A place
for a key that is never found leaves no trace among the tokens, and what is found later does not
change what stands in front: `resolve_cons_of_unfound` and `resolve_found`.

`Reaches` relates two states if the run from one goes through the other, and `Fails` holds of a
state that the run does not get past. What a step does is told by the state in front of its token,
behind all spaces and line feeds: `Calm.exists_reaches`.
-/

namespace ApiDoc.Yaml

namespace Scanner

variable {s s' : Scanner} {c : Char} {t tail front rest : List Char}

/-! ## Tokens and places for keys -/

/-- Tokens, first one first, where a place that turned out to be a key has become one. -/
def resolve (found : List (Nat × Bool)) (tokens : List Token) : List Token :=
  ({ rest := [], found := found, tokens := tokens } : Scanner).result

/-- The result of a scan is its tokens with the keys that were found. -/
theorem result_eq_resolve (s : Scanner) : s.result = resolve s.found s.tokens := rfl

/-- A token that is no place for a key is kept. -/
theorem resolve_cons {found : List (Nat × Bool)} {t : Token} (ht : ∀ id, t ≠ .candidate id)
    (tokens : List Token) : resolve found (t :: tokens) = resolve found tokens ++ [t] := by
  rw [resolve, resolve, result, result, List.reverse_cons, List.flatMap_append]
  cases t with
  | candidate id => exact absurd rfl (ht id)
  | _ => rfl

/-- A place that is no key leaves no trace. -/
theorem resolve_cons_of_unfound {found : List (Nat × Bool)} {id : Nat}
    (hid : ∀ e ∈ found, e.1 ≠ id) (tokens : List Token) :
    resolve found (.candidate id :: tokens) = resolve found tokens := by
  have hnone : found.find? (·.1 == id) = none :=
    List.find?_eq_none.2 fun e he => by simpa using hid e he
  rw [resolve, resolve, result, result, List.reverse_cons, List.flatMap_append]
  simp [hnone]

/-- A place that turned out to be a key becomes one. -/
theorem resolve_cons_of_found (found : List (Nat × Bool)) (id : Nat) (tokens : List Token) :
    resolve ((id, false) :: found) (.candidate id :: tokens) =
      resolve ((id, false) :: found) tokens ++ [.key] := by
  have hfirst : ((id, false) :: found).find? (·.1 == id) = some (id, false) :=
    List.find?_cons_of_pos (beq_self_eq_true id)
  rw [resolve, resolve, result, result, List.reverse_cons, List.flatMap_append]
  simp [hfirst]

/-- A place that is found does not change the tokens without that place. -/
theorem resolve_found {id : Nat} {tokens : List Token} (hid : .candidate id ∉ tokens)
    (found : List (Nat × Bool)) (starts : Bool) :
    resolve ((id, starts) :: found) tokens = resolve found tokens := by
  rw [resolve, resolve, result, result]
  refine List.flatMap_congr fun t ht => ?_
  cases t with
  | candidate id' =>
    have hne : id ≠ id' := by
      rintro rfl
      exact hid (List.mem_reverse.1 ht)
    have hskip : ((id, starts) :: found).find? (·.1 == id') = found.find? (·.1 == id') :=
      List.find?_cons_of_neg (by simpa using hne)
    simp only [hskip]
  | _ => rfl

/-! ## Moving -/

/-- The scanner at another place of its text. -/
def placed (s : Scanner) (rest : List Char) (index line column : Nat) : Scanner :=
  { s with rest := rest, index := index, line := line, column := column }

/-- One character forward: the line goes on, or ends if the character breaks it. -/
theorem forward_cons (h : s.rest = c :: rest) :
    ∃ line column, s.forward = s.placed rest (s.index + 1) line column ∧
      s.line ≤ line ∧ (isBreak c = false → line = s.line) ∧
      (isRawBreak c = true → s.line < line) := by
  unfold forward
  rw [h]
  simp only
  split
  · next hbreak =>
    have hc : isBreak c = true := (Bool.and_eq_true_iff.1 hbreak).1
    refine ⟨_, _, rfl, Nat.le_succ _, fun hnot => ?_, fun _ => Nat.lt_succ_self _⟩
    rw [hc] at hnot
    cases hnot
  · next hbreak =>
    refine ⟨_, _, rfl, Nat.le_refl _, fun _ => rfl, fun hraw => absurd ?_ hbreak⟩
    have hreturn : (c == '\r') = false := by
      rw [beq_eq_false_iff_ne]
      rintro rfl
      exact absurd hraw (by decide)
    rw [isBreak_of_isRawBreak hraw, hreturn]
    rfl

/-- Going forward leaves the tokens. -/
theorem forward_tokens (s : Scanner) :
    s.forward.tokens = s.tokens ∧ s.forward.found = s.found := by
  cases hrest : s.rest with
  | nil =>
    rw [forward, hrest]
    exact ⟨rfl, rfl⟩
  | cons c rest =>
    obtain ⟨line, column, hforward, -⟩ := forward_cons hrest
    rw [hforward]
    exact ⟨rfl, rfl⟩

/-- Behind a text the scanner is on the same line unless the text has a line break. -/
theorem skip_append (h : s.rest = front ++ rest) :
    ∃ line column, skip front.length s = s.placed rest (s.index + front.length) line column ∧
      s.line ≤ line ∧ ((∀ c ∈ front, isBreak c = false) → line = s.line) ∧
      ((∃ c ∈ front, isRawBreak c = true) → s.line < line) := by
  induction front generalizing s with
  | nil =>
    refine ⟨s.line, s.column, ?_, Nat.le_refl _, fun _ => rfl, fun ⟨_, hc, _⟩ => by cases hc⟩
    rw [← List.nil_append rest, ← h]
    rfl
  | cons c front ih =>
    obtain ⟨line₁, column₁, hforward, hle₁, hsame₁, hnext₁⟩ := forward_cons h
    have hrest : (s.placed (front ++ rest) (s.index + 1) line₁ column₁).rest = front ++ rest := rfl
    obtain ⟨line, column, hskip, hle, hsame, hnext⟩ := ih hrest
    refine ⟨line, column, ?_, Nat.le_trans hle₁ hle, fun hnone => ?_, fun ⟨d, hd, hraw⟩ => ?_⟩
    · have hindex : s.index + (c :: front).length = s.index + 1 + front.length := by
        rw [List.length_cons]
        omega
      rw [hindex]
      exact (congrArg (skip front.length) hforward).trans hskip
    · obtain ⟨hc, hfront⟩ := List.forall_mem_cons.1 hnone
      exact (hsame hfront).trans (hsame₁ hc)
    · rcases List.mem_cons.1 hd with rfl | hd
      · exact Nat.lt_of_lt_of_le (hnext₁ hraw) hle
      · exact Nat.lt_of_le_of_lt hle₁ (hnext ⟨d, hd, hraw⟩)

/-- Moving behind a text is going forward over it. -/
theorem moveTo_append (h : s.rest = front ++ rest) : s.moveTo rest = skip front.length s := by
  rw [moveTo, h, List.length_append, Nat.add_sub_cancel]

/-- The text behind spaces and line feeds. -/
def skipGap (t : List Char) : List Char := t.dropWhile fun c => c == ' ' || c == '\n'

/-- A character that starts a token wherever it stands. -/
def startsToken (c : Char) : Bool := !(c == ' ' || c == '#' || isBreak c)

/-- At the start of a token there is nothing to skip. -/
theorem toToken_eq_self (h : ∀ c ∈ s.rest.head?, startsToken c = true) (n : Nat) :
    toToken (n + 1) s = s := by
  have hhead : ∀ c ∈ s.rest.head?, c ≠ ' ' ∧ c ≠ '#' ∧ isBreak c = false := by
    intro c hc
    simpa [startsToken, and_assoc] using h c hc
  have hspace : s.rest.takeWhile (· == ' ') = [] := by
    cases hrest : s.rest with
    | nil => rfl
    | cons c rest =>
      have hc := hhead c (by rw [hrest]; rfl)
      exact List.takeWhile_cons_of_neg (by simpa using hc.1)
  have hskip : s.skipWhile (· == ' ') = s := by
    rw [skipWhile, hspace]
    rfl
  have hcomment : (s.rest.head? == some '#') = false := by
    rw [beq_eq_false_iff_ne]
    exact fun heq => (hhead '#' heq).2.1 rfl
  have hbreak : s.rest.head?.any isBreak = false := by
    cases hrest : s.rest.head? with
    | none => rfl
    | some c => exact (hhead c hrest).2.2
  rw [toToken]
  simp only [hskip, hcomment, Bool.false_eq_true, if_false, hbreak]

/-- A space in front of a token is skipped. -/
theorem toToken_space (h : s.rest = ' ' :: rest) (n : Nat) :
    toToken (n + 1) s = toToken (n + 1) s.forward := by
  have hrest : s.forward.rest = rest := by
    obtain ⟨line, column, hforward, -⟩ := forward_cons h
    rw [hforward]
    rfl
  have hskip : s.skipWhile (· == ' ') = s.forward.skipWhile (· == ' ') := by
    rw [skipWhile, skipWhile, h, hrest]
    rfl
  rw [toToken, toToken, hskip]

/-- A line feed in front of a token is skipped. -/
theorem toToken_newline (h : s.rest = '\n' :: rest) (n : Nat) :
    toToken (n + 1) s =
      toToken n (if s.flow == 0 then { s.forward with allowKey := true } else s.forward) := by
  have hflow : s.forward.flow = s.flow := by
    obtain ⟨line, column, hforward, -⟩ := forward_cons h
    rw [hforward]
    rfl
  have hskip : s.skipWhile (· == ' ') = s := by
    rw [skipWhile, h]
    rfl
  have hcomment : (s.rest.head? == some '#') = false := by
    rw [h]
    rfl
  have hbreak : s.rest.head?.any isBreak = true := by
    rw [h]
    rfl
  rw [toToken]
  simp only [hskip, hcomment, Bool.false_eq_true, if_false, hbreak, if_true, hflow]

/-- The states that differ from a state in their place only, and in that a key may start. -/
def Moved (s s' : Scanner) : Prop :=
  ∃ rest index line column allow,
    s' = { s.placed rest index line column with allowKey := allow } ∧
      (s.allowKey = true → allow = true)

/-- A state that has not moved. -/
theorem Moved.refl (s : Scanner) : Moved s s := ⟨_, _, _, _, _, rfl, id⟩

/-- A state that has moved twice. -/
theorem Moved.trans {s'' : Scanner} (h : Moved s s') (h' : Moved s' s'') : Moved s s'' := by
  obtain ⟨_, _, _, _, _, rfl, hallow⟩ := h
  obtain ⟨_, _, _, _, _, rfl, hallow'⟩ := h'
  exact ⟨_, _, _, _, _, rfl, fun h => hallow' (hallow h)⟩

/-- One character forward is a move. -/
theorem moved_forward (h : s.rest = c :: rest) : Moved s s.forward ∧ s.forward.rest = rest := by
  obtain ⟨line, column, hforward, -⟩ := forward_cons h
  rw [hforward]
  exact ⟨⟨_, _, _, _, _, rfl, id⟩, rfl⟩

/-- The way to the next token takes the scanner over spaces and line feeds, however many lines it
may take. -/
theorem exists_toToken (h : ∀ c ∈ (skipGap s.rest).head?, startsToken c = true) :
    ∃ s', Moved s s' ∧ s'.rest = skipGap s.rest ∧ ∀ n, s.rest.length < n → toToken n s = s' := by
  -- spaces are skipped within one call, and each line feed takes one more
  induction hrest : s.rest generalizing s with
  | nil =>
    refine ⟨s, .refl s, hrest, fun n hn => ?_⟩
    obtain ⟨n, rfl⟩ := Nat.exists_eq_add_of_lt hn
    exact toToken_eq_self (by simp [hrest]) _
  | cons c rest ih =>
    rw [hrest] at h
    obtain ⟨hmoved, hforward⟩ := moved_forward hrest
    by_cases hspace : c = ' '
    · subst hspace
      obtain ⟨s', hmoved', hrest', htoken⟩ := ih (s := s.forward) (hforward ▸ h) hforward
      refine ⟨s', hmoved.trans hmoved', hrest', fun n hn => ?_⟩
      obtain ⟨n, rfl⟩ := Nat.exists_eq_add_of_lt hn
      rw [toToken_space hrest, htoken _ (by rw [List.length_cons]; omega)]
    by_cases hbreak : c = '\n'
    · subst hbreak
      have hallow :
          Moved s (if s.flow == 0 then { s.forward with allowKey := true } else s.forward) ∧
          (if s.flow == 0 then { s.forward with allowKey := true } else s.forward).rest = rest := by
        split
        · obtain ⟨_, _, _, _, _, heq, -⟩ := hmoved
          exact ⟨⟨_, _, _, _, true, by rw [heq], fun _ => rfl⟩, hforward⟩
        · exact ⟨hmoved, hforward⟩
      obtain ⟨s', hmoved', hrest', htoken⟩ := ih (hallow.2 ▸ h) hallow.2
      refine ⟨s', hallow.1.trans hmoved', hrest', fun n hn => ?_⟩
      obtain ⟨n, rfl⟩ := Nat.exists_eq_add_of_lt hn
      rw [toToken_newline hrest, htoken _ (by rw [List.length_cons]; omega)]
    · have hskip : skipGap (c :: rest) = c :: rest :=
        List.dropWhile_cons_of_neg (by simp [hspace, hbreak])
      rw [hskip] at h ⊢
      refine ⟨s, .refl s, hrest, fun n hn => ?_⟩
      obtain ⟨n, rfl⟩ := Nat.exists_eq_add_of_lt hn
      exact toToken_eq_self (by rw [hrest]; exact h) _

/-! ## States without open blocks -/

/-- A state where no block is open, no key is needed, and the places for keys have numbers of their
own. -/
structure Calm (s : Scanner) : Prop where
  indent : s.indent = -1
  indents : s.indents = []
  levels : s.keys.length = s.flow + 1
  places : ∀ k ∈ s.keys, ∀ p ∈ k, p.required = false ∧ p.id < s.nextId
  tokens : ∀ id, .candidate id ∈ s.tokens → id < s.nextId
  found : ∀ e ∈ s.found, e.1 < s.nextId

/-- A calm state stays calm when it moves. -/
theorem Calm.moved (h : Calm s) (hmoved : Moved s s') : Calm s' := by
  obtain ⟨_, _, _, _, _, rfl, -⟩ := hmoved
  exact ⟨h.indent, h.indents, h.levels, h.places, h.tokens, h.found⟩

/-- Whether a place is too far back for a key. -/
def isStale (s : Scanner) (p : KeyStart) : Bool :=
  p.line != s.line || decide (p.index + 1024 < s.index)

/-- The scanner without the places that are too far back. -/
def prune (s : Scanner) : Scanner :=
  { s with keys := s.keys.map (·.filter (!s.isStale ·)) }

/-- Where each step goes well all of them do. -/
theorem mapM_eq_ok_map {α β : Type} {f : α → Except Fault β} {g : α → β} {xs : List α}
    (h : ∀ x ∈ xs, f x = .ok (g x)) : xs.mapM f = .ok (xs.map g) := by
  induction xs with
  | nil => rfl
  | cons x xs ih =>
    obtain ⟨hx, hxs⟩ := List.forall_mem_cons.1 h
    rw [List.mapM_cons, hx, ih hxs]
    rfl

/-- In a calm state places that are too far back can be dropped. -/
theorem Calm.dropStale (h : Calm s) : s.dropStale = .ok s.prune := by
  rw [Scanner.dropStale, mapM_eq_ok_map (g := fun k => k.filter (!s.isStale ·))]
  · rfl
  · intro k hk
    cases k with
    | none => rfl
    | some p =>
      have hrequired := (h.places _ hk p rfl).1
      have hstale : (p.line != s.line || decide (s.index > p.index + 1024)) = s.isStale p := rfl
      rw [Option.filter_some]
      simp only [hstale, hrequired]
      cases s.isStale p <;> rfl

/-- A calm state stays calm without them. -/
theorem Calm.prune (h : Calm s) : Calm s.prune := by
  refine ⟨h.indent, h.indents, (List.length_map _).trans h.levels, ?_, h.tokens, h.found⟩
  intro k hk p hp
  obtain ⟨k', hk', rfl⟩ := List.mem_map.1 hk
  exact h.places k' hk' p (Option.mem_filter_iff.1 hp).1

/-- In a calm state there is no block to close. -/
theorem Calm.unwind (h : Calm s) (column : Int) : s.unwind column = s := by
  rw [Scanner.unwind, h.indents]
  exact ite_self _

/-- A calm state has a place for a key on its level, if only an empty one. -/
theorem Calm.keys_eq (h : Calm s) : s.keys = s.currentKey :: s.keys.tail := by
  have hne : s.keys ≠ [] := List.ne_nil_of_length_pos (by rw [h.levels]; omega)
  obtain ⟨k, ks, hks⟩ := List.exists_cons_of_ne_nil hne
  rw [currentKey, hks]
  rfl

/-- The scanner without the place on the current level. -/
theorem Calm.dropKey (h : Calm s) : s.dropKey = .ok (s.setKey none) := by
  have hkeys := h.keys_eq
  unfold Scanner.dropKey
  split
  · next p hp =>
    have hmem : s.currentKey ∈ s.keys := by
      rw [hkeys]
      exact List.mem_cons_self
    rw [(h.places _ hmem p hp).1]
    rfl
  · next hp =>
    rw [hp] at hkeys
    rw [setKey, ← hkeys]

/-- A calm state stays calm with a key that is not needed. -/
theorem Calm.setKey (h : Calm s) {k : Option KeyStart}
    (hk : ∀ p ∈ k, p.required = false ∧ p.id < s.nextId) : Calm (s.setKey k) := by
  have hkeys := h.keys_eq
  refine ⟨h.indent, h.indents, ?_, ?_, h.tokens, h.found⟩
  · have hlevels := h.levels
    rw [hkeys] at hlevels
    exact hlevels
  · intro k' hk'
    rcases List.mem_cons.1 hk' with rfl | hk'
    · exact hk
    · exact h.places k' (hkeys ▸ List.mem_cons_of_mem _ hk')

/-- A calm state stays calm with one more token. -/
theorem Calm.emit (h : Calm s) {t : Token} (ht : ∀ id, t ≠ .candidate id) : Calm (s.emit t) := by
  refine ⟨h.indent, h.indents, h.levels, h.places, fun id hid => ?_, h.found⟩
  rcases List.mem_cons.1 hid with heq | hid
  · exact absurd heq.symm (ht id)
  · exact h.tokens id hid

/-- One more token comes last in the result. -/
theorem result_emit {t : Token} (ht : ∀ id, t ≠ .candidate id) (s : Scanner) :
    (s.emit t).result = s.result ++ [t] :=
  resolve_cons ht s.tokens

/-! ## Runs -/

/-- The run from one state goes through another one, if it is long enough. -/
def Reaches (s s' : Scanner) : Prop :=
  ∀ n, s.rest.length + 2 ≤ n → ∃ m, s'.rest.length + 2 ≤ m ∧ run n s = run m s'

/-- A run starts with its first state. -/
theorem Reaches.refl (s : Scanner) : Reaches s s := fun n hn => ⟨n, hn, rfl⟩

/-- What is reached from a state that is reached. -/
theorem Reaches.trans {s'' : Scanner} (h : Reaches s s') (h' : Reaches s' s'') : Reaches s s'' := by
  intro n hn
  obtain ⟨m, hm, heq⟩ := h n hn
  obtain ⟨k, hk, heq'⟩ := h' m hm
  exact ⟨k, hk, heq.trans heq'⟩

/-- The run from a state ends with the fault of its text, if it is long enough. -/
def Fails (s : Scanner) : Prop := ∀ n, s.rest.length + 2 ≤ n → run n s = .error .malformed

/-- A run fails if it goes through a state from which it does. -/
theorem Reaches.fails (h : Reaches s s') (h' : Fails s') : Fails s := by
  intro n hn
  obtain ⟨m, hm, heq⟩ := h n hn
  rw [heq, h' m hm]

/-- What is known of the state in front of the next token: what may have changed are the places for
keys, and that a key may start. -/
structure Ahead (s next : Scanner) : Prop where
  calm : Calm next
  rest : next.rest = skipGap s.rest
  flow : next.flow = s.flow
  result : next.result = s.result
  allow : s.allowKey = true → next.allowKey = true

/-- What a run does next is what the state in front of the next token does. -/
theorem Calm.run_succ {next : Scanner} (hs : Calm s) (hcalm : Calm next) {n : Nat}
    (hnext : (toToken (n + 1) s.prune).dropStale = .ok next) :
    (next.rest = [] → run (n + 1) s = .ok (next.setKey none)) ∧
      (next.rest ≠ [] → ∀ s', next.step (n + 1) = .ok s' → run (n + 1) s = run n s') ∧
      (next.rest ≠ [] → next.step (n + 1) = .error .malformed →
        run (n + 1) s = .error .malformed) := by
  rw [run, hs.dropStale]
  simp only [bind, Except.bind]
  rw [hnext]
  simp only [hcalm.unwind]
  refine ⟨fun hnil => ?_, fun hne s' hstep => ?_, fun hne hstep => ?_⟩
  · simp only [hnil, List.isEmpty_nil, if_true, hcalm.dropKey]
  · have hempty : next.rest.isEmpty = false := by simpa using hne
    simp only [hempty, Bool.false_eq_true, if_false, hstep]
  · have hempty : next.rest.isEmpty = false := by simpa using hne
    simp only [hempty, Bool.false_eq_true, if_false, hstep]

/-- A run goes on from the state in front of the next token, if its step is the same whatever the
bound. -/
theorem Calm.reaches_of_step {next : Scanner} (hs : Calm s) (hcalm : Calm next)
    (hnext : ∀ n, s.rest.length < n → (toToken n s.prune).dropStale = .ok next)
    (hne : next.rest ≠ []) (hstep : ∀ n, s.rest.length < n → next.step n = .ok s')
    (hlength : s'.rest.length < s.rest.length) : Reaches s s' := by
  intro n hn
  obtain ⟨n, rfl⟩ := Nat.exists_eq_add_of_le' (Nat.le_trans (Nat.le_add_left 1 _) hn)
  have hrun := hs.run_succ hcalm (hnext (n + 1) (by omega))
  exact ⟨n, by omega, hrun.2.1 hne s' (hstep _ (by omega))⟩

/-- A run fails if its next step does. -/
theorem Calm.fails_of_step {next : Scanner} (hs : Calm s) (hcalm : Calm next)
    (hnext : ∀ n, s.rest.length < n → (toToken n s.prune).dropStale = .ok next)
    (hne : next.rest ≠ []) (hstep : ∀ n, s.rest.length < n → next.step n = .error .malformed) :
    Fails s := by
  intro n hn
  obtain ⟨n, rfl⟩ := Nat.exists_eq_add_of_le' (Nat.le_trans (Nat.le_add_left 1 _) hn)
  have hrun := hs.run_succ hcalm (hnext (n + 1) (by omega))
  exact hrun.2.2 hne (hstep _ (by omega))

/-- A run ends where only gaps are left. -/
theorem Calm.run_of_empty {next : Scanner} (hs : Calm s) (hcalm : Calm next)
    (hnext : ∀ n, s.rest.length < n → (toToken n s.prune).dropStale = .ok next)
    (hnil : next.rest = []) {n : Nat} (hn : s.rest.length < n) :
    run n s = .ok (next.setKey none) := by
  obtain ⟨n, rfl⟩ := Nat.exists_eq_add_of_lt hn
  exact (hs.run_succ hcalm (hnext _ hn)).1 hnil

/-- In front of the next token there is a state that the gaps lead to. -/
theorem Calm.exists_ahead (hs : Calm s)
    (hhead : ∀ c ∈ (skipGap s.rest).head?, startsToken c = true) :
    ∃ next, Ahead s next ∧
      ∀ n, s.rest.length < n → (toToken n s.prune).dropStale = .ok next := by
  obtain ⟨s', hmoved, hrest, htoken⟩ := exists_toToken (s := s.prune) hhead
  have hcalm : Calm s' := hs.prune.moved hmoved
  have hahead : Ahead s s'.prune := by
    obtain ⟨_, _, _, _, _, rfl, hallow⟩ := hmoved
    exact ⟨hcalm.prune, hrest, rfl, rfl, hallow⟩
  exact ⟨s'.prune, hahead, fun n hn => by rw [htoken n hn, hcalm.dropStale]⟩

/-- A token that is told by the state in front of it. -/
theorem Calm.exists_reaches (hs : Calm s) (hrest : skipGap s.rest = c :: rest)
    (hc : startsToken c = true) {P : Scanner → Prop}
    (h : ∀ next, Ahead s next → next.rest = c :: rest →
      ∃ s', (∀ n, s.rest.length < n → next.step n = .ok s') ∧
        s'.rest.length < (c :: rest).length ∧ P s') :
    ∃ s', Reaches s s' ∧ P s' := by
  obtain ⟨next, hahead, hnext⟩ := hs.exists_ahead (by simp [hrest, hc])
  have hnextRest : next.rest = c :: rest := hahead.rest.trans hrest
  obtain ⟨s', hstep, hlength, hP⟩ := h next hahead hnextRest
  refine ⟨s', hs.reaches_of_step hahead.calm hnext (by simp [hnextRest]) hstep ?_, hP⟩
  have hgap : (c :: rest).length ≤ s.rest.length :=
    hrest ▸ (s.rest.dropWhile_sublist _).length_le
  exact Nat.lt_of_lt_of_le hlength hgap

/-! ## Single tokens -/

/-- The scanner with a new place for a key. -/
def withPlace (s : Scanner) : Scanner :=
  { (s.setKey (some ⟨s.nextId, false, s.index, s.line, s.column⟩)).emit (.candidate s.nextId) with
    nextId := s.nextId + 1 }

/-- Where a key may start a place for it is kept. -/
theorem Calm.saveKey_of_allowKey (h : Calm s) (hallow : s.allowKey = true) :
    s.saveKey = .ok s.withPlace := by
  -- a key is needed only where a block could go on, and none is open
  have hcolumn : ((-1 : Int) == (s.column : Int)) = false := by
    rw [beq_eq_false_iff_ne]
    omega
  rw [saveKey, if_pos hallow, h.dropKey, h.indent, hcolumn, Bool.and_false]
  rfl

/-- A calm state stays calm with a new place for a key. -/
theorem Calm.withPlace (h : Calm s) : Calm s.withPlace := by
  have hlt : ∀ {id}, id < s.nextId → id < s.nextId + 1 := fun h => Nat.lt_succ_of_lt h
  have hset : Calm (s.setKey none) := h.setKey fun _ hp => by cases hp
  refine ⟨h.indent, h.indents, hset.levels, ?_, ?_, fun e he => hlt (h.found e he)⟩
  · intro k hk p hp
    rcases List.mem_cons.1 hk with rfl | hk
    · cases hp
      exact ⟨rfl, Nat.lt_succ_self _⟩
    · have hmem : k ∈ (s.setKey none).keys := List.mem_cons_of_mem _ hk
      exact ⟨(hset.places k hmem p hp).1, hlt (hset.places k hmem p hp).2⟩
  · intro id hid
    rcases List.mem_cons.1 hid with heq | hid
    · cases heq
      exact Nat.lt_succ_self _
    · exact hlt (h.tokens id hid)

/-- A place that is not found yet leaves no trace. -/
theorem Calm.result_withPlace (h : Calm s) : s.withPlace.result = s.result :=
  resolve_cons_of_unfound (fun e he => Nat.ne_of_lt (h.found e he)) s.tokens

/-- Whether a key may start or not, the scanner takes note without a fault. -/
theorem Calm.exists_saveKey (h : Calm s) :
    ∃ s', s.saveKey = .ok s' ∧ Calm s' ∧ s'.result = s.result ∧ s'.flow = s.flow ∧
      s'.rest = s.rest := by
  cases hallow : s.allowKey with
  | true => exact ⟨_, h.saveKey_of_allowKey hallow, h.withPlace, h.result_withPlace, rfl, rfl⟩
  | false => exact ⟨s, by rw [saveKey, hallow]; rfl, h, rfl, rfl, rfl⟩

/-- A state behind a text with its tokens. -/
structure Behind (s : Scanner) (rest : List Char) (tokens : List Token) (s' : Scanner) : Prop where
  calm : Calm s'
  rest : s'.rest = rest
  result : s'.result = s.result ++ tokens

/-- One character forward with its token leads behind both. -/
theorem Calm.behind_forward (h : Calm s) (hrest : s.rest = c :: rest) {t : Token}
    (ht : ∀ id, t ≠ .candidate id) :
    Behind s rest [t] (s.forward.emit t) ∧ (s.forward.emit t).flow = s.flow ∧
      (s.forward.emit t).allowKey = s.allowKey := by
  obtain ⟨line, column, hforward, -⟩ := forward_cons hrest
  rw [hforward]
  have hcalm : Calm (s.placed rest (s.index + 1) line column) := h.moved ⟨_, _, _, _, _, rfl, id⟩
  exact ⟨⟨hcalm.emit ht, rfl, result_emit ht _⟩, rfl, rfl⟩

/-- The start of a list or an object. -/
theorem Calm.exists_flowStart (h : Calm s) (hrest : s.rest = c :: rest) {t : Token}
    (ht : ∀ id, t ≠ .candidate id) :
    ∃ s', s.flowStart t = .ok s' ∧ Behind s rest [t] s' ∧ s'.flow = s.flow + 1 ∧
      s'.allowKey = true := by
  obtain ⟨s₁, hsave, hcalm, hresult, hflow, hrest₁⟩ := h.exists_saveKey
  have hinner :
      Calm { s₁ with flow := s₁.flow + 1, keys := none :: s₁.keys, allowKey := true } := by
    refine ⟨hcalm.indent, hcalm.indents, congrArg (· + 1) hcalm.levels, ?_, hcalm.tokens,
      hcalm.found⟩
    intro k hk
    rcases List.mem_cons.1 hk with rfl | hk
    · exact fun _ hp => by cases hp
    · exact hcalm.places k hk
  obtain ⟨hbehind, hflow', hallow⟩ := hinner.behind_forward (hrest₁.trans hrest) ht
  refine ⟨_, by rw [flowStart, hsave]; rfl, ⟨hbehind.calm, hbehind.rest, ?_⟩, ?_, hallow⟩
  · exact hbehind.result.trans (congrArg (· ++ [t]) hresult)
  · exact hflow'.trans (congrArg (· + 1) hflow)

/-- The end of a list or an object. -/
theorem Calm.exists_flowEnd (h : Calm s) (hflow : s.flow ≠ 0) (hrest : s.rest = c :: rest)
    {t : Token} (ht : ∀ id, t ≠ .candidate id) :
    ∃ s', s.flowEnd t = .ok s' ∧ Behind s rest [t] s' ∧ s'.flow + 1 = s.flow := by
  have houter : Calm { s with flow := s.flow - 1, keys := s.keys.tail, allowKey := false } := by
    refine ⟨h.indent, h.indents, ?_, fun k hk => h.places k (List.mem_of_mem_tail hk), h.tokens,
      h.found⟩
    have hlevels := h.levels
    simp only [List.length_tail]
    omega
  obtain ⟨hbehind, hflow', -⟩ := houter.behind_forward hrest ht
  have hend : s.flowEnd t = .ok
      (({ s with flow := s.flow - 1, keys := s.keys.tail, allowKey := false }).forward.emit t) := by
    rw [flowEnd, h.dropKey]
    simp only [bind, Except.bind]
    rw [if_neg (by simpa [Scanner.setKey] using hflow)]
    rfl
  refine ⟨_, hend, ⟨hbehind.calm, hbehind.rest, hbehind.result⟩, ?_⟩
  rw [hflow']
  exact Nat.succ_pred hflow

/-- A comma. -/
theorem Calm.exists_flowEntry (h : Calm s) (hrest : s.rest = c :: rest) :
    ∃ s', s.flowEntry = .ok s' ∧ Behind s rest [.flowEntry] s' ∧ s'.flow = s.flow ∧
      s'.allowKey = true := by
  have hset : Calm { s.setKey none with allowKey := true } :=
    (h.setKey fun _ hp => by cases hp).moved ⟨_, _, _, _, _, rfl, fun _ => rfl⟩
  obtain ⟨hbehind, hflow, hallow⟩ := hset.behind_forward hrest (t := .flowEntry)
    fun _ heq => by cases heq
  refine ⟨_, by rw [flowEntry, h.dropKey]; rfl, ⟨hbehind.calm, hbehind.rest, hbehind.result⟩, ?_⟩
  exact ⟨hflow, hallow⟩

/-! ### Scalars -/

/-- The state behind a scalar in quotation marks. -/
theorem quotedText_stringText {s₁ : Scanner} {str : String} (content : List Char)
    (hsave : s.saveKey = .ok s₁) (hrest : s₁.rest = Json.stringText str ++ tail) :
    ∃ line column,
      (∀ read, read (inQuotes str.toList tail) = .ok (content, tail) →
        s.quotedText read = .ok
          (({ s₁ with allowKey := false }.placed tail (s₁.index + (Json.stringText str).length) line
            column).emit (.scalar (String.ofList content) false))) ∧
      ((∀ c ∈ Json.stringText str, isBreak c = false) → line = s₁.line) ∧
      ((∃ c ∈ Json.stringText str, isRawBreak c = true) → s₁.line < line) := by
  obtain ⟨line, column, hskip, -, hsame, hnext⟩ :=
    skip_append (s := { s₁ with allowKey := false }) hrest
  refine ⟨line, column, fun read hread => ?_, hsame, hnext⟩
  have htail : s₁.rest.tail = inQuotes str.toList tail := by
    rw [hrest, stringText_append]
    rfl
  rw [quotedText, hsave]
  simp only [bind, Except.bind]
  rw [htail, hread]
  simp only
  rw [moveTo_append (s := { s₁ with allowKey := false }) hrest, hskip]
  rfl

/-- A string that is read as its content leads behind it. -/
theorem Calm.exists_quotedText (h : Calm s) {str : String} (content : List Char)
    (hrest : s.rest = Json.stringText str ++ tail) :
    ∃ s', (∀ read, read (inQuotes str.toList tail) = .ok (content, tail) →
        s.quotedText read = .ok s') ∧
      Behind s tail [.scalar (String.ofList content) false] s' ∧ s'.flow = s.flow := by
  obtain ⟨s₁, hsave, hcalm, hresult, hflow, hrest₁⟩ := h.exists_saveKey
  obtain ⟨line, column, htext, -⟩ :=
    quotedText_stringText content hsave (hrest₁.trans hrest)
  have hscalar : ∀ id, Token.scalar (String.ofList content) false ≠ .candidate id :=
    fun _ heq => by cases heq
  refine ⟨_, htext, ⟨?_, rfl, ?_⟩, hflow⟩
  · refine Calm.emit ?_ hscalar
    exact ⟨hcalm.indent, hcalm.indents, hcalm.levels, hcalm.places, hcalm.tokens, hcalm.found⟩
  · rw [result_emit hscalar]
    exact congrArg (· ++ _) hresult

/-- What stands behind a value: a comma, or a line break in front of the end of the list or object
around it. -/
def Follow (flow : Nat) (tail : List Char) : Prop :=
  (flow ≠ 0 ∧ ∃ u, tail = ',' :: u) ∨
    ∃ d u, tail = Json.newline d ++ u ∧ Closes u ∧ endsPlain (flow != 0) u = true

/-- A new line is a gap. -/
theorem skipGap_newline (d : Nat) (t : List Char) : skipGap (Json.newline d ++ t) = skipGap t := by
  refine List.dropWhile_append_of_pos fun c hc => ?_
  rcases List.mem_cons.1 hc with rfl | hc
  · rfl
  · rw [List.eq_of_mem_replicate hc]
    rfl

/-- A word in front of what may follow a value is read to its end. -/
theorem Follow.exists_plain {flow : Nat} (hfollow : Follow flow tail) (h : IsWord t) :
    ∃ newLine front rest, tail = front ++ rest ∧ skipGap rest = skipGap tail ∧
      ∀ n column, plain (flow != 0) (n + 1) 0 column (t ++ tail) = (t, newLine, rest) := by
  rcases hfollow with ⟨hflow, u, rfl⟩ | ⟨d, u, rfl, hclose, hend⟩
  · have hflow : (flow != 0) = true := by simpa using hflow
    refine ⟨false, [], ',' :: u, rfl, rfl, fun n column => ?_⟩
    rw [hflow, plain_of_comma h]
  · refine ⟨true, Json.newline d, u, rfl, (skipGap_newline d u).symm, fun n column => ?_⟩
    have hindent : (!(flow != 0) && decide (((2 * d : Nat) : Int) < 0)) = false := by
      rw [decide_eq_false (by omega), Bool.and_false]
    exact plain_of_newline h hclose hend hindent n column

/-- A word. -/
theorem Calm.exists_plainText (h : Calm s) (ht : IsWord t) (hrest : s.rest = t ++ tail)
    (hfollow : Follow s.flow tail) :
    ∃ s' rest, (∀ n, s.plainText (n + 1) = .ok s') ∧ rest.length ≤ tail.length ∧
      skipGap rest = skipGap tail ∧ Behind s rest [.scalar (String.ofList t) true] s' ∧
        s'.flow = s.flow := by
  obtain ⟨s₁, hsave, hcalm, hresult, hflow, hrest₁⟩ := h.exists_saveKey
  obtain ⟨newLine, front, rest, rfl, hgap, hplain⟩ := hfollow.exists_plain ht
  have hfront : s₁.rest = (t ++ front) ++ rest := by
    rw [hrest₁, hrest, List.append_assoc]
  obtain ⟨line, column, hskip, -⟩ := skip_append (s := { s₁ with allowKey := newLine }) hfront
  have hscalar : ∀ id, Token.scalar (String.ofList t) true ≠ .candidate id :=
    fun _ heq => by cases heq
  have hindent : s₁.indent + 1 = 0 := by rw [hcalm.indent]; rfl
  refine ⟨(({ s₁ with allowKey := newLine }.placed rest (s₁.index + (t ++ front).length) line
    column).emit (.scalar (String.ofList t) true)), rest, fun n => ?_, by simp, hgap, ⟨?_, rfl, ?_⟩,
    hflow⟩
  · have hscan : plain (s₁.flow != 0) (n + 1) (s₁.indent + 1) s₁.column s₁.rest =
        (t, newLine, rest) := by
      rw [hindent, hflow, hfront, List.append_assoc, hplain]
    rw [plainText, hsave]
    simp only [bind, Except.bind, hscan]
    rw [moveTo_append (s := { s₁ with allowKey := newLine }) hfront, hskip]
    rfl
  · refine Calm.emit ?_ hscalar
    exact ⟨hcalm.indent, hcalm.indents, hcalm.levels, hcalm.places, hcalm.tokens, hcalm.found⟩
  · rw [result_emit hscalar]
    exact congrArg (· ++ _) hresult

/-! ### Steps -/

/-- The steps at brackets and braces. -/
theorem step_brackets (n : Nat) :
    (s.rest = '[' :: rest → s.step n = s.flowStart .flowSequenceStart) ∧
    (s.rest = '\x7b' :: rest → s.step n = s.flowStart .flowMappingStart) ∧
    (s.rest = ']' :: rest → s.step n = s.flowEnd .flowSequenceEnd) ∧
    (s.rest = '\x7d' :: rest → s.step n = s.flowEnd .flowMappingEnd) := by
  refine ⟨fun h => ?_, fun h => ?_, fun h => ?_, fun h => ?_⟩ <;> unfold step <;> rw [h] <;> rfl

/-- The step at a comma. -/
theorem step_comma (h : s.rest = ',' :: rest) (n : Nat) : s.step n = s.flowEntry := by
  unfold step
  rw [h]
  rfl

/-- The step at a colon inside brackets. -/
theorem step_colon (h : s.rest = ':' :: rest) (hflow : s.flow ≠ 0) (n : Nat) :
    s.step n = s.valueMark := by
  have hflow : (s.flow != 0) = true := by simpa using hflow
  unfold step
  rw [h, hflow]
  rfl

/-- The step at a quotation mark. -/
theorem step_quote (h : s.rest = '"' :: rest) (n : Nat) :
    s.step n = s.quotedText (doubleQuoted n) := by
  unfold step
  rw [h]
  rfl

/-- The first character of a word starts no other token. -/
theorem step_letter (hc : "efnt0123456789".toList.contains c = true) (h : s.rest = c :: rest)
    (n : Nat) : s.step n = s.plainText n := by
  have hc : c = 'e' ∨ c = 'f' ∨ c = 'n' ∨ c = 't' ∨ c = '0' ∨ c = '1' ∨ c = '2' ∨ c = '3' ∨
      c = '4' ∨ c = '5' ∨ c = '6' ∨ c = '7' ∨ c = '8' ∨ c = '9' := by
    simpa using hc
  unfold step
  rw [h]
  rcases hc with
    rfl | rfl | rfl | rfl | rfl | rfl | rfl | rfl | rfl | rfl | rfl | rfl | rfl | rfl <;> rfl

/-- A minus sign in front of the first character of a word starts the word. -/
theorem step_minus (hc : "efnt0123456789".toList.contains c = true)
    (h : s.rest = '-' :: c :: rest) (n : Nat) : s.step n = s.plainText n := by
  have hall : "efnt0123456789".toList.all (fun c => c != '-' && !endsToken [c]) = true := by decide
  have htest := List.all_eq_true.1 hall c (by simpa using hc)
  rw [Bool.and_eq_true, bne_iff_ne, Bool.not_eq_true'] at htest
  -- the sign is neither the start of a mark nor an item of a block
  have hmark : isDocumentMark s.rest = false := by
    rw [h]
    unfold isDocumentMark
    split
    · next heq => exact absurd (List.cons.inj (List.cons.inj heq).2).1 htest.1
    · next heq => exact absurd (List.cons.inj heq).1 (by decide)
    · rfl
  have hends : endsToken (c :: rest) = false := htest.2
  have hplain : startsPlain (s.flow != 0) s.rest = true := by
    rw [h, startsPlain, hends]
    exact Bool.or_true _
  unfold step
  rw [hmark, hplain, h]
  simp only [hends, Bool.and_false, Bool.false_eq_true, if_false]
  rfl

/-- The step at a word. -/
theorem step_word (ht : IsWord t) (h : s.rest = t ++ tail) (n : Nat) :
    s.step n = s.plainText n := by
  obtain ⟨c, rest, hc, rfl | rfl⟩ := ht.start
  · exact step_letter hc h n
  · exact step_minus hc h n

end Scanner

end ApiDoc.Yaml
