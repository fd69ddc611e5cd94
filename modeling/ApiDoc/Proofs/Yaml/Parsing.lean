import ApiDoc.Proofs.Yaml.Documents

/-!
# Trees of documents that were written as JSON

The tokens of a document make its tree (`treeOf`), wherever they stand (`Parses`), if each key of it
is known as a key; with any other key they make no tree: `ofTokens_tokensOf`.
-/

namespace ApiDoc.Yaml

open Yaml.Tree

/-- The tree of a key. -/
def keyTree : Atom → Tree
  | .text key => .scalar {} (String.ofList (quotedContent key)) false
  | _ => .empty

mutual

/-- The tree of a document. -/
def treeOf : Value → Tree
  | .atom (.text s) => .scalar {} (String.ofList (quotedContent s)) false
  | .atom a => .scalar {} (wordOf a) true
  | .list _ items => .sequence {} (itemsTrees items)
  | .object _ entries => .mapping {} (entriesTrees entries)
  | _ => .empty

/-- The trees of items. -/
def itemsTrees : List Value → List Tree
  | [] => []
  | v :: rest => treeOf v :: itemsTrees rest

/-- The trees of entries. -/
def entriesTrees : List (Atom × Value) → List (Tree × Tree)
  | [] => []
  | (k, v) :: rest => (keyTree k, treeOf v) :: entriesTrees rest

end

theorem treeOf_list (m : Option Mark) (items : List Value) :
    treeOf (.list m items) = .sequence {} (items.map treeOf) := by
  rw [treeOf]
  congr 1
  induction items with
  | nil => rfl
  | cons v items ih => rw [itemsTrees, ih, List.map_cons]

theorem treeOf_object (m : Option Mark) (entries : List (Atom × Value)) :
    treeOf (.object m entries) =
      .mapping {} (entries.map fun e => (keyTree e.1, treeOf e.2)) := by
  rw [treeOf]
  congr 1
  induction entries with
  | nil => rfl
  | cons e entries ih => rw [entriesTrees, ih, List.map_cons]

/-- An atom without quotation marks is a plain scalar. -/
theorem treeOf_of_isBare {a : Atom} (ha : IsBare a) :
    treeOf (.atom a) = .scalar {} (wordOf a) true := by
  cases a with
  | text s => exact ha.elim
  | _ => rfl

/-! ## Steps of the parser -/

/-- The first token of a document. -/
def startsNode : Token → Bool
  | .scalar _ _ | .flowSequenceStart | .flowMappingStart => true
  | _ => false

/-- What stands in front of an item or entry: nothing, or a comma behind another one. -/
def comma (first : Bool) : List Token := if first then [] else [.flowEntry]

variable {handles : Handles} {block indentless first : Bool} {n : Nat} {t : Token}
  {ts rest : List Token}

/-- An opening bracket starts a sequence. -/
theorem node_sequence :
    node handles block indentless (n + 1) (.flowSequenceStart :: rest) =
      (flowItems handles true n rest).map fun r => (.sequence {} r.1, r.2) := rfl

/-- An opening brace starts a mapping. -/
theorem node_mapping :
    node handles block indentless (n + 1) (.flowMappingStart :: rest) =
      (flowPairs handles true n rest).map fun r => (.mapping {} r.1, r.2) := rfl

/-- A closing bracket ends the items. -/
theorem flowItems_end :
    flowItems handles first (n + 1) (.flowSequenceEnd :: rest) = .ok ([], rest) := rfl

/-- A closing brace ends the entries. -/
theorem flowPairs_end :
    flowPairs handles first (n + 1) (.flowMappingEnd :: rest) = .ok ([], rest) := rfl

/-- An item is read and then those behind it. -/
theorem flowItems_item (ht : startsNode t = true) :
    flowItems handles first (n + 1) (comma first ++ t :: ts) =
      (node handles false false n (t :: ts)).bind fun r =>
        (flowItems handles false n r.2).map fun q => (r.1 :: q.1, q.2) := by
  unfold startsNode at ht
  split at ht
  · cases first <;> rfl
  · cases first <;> rfl
  · cases first <;> rfl
  · cases ht

/-- An entry is read and then those behind it. -/
theorem flowPairs_entry (key : String) (ht : startsNode t = true) (ts : List Token) :
    flowPairs handles first (n + 2)
        (comma first ++ .key :: .scalar key false :: .value :: t :: ts) =
      (node handles false false n (t :: ts)).bind fun r =>
        (flowPairs handles false (n + 1) r.2).map fun q =>
          ((.scalar {} key false, r.1) :: q.1, q.2) := by
  unfold startsNode at ht
  split at ht
  · cases first <;> rfl
  · cases first <;> rfl
  · cases first <;> rfl
  · cases ht

/-- A value behind what is not known as a key is a fault. -/
theorem flowPairs_of_value (key : String) :
    flowPairs handles first (n + 2) (comma first ++ .scalar key false :: .value :: ts) =
      .error .malformed := by
  cases first <;> rfl

/-! ## Tokens wherever they stand -/

/-- A token of a document in brackets and braces. -/
def isFlowToken : Token → Bool
  | .scalar _ _ | .flowSequenceStart | .flowSequenceEnd | .flowMappingStart | .flowMappingEnd
  | .flowEntry | .key | .value => true
  | _ => false

/-- Tokens that make a tree in front of any others, or tokens that make none; `good` tells which
ones they are. There has to be room for all tokens up to the end. -/
structure Parses (ts : List Token) (good : Bool) (tree : Tree) : Prop where
  start : ∃ t rest, ts = t :: rest ∧ startsNode t = true
  flow : ∀ t ∈ ts, isFlowToken t = true
  node : ∀ block indentless rest {n}, 2 * (ts ++ rest).length ≤ n →
    node defaultHandles block indentless n (ts ++ rest) =
      if good then .ok (tree, rest) else .error .malformed

/-- Commas between pieces are tokens of documents. -/
theorem isFlowToken_separated {pieces : List (List Token)}
    (h : ∀ ts ∈ pieces, ∀ t ∈ ts, isFlowToken t = true) :
    ∀ t ∈ separated pieces, isFlowToken t = true := by
  intro t ht
  cases pieces with
  | nil => exact absurd ht List.not_mem_nil
  | cons ts pieces =>
    obtain ⟨hts, hpieces⟩ := List.forall_mem_cons.1 h
    rcases List.mem_append.1 ht with ht | ht
    · exact hts t ht
    · obtain ⟨us, hus, ht⟩ := List.mem_flatMap.1 ht
      rcases List.mem_cons.1 ht with rfl | ht
      · rfl
      · exact hpieces us hus t ht

section Loop

variable {α β : Type} {f : Bool → Nat → List Token → Except Fault (List β × List Token)}
  {close : Token} {tokens : α → List Token} {good : α → Bool} {tree : α → β} {xs : List α}

/-- Tokens that make an item or an entry of what a loop reads, or tokens that make none. -/
structure ParsesPiece (f : Bool → Nat → List Token → Except Fault (List β × List Token))
    (ts : List Token) (good : Bool) (tree : β) : Prop where
  pos : 0 < ts.length
  step : ∀ {first n rest}, 2 * (comma first ++ (ts ++ rest)).length ≤ n →
    f first (n + 1) (comma first ++ (ts ++ rest)) =
      if good then (f false n rest).map fun r => (tree :: r.1, r.2) else .error .malformed

/-- A piece in front of others is read if all of them are. -/
theorem ParsesPiece.cons {ts more : List Token} {good all : Bool} {tree : β} {trees : List β}
    (h : ParsesPiece f ts good tree) (hn : 2 * (comma first ++ (ts ++ more)).length < n + 1)
    (hmore : 2 * more.length < n →
      f false n more = if all then .ok (trees, rest) else .error .malformed) :
    f first (n + 1) (comma first ++ (ts ++ more)) =
      if good && all then .ok (tree :: trees, rest) else .error .malformed := by
  have hlength : 2 * more.length < n := by
    have hpos := h.pos
    rw [List.length_append, List.length_append] at hn
    omega
  rw [h.step (Nat.le_of_lt_succ hn), hmore hlength]
  cases good <;> cases all <;> rfl

/-- Pieces behind a first one are read one by one, if each one is read. -/
theorem loop_behind (hend : ∀ {first n rest}, f first (n + 1) (close :: rest) = .ok ([], rest))
    (h : ∀ x ∈ xs, ParsesPiece f (tokens x) (good x) (tree x))
    (hn : 2 * ((xs.map tokens).flatMap (.flowEntry :: ·) ++ close :: rest).length < n) :
    f false n ((xs.map tokens).flatMap (.flowEntry :: ·) ++ close :: rest) =
      if xs.all good then .ok (xs.map tree, rest) else .error .malformed := by
  induction xs generalizing n with
  | nil =>
    obtain ⟨n, rfl⟩ := Nat.exists_eq_add_of_lt hn
    exact hend
  | cons x xs ih =>
    obtain ⟨hx, hxs⟩ := List.forall_mem_cons.1 h
    obtain ⟨n, rfl⟩ : ∃ m, n = m + 1 := ⟨n - 1, by omega⟩
    have hsplit : ((x :: xs).map tokens).flatMap (.flowEntry :: ·) ++ close :: rest =
        comma false ++
          (tokens x ++ ((xs.map tokens).flatMap (.flowEntry :: ·) ++ close :: rest)) := by
      simp [comma]
    rw [hsplit] at hn ⊢
    rw [hx.cons hn (ih hxs), List.all_cons, List.map_cons]

/-- Pieces with commas between them are read one by one, if each one is read. -/
theorem loop_separated (hend : ∀ {first n rest}, f first (n + 1) (close :: rest) = .ok ([], rest))
    (h : ∀ x ∈ xs, ParsesPiece f (tokens x) (good x) (tree x))
    (hn : 2 * (separated (xs.map tokens) ++ close :: rest).length < n) :
    f true n (separated (xs.map tokens) ++ close :: rest) =
      if xs.all good then .ok (xs.map tree, rest) else .error .malformed := by
  obtain ⟨n, rfl⟩ : ∃ m, n = m + 1 := ⟨n - 1, by omega⟩
  cases xs with
  | nil => exact hend
  | cons x xs =>
    obtain ⟨hx, hxs⟩ := List.forall_mem_cons.1 h
    have hsplit : separated ((x :: xs).map tokens) ++ close :: rest =
        comma true ++
          (tokens x ++ ((xs.map tokens).flatMap (.flowEntry :: ·) ++ close :: rest)) := by
      simp [comma, separated]
    rw [hsplit] at hn ⊢
    rw [hx.cons hn (loop_behind hend hxs), List.all_cons, List.map_cons]

end Loop

variable {tree : Tree} {good : Bool}

/-- What makes a tree makes an item. -/
theorem Parses.item (h : Parses ts good tree) :
    ParsesPiece (flowItems defaultHandles) ts good tree := by
  obtain ⟨t, more, rfl, ht⟩ := h.start
  refine ⟨Nat.succ_pos _, fun {first n rest} hn => ?_⟩
  have hlength : 2 * (t :: more ++ rest).length ≤ n := by
    rw [List.length_append] at hn
    omega
  have hnode := h.node false false rest hlength
  rw [List.cons_append] at hnode ⊢
  rw [flowItems_item ht, hnode]
  cases good <;> rfl

/-- What makes a tree makes an entry behind a key that fits, and none behind another key. -/
theorem Parses.entry (h : Parses ts good tree) (key : String) :
    ParsesPiece (flowPairs defaultHandles) (Scanner.keyTokens key ++ ts)
      (Scanner.fitsKey key && good) (keyTree (.text key), tree) := by
  obtain ⟨t, more, rfl, ht⟩ := h.start
  rw [Scanner.keyTokens]
  cases Scanner.fitsKey key with
  | true =>
    refine ⟨Nat.succ_pos _, fun {first n rest} hn => ?_⟩
    have hlength : 2 * (t :: more ++ rest).length + 1 < n := by
      simp only [if_true, List.length_append, List.length_cons, List.length_nil] at hn ⊢
      omega
    obtain ⟨n, rfl⟩ : ∃ m, n = m + 1 := ⟨n - 1, by omega⟩
    have hnode : Tree.node defaultHandles false false n (t :: (more ++ rest)) = _ :=
      h.node false false rest (by omega)
    refine (flowPairs_entry _ ht (more ++ rest)).trans ?_
    rw [hnode]
    cases good <;> rfl
  | false =>
    refine ⟨Nat.succ_pos _, fun {first n rest} hn => ?_⟩
    obtain ⟨n, rfl⟩ : ∃ m, n = m + 1 := by
      refine ⟨n - 1, ?_⟩
      simp only [Bool.false_eq_true, if_false, List.nil_append, List.cons_append,
        List.length_append, List.length_cons] at hn
      omega
    exact flowPairs_of_value _

/-- The tokens of a key are tokens of documents. -/
theorem isFlowToken_keyTokens (key : String) :
    ∀ t ∈ Scanner.keyTokens key, isFlowToken t = true := by
  rw [Scanner.keyTokens]
  cases Scanner.fitsKey key with
  | true => simp [isFlowToken]
  | false => simp [isFlowToken]

/-- Whether each key of a document is known as a key. -/
def hasFittingKeys (v : Value) : Bool := v.allTexts Scanner.fitsKey fun _ => true

theorem hasFittingKeys_list (m : Option Mark) (items : List Value) :
    hasFittingKeys (.list m items) = items.all hasFittingKeys := Value.allTexts_list m items

theorem hasFittingKeys_object (m : Option Mark) (entries : List (Atom × Value)) :
    hasFittingKeys (.object m entries) =
      entries.all fun e => Value.onKey Scanner.fitsKey e.1 && hasFittingKeys e.2 :=
  Value.allTexts_object m entries

/-- A scalar makes a tree by itself. -/
theorem parses_scalar (text : String) (plain : Bool) :
    Parses [.scalar text plain] true (.scalar {} text plain) := by
  refine ⟨⟨_, _, rfl, rfl⟩, List.forall_mem_singleton.2 rfl, fun _ _ rest {n} hn => ?_⟩
  obtain ⟨n, rfl⟩ : ∃ m, n = m + 1 := ⟨n - 1, by simp at hn; omega⟩
  rfl

/-- Pieces in brackets make one tree of all their trees. -/
theorem parses_brackets {α β : Type} {opening closing : Token} {xs : List α}
    {f : Bool → Nat → List Token → Except Fault (List β × List Token)} {wrap : List β → Tree}
    {tokens : α → List Token} {good : α → Bool} {tree : α → β} (hopen : startsNode opening = true)
    (hbrackets : isFlowToken opening = true ∧ isFlowToken closing = true)
    (hnode : ∀ {block indentless n rest}, node defaultHandles block indentless (n + 1)
      (opening :: rest) = (f true n rest).map fun r => (wrap r.1, r.2))
    (hend : ∀ {first n rest}, f first (n + 1) (closing :: rest) = .ok ([], rest))
    (hpieces : ∀ x ∈ xs, ParsesPiece f (tokens x) (good x) (tree x))
    (hflow : ∀ x ∈ xs, ∀ t ∈ tokens x, isFlowToken t = true) :
    Parses (opening :: (separated (xs.map tokens) ++ [closing])) (xs.all good)
      (wrap (xs.map tree)) := by
  refine ⟨⟨_, _, rfl, hopen⟩, ?_, fun _ _ rest {n} hn => ?_⟩
  · refine List.forall_mem_cons.2 ⟨hbrackets.1, List.forall_mem_append.2 ⟨?_, ?_⟩⟩
    · exact isFlowToken_separated (List.forall_mem_map.2 hflow)
    · exact List.forall_mem_singleton.2 hbrackets.2
  · rw [List.cons_append, List.append_assoc, List.singleton_append] at hn ⊢
    rw [List.length_cons] at hn
    obtain ⟨n, rfl⟩ : ∃ m, n = m + 1 := ⟨n - 1, by omega⟩
    rw [hnode, loop_separated hend hpieces (by omega)]
    split <;> rfl

/-- The tokens of a document make its tree if each key of it is known as a key, and no tree
otherwise. -/
theorem parses_tokensOf {v : Value} (h : v.IsDocument) :
    Parses (tokensOf v) (hasFittingKeys v) (treeOf v) := by
  induction h with
  | bare ha _ =>
    rw [tokensOf_of_isBare ha, treeOf_of_isBare ha, hasFittingKeys, Value.allTexts_of_isBare ha]
    exact parses_scalar _ true
  | text s => exact parses_scalar _ false
  | list m _ ih =>
    rw [tokensOf_list, treeOf_list, hasFittingKeys_list]
    exact parses_brackets rfl ⟨rfl, rfl⟩ node_sequence flowItems_end
      (fun v hv => (ih v hv).item) fun v hv => (ih v hv).flow
  | @object m entries htexts _ _ ih =>
    rw [tokensOf_object, treeOf_object, hasFittingKeys_object]
    refine parses_brackets rfl ⟨rfl, rfl⟩ node_mapping flowPairs_end (fun e he => ?_) fun e he => ?_
    · obtain ⟨key, hkey⟩ := htexts e he
      rw [hkey]
      exact (ih e he).entry key
    · obtain ⟨key, hkey⟩ := htexts e he
      rw [hkey]
      exact List.forall_mem_append.2 ⟨isFlowToken_keyTokens key, (ih e he).flow⟩

/-- Tokens of documents have no anchors. -/
theorem withAnchors_of_isFlowToken (known : List String) (h : ∀ t ∈ ts, isFlowToken t = true) :
    withAnchors known ts = ts := by
  induction ts with
  | nil => rfl
  | cons t ts ih =>
    obtain ⟨ht, hts⟩ := List.forall_mem_cons.1 h
    have hcons := congrArg (t :: ·) (ih hts)
    unfold isFlowToken at ht
    split at ht
    any_goals exact hcons
    cases ht

/-- The tree of the tokens of a document. -/
theorem ofTokens_tokensOf {v : Value} (h : v.IsDocument) :
    ofTokens (tokensOf v) =
      if hasFittingKeys v then .ok (some (treeOf v)) else .error .malformed := by
  have hparses := parses_tokensOf h
  obtain ⟨t, rest, hts, ht⟩ := hparses.start
  have hempty : (tokensOf v).isEmpty = false := by rw [hts]; rfl
  have hstart : startsExplicitly (tokensOf v) = false := by
    rw [hts]
    cases t <;> first | rfl | cases ht
  -- there is room for twice as many calls as a document needs
  have hlimit : 2 * (tokensOf v ++ []).length ≤ limit (tokensOf v) := by
    rw [limit, List.append_nil]
    omega
  have hnode := hparses.node true false [] hlimit
  rw [List.append_nil] at hnode
  rw [ofTokens, withAnchors_of_isFlowToken [] hparses.flow, hempty]
  simp only [document, hstart, Bool.false_eq_true, if_false, hnode]
  cases hasFittingKeys v <;> rfl

end ApiDoc.Yaml
