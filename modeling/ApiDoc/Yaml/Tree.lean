import ApiDoc.Yaml.Token

/-!
# From tokens to a tree

The tree of a document has scalars, sequences, mappings and aliases; each node but an alias may
have an anchor and a tag. A missing key, value or item is an empty plain scalar. An anchor is given
once, and stands in front of its aliases.

Of two faults the one in front is told, so anchors are looked after here, before the tokens are
read.

Main definition: `Tree.ofTokens`, for a text with at most one document.
-/

namespace ApiDoc.Yaml

/-- What stands in front of a node. The tag is written out in full. -/
structure Properties where
  anchor : Option String := none
  tag : Option String := none

/-- A node of a document. -/
inductive Tree where
  | alias (name : String)
  | scalar (props : Properties) (text : String) (plain : Bool)
  | sequence (props : Properties) (items : List Tree)
  | mapping (props : Properties) (pairs : List (Tree × Tree))
  deriving Inhabited

namespace Tree

/-- The node of what is missing. -/
def empty : Tree := .scalar {} "" true

/-- Where the handles of tags lead. -/
abbrev Handles := List (String × String)

/-- The handles that every document has. -/
def defaultHandles : Handles := [("!", "!"), ("!!", "tag:yaml.org,2002:")]

/-- A tag written out in full. -/
def fullTag (handles : Handles) (handle : Option String) (suffix : String) : Except Fault String :=
  match handle with
  | none => .ok suffix
  | some h =>
    match handles.find? (·.1 == h) with
    | some (_, expansion) => .ok (expansion ++ suffix)
    | none => .error .malformed

/-! ## Anchors -/

/-- Tokens behind an anchor that is taken: its node is not read, but it has to be there. -/
def takenAnchor : List Token → List Token
  | .tag h s :: rest => [.tag h s, .fault (unexpected rest)]
  | ts => [.fault (unexpected ts)]

/-- Tokens up to the first alias without an anchor, or the first anchor that is taken already. -/
def withAnchors (known : List String) : List Token → List Token
  | [] => []
  | .alias name :: rest =>
    if known.contains name then .alias name :: withAnchors known rest else [.fault .malformed]
  | .anchor name :: rest =>
    if known.contains name then .anchor name :: takenAnchor rest
    else .anchor name :: withAnchors (name :: known) rest
  | t :: rest => t :: withAnchors known rest

/-! ## Nodes -/

/-- The anchor and the tag in front of tokens. -/
def properties : List Token → Option String × Option (Option String × String) × List Token
  | .anchor a :: .tag h s :: rest => (some a, some (h, s), rest)
  | .tag h s :: .anchor a :: rest => (some a, some (h, s), rest)
  | .anchor a :: rest => (some a, none, rest)
  | .tag h s :: rest => (none, some (h, s), rest)
  | ts => (none, none, ts)

/-- The properties in front of tokens, and whether there are any. The token behind them has to be
readable before their tag is looked at. -/
def readProperties (handles : Handles) (ts : List Token) :
    Except Fault (Properties × Bool × List Token) :=
  match properties ts with
  | (_, _, .fault f :: _) => .error f
  | (anchor, none, rest) => .ok ({ anchor := anchor }, anchor.isSome, rest)
  | (anchor, some (h, s), rest) => do
    return ({ anchor := anchor, tag := some (← fullTag handles h s) }, true, rest)

/-- Whether the value of a block mapping, or its key, is missing in front of tokens. -/
def missingInMapping : List Token → Bool
  | .key :: _ | .value :: _ | .blockEnd :: _ => true
  | _ => false

/-- Whether an item of a sequence without indentation is missing in front of tokens. -/
def missingItem : List Token → Bool
  | .blockEntry :: _ | .key :: _ | .value :: _ | .blockEnd :: _ => true
  | _ => false

/-- Whether an item of a block sequence is missing in front of tokens. -/
def missingBlockItem : List Token → Bool
  | .blockEntry :: _ | .blockEnd :: _ => true
  | _ => false

/-- Whether a key in brackets or braces is missing in front of tokens. -/
def missingFlowKey (close : Token) : List Token → Bool
  | .value :: _ | .flowEntry :: _ => true
  | t :: _ => t == close
  | [] => false

/-- Whether a value in brackets or braces is missing in front of tokens. -/
def missingFlowValue (close : Token) : List Token → Bool
  | .flowEntry :: _ => true
  | t :: _ => t == close
  | [] => false

mutual

/-- A node. `block` tells whether a block may start here, `indentless` whether a sequence may start
without indentation. The first argument bounds the depth of the calls. -/
def node (handles : Handles) (block indentless : Bool) :
    Nat → List Token → Except Fault (Tree × List Token)
  | 0, _ => .error .malformed
  | n + 1, ts =>
    match ts with
    | .alias name :: rest => .ok (.alias name, rest)
    | ts => do
      let (props, present, ts) ← readProperties handles ts
      match ts with
      | .scalar text plain :: rest => return (.scalar props text plain, rest)
      | .flowSequenceStart :: rest =>
        let (items, rest) ← flowItems handles true n rest
        return (.sequence props items, rest)
      | .flowMappingStart :: rest =>
        let (pairs, rest) ← flowPairs handles true n rest
        return (.mapping props pairs, rest)
      | .blockEntry :: _ =>
        if indentless then
          let (items, rest) ← plainItems handles n ts
          return (.sequence props items, rest)
        else if present then return (.scalar props "" true, ts)
        else throw (unexpected ts)
      | .blockSequenceStart :: rest =>
        if block then
          let (items, rest) ← blockItems handles n rest
          return (.sequence props items, rest)
        else if present then return (.scalar props "" true, ts)
        else throw (unexpected ts)
      | .blockMappingStart :: rest =>
        if block then
          let (pairs, rest) ← blockPairs handles n rest
          return (.mapping props pairs, rest)
        else if present then return (.scalar props "" true, ts)
        else throw (unexpected ts)
      | ts => if present then return (.scalar props "" true, ts) else throw (unexpected ts)

/-- The items of a block sequence up to its end. -/
def blockItems (handles : Handles) : Nat → List Token → Except Fault (List Tree × List Token)
  | 0, _ => .error .malformed
  | n + 1, ts =>
    match ts with
    | .blockEntry :: rest => do
      let (item, rest) ←
        if missingBlockItem rest then .ok (empty, rest) else node handles true false n rest
      let (items, rest) ← blockItems handles n rest
      return (item :: items, rest)
    | .blockEnd :: rest => .ok ([], rest)
    | ts => .error (unexpected ts)

/-- The items of a sequence without indentation. -/
def plainItems (handles : Handles) : Nat → List Token → Except Fault (List Tree × List Token)
  | 0, _ => .error .malformed
  | n + 1, ts =>
    match ts with
    | .blockEntry :: rest => do
      let (item, rest) ←
        if missingItem rest then .ok (empty, rest) else node handles true false n rest
      let (items, rest) ← plainItems handles n rest
      return (item :: items, rest)
    | ts => .ok ([], ts)

/-- The pairs of a block mapping up to its end. -/
def blockPairs (handles : Handles) :
    Nat → List Token → Except Fault (List (Tree × Tree) × List Token)
  | 0, _ => .error .malformed
  | n + 1, ts =>
    match ts with
    | .key :: rest => do
      let (key, rest) ←
        if missingInMapping rest then .ok (empty, rest) else node handles true true n rest
      let (value, rest) ← blockValue handles n rest
      let (pairs, rest) ← blockPairs handles n rest
      return ((key, value) :: pairs, rest)
    | .blockEnd :: rest => .ok ([], rest)
    | ts => .error (unexpected ts)

/-- The value of a pair of a block mapping. -/
def blockValue (handles : Handles) : Nat → List Token → Except Fault (Tree × List Token)
  | 0, _ => .error .malformed
  | n + 1, ts =>
    match ts with
    | .value :: rest =>
      if missingInMapping rest then .ok (empty, rest) else node handles true true n rest
    | ts => .ok (empty, ts)

/-- The items of a sequence in brackets up to its end. `first` tells whether no item has been read
yet; a comma stands in front of all others. A pair is an item too. -/
def flowItems (handles : Handles) (first : Bool) :
    Nat → List Token → Except Fault (List Tree × List Token)
  | 0, _ => .error .malformed
  | n + 1, ts =>
    match ts with
    | .flowSequenceEnd :: rest => .ok ([], rest)
    | ts => do
      let ts ←
        if first then .ok ts
        else
          match ts with
          | .flowEntry :: rest => .ok rest
          | ts => .error (unexpected ts)
      match ts with
      | .flowSequenceEnd :: rest => return ([], rest)
      | .key :: rest =>
        let (key, rest) ←
          if missingFlowKey .flowSequenceEnd rest then .ok (empty, rest)
          else node handles false false n rest
        let (value, rest) ← flowValue handles .flowSequenceEnd n rest
        let (items, rest) ← flowItems handles false n rest
        return (.mapping {} [(key, value)] :: items, rest)
      | ts =>
        let (item, rest) ← node handles false false n ts
        let (items, rest) ← flowItems handles false n rest
        return (item :: items, rest)

/-- The pairs of a mapping in braces up to its end. A node alone is a key without a value. -/
def flowPairs (handles : Handles) (first : Bool) :
    Nat → List Token → Except Fault (List (Tree × Tree) × List Token)
  | 0, _ => .error .malformed
  | n + 1, ts =>
    match ts with
    | .flowMappingEnd :: rest => .ok ([], rest)
    | ts => do
      let ts ←
        if first then .ok ts
        else
          match ts with
          | .flowEntry :: rest => .ok rest
          | ts => .error (unexpected ts)
      match ts with
      | .flowMappingEnd :: rest => return ([], rest)
      | .key :: rest =>
        let (key, rest) ←
          if missingFlowKey .flowMappingEnd rest then .ok (empty, rest)
          else node handles false false n rest
        let (value, rest) ← flowValue handles .flowMappingEnd n rest
        let (pairs, rest) ← flowPairs handles false n rest
        return ((key, value) :: pairs, rest)
      | ts =>
        let (key, rest) ← node handles false false n ts
        let (pairs, rest) ← flowPairs handles false n rest
        return ((key, empty) :: pairs, rest)

/-- The value of a pair in brackets or braces. -/
def flowValue (handles : Handles) (close : Token) :
    Nat → List Token → Except Fault (Tree × List Token)
  | 0, _ => .error .malformed
  | n + 1, ts =>
    match ts with
    | .value :: rest =>
      if missingFlowValue close rest then .ok (empty, rest) else node handles false false n rest
    | ts => .ok (empty, ts)

end

/-- The handles that directives declare, and whether they give a version, and the tokens behind
them. A document has one version, of the first generation, and declares a handle once. -/
def directives (declared : Handles) (versioned : Bool) :
    List Token → Except Fault (Handles × List Token)
  | .version major :: rest =>
    if versioned || major != 1 then .error .malformed else directives declared true rest
  | .tagHandle h expansion :: rest =>
    if declared.any (·.1 == h) then .error .malformed
    else directives (declared ++ [(h, expansion)]) versioned rest
  | .otherDirective :: rest => directives declared versioned rest
  | ts => .ok (declared, ts)

/-- Whether a document starts with a directive or its mark. -/
def startsExplicitly : List Token → Bool
  | .version _ :: _ | .tagHandle _ _ :: _ | .otherDirective :: _ | .documentStart :: _ => true
  | _ => false

/-- Whether a document that has started is empty. -/
def isEmptyDocument : List Token → Bool
  | [] | .documentEnd :: _ => true
  | ts => startsExplicitly ts

/-- A bound of the depth of the calls. -/
def limit (ts : List Token) : Nat := 4 * ts.length + 8

/-- The first document of tokens, and the tokens behind it. -/
def document (ts : List Token) : Except Fault (Tree × List Token) :=
  if startsExplicitly ts then do
    let (declared, ts) ← directives [] false ts
    match ts with
    | .documentStart :: rest =>
      if isEmptyDocument rest then return (empty, rest)
      else node (declared ++ defaultHandles) true false (limit rest) rest
    | ts => throw (unexpected ts)
  else node defaultHandles true false (limit ts) ts

/-- Tokens behind the marks for the end of a document. -/
def dropEnds : List Token → List Token
  | .documentEnd :: rest => dropEnds rest
  | ts => ts

/-- Nothing stands behind a document. -/
def nothingBehind (ts : List Token) : Except Fault Unit := do
  if !ts.isEmpty then
    let (_, rest) ← directives [] false ts
    throw (unexpected rest)

/-- The tree of tokens, if there is a document. There must not be a second one. -/
def ofTokens (tokens : List Token) : Except Fault (Option Tree) := do
  let ts := withAnchors [] tokens
  if ts.isEmpty then return none
  let (tree, rest) ← document ts
  nothingBehind (dropEnds rest)
  return some tree

end Tree

end ApiDoc.Yaml
