import ApiDoc.Yaml.Resolve
import ApiDoc.Yaml.Tree

/-!
# The graph of a document

The nodes of a document by their numbers. A node holds its parts by their numbers too, and an alias
has become the number of the node with its anchor; so one node in two places is known as one, and a
node may be a part of itself.

A mapping may merge other mappings under the key `<<`. What is merged stands in front, and of two
entries with one key the last one counts, so a mapping's own entries win over merged ones, and in a
list the mappings in front over those behind them. The key `=` is a text in a mapping that is read
as such.

Main definitions: `Graph.ofTree` and `Graph.mergeKeys`.
-/

namespace ApiDoc.Yaml

/-- What a tag says about a node. -/
inductive Kind where
  | scalar (type : ScalarType)
  | sequence
  | mapping
  /-- The keys of a mapping. -/
  | set
  /-- A list of mappings with one entry each, read as a list of pairs. -/
  | pairs
  /-- A tag without a meaning. -/
  | unknown
  deriving DecidableEq

/-- The meaning of a tag. -/
def kindOfTag : String → Kind
  | "tag:yaml.org,2002:null" => .scalar .null
  | "tag:yaml.org,2002:bool" => .scalar .bool
  | "tag:yaml.org,2002:int" => .scalar .int
  | "tag:yaml.org,2002:float" => .scalar .float
  | "tag:yaml.org,2002:timestamp" => .scalar .moment
  | "tag:yaml.org,2002:str" => .scalar .text
  | "tag:yaml.org,2002:binary" => .scalar .bytes
  | "tag:yaml.org,2002:merge" => .scalar .merge
  | "tag:yaml.org,2002:value" => .scalar .default
  | "tag:yaml.org,2002:seq" => .sequence
  | "tag:yaml.org,2002:map" => .mapping
  | "tag:yaml.org,2002:set" => .set
  | "tag:yaml.org,2002:omap" | "tag:yaml.org,2002:pairs" => .pairs
  | _ => .unknown

/-- What a node is by its tag, or without one. -/
def kindOf (tag : Option String) (untagged : Kind) : Kind :=
  match tag with
  | none | some "!" => untagged
  | some t => kindOfTag t

/-- What a node holds. -/
inductive Content where
  | scalar (text : String)
  | sequence (items : List Nat)
  | mapping (entries : List (Nat × Nat))

/-- A node. -/
structure Node where
  kind : Kind
  content : Content

/-- The nodes of a document, and the numbers of those with an anchor. -/
structure Graph where
  nodes : Array Node := #[]
  anchors : List (String × Nat) := []

namespace Graph

/-- The kind of a node. -/
def kind (g : Graph) (n : Nat) : Kind := (g.nodes[n]?.map (·.kind)).getD .unknown

/-- What a node holds. -/
def content (g : Graph) (n : Nat) : Content :=
  (g.nodes[n]?.map (·.content)).getD (.sequence [])

/-- The entries of a mapping. -/
def entries (g : Graph) (n : Nat) : List (Nat × Nat) :=
  match g.content n with
  | .mapping es => es
  | _ => []

/-- The graph with another content of a node. -/
def setContent (g : Graph) (n : Nat) (content : Content) : Graph :=
  { g with nodes := g.nodes.modify n fun node => { node with content := content } }

/-- The graph with another kind of a node. -/
def setKind (g : Graph) (n : Nat) (kind : Kind) : Graph :=
  { g with nodes := g.nodes.modify n fun node => { node with kind := kind } }

/-! ## From a tree -/

/-- The graph with one node more, and its number. -/
def add (g : Graph) (anchor : Option String) (node : Node) : Nat × Graph :=
  let n := g.nodes.size
  (n, { nodes := g.nodes.push node
        anchors := (anchor.toList.map fun a => (a, n)) ++ g.anchors })

mutual

/-- The graph with the nodes of a tree, and the number of its root. -/
def addTree (g : Graph) : Tree → Nat × Graph
  | .alias name =>
    match g.anchors.find? (·.1 == name) with
    | some (_, n) => (n, g)
    | none => g.add none ⟨.unknown, .scalar ""⟩
  | .scalar props text plain =>
    let untagged := if plain || props.tag == some "!" then typeOf text else .text
    g.add props.anchor ⟨kindOf props.tag (.scalar untagged), .scalar text⟩
  | .sequence props trees =>
    let (n, g) := g.add props.anchor ⟨kindOf props.tag .sequence, .sequence []⟩
    let (items, g) := addTrees g trees
    (n, g.setContent n (.sequence items))
  | .mapping props trees =>
    let (n, g) := g.add props.anchor ⟨kindOf props.tag .mapping, .mapping []⟩
    let (entries, g) := addPairs g trees
    (n, g.setContent n (.mapping entries))

/-- The graph with the nodes of trees, and the numbers of their roots. -/
def addTrees (g : Graph) : List Tree → List Nat × Graph
  | [] => ([], g)
  | t :: ts =>
    let (n, g) := addTree g t
    let (ns, g) := addTrees g ts
    (n :: ns, g)

/-- The graph with the nodes of pairs of trees, and the numbers of their roots. -/
def addPairs (g : Graph) : List (Tree × Tree) → List (Nat × Nat) × Graph
  | [] => ([], g)
  | (k, v) :: rest =>
    let (kn, g) := addTree g k
    let (vn, g) := addTree g v
    let (ns, g) := addPairs g rest
    ((kn, vn) :: ns, g)

end

/-- The graph of a tree, whose root has the number zero unless it is an alias. -/
def ofTree (t : Tree) : Nat × Graph := addTree {} t

/-! ## Merging -/

/-- A bound of the steps that merging takes. -/
def mergeLimit (g : Graph) : Nat :=
  let size := (List.range g.nodes.size).foldl (fun k n => k + 1 + (g.entries n).length) 2
  size * size * size

mutual

/-- The graph where a mapping has taken in all that it merges, from an entry on. The entries found
so far come in front at the end. The first argument bounds the steps. -/
def mergeFrom : Nat → Nat → Nat → List (Nat × Nat) → Graph → Except Fault Graph
  | 0, _, _, _, _ => .error .malformed
  | fuel + 1, n, index, merged, g =>
    match (g.entries n)[index]? with
    | none => .ok (if merged.isEmpty then g else g.setContent n (.mapping (merged ++ g.entries n)))
    | some (k, v) =>
      if g.kind k == .scalar .merge then
        let g := g.setContent n (.mapping ((g.entries n).eraseIdx index))
        match g.content v with
        | .mapping _ =>
          match mergeFrom fuel v 0 [] g with
          | .error e => .error e
          | .ok g => mergeFrom fuel n index (merged ++ g.entries v) g
        | .sequence items =>
          match mergeEach fuel items g with
          | .error e => .error e
          | .ok g => mergeFrom fuel n index (merged ++ items.reverse.flatMap g.entries) g
        | .scalar _ => .error .malformed
      else if g.kind k == .scalar .default then
        mergeFrom fuel n (index + 1) merged (g.setKind k (.scalar .text))
      else mergeFrom fuel n (index + 1) merged g

/-- The graph where several mappings have taken in all that they merge. -/
def mergeEach : Nat → List Nat → Graph → Except Fault Graph
  | 0, _, _ => .error .malformed
  | _ + 1, [], g => .ok g
  | fuel + 1, n :: rest, g =>
    match g.content n with
    | .mapping _ =>
      match mergeFrom fuel n 0 [] g with
      | .error e => .error e
      | .ok g => mergeEach fuel rest g
    | _ => .error .malformed

end

/-- Whether a key of a mapping has a meaning of its own. -/
def isSpecial (g : Graph) (k : Nat) : Bool :=
  g.kind k == .scalar .merge || g.kind k == .scalar .default

/-- The graph where a mapping has taken in all that it merges. -/
def mergeKeys (g : Graph) (n : Nat) : Except Fault Graph :=
  if (g.entries n).any fun e => g.isSpecial e.1 then mergeFrom g.mergeLimit n 0 [] g else .ok g

/-- The text of a node that stands for a scalar: a scalar, or a mapping with the key `=`. The first
argument bounds the depth. -/
def textWithin (g : Graph) : Nat → Nat → Option String
  | 0, _ => none
  | fuel + 1, n =>
    match g.content n with
    | .scalar text => some text
    | .sequence _ => none
    | .mapping entries =>
      match entries.find? fun e => g.kind e.1 == .scalar .default with
      | some (_, v) => textWithin g fuel v
      | none => none

/-- The text of a node that stands for a scalar. -/
def text? (g : Graph) (n : Nat) : Option String := g.textWithin (g.nodes.size + 1) n

/-- Whether a node is a scalar. -/
def isScalar (g : Graph) (n : Nat) : Bool :=
  match g.content n with
  | .scalar _ => true
  | _ => false

end Graph

end ApiDoc.Yaml
