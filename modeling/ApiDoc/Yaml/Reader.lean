import ApiDoc.Yaml.Node
import ApiDoc.Yaml.Scanner

/-!
# Reading YAML

The value of a YAML text. The form of the text comes first: only a text with a document, its
references followed, has values. These are built level by level: a scalar when it is met, the parts
of a list or mapping when all that was met before has been built. So of two faults the one nearer to
the root is told, and of two on one level the first.

Every list, object, set and moment has the number of its node as a mark. A node inside itself stands
for an empty collection.

Main definition: `read`.
-/

namespace ApiDoc.Yaml

/-- What has become of a node. Parts are given by their numbers. -/
inductive Built where
  | atom (a : Atom)
  | list (items : List Nat)
  | pairs (items : List (Nat × Nat))
  | object (entries : List (Atom × Nat))
  | set (items : List Atom)

/-- The state of building: the graph, what has become of its nodes, and the collections that were
met, in this order. -/
structure Builder where
  graph : Graph
  built : Array (Option Built)
  agenda : Array Nat := #[]

namespace Builder

/-- What has become of a node. -/
def built? (b : Builder) (n : Nat) : Option Built := b.built[n]?.join

/-- The builder where a node has become something. -/
def put (b : Builder) (n : Nat) (x : Built) : Builder :=
  { b with built := b.built.setIfInBounds n (some x) }

/-- The atom of a node with the type of a scalar. A moment has to be a scalar itself. -/
def atom (g : Graph) (n : Nat) (type : ScalarType) : Except Fault Atom :=
  match g.text? n with
  | none => .error .malformed
  | some text =>
    if type == .moment && !g.isScalar n then .error .notScalar
    else atomOf (some (.node n)) type text

/-- The builder behind a node that is met. -/
def meet (b : Builder) (n : Nat) : Except Fault Builder :=
  if (b.built? n).isSome then .ok b
  else
    match b.graph.kind n with
    | .scalar type => (atom b.graph n type).map fun a => b.put n (.atom a)
    | .unknown => .error .malformed
    | _ => .ok { b.put n (.list []) with agenda := b.agenda.push n }

/-- The builder behind several nodes. -/
def meetAll (b : Builder) : List Nat → Except Fault Builder
  | [] => .ok b
  | n :: ns => do meetAll (← b.meet n) ns

/-- The builder behind mappings with one entry each, and their entries. -/
def meetPairs (b : Builder) : List Nat → Except Fault (List (Nat × Nat) × Builder)
  | [] => .ok ([], b)
  | n :: ns =>
    match b.graph.content n with
    | .mapping [(k, v)] => do
      let (pairs, b) ← meetPairs (← (← b.meet k).meet v) ns
      return ((k, v) :: pairs, b)
    | _ => .error .malformed

/-- The entries of a mapping that is being built: a key is known by its node and its value. -/
abbrev Keyed := List (Nat × Atom × Nat)

/-- Whether two keys are one. What is not a number equals nothing, but all words for it are one. -/
def sameKey (g : Graph) (n : Nat) (a : Atom) (m : Nat) (c : Atom) : Bool :=
  match a, c with
  | .float .nan, .float .nan =>
    n == m || ((g.text? n).any isNaNWord && (g.text? m).any isNaNWord)
  | a, c => a.same c

/-- Entries with one more. A key that is there already gets the new value. -/
def insertKey (g : Graph) (n : Nat) (a : Atom) (v : Nat) : Keyed → Keyed
  | [] => [(n, a, v)]
  | (m, c, w) :: rest =>
    if sameKey g m c n a then (m, c, v) :: rest else (m, c, w) :: insertKey g n a v rest

/-- The builder behind the entries of a mapping, and the entries. A key is an atom. -/
def meetEntries (b : Builder) (keyed : Keyed) : List (Nat × Nat) → Except Fault (Keyed × Builder)
  | [] => .ok (keyed, b)
  | (k, v) :: rest => do
    let b ← b.meet k
    match b.built? k with
    | some (.atom a) => meetEntries (← b.meet v) (insertKey b.graph k a v keyed) rest
    | _ => throw .malformed

/-- Natural numbers in ascending order; other atoms as they come. -/
def setOrder (items : List Atom) : List Atom :=
  let natural (a : Atom) : Option Nat :=
    match a with
    | .int (.ofNat n) => some n
    | _ => none
  match items.mapM natural with
  | some ns => (ns.mergeSort (· ≤ ·)).map fun (n : Nat) => .int n
  | none => items

/-- The builder where the parts of a collection have been met. -/
def fill (b : Builder) (n : Nat) : Except Fault Builder :=
  match b.graph.kind n, b.graph.content n with
  | .sequence, .sequence items => do return (← b.meetAll items).put n (.list items)
  | .pairs, .sequence items => do
    let (pairs, b) ← b.meetPairs items
    return b.put n (.pairs pairs)
  | .mapping, .mapping _ => do
    let b := { b with graph := ← b.graph.mergeKeys n }
    let (keyed, b) ← b.meetEntries [] (b.graph.entries n)
    return b.put n (.object (keyed.map fun (_, a, v) => (a, v)))
  | .set, .mapping _ => do
    let b := { b with graph := ← b.graph.mergeKeys n }
    let (keyed, b) ← b.meetEntries [] (b.graph.entries n)
    return b.put n (.set (setOrder (keyed.map fun (_, a, _) => a)))
  | _, _ => .error .malformed

/-- The builder behind all collections from a place of the agenda on. The first argument bounds
their number. -/
def run : Nat → Nat → Builder → Except Fault Builder
  | 0, _, b => .ok b
  | fuel + 1, i, b =>
    match b.agenda[i]? with
    | none => .ok b
    | some n => do run fuel (i + 1) (← b.fill n)

/-- The value of a node. `inside` are the nodes that it is inside of. The first argument bounds the
depth. -/
def value (b : Builder) : Nat → List Nat → Nat → Value
  | 0, _, _ => .null
  | fuel + 1, inside, n =>
    let mark := some (Mark.node n)
    let part := value b fuel (n :: inside)
    let again := inside.contains n
    match b.built? n with
    | some (.atom a) => .atom a
    | some (.list items) => .list mark (if again then [] else items.map part)
    | some (.pairs items) =>
      .list mark (if again then [] else items.map fun (k, v) => .pair (part k) (part v))
    | some (.object entries) =>
      .object mark (if again then [] else entries.map fun (k, v) => (k, part v))
    | some (.set items) => .set mark items
    | none => .null

end Builder

/-- The value of the root of a graph. -/
def Graph.value (g : Graph) (root : Nat) : Except Fault Value := do
  let size := g.nodes.size
  let b ← Builder.meet { graph := g, built := Array.replicate size none } root
  let b ← Builder.run (size + 1) 0 b
  return b.value (size + 1) [] root

/-- The value of a text. A text without a document has the empty value. -/
def read (text : List Char) : Except Fault Value := do
  match ← Tree.ofTokens (← scan text) with
  | none => return .null
  | some tree =>
    let (root, graph) := Graph.ofTree tree
    graph.value root

end ApiDoc.Yaml
