import ApiDoc.Comment.Reader
import ApiDoc.Document.Deprecated
import ApiDoc.Document.Merge
import ApiDoc.File.Glob
import ApiDoc.Fragment
import ApiDoc.Options

/-!
# Documents of source files

A document is made by merging the fragments of all tagged comment blocks, file by file and block by
block, into what the options give. A block that cannot be merged is reported, and the rest goes on.

Main definition: `Options.generate`.
-/

namespace ApiDoc

/-- Why a document cannot be made at all. -/
inductive GenerateFault where
  | seed (fault : MergeFault)
  | glob (fault : GlobFault)

namespace Value

mutual

/-- A value with a mark on every list and object of it that has none, counted from a number on, and
the next number. -/
def numbered (block next : Nat) : Value → Value × Nat
  | .list none items =>
    let (items, last) := numberedItems block (next + 1) items
    (.list (some (.part block next)) items, last)
  | .object none entries =>
    let (entries, last) := numberedEntries block (next + 1) entries
    (.object (some (.part block next)) entries, last)
  | v => (v, next)

/-- The items of a list with marks. -/
def numberedItems (block next : Nat) : List Value → List Value × Nat
  | [] => ([], next)
  | v :: rest =>
    let (v, next) := numbered block next v
    let (rest, next) := numberedItems block next rest
    (v :: rest, next)

/-- The entries of an object with marks. -/
def numberedEntries (block next : Nat) : List (Atom × Value) → List (Atom × Value) × Nat
  | [] => ([], next)
  | (k, v) :: rest =>
    let (v, next) := numbered block next v
    let (rest, next) := numberedEntries block next rest
    ((k, v) :: rest, next)

end

end Value

/-- A document, and what was reported while it was made. -/
structure Drafted where
  document : Value
  notices : List Notice := []

namespace Document

/-- A document with a fragment of one block merged into it. The number tells the objects of one
block from those of another: a section that stands in two places may be copied in one of them, and
what both hold then is still one object. -/
def addBlock (path : String) (number : Nat) (document : Value) (b : Block) : Drafted :=
  match Fragment.ofBlock (fun code => some (.headers number code)) b with
  | .error fault =>
    ⟨document, Fragment.notices b ++ [.blockFailed path b.source (.format fault)]⟩
  | .ok fragment =>
    let merged := add document (.array [(fragment.toValue.numbered number 0).1])
    ⟨merged.value, Fragment.notices b ++
      merged.fault.elim [] fun fault => [.blockFailed path b.source (.merge fault)]⟩

/-- A document with the fragments of blocks. -/
def addBlocks (path : String) (number : Nat) (document : Value) : List Block → Drafted
  | [] => ⟨document, []⟩
  | b :: rest =>
    let first := addBlock path number document b
    let last := addBlocks path (number + 1) first.document rest
    ⟨last.document, first.notices ++ last.notices⟩

/-- The blocks of a text that have tags. -/
def taggedBlocks (text : List Char) : List Block :=
  (Comment.blocks text).filter (!·.tags.isEmpty)

/-- A document with the blocks of source texts, each with its path. -/
def addSources (number : Nat) (document : Value) : List (String × List Char) → Drafted
  | [] => ⟨document, []⟩
  | (path, text) :: rest =>
    let blocks := taggedBlocks text
    let first := addBlocks path number document blocks
    let last := addSources (number + blocks.length) first.document rest
    ⟨last.document, Comment.notices text ++ [.blocksFound path blocks.length] ++ first.notices ++
      last.notices⟩

end Document

/-- The text of a source file. Bytes that are no text are replaced. -/
def FileTree.sourceText (tree : FileTree) (place : List String) : List Char :=
  match tree.entry? place with
  | some (.file bytes) => Text.lineFeeds (Text.decodeLenient bytes)
  | _ => []

/-- The deprecated keys of a document, as texts. -/
def Document.deprecatedNames (allowFlags : Bool) (document : Value) : List String :=
  (deprecatedKeys allowFlags [document]).map keyName

/-- What came of the attempt to make a document. -/
structure Generated where
  notices : List Notice
  document : Except GenerateFault Value

/-- The document of the source files that options name. -/
def Options.generate (tree : FileTree) (options : Options) : Generated :=
  let seed := Value.map options.definition
  let warnings := (Document.deprecatedNames false seed).map .deprecatedProperty
  match Document.ofSeed seed with
  | .error fault => ⟨warnings, .error (.seed fault)⟩
  | .ok document =>
    match tree.glob options.basedir options.files with
    | .error fault => ⟨warnings, .error (.glob fault)⟩
    | .ok places =>
      let sources := places.map fun place => ((Path.ofPlace place).text, tree.sourceText place)
      let drafted := Document.addSources 0 document sources
      ⟨warnings ++ [.filesFound places.length] ++ drafted.notices, .ok drafted.document⟩

end ApiDoc
