import ApiDoc.File.Path

/-!
# File trees

A file tree is a list of places with what is there: a file with its bytes, or a directory. A place
is the list of names from the root to it. There are no links, so every path that leads somewhere
leads to one place.
-/

namespace ApiDoc

/-- What is in a place. -/
inductive FileEntry where
  | file (content : ByteArray)
  | directory

/-- Why a file cannot be used. -/
inductive FileFault where
  | notFound
  | notDirectory
  | isDirectory
  | alreadyExists
  /-- A name holds a character that no name can hold. -/
  | badName
  deriving DecidableEq, Repr

/-- Whether no file can have a name. -/
def isBadName (name : String) : Bool := name.toList.any (·.toNat == 0)

/-- A file tree, and the place that relative paths start from. -/
structure FileTree where
  entries : List (List String × FileEntry)
  here : List String

namespace FileTree

/-- What is in a place. The root is always a directory. -/
def entry? (tree : FileTree) (place : List String) : Option FileEntry :=
  if place.isEmpty then some .directory
  else (tree.entries.find? fun e => e.1 == place).map (·.2)

/-- Whether there is a directory in a place. -/
def isDirectory (tree : FileTree) (place : List String) : Bool :=
  match tree.entry? place with
  | some .directory => true
  | _ => false

/-- Whether there is a file in a place. -/
def isFile (tree : FileTree) (place : List String) : Bool :=
  match tree.entry? place with
  | some (.file _) => true
  | _ => false

/-- The place that components lead to from a place. Every component, `.` and the empty one
included, has to be looked up in a directory. -/
def walk (tree : FileTree) (place : List String) : List String → Except FileFault (List String)
  | [] => .ok place
  | part :: rest =>
    if !tree.isDirectory place then .error .notDirectory
    else if part == "" || part == "." then walk tree place rest
    else if part == ".." then walk tree place.dropLast rest
    else if (tree.entry? (place ++ [part])).isNone then .error .notFound
    else walk tree (place ++ [part]) rest

/-- Where a path starts. -/
def start (tree : FileTree) (p : Path) : List String := if p.isAbsolute then [] else tree.here

/-- The place that a path leads to. -/
def locate (tree : FileTree) (p : Path) : Except FileFault (List String) :=
  if p.parts.any isBadName then .error .badName else tree.walk (tree.start p) p.parts

/-- The place that a text leads to as it is written, where a slash at the end asks for a
directory. -/
def locateText (tree : FileTree) (s : String) : Except FileFault (List String) :=
  if isBadName s then .error .badName
  else if s.isEmpty then .error .notFound
  else
    let parts := (Text.splitAll '/' s.toList).map String.ofList
    tree.walk (if (Path.ofText s).isAbsolute then [] else tree.here) parts

/-- The bytes of the file that a path leads to. -/
def read (tree : FileTree) (p : Path) : Except FileFault ByteArray := do
  let place ← tree.locate p
  match tree.entry? place with
  | some (.file content) => return content
  | some .directory => throw .isDirectory
  | none => throw .notFound

/-- The tree with something in a place. -/
def put (tree : FileTree) (place : List String) (entry : FileEntry) : FileTree :=
  { tree with entries := (tree.entries.filter fun e => e.1 != place) ++ [(place, entry)] }

/-- The tree with a new directory. What holds it has to be there, and nothing else in its place. -/
def makeDirectory (tree : FileTree) (p : Path) : Except FileFault FileTree := do
  let place ← tree.locate p.parent
  if !tree.isDirectory place then throw .notDirectory
  match p.parts.getLast? with
  | none => throw .alreadyExists
  | some name =>
    if isBadName name then throw .badName
    if name == ".." || (tree.entry? (place ++ [name])).isSome then throw .alreadyExists
    return tree.put (place ++ [name]) .directory

/-- The tree with a directory, where one that is there already does as well. -/
def ensureDirectory (tree : FileTree) (p : Path) : Except FileFault FileTree :=
  match tree.makeDirectory p with
  | .ok tree => .ok tree
  | .error e =>
    match tree.locate p with
    | .ok place => if tree.isDirectory place then .ok tree else .error e
    | .error _ => .error e

/-- The tree with directories all along a path, and the fault if there is one. The components are
given from the last to the first. -/
def makeDirectories (tree : FileTree) (anchor : Anchor) :
    List String → FileTree × Option FileFault
  | [] => (tree, none)
  | part :: above =>
    let p : Path := ⟨anchor, (part :: above).reverse⟩
    match tree.ensureDirectory p with
    | .ok tree => (tree, none)
    | .error .notFound =>
      match tree.makeDirectories anchor above with
      | (tree, some e) => (tree, some e)
      | (tree, none) =>
        match tree.ensureDirectory p with
        | .ok tree => (tree, none)
        | .error e => (tree, some e)
    | .error e => (tree, some e)

/-- The tree with a file, whose directory has to be there. -/
def write (tree : FileTree) (p : Path) (content : ByteArray) : Except FileFault FileTree := do
  let place ← tree.locate p.parent
  if !tree.isDirectory place then throw .notDirectory
  match p.parts.getLast? with
  | none => throw .isDirectory
  | some name =>
    if isBadName name then throw .badName
    if name == ".." || tree.isDirectory (place ++ [name]) then throw .isDirectory
    return tree.put (place ++ [name]) (.file content)

/-- The names in a directory. -/
def names (tree : FileTree) (place : List String) : List String :=
  tree.entries.filterMap fun e =>
    if e.1.dropLast == place then e.1.getLast? else none

/-- The components that stand behind a place in another one. -/
def below? : List String → List String → Option (List String)
  | [], rest => some rest
  | _ :: _, [] => none
  | a :: as, b :: bs => if a == b then below? as bs else none

/-- The ways from a place to the directories in it at any depth, itself included. -/
def directoriesBelow (tree : FileTree) (place : List String) : List (List String) :=
  [] :: tree.entries.filterMap fun e =>
    match e.2 with
    | .directory => (below? place e.1).filter (!·.isEmpty)
    | .file _ => none

end FileTree

end ApiDoc
