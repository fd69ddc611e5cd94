import ApiDoc.Cli.Run

/-!
# The program

Reads the part of the file system that a run may look at, runs, and carries out what the run has
changed.
-/

namespace ApiDoc.Program

/-- The places in front of a place, from the outside in. -/
def above (place : List String) : List (List String) :=
  ((List.range place.length).drop 1).map place.take

/-- The text of a place. -/
def placeText (place : List String) : String := (Path.ofPlace place).text

/-- Whether something is in a place, and what. A directory is not looked into. -/
def lookAt (place : List String) : IO (Option FileEntry) := do
  try
    let real ← IO.FS.realPath (placeText place)
    if ← real.isDir then return some .directory
    if ← real.pathExists then return some (.file (← IO.FS.readBinFile real))
    return none
  catch _ => return none

/-- The tree with all that is in a place and below it. Links to directories are not followed. -/
partial def lookBelow (tree : FileTree) (place : List String) : IO FileTree := do
  if (tree.entry? place).isSome && !place.isEmpty then return tree
  match ← lookAt place with
  | none => return tree
  | some (.file bytes) => return tree.put place (.file bytes)
  | some .directory =>
    let mut tree := if place.isEmpty then tree else tree.put place .directory
    let real ← IO.FS.realPath (placeText place)
    if real.toString == placeText place then
      for entry in ← real.readDir do
        tree ← lookBelow tree (place ++ [entry.fileName])
    return tree

/-- The tree with all that is in a place and below it, and the directories in front of it. -/
def look (tree : FileTree) (place : List String) : IO FileTree := do
  let mut tree ← lookBelow tree place
  for outer in above place do
    if (tree.entry? outer).isNone then
      if let some entry ← lookAt outer then tree := tree.put outer entry
  return tree

/-- The components of a pattern in front of the first one that is more than a name. -/
def literalPart (pattern : String) : List String :=
  (Path.ofText pattern).parts.takeWhile fun part => !Wildcard.isPattern part.toList

/-- The part of the file system that a run with some arguments may look at. -/
def treeFor (args : List String) : IO FileTree := do
  let here := (Path.ofText (← IO.currentDir).toString).parts
  let mut tree ← look { entries := [], here := here } here
  for arg in args do
    tree ← look tree ((Path.ofText arg).parent.placeFrom here)
  if let .ok ⟨_, .generate config _ _⟩ := Cli.Invocation.ofArguments tree args then
    if let .ok options := Options.load tree config then
      tree ← look tree (options.basedir.placeFrom here)
      for pattern in options.files do
        if (Path.ofText pattern).isAbsolute then
          tree ← look tree (literalPart pattern).dropLast
  return tree

/-- Carries out what has changed from one tree to another. -/
def carryOut (before after : FileTree) : IO Unit := do
  for (place, entry) in after.entries do
    match entry, before.entry? place with
    | .directory, none => IO.FS.createDirAll (placeText place)
    | .file new, some (.file old) =>
      unless new == old do IO.FS.writeBinFile (placeText place) new
    | .file new, _ => IO.FS.writeBinFile (placeText place) new
    | .directory, some _ => pure ()

/-- The name of a level. -/
def levelName : Level → String
  | .debug => "DEBUG"
  | .info => "INFO"
  | .warning => "WARNING"
  | .error => "ERROR"

end ApiDoc.Program

open ApiDoc ApiDoc.Program in
/-- Runs the program and gives its exit code. -/
def main (args : List String) : IO UInt32 := do
  let tree ← treeFor args
  let outcome := Cli.run tree args
  carryOut tree outcome.tree
  for notice in outcome.notices do
    IO.eprintln (levelName notice.level ++ " " ++ notice.message)
  IO.print outcome.stdout
  IO.eprint outcome.stderr
  if outcome.broken.isSome then IO.eprintln "Error: the run was broken off."
  return outcome.exitCode.toUInt32
