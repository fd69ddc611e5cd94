import ApiDoc.File.Tree
import ApiDoc.File.Wildcard

/-!
# Finding files

A pattern for paths has one step for each component: a name, a wildcard pattern, or `**` for any
depth of directories. The files of a list of patterns come pattern by pattern, those of one pattern
in the order of their components, and every file once.

Main definition: `FileTree.glob`.
-/

namespace ApiDoc

/-- Why a pattern cannot be used. -/
inductive GlobFault where
  /-- The pattern is empty, or `**` is only a part of a component. -/
  | unacceptable
  /-- The pattern has no component. -/
  | noComponent
  /-- The pattern has no component and asks for a directory. -/
  | onlySlash
  deriving DecidableEq, Repr

/-- A step of a pattern. -/
inductive GlobStep where
  | name (n : String)
  | matching (ps : List Wildcard)
  | anyDepth

namespace GlobStep

/-- The step of a component. -/
def ofPart (part : String) : Except GlobFault GlobStep :=
  if part == "**" then .ok .anyDepth
  else if Text.occursIn ['*', '*'] part.toList then .error .unacceptable
  else if Wildcard.isPattern part.toList then .ok (.matching (Wildcard.parse part.toList))
  else .ok (.name part)

end GlobStep

/-- A pattern for paths. One that ends with a slash asks for directories. -/
structure GlobPattern where
  steps : List GlobStep
  directoryOnly : Bool

/-- The pattern of a text. -/
def GlobPattern.ofText (s : String) : Except GlobFault GlobPattern := do
  if s.isEmpty then throw .unacceptable
  let directoryOnly := s.toList.getLast? == some '/'
  let steps ← (Path.partsOf s.toList).mapM GlobStep.ofPart
  if steps.isEmpty then throw (if directoryOnly then .onlySlash else .noComponent)
  return ⟨steps, directoryOnly⟩

/-- A place that was found, and the components that led to it. -/
structure Found where
  parts : List String
  place : List String
  deriving DecidableEq

namespace FileTree

/-- The place with a name, if it is there; if steps follow, it has to be a directory. -/
def child? (tree : FileTree) (directoryOnly : Bool) (origin : Found) (name : String) :
    Option Found :=
  match tree.walk origin.place [name] with
  | .ok place =>
    if !directoryOnly || tree.isDirectory place then some ⟨origin.parts ++ [name], place⟩ else none
  | .error _ => none

/-- A list without repetitions. -/
def distinct (fs : List Found) : List Found :=
  fs.foldl (fun seen f => if seen.contains f then seen else seen ++ [f]) []

/-- What steps lead to from a directory. -/
def select (tree : FileTree) (directoryOnly : Bool) : List GlobStep → Found → List Found
  | [], f => [f]
  | .name n :: rest, f =>
    match tree.child? (directoryOnly || !rest.isEmpty) f n with
    | some g => tree.select directoryOnly rest g
    | none => []
  | .matching ps :: rest, f =>
    (((tree.names f.place).filter fun n => Wildcard.accepts ps n.toList).filterMap
      (tree.child? (directoryOnly || !rest.isEmpty) f)).flatMap (tree.select directoryOnly rest)
  | .anyDepth :: rest, f =>
    distinct ((tree.directoriesBelow f.place).flatMap fun way =>
      tree.select directoryOnly rest ⟨f.parts ++ way, f.place ++ way⟩)

/-- Whether components come before others or are the same. -/
def partsLe : List String → List String → Bool
  | [], _ => true
  | _ :: _, [] => false
  | a :: as, b :: bs => if a < b then true else if b < a then false else partsLe as bs

/-- The places that a pattern leads to from a base, in the order of their components. -/
def matching (tree : FileTree) (base : Path) (pattern : String) :
    Except GlobFault (List Found) := do
  let p := Path.ofText pattern
  let base := if p.isAbsolute then ⟨p.anchor, []⟩ else base
  let pattern := if p.isAbsolute then (Path.mk .here p.parts).text else pattern
  let g ← GlobPattern.ofText pattern
  match tree.locate base with
  | .error _ => return []
  | .ok place =>
    if tree.isDirectory place then
      return (tree.select g.directoryOnly g.steps ⟨[], place⟩).mergeSort
        fun a b => partsLe a.parts b.parts
    else return []

/-- Files with those of a list that are not among them. -/
def addFiles (tree : FileTree) (files : List (List String)) : List Found → List (List String)
  | [] => files
  | f :: rest =>
    if tree.isFile f.place && !files.contains f.place then tree.addFiles (files ++ [f.place]) rest
    else tree.addFiles files rest

/-- Files with those of patterns, one after another. -/
def globFrom (tree : FileTree) (base : Path) (files : List (List String)) :
    List String → Except GlobFault (List (List String))
  | [] => .ok files
  | pattern :: rest => do
    tree.globFrom base (tree.addFiles files (← tree.matching base pattern)) rest

/-- The places of the files that patterns lead to from a base. -/
def glob (tree : FileTree) (base : Path) (patterns : List String) :
    Except GlobFault (List (List String)) :=
  tree.globFrom base [] patterns

end FileTree

end ApiDoc
