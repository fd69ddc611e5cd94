import ApiDoc.Text.Split

/-!
# Paths

A path is an anchor and components. Repeated slashes and the component `.` say nothing and are
dropped; `..` is kept. Exactly two slashes in front are an anchor of their own.
-/

namespace ApiDoc

/-- Where a path starts. -/
inductive Anchor where
  | here
  | root
  | doubleRoot
  deriving DecidableEq, Repr

/-- The text of an anchor. -/
def Anchor.text : Anchor → String
  | here => ""
  | root => "/"
  | doubleRoot => "//"

/-- A path. -/
structure Path where
  anchor : Anchor
  parts : List String
  deriving DecidableEq, Repr

namespace Path

/-- The anchor of a text. -/
def anchorOf (s : List Char) : Anchor :=
  match (s.takeWhile (· == '/')).length with
  | 0 => .here
  | 2 => .doubleRoot
  | _ => .root

/-- The components of a text. -/
def partsOf (s : List Char) : List String :=
  (((Text.splitAll '/' s).filter fun c => !c.isEmpty && c != ['.']).map String.ofList)

/-- The path of a text. -/
def ofText (s : String) : Path := ⟨anchorOf s.toList, partsOf s.toList⟩

/-- The text of a path. -/
def text (p : Path) : String :=
  match p.anchor, p.parts with
  | .here, [] => "."
  | a, parts => a.text ++ "/".intercalate parts

/-- Whether a path starts at a root. -/
def isAbsolute (p : Path) : Bool := p.anchor != .here

/-- A path seen from another one. -/
def join (p q : Path) : Path :=
  if q.isAbsolute then q else ⟨p.anchor, p.parts ++ q.parts⟩

/-- The path without its last component. -/
def parent (p : Path) : Path := ⟨p.anchor, p.parts.dropLast⟩

/-- The components of a place with a step up for each `..`. -/
def normalize (place : List String) : List String → List String
  | [] => place
  | ".." :: rest => normalize place.dropLast rest
  | part :: rest => normalize (place ++ [part]) rest

/-- The place that a path leads to from a place, whether there is anything or not. -/
def placeFrom (here : List String) (p : Path) : List String :=
  normalize (if p.isAbsolute then [] else here) p.parts

/-- The absolute path of a place. -/
def ofPlace (place : List String) : Path := ⟨.root, place⟩

end Path

end ApiDoc
