/-!
# Faults of a comment block

Why a comment block is left out of the document: it cannot be read as a definition or as
operations, or what it says cannot be merged into the document.
-/

namespace ApiDoc

/-- Why a comment block cannot be turned into a fragment. -/
inductive FormatFault where
  /-- A definition has no name. -/
  | typedefUnnamed
  /-- A property of a definition has no name. -/
  | propertyUnnamed (typedef : String)
  /-- A tag has no meaning inside an operation. -/
  | notForOperation (title : String)
  /-- An integer of a security requirement has too many digits. -/
  | longInteger
  deriving DecidableEq, Repr

/-- The wording of a fault, if it has one. -/
def FormatFault.message? : FormatFault → Option String
  | .typedefUnnamed => some "typedef without a name"
  | .propertyUnnamed typedef => some ("property without a name in typedef " ++ typedef)
  | .notForOperation title => some ("@" ++ title ++ " cannot be attached to an operation")
  | .longInteger => none

/-- Why a fragment cannot be merged into a document. -/
inductive MergeFault where
  /-- There is no document or there are no fragments. -/
  | missingInput
  /-- A fragment has a property that documents do not have. -/
  | unsupported (property : String)
  /-- A value is not of the kind that has the wanted operation: an object was needed to look up
  or to enumerate entries, or a list to append to. -/
  | lacking
  /-- A value cannot be searched, enumerated or used as a key. -/
  | unsuitable
  /-- A list that should hold pairs holds an item that is no pair. -/
  | notPair
  deriving DecidableEq, Repr

/-- The wording of a fault, if it has one. -/
def MergeFault.message? : MergeFault → Option String
  | .missingInput => some "document and fragments are required"
  | .unsupported property => some ("Unsupported fragment property: " ++ property)
  | _ => none

/-- Why a comment block is left out of the document. -/
inductive BlockFault where
  | format (fault : FormatFault)
  | merge (fault : MergeFault)
  deriving DecidableEq, Repr

end ApiDoc
