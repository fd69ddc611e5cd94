/-!
# Sections of a document

The properties of a document that fragments add to, and how each is merged. A singular spelling of
a property stands for the plural one.
-/

namespace ApiDoc

/-- How a property of a document is merged. -/
inductive SectionKind where
  /-- Objects by name, of which the first one wins. -/
  | map
  /-- Values, each of them once. -/
  | list
  /-- Groups, each name once. -/
  | groups
  /-- Operations by path and method. -/
  | paths
  deriving DecidableEq, Repr

/-- The properties that fragments add to. -/
def sectionKinds : List (String × SectionKind) :=
  [("definitions", .map), ("parameters", .map), ("responses", .map),
    ("securityDefinitions", .map), ("schemas", .map), ("consumes", .list), ("produces", .list),
    ("schemes", .list), ("tags", .groups), ("paths", .paths)]

/-- A name without its last character. -/
def singular (name : String) : String := String.ofList name.toList.dropLast

/-- The plural of a singular spelling; any other name is itself. -/
def pluralKey (name : String) : String :=
  ((sectionKinds.find? fun s => singular s.1 == name).map (·.1)).getD name

/-- How the property of that name is merged. -/
def sectionKind? (name : String) : Option SectionKind :=
  (sectionKinds.find? fun s => s.1 == name).map (·.2)

end ApiDoc
