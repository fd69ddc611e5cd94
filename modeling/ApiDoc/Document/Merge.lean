import ApiDoc.Document.Section
import ApiDoc.Fault
import ApiDoc.Text.Split
import ApiDoc.Value.Basic

/-!
# Merging fragments into a document

A document starts from a seed and takes in fragments, property by property. Neither need have the
shape of a document: a merge goes as far as it can, and when it fails it keeps what it has merged
so far. So every step gives the new document and, if it failed, the fault.

A section of the document may occur in several places as one object. What is merged into it then
shows in all of them; `Value.refresh` sees to that.

Main definitions: `Document.ofSeed` and `Document.add`.
-/

namespace ApiDoc

namespace Value

mutual

/-- The value with another object in every place of the object with a mark. -/
def refresh (mark : Mark) (object : Value) : Value → Value
  | .atom a => .atom a
  | .list m items =>
    if m = some mark then object else .list m (refreshItems mark object items)
  | .object m entries =>
    if m = some mark then object else .object m (refreshEntries mark object entries)
  | .pair a b => .pair (refresh mark object a) (refresh mark object b)
  | .set m items => if m = some mark then object else .set m items

/-- The items with another object in every place of the object with a mark. -/
def refreshItems (mark : Mark) (object : Value) : List Value → List Value
  | [] => []
  | v :: rest => refresh mark object v :: refreshItems mark object rest

/-- The entries with another object in every place of the object with a mark. -/
def refreshEntries (mark : Mark) (object : Value) : List (Atom × Value) → List (Atom × Value)
  | [] => []
  | (k, v) :: rest => (k, refresh mark object v) :: refreshEntries mark object rest

end

/-- What an enumeration of a value gives: the items of a list, a pair or a set, the keys of an
object, the characters of a text, the numbers of bytes. -/
def elements? : Value → Option (List Value)
  | .list _ items => some items
  | .object _ entries => some (entries.map fun e => .atom e.1)
  | .pair a b => some [a, b]
  | .set _ items => some (items.map .atom)
  | .text s => some (s.toList.map fun c => .text (String.singleton c))
  | .atom (.bytes bs) => some (bs.map fun b => .int b.toNat)
  | .atom _ => none

/-- The items of a list; any other value is a single item. -/
def itemsOrSelf : Value → List Value
  | .list _ items => items
  | v => [v]

end Value

/-- What is there after a merge, and the fault if it did not go through. -/
structure Merged where
  value : Value
  fault : Option MergeFault

namespace Document

/-- Further entries under names that a map does not have yet. -/
def addNew (entries : List (Atom × Value)) : List (Atom × Value) → List (Atom × Value)
  | [] => entries
  | (k, v) :: rest => addNew (Assoc.insertNew k v entries) rest

/-- A map with the entries of a value; names that it has already keep what they have. -/
def mergeMap (target value : Value) : Merged :=
  match value with
  | .object _ new =>
    match target with
    | .object m entries => ⟨.object m (addNew entries new), none⟩
    | _ => ⟨target, if new.isEmpty then none else some .lacking⟩
  | _ => ⟨target, some .lacking⟩

/-- Whether a value is among the elements of a target. In a text that is a part of it. -/
def contains (target item : Value) : Except MergeFault Bool :=
  match target with
  | .list _ items => .ok (items.any (·.alike item))
  | .object _ entries =>
    match item with
    | .atom a => .ok (Assoc.has a entries)
    | _ => .error .unsuitable
  | .text s =>
    match item with
    | .text part => .ok (Text.occursIn part.toList s.toList)
    | _ => .error .unsuitable
  | .pair a b => .ok (a.alike item || b.alike item)
  | .set _ items =>
    match item with
    | .atom a => .ok (items.any (· == a))
    | _ => .error .unsuitable
  | .atom _ => .error .unsuitable

/-- A list with one item more. -/
def append (target item : Value) : Except MergeFault Value :=
  match target with
  | .list m items => .ok (.list m (items ++ [item]))
  | _ => .error .lacking

/-- A list with the items that it does not hold yet. -/
def addItems (target : Value) : List Value → Merged
  | [] => ⟨target, none⟩
  | item :: rest =>
    match contains target item with
    | .error fault => ⟨target, some fault⟩
    | .ok true => addItems target rest
    | .ok false =>
      match append target item with
      | .error fault => ⟨target, some fault⟩
      | .ok target => addItems target rest

/-- A list with the values of another. -/
def mergeList (target value : Value) : Merged := addItems target value.itemsOrSelf

/-- The name of a group, empty if it has none. -/
def groupName (entries : List (Atom × Value)) : Value :=
  (Assoc.get? (.text "name") entries).getD .null

/-- Whether one of the groups has the name of a group. -/
def anyNamed (group : Value) : List Value → Except MergeFault Bool
  | [] => .ok false
  | existing :: rest =>
    match existing, group with
    | .object _ es, .object _ gs =>
      if (groupName es).same (groupName gs) then .ok true else anyNamed group rest
    | _, _ => .error .lacking

/-- Whether the groups of a document have one with the name of a group. -/
def hasGroup (target group : Value) : Except MergeFault Bool :=
  match target.elements? with
  | some existing => anyNamed group existing
  | none => .error .unsuitable

/-- Groups with those whose names are not there yet; what counts as nothing is passed over. -/
def addGroups (target : Value) : List Value → Merged
  | [] => ⟨target, none⟩
  | group :: rest =>
    if group.isTruthy then
      match hasGroup target group with
      | .error fault => ⟨target, some fault⟩
      | .ok true => addGroups target rest
      | .ok false =>
        match append target group with
        | .error fault => ⟨target, some fault⟩
        | .ok target => addGroups target rest
    else addGroups target rest

/-- Groups with those of a value. -/
def mergeGroups (target value : Value) : Merged := addGroups target value.itemsOrSelf

/-- The entries of pairs, the first of which is a key and has to be an atom. -/
def pairs (entries : List (Atom × Value)) : List Value →
    Except MergeFault (List (Atom × Value))
  | [] => .ok entries
  | item :: rest =>
    match item.elements? with
    | none => .error .unsuitable
    | some [.atom key, value] => pairs (Assoc.insert key value entries) rest
    | some [_, _] => .error .unsuitable
    | some _ => .error .notPair

/-- The entries of a value that is an object or a sequence of pairs. -/
def entriesOf (v : Value) : Except MergeFault (List (Atom × Value)) :=
  match v with
  | .object _ entries => .ok entries
  | v =>
    match v.elements? with
    | some items => pairs [] items
    | none => .error .unsuitable

/-- One operation on top of another: fields of the second win, if both are objects. -/
def overlay (existing : Option Value) (operation : Value) : Value :=
  match existing, operation with
  | some (.object _ old), .object _ new => .map (Assoc.update old new)
  | _, _ => operation

/-- Methods with the operations of others. -/
def mergeMethods (methods : List (Atom × Value)) : List (Atom × Value) → List (Atom × Value)
  | [] => methods
  | (method, operation) :: rest =>
    mergeMethods (Assoc.insert method (overlay (Assoc.get? method methods) operation) methods) rest

/-- The methods of one path with those of a value. -/
def mergePath (existing : Option Value) (methods : Value) : Except MergeFault Value :=
  match entriesOf (existing.getD (.map [])) with
  | .error fault => .error fault
  | .ok old =>
    match methods with
    | .object _ new => .ok (.map (mergeMethods old new))
    | _ => .error .lacking

/-- Paths with further ones, one after another. -/
def addPaths (mark : Option Mark) (paths : List (Atom × Value)) : List (Atom × Value) → Merged
  | [] => ⟨.object mark paths, none⟩
  | (uri, methods) :: rest =>
    match mergePath (Assoc.get? uri paths) methods with
    | .error fault => ⟨.object mark paths, some fault⟩
    | .ok merged => addPaths mark (Assoc.insert uri merged paths) rest

/-- Paths with those of a value. -/
def mergePaths (target value : Value) : Merged :=
  match value with
  | .object _ new =>
    match target with
    | .object m paths => addPaths m paths new
    | _ => ⟨target, if new.isEmpty then none else some .lacking⟩
  | _ => ⟨target, some .lacking⟩

/-- A section with what a fragment has for it. -/
def mergeSection : SectionKind → Value → Value → Merged
  | .map => mergeMap
  | .list => mergeList
  | .groups => mergeGroups
  | .paths => mergePaths

/-- What a section of a kind is when the document has none. -/
def emptySection : SectionKind → Value
  | .map | .paths => .map []
  | .list | .groups => .array []

/-- The entries of a document with a changed section. If the section has a mark, the change shows
in every place of it. -/
def putSection (key : String) (old new : Value) (entries : List (Atom × Value)) :
    List (Atom × Value) :=
  let entries := Assoc.insert (.text key) new entries
  match old.mark? with
  | some mark => Value.refreshEntries mark new entries
  | none => entries

/-- A document with one property of a fragment. -/
def addProperty (document : Value) (key : String) (kind : SectionKind) (value : Value) : Merged :=
  match document with
  | .object m entries =>
    let old := (Assoc.get? (.text key) entries).getD (emptySection kind)
    let merged := mergeSection kind old value
    ⟨.object m (putSection key old merged.value entries), merged.fault⟩
  | _ => ⟨document, some .lacking⟩

/-- The property that a key names. -/
def propertyOf? : Atom → Option (String × SectionKind)
  | .text name => (sectionKind? (pluralKey name)).map fun kind => (pluralKey name, kind)
  | _ => none

/-- The text of a key in a message. -/
def keyName : Atom → String
  | .text name => name
  | _ => ""

/-- A document with the properties of a fragment, one after another. -/
def addProperties (document : Value) : List (Atom × Value) → Merged
  | [] => ⟨document, none⟩
  | (name, value) :: rest =>
    match propertyOf? name with
    | none => ⟨document, some (.unsupported (keyName name))⟩
    | some (key, kind) =>
      match addProperty document key kind value with
      | ⟨document, none⟩ => addProperties document rest
      | failed => failed

/-- A document with fragments, one after another. -/
def addFragments (document : Value) : List Value → Merged
  | [] => ⟨document, none⟩
  | .object _ properties :: rest =>
    match addProperties document properties with
    | ⟨document, none⟩ => addFragments document rest
    | failed => failed
  | _ :: _ => ⟨document, some .lacking⟩

/-- A document with what an enumeration of a value gives. -/
def add (document fragments : Value) : Merged :=
  if document.isNull || fragments.isNull then ⟨document, some .missingInput⟩
  else
    match fragments.elements? with
    | some items => addFragments document items
    | none => ⟨document, some .unsuitable⟩

/-- The sections that every document has, besides its version. -/
def initialSections : List (String × Value) :=
  [("paths", .map []), ("responses", .map []), ("parameters", .map []),
    ("securityDefinitions", .map []), ("tags", .array []), ("definitions", .map [])]

/-- Entries with the sections that every document has. -/
def withSections (entries : List (Atom × Value)) : List (String × Value) → List (Atom × Value)
  | [] => entries
  | (key, empty) :: rest => withSections (Assoc.insertNew (.text key) empty entries) rest

/-- The document of a seed: its entries, the version, and the sections that it has not. -/
def ofSeed (seed : Value) : Except MergeFault Value :=
  match seed with
  | .object m entries =>
    .ok (.object m
      (withSections (Assoc.insert (.text "swagger") (.text "2.0") entries) initialSections))
  | _ => .error .unsuitable

end Document

end ApiDoc
