import ApiDoc.File.Tree
import ApiDoc.Shape
import ApiDoc.Text.Utf8
import ApiDoc.Yaml.Reader

/-!
# Options

What a document is made from: the part of it that is given, the patterns of the source files and the
directory that they start from. Options come as a value or are read from a file; a base directory
in a file is seen from the file.

Three options have to be there, and the first one that is missing is reported before anything else.
After that all options are looked at, and every place that does not fit is reported.
-/

namespace ApiDoc

/-- Where a server shows a document. -/
structure DocsRoute where
  url : String := "/api-docs"
  docs : String := "/api-docs.json"

/-- What a document is made from. -/
structure Options where
  /-- The entries of the document that are given. -/
  definition : List (Atom × Value)
  /-- The patterns of the source files. -/
  files : List String
  basedir : Path
  route : DocsRoute

/-- Why a value has no options. -/
inductive OptionsFault where
  | absent
  | notObject
  | missing (key : String)
  | invalid (issues : List Issue)

namespace OptionsFault

/-- The wording of a fault, if it has one. Of issues this is the first line; the issues themselves
stand below it. -/
def message? : OptionsFault → Option String
  | absent => some "'options' is required."
  | notObject => none
  | missing key => some ("'" ++ key ++ "' is required.")
  | invalid issues =>
    some (toString issues.length ++
      (if issues.length = 1 then " validation error" else " validation errors") ++
      " for SwaggerOptions")

end OptionsFault

/-- Why options cannot be read from a file. -/
inductive LoadFault where
  | file (fault : FileFault)
  /-- The bytes of the file are no text. -/
  | notText
  /-- The text of the file is no document. -/
  | unreadable (path : String) (fault : Yaml.Fault)
  /-- The document is not an object. -/
  | notMapping (path : String)
  | options (fault : OptionsFault)

/-- The wording of a fault in the options, if it is one. For a text that is no document this is how
the wording starts; what the reader met stands behind it. -/
def LoadFault.message? : LoadFault → Option String
  | .unreadable path .malformed => some ("Cannot parse " ++ path)
  | .notMapping path => some (path ++ " does not contain an options mapping")
  | .options fault => fault.message?
  | _ => none

namespace Checked

/-- The entries of an object. -/
def object (place : List Atom) : Value → Checked (List (Atom × Value))
  | .object _ entries => .ok entries
  | _ => issue place .object

/-- A path. -/
def path (place : List Atom) : Value → Checked Path
  | .text s => .ok (Path.ofText s)
  | _ => issue place .path

/-- Where a server shows a document. -/
def docsRoute (place : List Atom) (v : Value) : Checked DocsRoute := do
  let es ← model place v
  let (url, docs) ←
    both (withDefault es "url" place text ({} : DocsRoute).url)
      (withDefault es "docs" place text ({} : DocsRoute).docs)
  return ⟨url, docs⟩

end Checked

namespace Options

/-- The options that have to be there. -/
def requiredKeys : List String := ["swaggerDefinition", "files", "basedir"]

/-- Whether an option is there and not empty. -/
def isGiven (entries : List (Atom × Value)) (key : String) : Bool :=
  (Assoc.get? (.text key) entries).any (!·.isNull)

/-- The options of entries, or all that does not fit. -/
def checked (entries : List (Atom × Value)) : Checked Options := do
  let definition := Checked.required entries "swaggerDefinition" [] Checked.object
  let files := Checked.required entries "files" [] (Checked.list Checked.text)
  let basedir := Checked.required entries "basedir" [] Checked.path
  let route := Checked.withDefault entries "route" [] Checked.docsRoute {}
  let (definition, files, basedir, route) ←
    Checked.both definition (Checked.both files (Checked.both basedir route))
  return ⟨definition, files, basedir, route⟩

/-- The options of a value. -/
def ofValue (v : Value) : Except OptionsFault Options :=
  match v with
  | .null => .error .absent
  | .object _ entries =>
    match requiredKeys.find? fun key => !isGiven entries key with
    | some key => .error (.missing key)
    | none =>
      match checked entries with
      | .ok options => .ok options
      | .error issues => .error (.invalid issues)
  | _ => .error .notObject

end Options

/-- The value of a YAML file. -/
def FileTree.readYaml (tree : FileTree) (p : Path) : Except LoadFault Value :=
  match tree.read p with
  | .error fault => .error (.file fault)
  | .ok bytes =>
    match Text.decodeStrict? bytes with
    | none => .error .notText
    | some text =>
      match Yaml.read (Text.lineFeeds text) with
      | .error fault => .error (.unreadable p.text fault)
      | .ok v => .ok v

namespace Options

/-- The options with the base directory seen from the directory of a file. -/
def seenFrom (tree : FileTree) (directory : Path) (options : Options) : Except LoadFault Options :=
  if options.basedir.isAbsolute then .ok options
  else
    let p := directory.join options.basedir
    if p.parts.any isBadName then .error (.file .badName)
    else .ok { options with basedir := .ofPlace (p.placeFrom tree.here) }

/-- The options in a file. -/
def load (tree : FileTree) (p : Path) : Except LoadFault Options := do
  match ← tree.readYaml p with
  | .object mark entries =>
    match ofValue (.object mark entries) with
    | .error fault => throw (.options fault)
    | .ok options => options.seenFrom tree p.parent
  | _ => throw (.notMapping p.text)

end Options

end ApiDoc
