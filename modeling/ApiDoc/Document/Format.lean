import ApiDoc.Json.Writer
import ApiDoc.Yaml.Writer

/-!
# Formats of documents

A document is written as JSON or as YAML.
-/

namespace ApiDoc

/-- A format. -/
inductive Format where
  | json
  | yaml
  deriving DecidableEq, Repr

namespace Format

/-- The name of a format. -/
def name : Format → String
  | json => "json"
  | yaml => "yaml"

/-- All formats. -/
def all : List Format := [json, yaml]

/-- The format with a name. -/
def ofName? (s : String) : Option Format := all.find? (·.name == s)

/-- A document in a format. -/
def write (format : Format) (document : Value) : Except Json.WriteFault (List Char) :=
  match format with
  | json => Json.write document
  | yaml =>
    match Yaml.write document with
    | some text => .ok text
    | none => .error .longInteger

end Format

end ApiDoc
