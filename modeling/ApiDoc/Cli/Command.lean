import ApiDoc.Cli.Arguments
import ApiDoc.Document.Format
import ApiDoc.File.Tree
import ApiDoc.Text.Quoted

/-!
# Commands

The commands of the program and how they are read from its arguments. A file that a command reads
has to be there before the command starts.

Of several faults the first in this order is reported: the form of the options, their values in the
order in which the options are given, the file to be read, an option that is missing, arguments that
are left over.
-/

namespace ApiDoc.Cli

/-- What the program is asked to do. -/
inductive Command where
  /-- Make the document of the options in a file and write it to another one. -/
  | generate (config : Path) (output : Path) (format : Format)
  /-- Report deprecated keys of a document. -/
  | check (document : Path)
  deriving DecidableEq, Repr

/-- A command, and whether all notices are to be shown. -/
structure Invocation where
  verbose : Bool
  command : Command
  deriving DecidableEq, Repr

/-- Which part of the program understands arguments. -/
inductive Scope where
  | program
  | generate
  | check
  deriving DecidableEq, Repr

/-- Why the program does nothing. -/
inductive UsageFault where
  /-- A description of the program, or of a command, is asked for. -/
  | help (scope : Scope)
  /-- There are no arguments at all. -/
  | noArguments
  | missingCommand
  | noSuchCommand (name : String) (suggestions : List String)
  | argument (scope : Scope) (fault : ArgumentFault)
  | missingArgument (scope : Scope)
  | noSuchFile (scope : Scope) (name : String)
  | isDirectory (scope : Scope) (name : String)
  | badFormat (name : String)
  | missingOutput
  /-- A file is given by a name that no file can have. -/
  | badName
  | leftOver (scope : Scope) (arguments : List String)

/-! ## Options -/

/-- The option that every part has. -/
def helpOption : OptionSpec := ⟨none, "--help", false⟩

/-- The options of a part. -/
def Scope.options : Scope → List OptionSpec
  | program => [⟨some 'v', "--verbose", false⟩, helpOption]
  | generate => [⟨some 'o', "--output", true⟩, ⟨none, "--format", true⟩, helpOption]
  | check => [helpOption]

/-- The arguments of a part, divided. Options of the program stand in front of the command. -/
def Scope.divide (scope : Scope) (args : List String) : Except UsageFault Divided :=
  match Cli.divide scope.options (scope != .program) args with
  | .error fault => .error (.argument scope fault)
  | .ok d => if d.has "--help" then .error (.help scope) else .ok d

/-! ## Commands -/

/-- The file that a command reads. -/
def readFile (tree : FileTree) (scope : Scope) (d : Divided) : Except UsageFault Path :=
  match d.rest with
  | [] => .error (.missingArgument scope)
  | name :: _ =>
    match tree.locateText name with
    | .error .badName => .error .badName
    | .error _ => .error (.noSuchFile scope name)
    | .ok place =>
      if tree.isDirectory place then .error (.isDirectory scope name)
      else .ok (Path.ofText name)

/-- Nothing is left over behind the file. -/
def nothingLeft (scope : Scope) (d : Divided) : Except UsageFault Unit :=
  match d.rest.drop 1 with
  | [] => .ok ()
  | more => .error (.leftOver scope more)

/-- The format that is asked for. -/
def readFormat (d : Divided) : Except UsageFault Format :=
  match d.value? "--format" with
  | none => .ok .json
  | some name =>
    match Format.ofName? name with
    | some format => .ok format
    | none => .error (.badFormat name)

/-- The file to be written, if there is one. -/
def readOutput (d : Divided) : Except UsageFault (Option Path) :=
  match d.value? "--output" with
  | none => .ok none
  | some name => if isBadName name then .error .badName else .ok (some (Path.ofText name))

/-- The value of an option can be used. -/
def checkOption (d : Divided) (long : String) : Except UsageFault Unit :=
  match long with
  | "--output" => (readOutput d).map fun _ => ()
  | "--format" => (readFormat d).map fun _ => ()
  | _ => .ok ()

/-- The command `generate`. -/
def readGenerate (tree : FileTree) (args : List String) : Except UsageFault Command := do
  let d ← Scope.divide .generate args
  d.given.forM fun option => checkOption d option.long
  let config ← readFile tree .generate d
  match ← readOutput d with
  | none => throw .missingOutput
  | some output =>
    nothingLeft .generate d
    return .generate config output (← readFormat d)

/-- The command `check`. -/
def readCheck (tree : FileTree) (args : List String) : Except UsageFault Command := do
  let d ← Scope.divide .check args
  let document ← readFile tree .check d
  nothingLeft .check d
  return .check document

/-- The names of the commands. -/
def commandNames : List String := ["check", "generate"]

/-- The command of a name. A name that looks like an option has to be an option of the program even
to be unknown as a command. -/
def readCommand (tree : FileTree) (name : String) (args : List String) :
    Except UsageFault Command :=
  match name with
  | "generate" => readGenerate tree args
  | "check" => readCheck tree args
  | _ => do
    let _ ← Scope.divide .program (name :: args)
    throw (.noSuchCommand name (commandNames.filter fun command => Text.isClose command name))

/-- What the arguments of the program ask for. -/
def Invocation.ofArguments (tree : FileTree) (args : List String) :
    Except UsageFault Invocation := do
  if args.isEmpty then throw .noArguments
  let d ← Scope.divide .program args
  match d.rest with
  | [] => throw .missingCommand
  | name :: rest => return ⟨d.has "--verbose", ← readCommand tree name rest⟩

/-! ## Wording -/

namespace Scope

/-- The name of a part. -/
def name : Scope → String
  | program => "main"
  | generate => "main generate"
  | check => "main check"

/-- The name of the file that a command reads. -/
def fileName : Scope → String
  | program => ""
  | generate => "CONFIG_PATH"
  | check => "DOC_PATH"

/-- How a part is used. -/
def usage : Scope → String
  | program => "Usage: main [OPTIONS] COMMAND [ARGS]...\n"
  | scope => "Usage: " ++ scope.name ++ " [OPTIONS] " ++ scope.fileName ++ "\n"

/-- The description of a part. -/
def help (scope : Scope) : String :=
  scope.usage ++ "\n" ++
    match scope with
    | program =>
      "  Annotated Swagger — build Swagger 2.0 documents from JSDoc-style comments.\n\n" ++
        "Options:\n" ++
        "  -v, --verbose  Show debug logging.\n" ++
        "  --help         Show this message and exit.\n\n" ++
        "Commands:\n" ++
        "  check     List deprecated singular property names in a Swagger document.\n" ++
        "  generate  Generate a Swagger document from the files listed in...\n"
    | generate =>
      "  Generate a Swagger document from the files listed in CONFIG_PATH.\n\n" ++
        "Options:\n" ++
        "  -o, --output PATH     Output file for the Swagger document.  [required]\n" ++
        "  --format [json|yaml]  Output format.\n" ++
        "  --help                Show this message and exit.\n"
    | check =>
      "  List deprecated singular property names in a Swagger document.\n\n" ++
        "Options:\n" ++
        "  --help  Show this message and exit.\n"

/-- The line that points to the description, under the line on the usage. -/
def hint (scope : Scope) : String :=
  scope.usage ++ "Try '" ++ scope.name ++ " --help' for help.\n\n"

end Scope

/-- The question whether one of several names was meant. -/
def didYouMean : List String → String
  | [] => ""
  | [one] => " Did you mean " ++ Text.quoted one ++ "?"
  | many =>
    let names := (many.mergeSort fun a b => a ≤ b).map Text.quoted
    " (Did you mean one of: " ++ ", ".intercalate names ++ "?)"

/-- The wording of a fault in the arguments. -/
def ArgumentFault.message : ArgumentFault → String
  | noSuchOption name suggestions =>
    "No such option " ++ Text.quoted name ++ "." ++ didYouMean suggestions
  | needsValue name => "Option " ++ Text.quoted name ++ " requires an argument."
  | takesNoValue name => "Option " ++ Text.quoted name ++ " does not take a value."

/-- The wording of a fault about the file that a command reads. -/
def fileComplaint (scope : Scope) (name complaint : String) : String :=
  "Invalid value for '" ++ scope.fileName ++ "': File " ++ Text.quoted name ++ complaint

namespace UsageFault

/-- The part that a fault is about, if its usage is to be shown. -/
def scope? : UsageFault → Option Scope
  | help _ | noArguments | badName => none
  | argument scope (.noSuchOption _ _) => some scope
  | argument _ _ => none
  | missingCommand | noSuchCommand _ _ => some .program
  | missingArgument scope | noSuchFile scope _ | isDirectory scope _ | leftOver scope _ =>
    some scope
  | badFormat _ | missingOutput => some .generate

/-- The wording of a fault. -/
def message : UsageFault → String
  | help _ | noArguments | badName => ""
  | missingCommand => "Missing command."
  | noSuchCommand name suggestions =>
    "No such command " ++ Text.quoted name ++ "." ++ didYouMean suggestions
  | argument _ fault => fault.message
  | missingArgument scope => "Missing argument '" ++ scope.fileName ++ "'."
  | noSuchFile scope name => fileComplaint scope name " does not exist."
  | isDirectory scope name => fileComplaint scope name " is a directory."
  | badFormat name =>
    "Invalid value for '--format': " ++ Text.quoted name ++ " is not one of 'json', 'yaml'."
  | missingOutput => "Missing option '-o' / '--output'."
  | leftOver _ [one] => "Got unexpected extra argument (" ++ one ++ ")"
  | leftOver _ many => "Got unexpected extra arguments (" ++ " ".intercalate many ++ ")"

end UsageFault

end ApiDoc.Cli
