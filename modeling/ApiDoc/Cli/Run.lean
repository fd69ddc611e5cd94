import ApiDoc.Cli.Command
import ApiDoc.Document.Generate

/-!
# Running the program

A run of the program on a file tree: what it prints, what it reports, how it ends, and the file tree
that it leaves. Nothing is written unless all that comes before has gone well.

Main definition: `run`.
-/

namespace ApiDoc.Cli

/-- Why a run breaks off without a message. -/
inductive RunFault where
  | load (fault : LoadFault)
  | generate (fault : GenerateFault)
  /-- The paths or the definitions of a document cannot be counted. -/
  | uncountable
  | write (fault : Json.WriteFault)
  | file (fault : FileFault)

/-- What a run does. -/
structure Outcome where
  exitCode : Nat := 0
  stdout : String := ""
  stderr : String := ""
  notices : List Notice := []
  tree : FileTree
  broken : Option RunFault := none

namespace Outcome

/-- The run of a command that is not understood. -/
def ofUsage (tree : FileTree) : UsageFault → Outcome
  | .help scope => { stdout := scope.help, tree := tree }
  | .noArguments => { exitCode := 2, stderr := Scope.program.help, tree := tree }
  | .badName => { exitCode := 1, tree := tree, broken := some (.file .badName) }
  | fault =>
    { exitCode := 2
      stderr := (fault.scope?.elim "" Scope.hint) ++ "Error: " ++ fault.message ++ "\n"
      tree := tree }

/-- A run that breaks off. -/
def ofFault (tree : FileTree) (fault : RunFault) : Outcome :=
  { exitCode := 1, tree := tree, broken := some fault }

/-- A run that ends with a message. -/
def ofMessage (tree : FileTree) (message : String) : Outcome :=
  { exitCode := 1, stderr := "Error: " ++ message ++ "\n", tree := tree }

/-- A run that ends since a file cannot be used. -/
def ofLoadFault (tree : FileTree) (fault : LoadFault) : Outcome :=
  match fault.message? with
  | some message => ofMessage tree message
  | none => ofFault tree (.load fault)

/-- A run with something before it. -/
def after (stdout : String) (notices : List Notice) (o : Outcome) : Outcome :=
  { o with stdout := stdout ++ o.stdout, notices := notices ++ o.notices }

end Outcome

/-- The number of parts of a value, if it has parts. -/
def count? : Value → Option Nat
  | .atom (.text s) => some s.length
  | .atom (.bytes bs) => some bs.length
  | .atom _ => none
  | .list _ items => some items.length
  | .object _ entries => some entries.length
  | .pair _ _ => some 2
  | .set _ items => some items.length

/-- The number of parts of a section of a document. -/
def sectionCount? (document : Value) (key : String) : Option Nat :=
  (document.field? key).bind count?

/-- The line that tells what a document holds. -/
def summary? (document : Value) : Option String := do
  let paths ← sectionCount? document "paths"
  let definitions ← sectionCount? document "definitions"
  return "Documented " ++ toString paths ++ " paths and " ++ toString definitions ++
    " definitions.\n"

/-- A document written to a file, in a directory that is made if it is not there. -/
def save (tree : FileTree) (document : Value) (output : Path) (format : Format) : Outcome :=
  match tree.makeDirectories output.parent.anchor output.parent.parts.reverse with
  | (tree, some fault) => .ofFault tree (.file fault)
  | (tree, none) =>
    match format.write document with
    | .error fault => .ofFault tree (.write fault)
    | .ok text =>
      match tree.write output (String.ofList text).toUTF8 with
      | .error fault => .ofFault tree (.file fault)
      | .ok tree => { stdout := "Swagger document saved to " ++ output.text ++ "\n", tree := tree }

/-- The command `generate`. -/
def runGenerate (tree : FileTree) (config output : Path) (format : Format) : Outcome :=
  match Options.load tree config with
  | .error fault => .ofLoadFault tree fault
  | .ok options =>
    let generated := options.generate tree
    let scanning :=
      "Scanning " ++ options.basedir.text ++ " for " ++ ", ".intercalate options.files ++ "...\n"
    Outcome.after scanning generated.notices
      (match generated.document with
        | .error fault => .ofFault tree (.generate fault)
        | .ok document =>
          match summary? document with
          | none => .ofFault tree .uncountable
          | some summary => (save tree document output format).after summary [])

/-- The command `check`. -/
def runCheck (tree : FileTree) (document : Path) : Outcome :=
  match tree.readYaml document with
  | .error fault => .ofLoadFault tree fault
  | .ok v =>
    match Document.deprecatedNames true v with
    | [] => { stdout := "No deprecated properties found.\n", tree := tree }
    | names =>
      { exitCode := 1
        stdout := String.join (names.map fun name => "  deprecated property: " ++ name ++ "\n") ++
          "Found " ++ toString names.length ++ " deprecated properties.\n"
        tree := tree }

/-- A run of the program. Notices of the lowest level are reported on demand only. -/
def run (tree : FileTree) (args : List String) : Outcome :=
  match Invocation.ofArguments tree args with
  | .error fault => .ofUsage tree fault
  | .ok invocation =>
    let outcome :=
      match invocation.command with
      | .generate config output format => runGenerate tree config output format
      | .check document => runCheck tree document
    { outcome with
      notices := outcome.notices.filter fun n => invocation.verbose || n.level != .debug }

end ApiDoc.Cli
