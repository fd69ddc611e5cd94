import ApiDoc.Text.Closeness
import ApiDoc.Text.Split

/-!
# Arguments

How the arguments of a command are divided into options and the rest. An option has a long name and
may have a letter; it is a flag or takes a value, either behind `=`, right behind its letter, or as
the next argument. The argument `--` ends the options.

Main definition: `divide`.
-/

namespace ApiDoc.Cli

/-- An option of a command. -/
structure OptionSpec where
  letter : Option Char
  long : String
  takesValue : Bool

/-- Why arguments are not understood. -/
inductive ArgumentFault where
  | noSuchOption (name : String) (suggestions : List String)
  | needsValue (name : String)
  | takesNoValue (name : String)
  deriving DecidableEq, Repr

/-- An option that was given, by its long name, with its value. -/
structure Given where
  long : String
  value : Option String

/-- What one argument says: the options given, and an option, as it was spelt, that takes the next
argument for its value. -/
structure Reading where
  given : List Given := []
  pending : Option (String × OptionSpec) := none

/-- The options in an argument of letters. -/
def readLetters (specs : List OptionSpec) : List Char → Except ArgumentFault Reading
  | [] => .ok {}
  | c :: rest =>
    match specs.find? (·.letter == some c) with
    | none => .error (.noSuchOption (String.ofList ['-', c]) [])
    | some spec =>
      if spec.takesValue then
        if rest.isEmpty then .ok { pending := some (String.ofList ['-', c], spec) }
        else .ok { given := [⟨spec.long, some (String.ofList rest)⟩] }
      else do
        let more ← readLetters specs rest
        return { more with given := ⟨spec.long, none⟩ :: more.given }

/-- The options in an argument that starts with a hyphen. -/
def readOption (specs : List OptionSpec) (arg : String) : Except ArgumentFault Reading :=
  let (front, value) := Text.splitFirst '=' arg.toList
  let name := String.ofList front
  match specs.find? (·.long == name) with
  | some spec =>
    match spec.takesValue, value with
    | true, some v => .ok { given := [⟨spec.long, some (String.ofList v)⟩] }
    | true, none => .ok { pending := some (name, spec) }
    | false, some _ => .error (.takesNoValue name)
    | false, none => .ok { given := [⟨spec.long, none⟩] }
  | none =>
    if arg.startsWith "--" then
      .error (.noSuchOption name ((specs.map (·.long)).filter fun long => Text.isClose long name))
    else readLetters specs (arg.toList.drop 1)

/-- The options among arguments, in order, and the other arguments. -/
structure Divided where
  given : List Given := []
  rest : List String := []

/-- Whether an argument holds options. -/
def isOption (arg : String) : Bool := arg.startsWith "-" && arg.length != 1

/-- Arguments divided into options and the rest. Unless options may be `mixed` with other arguments,
the first other argument ends them. -/
def divide (specs : List OptionSpec) (mixed : Bool) : List String → Except ArgumentFault Divided
  | [] => .ok {}
  | arg :: args =>
    if arg == "--" then .ok { rest := args }
    else if isOption arg then
      match readOption specs arg with
      | .error e => .error e
      | .ok ⟨given, none⟩ =>
        match divide specs mixed args with
        | .error e => .error e
        | .ok d => .ok { d with given := given ++ d.given }
      | .ok ⟨given, some (name, spec)⟩ =>
        match args with
        | [] => .error (.needsValue name)
        | value :: args =>
          match divide specs mixed args with
          | .error e => .error e
          | .ok d => .ok { d with given := given ++ ⟨spec.long, some value⟩ :: d.given }
    else if mixed then
      match divide specs mixed args with
      | .error e => .error e
      | .ok d => .ok { d with rest := arg :: d.rest }
    else .ok { rest := arg :: args }

/-- The last value of an option. -/
def Divided.value? (d : Divided) (long : String) : Option String :=
  (d.given.reverse.find? (·.long == long)).bind (·.value)

/-- Whether an option is given. -/
def Divided.has (d : Divided) (long : String) : Bool := d.given.any (·.long == long)

end ApiDoc.Cli
