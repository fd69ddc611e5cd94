import ApiDoc.Fault
import ApiDoc.Text.Quoted
import ApiDoc.TypeExpr.Token

/-!
# Notices

What a run reports besides its result. A notice is a fact; its level and its wording follow from
it.
-/

namespace ApiDoc

/-- How much a notice matters. -/
inductive Level where
  | debug
  | info
  | warning
  | error
  deriving DecidableEq, Repr

/-- Something that a run reports. -/
inductive Notice where
  | malformedType (text : String) (fault : TypeFault)
  | missingLocation (parameter location : String)
  | skippedInTypedef (title typedef : String)
  | unknownTag (title : String)
  | misplacedDefinition (title : String)
  | beforeRoute (title : String)
  | deprecatedProperty (key : String)
  | filesFound (count : Nat)
  | blocksFound (path : String) (count : Nat)
  | blockFailed (path source : String) (fault : BlockFault)
  deriving DecidableEq, Repr

namespace Notice

/-- The level of a notice. -/
def level : Notice → Level
  | malformedType .. | skippedInTypedef .. | blocksFound .. => .debug
  | filesFound .. => .info
  | missingLocation .. | unknownTag .. | misplacedDefinition .. | beforeRoute ..
  | deprecatedProperty .. => .warning
  | blockFailed .. => .error

/-- The wording of a notice. -/
def message : Notice → String
  | malformedType text fault =>
    "Ignoring malformed type \x7b" ++ text ++ "\x7d: " ++ fault.message
  | missingLocation parameter location =>
    "Parameter " ++ Text.quoted parameter ++ " has no location, defaulting to " ++
      Text.quoted location
  | skippedInTypedef title typedef => "Skipping @" ++ title ++ " inside typedef " ++ typedef
  | unknownTag title => "Unknown tag @" ++ title ++ " ignored"
  | misplacedDefinition title =>
    "@" ++ title ++ " is only valid at the start of a typedef block, ignored"
  | beforeRoute title => "@" ++ title ++ " appears before any @route, ignored"
  | deprecatedProperty key =>
    "Deprecated property " ++ Text.quoted key ++ " in swaggerDefinition"
  | filesFound count => "Found " ++ toString count ++ " files to document"
  | blocksFound path count => path ++ ": " ++ toString count ++ " tagged comment blocks"
  | blockFailed path source _ =>
    "Incorrect comment format. Method was not documented.\nFile: " ++ path ++ "\nComment:\n" ++
      source

/-- The fault behind a notice. -/
def fault? : Notice → Option BlockFault
  | blockFailed _ _ fault => some fault
  | _ => none

end Notice

end ApiDoc
