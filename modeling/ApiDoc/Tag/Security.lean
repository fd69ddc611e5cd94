import ApiDoc.Fault
import ApiDoc.Json.Reader

/-!
# Security requirements

A security requirement is a JSON text, or the bare name of a scheme.
-/

namespace ApiDoc

/-- The security requirements of a text. A text that is no JSON text is the name of a scheme. -/
def securityOf (s : List Char) : Except FormatFault Value :=
  match Json.read s with
  | .ok v => .ok v
  | .error .longInteger => .error .longInteger
  | .error .malformed => .ok (.array [.record [(String.ofList s, .array [])]])

end ApiDoc
