import ApiDoc.TypeExpr.Basic
import ApiDoc.TypeExpr.Token

/-!
# Reading type expressions

A union is members with bars between them, a member is a primary expression with markers and `[]`
behind it, and a primary expression is a name, a name with arguments, a union in parentheses or the
wildcard. The markers `?`, `!` and `=` are read and dropped, and `T[]` is `Array` applied to `T`.
-/

namespace ApiDoc.TypeExpr

/-- The tokens behind one that has to be there. -/
def expect (wanted : Token) : List Token → Except TypeFault (List Token)
  | [] => .error .unexpectedEnd
  | t :: rest => if t = wanted then .ok rest else .error (.expected wanted.text t.text)

/-- A marker in front of a primary expression. -/
def isLeadingMarker (t : Token) : Bool := t == .question || t == .bang

/-- A word that can be a name: it starts with a word character or `$`. -/
def startsName : List Char → Bool
  | c :: _ => Text.isWord c || c == '$'
  | [] => false

/-- A name without the dots at its end. -/
def nameOf (w : List Char) : String :=
  String.ofList ((w.reverse.dropWhile (· == '.')).reverse)

/-- One member alone is itself, several are a union. -/
def unionOf (first : TypeExpr) : List TypeExpr → TypeExpr
  | [] => first
  | more => .union (first :: more)

/-- The list of an element type. -/
def arrayOf (element : TypeExpr) : TypeExpr := .applied "Array" [element]

/-- The markers and brackets behind an expression. -/
def suffixes (e : TypeExpr) : List Token → Except TypeFault (TypeExpr × List Token)
  | .openBracket :: .closeBracket :: rest => suffixes (arrayOf e) rest
  | .openBracket :: rest => (expect .closeBracket rest).map fun rest => (e, rest)
  | .equals :: rest => suffixes e rest
  | .bang :: rest => suffixes e rest
  | .question :: rest => suffixes e rest
  | rest => .ok (e, rest)

mutual

/-- A union. The first argument bounds how deep expressions may still nest. -/
def unionExpr : Nat → List Token → Except TypeFault (TypeExpr × List Token)
  | 0, _ => .error .unexpectedEnd
  | n + 1, ts => do
    let (first, ts) ← memberExpr n ts
    let (more, ts) ← moreMembers n ts
    return (unionOf first more, ts)

/-- The members behind the first one, each with a bar in front. -/
def moreMembers : Nat → List Token → Except TypeFault (List TypeExpr × List Token)
  | 0, _ => .error .unexpectedEnd
  | n + 1, .bar :: ts => do
    let (e, ts) ← memberExpr n ts
    let (more, ts) ← moreMembers n ts
    return (e :: more, ts)
  | _ + 1, ts => .ok ([], ts)

/-- A member of a union: a primary expression and what stands behind it. -/
def memberExpr : Nat → List Token → Except TypeFault (TypeExpr × List Token)
  | 0, _ => .error .unexpectedEnd
  | n + 1, ts => do
    let (e, ts) ← primaryExpr n ts
    suffixes e ts

/-- A primary expression. -/
def primaryExpr : Nat → List Token → Except TypeFault (TypeExpr × List Token)
  | 0, _ => .error .unexpectedEnd
  | n + 1, ts =>
    match ts.dropWhile isLeadingMarker with
    | [] => .error .unexpectedEnd
    | .openParen :: ts => do
      let (e, ts) ← unionExpr n ts
      let ts ← expect .closeParen ts
      return (e, ts)
    | .star :: ts => .ok (.any, ts)
    | .word w :: ts =>
      if startsName w then
        match ts with
        | .dotLess :: ts => appliedExpr n (nameOf w) ts
        | .less :: ts => appliedExpr n (nameOf w) ts
        | ts => .ok (.named (nameOf w), ts)
      else .error (.unexpectedToken (String.ofList w))
    | t :: _ => .error (.unexpectedToken t.text)

/-- The arguments of a container up to the closing sign. -/
def appliedExpr : Nat → String → List Token → Except TypeFault (TypeExpr × List Token)
  | 0, _, _ => .error .unexpectedEnd
  | n + 1, name, ts => do
    let (first, ts) ← firstArgument n ts
    let (more, ts) ← moreArguments n ts
    let ts ← expect .greater ts
    return (.applied name (first ++ more), ts)

/-- The first argument, unless the arguments end at once. -/
def firstArgument : Nat → List Token → Except TypeFault (List TypeExpr × List Token)
  | 0, _ => .error .unexpectedEnd
  | _ + 1, .greater :: ts => .ok ([], .greater :: ts)
  | n + 1, ts => do
    let (e, ts) ← unionExpr n ts
    return ([e], ts)

/-- The arguments behind the first one, each with a comma in front. -/
def moreArguments : Nat → List Token → Except TypeFault (List TypeExpr × List Token)
  | 0, _ => .error .unexpectedEnd
  | n + 1, .comma :: ts => do
    let (e, ts) ← unionExpr n ts
    let (more, ts) ← moreArguments n ts
    return (e :: more, ts)
  | _ + 1, ts => .ok ([], ts)

end

/-- The expression of a list of tokens. Between one union and a union inside it at least one token
is read and at most five calls are made, which bounds the depth of the calls. -/
def ofTokens (ts : List Token) : Except TypeFault TypeExpr := do
  if ts.isEmpty then throw .empty
  match ← unionExpr (6 * ts.length + 6) ts with
  | (e, []) => return e
  | (_, t :: _) => throw (.unexpectedToken t.text)

/-- The expression of a text. -/
def parse (s : List Char) : Except TypeFault TypeExpr := do
  ofTokens (← tokens s)

end ApiDoc.TypeExpr
