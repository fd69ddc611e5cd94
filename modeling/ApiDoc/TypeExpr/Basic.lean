/-!
# Type expressions

The types that a comment writes in braces, such as `Pet.model`, `Array.<Pet>` or `A|B`. An
expression has up to four parts. One that was read from a text has the parts of exactly one of four
forms: a name, a container with arguments, the members of a union, or nothing for the wildcard.
-/

namespace ApiDoc

/-- A type expression. -/
inductive TypeExpr where
  | mk (name : Option String) (container : Option TypeExpr) (arguments : Option (List TypeExpr))
      (members : Option (List TypeExpr))
  deriving Inhabited, Repr

namespace TypeExpr

/-- The name of a named type. -/
def name : TypeExpr → Option String
  | mk n _ _ _ => n

/-- The container of an applied type, as `Array` in `Array.<Pet>`. -/
def container : TypeExpr → Option TypeExpr
  | mk _ c _ _ => c

/-- The arguments of an applied type. -/
def arguments : TypeExpr → Option (List TypeExpr)
  | mk _ _ as _ => as

/-- The members of a union. -/
def members : TypeExpr → Option (List TypeExpr)
  | mk _ _ _ ms => ms

/-- The wildcard, which stands for any type. -/
@[match_pattern] abbrev any : TypeExpr := mk none none none none

/-- A named type. -/
@[match_pattern] abbrev named (n : String) : TypeExpr := mk (some n) none none none

/-- A container applied to arguments. -/
@[match_pattern] abbrev applied (c : String) (as : List TypeExpr) : TypeExpr :=
  mk none (some (named c)) (some as) none

/-- A union of members. -/
@[match_pattern] abbrev union (ms : List TypeExpr) : TypeExpr := mk none none none (some ms)

end TypeExpr

end ApiDoc
