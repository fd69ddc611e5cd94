import ApiDoc.TypeExpr.Basic

/-!
# Documentation comments

A documentation comment is a free text followed by tags, each with a title and perhaps a type, a
name and a description.
-/

namespace ApiDoc

/-- A directive of a comment: `@title {type} name - description`. -/
structure Tag where
  title : String
  name : Option String := none
  description : Option String := none
  type : Option TypeExpr := none
  deriving Inhabited, Repr

/-- A documentation comment. The source is the comment as it stands in the file. -/
structure Block where
  description : String := ""
  tags : List Tag := []
  source : String := ""
  deriving Inhabited, Repr

end ApiDoc
