import ApiDoc.Text.Lines

/-!
# Finding comments

Documentation comments start with a slash and two asterisks and end at the first closing mark
behind that.

Main definitions: `contents` for the texts between these marks, and `unwrap`, which takes away the
decoration at the start of their lines.
-/

namespace ApiDoc.Comment

/-- The text up to the first opening mark, and the text behind the mark. -/
def toOpening : List Char → Option (List Char × List Char)
  | [] => none
  | '/' :: '*' :: '*' :: rest => some ([], rest)
  | c :: rest => (toOpening rest).map fun (gap, tail) => (c :: gap, tail)

/-- The text up to the first closing mark, and the text behind the mark. -/
def toClosing : List Char → Option (List Char × List Char)
  | [] => none
  | '*' :: '/' :: rest => some ([], rest)
  | c :: rest => (toClosing rest).map fun (content, tail) => (c :: content, tail)

/-- What stands behind an opening mark is shorter than the text. -/
theorem length_of_toOpening {s gap tail : List Char} (h : toOpening s = some (gap, tail)) :
    tail.length < s.length := by
  fun_induction toOpening s generalizing gap with
  | case1 => simp at h
  | case2 rest =>
    simp only [Option.some.injEq, Prod.mk.injEq] at h
    obtain ⟨-, rfl⟩ := h
    simp only [List.length_cons]
    omega
  | case3 c rest _ ih =>
    obtain ⟨⟨g, t⟩, hg, he⟩ := Option.map_eq_some_iff.1 h
    simp only [Prod.mk.injEq] at he
    obtain ⟨-, rfl⟩ := he
    have := ih hg
    simp only [List.length_cons]
    omega

/-- What stands behind a closing mark is shorter than the text. -/
theorem length_of_toClosing {s content tail : List Char}
    (h : toClosing s = some (content, tail)) : tail.length < s.length := by
  fun_induction toClosing s generalizing content with
  | case1 => simp at h
  | case2 rest =>
    simp only [Option.some.injEq, Prod.mk.injEq] at h
    obtain ⟨-, rfl⟩ := h
    simp only [List.length_cons]
    omega
  | case3 c rest _ ih =>
    obtain ⟨⟨g, t⟩, hg, he⟩ := Option.map_eq_some_iff.1 h
    simp only [Prod.mk.injEq] at he
    obtain ⟨-, rfl⟩ := he
    have := ih hg
    simp only [List.length_cons]
    omega

/-- The contents of the documentation comments of a text, in order. -/
def contents (s : List Char) : List (List Char) :=
  match _hOpen : toOpening s with
  | none => []
  | some (_, body) =>
    match _hClose : toClosing body with
    | none => []
    | some (content, tail) => content :: contents tail
termination_by s.length
decreasing_by
  have h₁ := length_of_toOpening _hOpen
  have h₂ := length_of_toClosing _hClose
  omega

/-- A line without the decoration at its start: blanks, an asterisk and one space behind it. -/
def stripLine (line : List Char) : List Char :=
  match Text.trimStart line with
  | '*' :: ' ' :: rest => rest
  | '*' :: rest => rest
  | rest => rest

/-- The text of a comment without the decoration of its lines and the blanks around it. -/
def unwrap (content : List Char) : List Char :=
  Text.trim (Text.unlines ((Text.lines content).map stripLine))

end ApiDoc.Comment
