import ApiDoc.Text.Split

/-!
# Lines

A text is cut into lines at every line boundary, and a boundary at its end opens no further line.
Carriage return and line feed together are one boundary.
-/

namespace ApiDoc.Text

/-- A character that ends a line. -/
def isLineEnd (c : Char) : Bool :=
  let n := c.toNat
  (10 ≤ n && n ≤ 13) || (28 ≤ n && n ≤ 30) || n == 0x85 || n == 0x2028 || n == 0x2029

/-- A character put in front of the first line. -/
def consLine (c : Char) : List (List Char) → List (List Char)
  | [] => [[c]]
  | line :: rest => (c :: line) :: rest

/-- The lines of a text together with the open line behind the last boundary. -/
def openLines : List Char → List (List Char)
  | [] => [[]]
  | '\r' :: '\n' :: rest => [] :: openLines rest
  | c :: rest => if isLineEnd c then [] :: openLines rest else consLine c (openLines rest)

/-- The list without an empty last line. -/
def dropEmptyLast : List (List Char) → List (List Char)
  | [] => []
  | [line] => if line.isEmpty then [] else [line]
  | line :: rest => line :: dropEmptyLast rest

/-- The lines of a text. -/
def lines (s : List Char) : List (List Char) := dropEmptyLast (openLines s)

/-- Texts put together with a separator between neighbours. -/
def join (sep : List Char) : List (List Char) → List Char
  | [] => []
  | [part] => part
  | part :: rest => part ++ sep ++ join sep rest

/-- Lines put together with line feeds. -/
def unlines (parts : List (List Char)) : List Char := join ['\n'] parts

end ApiDoc.Text
