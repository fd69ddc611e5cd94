import ApiDoc.Text.Blank
import ApiDoc.Text.Quoted
import ApiDoc.Text.Word

/-!
# Tokens of type expressions

A type expression is a sequence of words, signs of one character and the sign `.<`, with blanks
between them. A word is a run of word characters, `$`, `.` and `-`; it takes every dot that it can,
so `.<` is a sign of its own only where no word stands in front of it.
-/

namespace ApiDoc

/-- Why a type expression cannot be read. -/
inductive TypeFault where
  | unexpectedCharacter (c : Char)
  | empty
  | unexpectedToken (text : String)
  | unexpectedEnd
  | expected (wanted found : String)
  deriving DecidableEq, Repr

/-- What a fault tells the reader of a message. -/
def TypeFault.message : TypeFault → String
  | .unexpectedCharacter c => "unexpected character " ++ Text.quoted (String.singleton c)
  | .empty => "empty type expression"
  | .unexpectedToken t => "unexpected token " ++ Text.quoted t
  | .unexpectedEnd => "unexpected end of type expression"
  | .expected wanted found =>
    "expected " ++ Text.quoted wanted ++ ", found " ++ Text.quoted found

namespace TypeExpr

/-- A token of a type expression. -/
inductive Token where
  | word (w : List Char)
  | dotLess
  | less
  | greater
  | openParen
  | closeParen
  | comma
  | bar
  | openBracket
  | closeBracket
  | star
  | question
  | bang
  | equals
  deriving DecidableEq, Repr

/-- The text of a token. -/
def Token.chars : Token → List Char
  | .word w => w
  | .dotLess => ['.', '<']
  | .less => ['<']
  | .greater => ['>']
  | .openParen => ['(']
  | .closeParen => [')']
  | .comma => [',']
  | .bar => ['|']
  | .openBracket => ['[']
  | .closeBracket => [']']
  | .star => ['*']
  | .question => ['?']
  | .bang => ['!']
  | .equals => ['=']

/-- The text of a token. -/
def Token.text (t : Token) : String := String.ofList t.chars

/-- The sign of one character. -/
def sign? : Char → Option Token
  | '<' => some .less
  | '>' => some .greater
  | '(' => some .openParen
  | ')' => some .closeParen
  | ',' => some .comma
  | '|' => some .bar
  | '[' => some .openBracket
  | ']' => some .closeBracket
  | '*' => some .star
  | '?' => some .question
  | '!' => some .bang
  | '=' => some .equals
  | _ => none

/-- A character of a word. -/
def isNameChar (c : Char) : Bool := Text.isWord c || c == '$' || c == '.' || c == '-'

/-- Dropping a run in front never makes a list longer. -/
theorem length_dropWhile_le {α : Type} (p : α → Bool) (s : List α) :
    (s.dropWhile p).length ≤ s.length := by
  induction s with
  | nil => simp
  | cons c rest ih =>
    by_cases h : p c
    · simp only [List.dropWhile_cons, h, if_true, List.length_cons]; omega
    · simp [h]

/-- The tokens of a text. A character that no token starts with is a fault; the fault names the
first of the blanks in front of it, if there are any. -/
def tokens (s : List Char) : Except TypeFault (List Token) :=
  match _h : Text.trimStart s with
  | [] => .ok []
  | '.' :: '<' :: rest => (tokens rest).map (.dotLess :: ·)
  | c :: rest =>
    match sign? c with
    | some t => (tokens rest).map (t :: ·)
    | none =>
      if isNameChar c then
        (tokens (rest.dropWhile isNameChar)).map (.word (c :: rest.takeWhile isNameChar) :: ·)
      else .error (.unexpectedCharacter (s.headD c))
termination_by s.length
decreasing_by
  all_goals
    have hs := length_dropWhile_le Text.isBlank s
    have hr := length_dropWhile_le isNameChar rest
    rw [show s.dropWhile Text.isBlank = _ from _h] at hs
    simp only [List.length_cons] at hs
    omega

end TypeExpr

end ApiDoc
