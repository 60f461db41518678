import CellLisp.Number

/-!
Tokens of program text. A mark is one character with a meaning of its own; everything else is a
word, and a word is a number, an operator or a name.
-/

namespace CellLisp

inductive Mark where
  | leftParen
  | rightParen
  | quote
  | separator
  deriving DecidableEq, Repr

namespace Mark

def ofChar? : Char → Option Mark
  | '(' => some leftParen
  | ')' => some rightParen
  | '\'' => some quote
  | ';' => some separator
  | _ => none

/-- The word for a mark in an error text. -/
def text : Mark → String
  | leftParen => "LeftParen"
  | rightParen => "RightParen"
  | quote => "Quote"
  | separator => "Separator"

end Mark

inductive Token where
  | mark (m : Mark)
  | number (n : Number)
  | name (s : String)
  | operator (s : String)

end CellLisp
