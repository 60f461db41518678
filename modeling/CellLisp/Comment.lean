/-!
Comments run from `#` to the end of the line. A backslash before the mark makes it an ordinary
character, and is dropped.
-/

namespace CellLisp.Comment

/-- The lines of a text. A line feed ends a line, together with one carriage return before it; the
last line may lack its end. -/
def lines : List Char → List (List Char)
  | [] => []
  | '\n' :: cs => [] :: lines cs
  | '\r' :: '\n' :: cs => [] :: lines cs
  | c :: cs =>
    match lines cs with
    | [] => [[c]]
    | l :: ls => (c :: l) :: ls

def uncomment : List Char → List Char
  | '\\' :: '#' :: cs => '#' :: uncomment cs
  | '#' :: _ => []
  | c :: cs => c :: uncomment cs
  | [] => []

/-- The text without its comments, and without carriage returns that end lines. -/
def strip (text : List Char) : List Char :=
  List.intercalate ['\n'] ((lines text).map uncomment)

end CellLisp.Comment
