import CellLisp.Fault
import CellLisp.Unicode.Alphanumeric
import CellLisp.Unicode.WhiteSpace

/-!
From text to tokens. Word characters gather until a mark, a blank or the end of the text closes
the word. A character that is none of these stops the lexer at once, before the open word is read.
-/

namespace CellLisp.Token

def isSymbol (c : Char) : Bool :=
  ['+', '-', '*', '/', '%', '^', '&', '<', '>', '=', '|', '!'].contains c

def isPlain (c : Char) : Bool := Unicode.isAlphanumeric c || c == '_' || c == '.'

def isWordChar (c : Char) : Bool := isPlain c || isSymbol c

/-- Reads a whole word that ends just before `offset`. A word that starts with an ASCII digit must
be a number. -/
def ofWord (offset : Nat) (word : List Char) : Except LexicalFault Token :=
  if word.all isSymbol then .ok (operator (String.ofList word))
  else match Number.read? word with
    | some n => .ok (number n)
    | none =>
      if (word.head?.map Char.isDigit).getD false then
        .error (.invalidToken (String.ofList word) offset)
      else .ok (name (String.ofList word))

/-- The tokens of an open word, given last character first: none if it is empty. -/
def close (offset : Nat) (word : List Char) : Except LexicalFault (List Token) :=
  if word.isEmpty then .ok [] else do return [← ofWord offset word.reverse]

def scan (word : List Char) (offset : Nat) : List Char → Except LexicalFault (List Token)
  | [] => close offset word
  | c :: cs =>
    match Mark.ofChar? c with
    | some m => do
      let closed ← close offset word
      return closed ++ mark m :: (← scan [] (offset + 1) cs)
    | none =>
      if Unicode.isWhiteSpace c then do
        let closed ← close offset word
        return closed ++ (← scan [] (offset + 1) cs)
      else if isWordChar c then scan (c :: word) (offset + 1) cs
      else .error (.unexpectedCharacter c offset)

def ofText (text : List Char) : Except LexicalFault (List Token) := scan [] 0 text

end CellLisp.Token
