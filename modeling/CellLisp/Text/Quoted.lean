import CellLisp.Unicode.DefaultIgnorable
import CellLisp.Unicode.GraphemeExtend
import CellLisp.Unicode.Unprintable

/-!
Quoted text. A character that would be misread or not be seen is written by an escape: the quote,
the backslash, and whatever has no form of its own on the line.
-/

namespace CellLisp.Text

def unicodeEscape (c : Char) : List Char :=
  ['\\', 'u', '\x7b'] ++ Nat.toDigits 16 c.toNat ++ ['\x7d']

/-- Without its context the character would be misread or not be seen. -/
def isObscure (c : Char) : Bool :=
  Unicode.extendsGrapheme c || Unicode.isIgnorable c || !Unicode.isPrintable c

def escape (c : Char) : List Char :=
  if c = '\x00' then ['\\', '0']
  else if c = '\t' then ['\\', 't']
  else if c = '\n' then ['\\', 'n']
  else if c = '\r' then ['\\', 'r']
  else if c = '"' ∨ c = '\\' then ['\\', c]
  else if isObscure c then unicodeEscape c
  else [c]

def quoted (s : String) : String := String.ofList ('"' :: s.toList.flatMap escape ++ ['"'])

end CellLisp.Text
