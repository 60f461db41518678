import CellLisp.Unicode.Ranges

/-!
The twenty-five characters of the property White_Space.
-/

namespace CellLisp.Unicode

def whiteSpaceRanges : Ranges :=
  [(0x9, 0xD), (0x20, 0x20), (0x85, 0x85), (0xA0, 0xA0), (0x1680, 0x1680), (0x2000, 0x200A),
   (0x2028, 0x2029), (0x202F, 0x202F), (0x205F, 0x205F), (0x3000, 0x3000)]

def isWhiteSpace (c : Char) : Bool := whiteSpaceRanges.has c

example : (whiteSpaceRanges.map fun r => r.2 + 1 - r.1).sum = 25 := by decide

end CellLisp.Unicode
