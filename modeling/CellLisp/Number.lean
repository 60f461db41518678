import CellLisp.Decimal.Layout
import CellLisp.Decimal.Numeral
import CellLisp.Number.Checked

/-!
Numbers: 64-bit integers and binary64 floats. Two integers are compared exactly; as soon as one
side is a float, both are compared as floats.
-/

namespace CellLisp

inductive Number where
  | int (n : Int64)
  | float (x : Float)

namespace Number

/-- An integer is rounded to the nearest float, ties to even. -/
def toFloat : Number → Float
  | int n => Float.ofInt n.toInt
  | float x => x

def isZero : Number → Bool
  | int n => n == 0
  | float x => x == 0

def equal : Number → Number → Bool
  | int a, int b => a == b
  | a, b => a.toFloat == b.toFloat

/-- No order holds between a number that is not one and any other. -/
def order? : Number → Number → Option Ordering
  | int a, int b => some (if a < b then .lt else if a = b then .eq else .gt)
  | a, b =>
    let x := a.toFloat
    let y := b.toFloat
    if x < y then some .lt else if x == y then some .eq else if y < x then some .gt else none

/-- Floats are written positionally from one ten-thousandth up to, and without, ten to the
sixteenth. -/
def layout : Decimal.Layout where
  plainFrom := -4
  plainBelow := 16
  exponentMark := "e"
  nan := "NaN"
  infinity := "inf"

def text : Number → String
  | int n => toString n.toInt
  | float x => layout.float x

/-- A text without an ASCII digit is no number, so `inf` and `nan` are names. Integers come first:
a numeral outside their range is read as a float. -/
def read? (cs : List Char) : Option Number :=
  if cs.any Char.isDigit then
    match (Decimal.integer? cs).bind Checked.ofInt? with
    | some n => some (int n)
    | none => (Decimal.float? cs).map float
  else none

end Number

end CellLisp
