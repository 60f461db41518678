import CellLisp.Decimal.Shortest

/-!
Reading numerals. A sign may stand in front. A whole number has digits only. A fractional one may
have a point and an exponent, with a digit at least on one side of the point.
-/

namespace CellLisp.Decimal

/-- Splits a leading sign off; the flag is set by a minus. -/
def sign : List Char → Bool × List Char
  | '-' :: cs => (true, cs)
  | '+' :: cs => (false, cs)
  | cs => (false, cs)

def natural? (cs : List Char) : Option Nat :=
  if !cs.isEmpty && cs.all Char.isDigit then some (Nat.ofDigitChars 10 cs 0) else none

def integer? (cs : List Char) : Option Int :=
  let (negative, digits) := sign cs
  (natural? digits).map fun n => if negative then -n else n

def exponent? : List Char → Option Int
  | [] => some 0
  | c :: cs => if c = 'e' ∨ c = 'E' then integer? cs else none

/-- A numeral without its sign. -/
def decimal? (cs : List Char) : Option Decimal :=
  let whole := cs.takeWhile Char.isDigit
  let rest := cs.dropWhile Char.isDigit
  let (fraction, rest) := match rest with
    | '.' :: cs => (cs.takeWhile Char.isDigit, cs.dropWhile Char.isDigit)
    | cs => ([], cs)
  do
    let n ← natural? (whole ++ fraction)
    let e ← exponent? rest
    return ⟨n, e - fraction.length⟩

/-- The nearest binary64 number, ties to even. Beyond 400 places on either side of the point the
answer is infinity or zero, whatever the digits. -/
def toFloat (d : Decimal) : Float :=
  let top := d.exponent + digitCount d.digits
  if d.digits = 0 ∨ top < -400 then 0
  else if 400 < top then Float.ofScientific 1 false 400
  else Float.ofScientific d.digits (d.exponent < 0) d.exponent.natAbs

def float? (cs : List Char) : Option Float :=
  let (negative, digits) := sign cs
  (decimal? digits).map fun d => if negative then -d.toFloat else d.toFloat

end CellLisp.Decimal
