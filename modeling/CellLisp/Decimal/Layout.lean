import CellLisp.Decimal.Shortest

/-!
How a decimal is written: positionally, or with one digit before the point and an exponent.
-/

namespace CellLisp.Decimal

/-- The decisions of a number format. A leading digit with an exponent from `plainFrom` up to, and
without, `plainBelow` is written positionally. -/
structure Layout where
  plainFrom : Int
  plainBelow : Int
  exponentMark : String
  nan : String
  infinity : String
  deriving DecidableEq, Repr

def zeros (n : Nat) : String := String.ofList (List.replicate n '0')

/-- A whole number keeps `.0`; the exponent form has neither `.0` nor a plus sign. -/
def Layout.write (f : Layout) (d : Decimal) : String :=
  let digits := Nat.toDigits 10 d.digits
  let leading : Int := d.exponent + digits.length - 1
  let point := (leading + 1).toNat
  if f.plainFrom ≤ leading && leading < f.plainBelow then
    if leading < 0 then
      "0." ++ zeros (-leading - 1).toNat ++ String.ofList digits
    else if digits.length ≤ point then
      String.ofList digits ++ zeros (point - digits.length) ++ ".0"
    else
      String.ofList (digits.take point) ++ "." ++ String.ofList (digits.drop point)
  else
    let fraction := digits.drop 1
    String.ofList (digits.take 1)
      ++ (if fraction.isEmpty then "" else "." ++ String.ofList fraction)
      ++ f.exponentMark ++ toString leading

def Layout.magnitude (f : Layout) (x : Float) : String :=
  if x.isNaN then f.nan
  else if x.isInf then f.infinity
  else if x == 0 then "0.0"
  else f.write (Rounding.ofBits x.toBits.toNat).shortest

/-- Zero keeps its sign. -/
def Layout.float (f : Layout) (x : Float) : String :=
  if !x.isNaN && twoTo 63 ≤ x.toBits.toNat then "-" ++ f.magnitude x else f.magnitude x

end CellLisp.Decimal
