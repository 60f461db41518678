/-!
The shortest decimal that rounds to a given binary64 number, in exact integer arithmetic.

A number is the middle of an interval of reals that all round to it. Decimals with 1, 2, 3, …
significant digits form ever finer grids. The first grid with a point in the interval gives the
digits; of two such points the nearer to the middle is taken, and of two equally near the larger.
-/

namespace CellLisp

/-- The number `digits * 10 ^ exponent`. -/
structure Decimal where
  digits : Nat
  exponent : Int
  deriving DecidableEq, Repr

namespace Decimal

def tenTo (n : Nat) : Nat := Nat.pow 10 n

def twoTo (n : Nat) : Nat := Nat.pow 2 n

def digitCount (n : Nat) : Nat := (Nat.toDigits 10 n).length

/-- Moves the factors ten of the digits into the exponent. -/
def normalize (d : Decimal) : Decimal :=
  if h : d.digits ≠ 0 ∧ d.digits % 10 = 0 then normalize ⟨d.digits / 10, d.exponent + 1⟩ else d
termination_by d.digits
decreasing_by exact Nat.div_lt_self (Nat.pos_of_ne_zero h.1) (by decide)

/-- The reals between `low / unit` and `high / unit` round to `middle / unit`. The ends belong to
the interval when it is closed. -/
structure Rounding where
  low : Nat
  middle : Nat
  high : Nat
  unit : Nat
  closed : Bool
  deriving DecidableEq, Repr

namespace Rounding

/-- The interval of `m * 2 ^ q`. The gap below a power of two is half as wide as the gap above. -/
def ofBinary (m : Nat) (q : Int) (narrowBelow : Bool) : Rounding :=
  let up := twoTo q.toNat
  ⟨(4 * m - if narrowBelow then 1 else 2) * up, 4 * m * up, (4 * m + 2) * up,
    4 * twoTo (-q).toNat, m % 2 == 0⟩

/-- The interval of the magnitude of a finite number, from its 64 bits. -/
def ofBits (bits : Nat) : Rounding :=
  let fraction := bits % twoTo 52
  let scale := bits / twoTo 52 % twoTo 11
  if scale = 0 then ofBinary fraction (-1074) false
  else ofBinary (fraction + twoTo 52) (Int.ofNat scale - 1075) (fraction == 0 && scale != 1)

/-- Compares a point of the interval's scale with the grid point `d * 10 ^ k`. -/
def compareGrid (r : Rounding) (point d : Nat) (k : Int) : Ordering :=
  compare (point * tenTo (-k).toNat) (d * r.unit * tenTo k.toNat)

def contains (r : Rounding) (d : Nat) (k : Int) : Bool :=
  match r.compareGrid r.low d k, r.compareGrid r.high d k with
  | .lt, .gt => true
  | .gt, _ | _, .lt => false
  | _, _ => r.closed

/-- The last grid point at or below the middle. -/
def floor (r : Rounding) (k : Int) : Nat :=
  r.middle * tenTo (-k).toNat / (r.unit * tenTo k.toNat)

/-- The exponent of the leading decimal digit of the middle. -/
def leading (r : Rounding) : Int :=
  if r.unit ≤ r.middle then digitCount (r.middle / r.unit) - 1
  else -digitCount ((r.unit + r.middle - 1) / r.middle - 1)

/-- The grid point in the interval nearest to the middle, if the grid has one. -/
def onGrid (r : Rounding) (k : Int) : Option Decimal :=
  let d := r.floor k
  match r.contains d k, r.contains (d + 1) k with
  | true, true =>
    if 2 * r.middle * tenTo (-k).toNat < (2 * d + 1) * r.unit * tenTo k.toNat then some ⟨d, k⟩
    else some ⟨d + 1, k⟩
  | true, false => some ⟨d, k⟩
  | false, true => some ⟨d + 1, k⟩
  | false, false => none

/-- Seventeen digits tell any two binary64 numbers apart, so the last grid always answers. -/
def shortest (r : Rounding) : Decimal :=
  let grids := (List.range 17).map fun n => r.leading - Int.ofNat n
  normalize ((grids.findSome? r.onGrid).getD ⟨r.floor (r.leading - 16), r.leading - 16⟩)

end Rounding

end Decimal

end CellLisp
