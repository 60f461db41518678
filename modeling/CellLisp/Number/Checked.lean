/-!
Arithmetic on 64-bit integers that refuses a result outside their range.
-/

namespace CellLisp.Checked

def fits (n : Int) : Bool := Int64.minValue.toInt ≤ n && n ≤ Int64.maxValue.toInt

def ofInt? (n : Int) : Option Int64 := if fits n then some (Int64.ofInt n) else none

@[simp] theorem fits_iff {n : Int} :
    fits n = true ↔ Int64.minValue.toInt ≤ n ∧ n ≤ Int64.maxValue.toInt := by
  simp [fits]

theorem fits_toInt (a : Int64) : fits a.toInt = true :=
  fits_iff.mpr ⟨a.minValue_le_toInt, a.toInt_le⟩

theorem ofInt?_eq_some_iff {n : Int} {a : Int64} : ofInt? n = some a ↔ a.toInt = n := by
  unfold ofInt?
  split
  next h =>
    have bounds := fits_iff.mp h
    have eq : (Int64.ofInt n).toInt = n :=
      Int64.toInt_ofInt_of_le bounds.1 (Int.lt_of_le_of_lt bounds.2 (by decide))
    constructor
    · intro h
      cases h
      exact eq
    · intro h
      rw [← h, Int64.ofInt_toInt]
  next h =>
    refine ⟨nofun, fun eq => absurd ?_ h⟩
    rw [← eq]
    exact fits_toInt a

def add (a b : Int64) : Option Int64 := ofInt? (a.toInt + b.toInt)

def sub (a b : Int64) : Option Int64 := ofInt? (a.toInt - b.toInt)

def mul (a b : Int64) : Option Int64 := ofInt? (a.toInt * b.toInt)

def abs (a : Int64) : Option Int64 := ofInt? a.toInt.natAbs

/-- Division toward zero. It fails on a zero divisor, and where the least integer is divided
by minus one. -/
def div (a b : Int64) : Option Int64 :=
  if b = 0 ∨ (a = Int64.minValue ∧ b = -1) then none else some (a / b)

/-- The signs of a remainder and of its divisor differ. -/
def crosses (r b : Int64) : Bool := (r < 0) != (b < 0)

/-- Division toward minus infinity: one below the quotient toward zero wherever that one rounded
up. -/
def floorDiv (a b : Int64) : Option Int64 := do
  let q ← div a b
  return if a % b ≠ 0 && crosses a b then q - 1 else q

/-- The remainder with the sign of its divisor. Minus one divides everything. -/
def floorMod (a b : Int64) : Option Int64 :=
  if b = -1 then some 0
  else if b = 0 then none
  else
    let r := a % b
    some (if r ≠ 0 && crosses r b then r + b else r)

/-- Square and multiply, with every product checked. -/
def pow (a : Int64) (n : Nat) : Option Int64 :=
  if n = 0 then some 1
  else if n = 1 then some a
  else do
    let square ← mul a a
    let even ← pow square (n / 2)
    if n % 2 = 0 then return even else mul even a
termination_by n
decreasing_by omega

end CellLisp.Checked
