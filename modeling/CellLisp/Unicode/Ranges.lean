/-!
Sets of characters, given by ranges of code points with both ends included.
-/

namespace CellLisp.Unicode

abbrev Ranges := List (Nat × Nat)

def Ranges.has (t : Ranges) (c : Char) : Bool :=
  t.any fun r => r.1 ≤ c.toNat && c.toNat ≤ r.2

theorem Ranges.has_iff {t : Ranges} {c : Char} :
    t.has c = true ↔ ∃ r ∈ t, r.1 ≤ c.toNat ∧ c.toNat ≤ r.2 := by
  simp [Ranges.has]

end CellLisp.Unicode
