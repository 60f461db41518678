import CellLisp.Number.Checked

/-!
# Arithmetic without a check stays in range

Floor division and the remainder do some of their steps without a check. None of these steps can go
wrong on the operands that come to it: the check would always succeed. A remainder is taken only
where the quotient exists. One is taken off a quotient only if there is a remainder, so that the
divisor is at least two in size and the quotient is far from the ends of the range. And a remainder
and a divisor of different signs are added only.
-/

namespace CellLisp.Checked

variable {a b q : Int64}

/-- The remainder of division toward zero. It fails where that division does. -/
def rem (a b : Int64) : Option Int64 :=
  if b = 0 ∨ (a = Int64.minValue ∧ b = -1) then none else some (a % b)

theorem rem_of_ne (zero : b ≠ 0) (minusOne : b ≠ -1) : rem a b = some (a % b) := by
  simp [rem, zero, minusOne]

theorem div_eq_some_iff :
    div a b = some q ↔ (b ≠ 0 ∧ ¬(a = Int64.minValue ∧ b = -1)) ∧ a / b = q := by
  unfold div
  split
  · next fails =>
    constructor
    · nofun
    · rintro ⟨⟨nonzero, least⟩, _⟩
      exact absurd fails (not_or.mpr ⟨nonzero, least⟩)
  · next holds => simp [not_or.mp holds]

theorem sub_of_fits (inside : fits (a.toInt - b.toInt) = true) : sub a b = some (a - b) := by
  rw [sub, ofInt?, if_pos inside]
  simp

theorem add_of_fits (inside : fits (a.toInt + b.toInt) = true) : add a b = some (a + b) := by
  rw [add, ofInt?, if_pos inside]
  simp

/-- A divisor that leaves a remainder is at least two in size. -/
theorem two_le_of_mod_ne (remains : a % b ≠ 0) (nonzero : b ≠ 0) : 2 ≤ b.toInt.natAbs := by
  have zero : b.toInt ≠ 0 := fun same => nonzero (Int64.toInt_inj.mp same)
  have one : b.toInt.natAbs ≠ 1 := by
    intro unit
    apply remains
    apply Int64.toInt_inj.mp
    rw [Int64.toInt_mod]
    rcases Int.natAbs_eq_iff.mp unit with plus | minus
    · simp [plus]
    · simp [minus]
  omega

/-- A quotient that leaves a remainder is not the least integer. -/
theorem fits_quotient_sub_one (divided : div a b = some q) (remains : a % b ≠ 0) :
    fits (q.toInt - (1 : Int64).toInt) = true := by
  obtain ⟨⟨nonzero, _⟩, rfl⟩ := div_eq_some_iff.mp divided
  have size := two_le_of_mod_ne remains nonzero
  have quotient : (a / b).toInt = a.toInt.tdiv b.toInt := by
    apply Int64.toInt_div_of_ne_right
    rintro rfl
    simp at size
  have half : (a.toInt.tdiv b.toInt).natAbs ≤ a.toInt.natAbs / 2 := by
    rw [Int.natAbs_tdiv]
    exact Nat.div_le_div_left size (by decide)
  have bounds := fits_iff.mp (fits_toInt a)
  rw [fits_iff, quotient]
  have low : Int64.minValue.toInt = -9223372036854775808 := by decide
  have high : Int64.maxValue.toInt = 9223372036854775807 := by decide
  have one : (1 : Int64).toInt = 1 := by decide
  omega

/-- Numbers of different signs add up to a number between them. -/
theorem fits_add_of_crosses (signs : crosses a b = true) : fits (a.toInt + b.toInt) = true := by
  have boundsA := fits_iff.mp (fits_toInt a)
  have boundsB := fits_iff.mp (fits_toInt b)
  have zero : (0 : Int64).toInt = 0 := by decide
  rw [fits_iff]
  simp only [crosses, bne_iff_ne, ne_eq, decide_eq_decide, Int64.lt_iff_toInt_lt, zero] at signs
  omega

/-- The steps of floor division and of the remainder that lack a check would pass it. -/
theorem unchecked_steps :
    (∀ a b q, div a b = some q → rem a b = some (a % b) ∧
      (a % b ≠ 0 → crosses a b = true → sub q 1 = some (q - 1))) ∧
    ∀ a b, b ≠ 0 → b ≠ -1 → rem a b = some (a % b) ∧
      (a % b ≠ 0 → crosses (a % b) b = true → add (a % b) b = some (a % b + b)) := by
  refine ⟨fun a b q divided => ⟨?_, fun remains _ => ?_⟩, fun a b zero minusOne => ⟨?_, ?_⟩⟩
  · obtain ⟨holds, _⟩ := div_eq_some_iff.mp divided
    rw [rem, if_neg (not_or.mpr holds)]
  · exact sub_of_fits (fits_quotient_sub_one divided remains)
  · exact rem_of_ne zero minusOne
  · intro _ signs
    exact add_of_fits (fits_add_of_crosses signs)

end CellLisp.Checked
