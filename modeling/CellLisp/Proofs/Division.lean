import CellLisp.Builtin.Rules
import CellLisp.Proofs.Arithmetic
import Mathlib.Data.Int.ModEq
import Mathlib.Data.Rat.Floor

/-!
# Division to the floor

The machine divides toward zero. Where that rounds up, because there is a remainder and the signs
differ, one less is the quotient to the floor, and the remainder is larger by the divisor. So the
two builtins for whole numbers divide with a remainder: it has the sign of the divisor and is
smaller, and divisor times quotient plus remainder is the dividend. The least integer has no
quotient by minus one, but it has a remainder. The steps that are done without a check would pass
it.
-/

namespace CellLisp

namespace Checked

variable {a b q r : Int64}

/-! With a check at every step. -/

def strictFloorDiv (a b : Int64) : Option Int64 := do
  let q ← div a b
  let r ← rem a b
  if r ≠ 0 && crosses a b then sub q 1 else return q

def strictFloorMod (a b : Int64) : Option Int64 :=
  if b = -1 then some 0
  else do
    let r ← rem a b
    if r ≠ 0 && crosses r b then add r b else return r

theorem strictFloorDiv_eq (a b : Int64) : strictFloorDiv a b = floorDiv a b := by
  unfold strictFloorDiv floorDiv
  cases divided : div a b with
  | none => rfl
  | some q =>
    obtain ⟨remains, less⟩ := unchecked_steps.1 a b q divided
    simp only [Option.bind_eq_bind, Option.bind_some, remains]
    split
    · next adjusts =>
      simp only [Bool.and_eq_true, decide_eq_true_eq] at adjusts
      exact less adjusts.1 adjusts.2
    · rfl

theorem strictFloorMod_eq (a b : Int64) : strictFloorMod a b = floorMod a b := by
  unfold strictFloorMod floorMod
  split
  · rfl
  · next minusOne =>
    split
    · next zero => simp [rem, zero]
    · next nonzero =>
      obtain ⟨remains, more⟩ := unchecked_steps.2 a b nonzero minusOne
      simp only [Option.bind_eq_bind, Option.bind_some, remains]
      split
      · next adjusts =>
        simp only [Bool.and_eq_true, decide_eq_true_eq] at adjusts
        exact more adjusts.1 adjusts.2
      · rfl

/-! What the steps come to. -/

theorem toInt_of_add (added : add a b = some r) : r.toInt = a.toInt + b.toInt :=
  ofInt?_eq_some_iff.mp added

theorem toInt_of_sub (subtracted : sub a b = some r) : r.toInt = a.toInt - b.toInt :=
  ofInt?_eq_some_iff.mp subtracted

theorem toInt_of_div (divided : div a b = some q) : q.toInt = a.toInt.tdiv b.toInt := by
  obtain ⟨⟨_, least⟩, rfl⟩ := div_eq_some_iff.mp divided
  by_cases minusOne : b = -1
  · exact Int64.toInt_div_of_ne_left a b fun same => least ⟨same, minusOne⟩
  · exact Int64.toInt_div_of_ne_right a b minusOne

theorem ne_zero_iff : a ≠ 0 ↔ a.toInt ≠ 0 := not_congr Int64.toInt_inj.symm

theorem crosses_iff : crosses a b = true ↔ ¬(a.toInt < 0 ↔ b.toInt < 0) := by
  simp [crosses, Int64.lt_iff_toInt_lt]

/-- The quotient toward zero was rounded up. -/
def RoundsUp (a b : Int) : Prop := a.tmod b ≠ 0 ∧ ¬(a < 0 ↔ b < 0)

instance (a b : Int) : Decidable (RoundsUp a b) := inferInstanceAs (Decidable (_ ∧ _))

theorem tmod_lt_zero_iff {a b : Int} (remains : a.tmod b ≠ 0) : a.tmod b < 0 ↔ a < 0 := by
  constructor
  · intro negative
    by_contra nonneg
    exact Int.not_lt.mpr (Int.tmod_nonneg b (Int.not_lt.mp nonneg)) negative
  · intro negative
    have opposite := Int.tmod_nonneg b (Int.neg_nonneg_of_nonpos (Int.le_of_lt negative))
    rw [Int.neg_tmod] at opposite
    omega

theorem toInt_of_floorDiv (divided : floorDiv a b = some q) :
    q.toInt = a.toInt.tdiv b.toInt - if RoundsUp a.toInt b.toInt then 1 else 0 := by
  rw [← strictFloorDiv_eq] at divided
  obtain ⟨t, toZero, divided⟩ := Option.bind_eq_some_iff.mp divided
  have remains := (unchecked_steps.1 a b t toZero).1
  rw [remains] at divided
  simp only [Option.bind_eq_bind, Option.bind_some, Bool.and_eq_true, decide_eq_true_eq,
    ne_zero_iff, Int64.toInt_mod, crosses_iff] at divided
  rw [← toInt_of_div toZero]
  by_cases up : RoundsUp a.toInt b.toInt
  · rw [if_pos ⟨up.1, up.2⟩] at divided
    rw [if_pos up]
    exact toInt_of_sub divided
  · rw [if_neg fun adjusts => up ⟨adjusts.1, adjusts.2⟩] at divided
    rw [if_neg up, Int.sub_zero]
    cases divided
    rfl

theorem toInt_of_floorMod (divided : floorMod a b = some r) :
    r.toInt = a.toInt.tmod b.toInt + if RoundsUp a.toInt b.toInt then b.toInt else 0 := by
  rw [← strictFloorMod_eq] at divided
  unfold strictFloorMod at divided
  split at divided
  · next minusOne =>
    cases divided
    have unit : a.toInt.tmod (-1) = 0 := by rw [Int.tmod_neg, Int.tmod_one]
    simp [minusOne, RoundsUp, unit]
  · next minusOne =>
    obtain ⟨t, remains, divided⟩ := Option.bind_eq_some_iff.mp divided
    have toZero : t.toInt = a.toInt.tmod b.toInt := by
      unfold rem at remains
      split at remains
      · cases remains
      · cases remains
        exact Int64.toInt_mod a b
    simp only [Bool.and_eq_true, decide_eq_true_eq, ne_zero_iff, crosses_iff, toZero] at divided
    have same : (a.toInt.tmod b.toInt ≠ 0 ∧ ¬(a.toInt.tmod b.toInt < 0 ↔ b.toInt < 0)) ↔
        RoundsUp a.toInt b.toInt :=
      and_congr_right fun remains => by rw [tmod_lt_zero_iff remains]
    rw [← toZero]
    by_cases up : RoundsUp a.toInt b.toInt
    · rw [if_pos (same.mpr up)] at divided
      rw [if_pos up]
      exact toInt_of_add divided
    · rw [if_neg (mt same.mp up)] at divided
      rw [if_neg up, Int.add_zero]
      cases divided
      rfl

/-! Division with a remainder. -/

/-- A number that may be left over where something is divided by `b` to the floor. -/
def LeftOver (b r : Int) : Prop := (0 < b → 0 ≤ r ∧ r < b) ∧ (b < 0 → b < r ∧ r ≤ 0)

theorem leftOver_of_tmod {a b : Int} (nonzero : b ≠ 0) :
    LeftOver b (a.tmod b + if RoundsUp a b then b else 0) := by
  have size : (a.tmod b).natAbs < b.natAbs := by
    rw [Int.natAbs_tmod]
    exact Nat.mod_lt _ (by omega)
  by_cases up : RoundsUp a b
  · obtain ⟨remains, signs⟩ := up
    have sign := tmod_lt_zero_iff remains
    rw [if_pos ⟨remains, signs⟩]
    constructor <;> intro _ <;> omega
  · rw [if_neg up, Int.add_zero]
    by_cases remains : a.tmod b = 0
    · rw [remains]
      exact ⟨fun positive => ⟨Int.le_refl 0, positive⟩, fun negative => ⟨negative, Int.le_refl 0⟩⟩
    · have sign := tmod_lt_zero_iff remains
      have same : a < 0 ↔ b < 0 := not_not.mp fun signs => up ⟨remains, signs⟩
      constructor <;> intro _ <;> omega

theorem floorMod_spec (nonzero : b ≠ 0) : ∃ r, floorMod a b = some r ∧
    LeftOver b.toInt r.toInt ∧ r.toInt ≡ a.toInt [ZMOD b.toInt] := by
  obtain ⟨r, divided⟩ : ∃ r, floorMod a b = some r := by
    unfold floorMod
    rw [if_neg nonzero]
    split <;> exact ⟨_, rfl⟩
  refine ⟨r, divided, ?_, ?_⟩
  · rw [toInt_of_floorMod divided]
    exact leftOver_of_tmod (ne_zero_iff.mp nonzero)
  · rw [toInt_of_floorMod divided, Int.modEq_comm, Int.modEq_iff_dvd, Int.tmod_def]
    split
    · exact ⟨1 - a.toInt.tdiv b.toInt, by ring⟩
    · exact ⟨-a.toInt.tdiv b.toInt, by ring⟩

theorem eq_mul_add (quotient : floorDiv a b = some q) (remainder : floorMod a b = some r) :
    a.toInt = b.toInt * q.toInt + r.toInt := by
  have whole := Int.mul_tdiv_add_tmod a.toInt b.toInt
  rw [toInt_of_floorDiv quotient, toInt_of_floorMod remainder]
  split
  · linarith
  · linarith

/-- What leaves such a rest is the floor of the exact quotient. -/
theorem floor_eq_of_leftOver {a b q r : Int} (nonzero : b ≠ 0) (rest : LeftOver b r)
    (whole : a = b * q + r) : ⌊(a / b : ℚ)⌋ = q := by
  have exact : (a : ℚ) = b * q + r := by exact_mod_cast whole
  rw [Int.floor_eq_iff]
  rcases Int.lt_or_gt_of_ne nonzero with negative | positive
  · obtain ⟨low, high⟩ := rest.2 negative
    have negative : (b : ℚ) < 0 := by exact_mod_cast negative
    have low : (b : ℚ) < r := by exact_mod_cast low
    have high : (r : ℚ) ≤ 0 := by exact_mod_cast high
    rw [le_div_iff_of_neg negative, div_lt_iff_of_neg negative]
    constructor <;> linarith
  · obtain ⟨low, high⟩ := rest.1 positive
    have positive : (0 : ℚ) < b := by exact_mod_cast positive
    have low : (0 : ℚ) ≤ r := by exact_mod_cast low
    have high : (r : ℚ) < b := by exact_mod_cast high
    rw [le_div_iff₀ positive, div_lt_iff₀ positive]
    constructor <;> linarith

theorem floorDiv_eq_none_iff (nonzero : b ≠ 0) :
    floorDiv a b = none ↔ a = Int64.minValue ∧ b = -1 := by
  unfold floorDiv div
  by_cases least : a = Int64.minValue ∧ b = -1 <;> simp [nonzero, least]

end Checked

namespace Builtin

variable {a b : Int64}

/-- With a divisor other than zero, these builtins come to what the division of integers does. -/
theorem ofExcept_onDivisor {name : String} {op : Int64 → Int64 → Option Int64}
    (approximate : Float → Float → Float) (nonzero : b ≠ 0) :
    Eval.ofExcept (onDivisor name (Number.combine op approximate) (.int a) (.int b)) =
      Eval.ofExcept (checked name ((op a b).map .int)) := by
  have divisor : (Number.int b).isZero = false := by simpa [Number.isZero] using nonzero
  change Eval.ofExcept (if (Number.int b).isZero then _ else _) = _
  rw [divisor]
  rfl

end Builtin

open Builtin in
/-- The builtins `//` and `%` divide integers with a remainder, for every divisor but zero. The
remainder always exists; the quotient is the floor of the exact one, and it is missing only where
the least integer is divided by minus one. No step leaves the range: with a check at every step both
come to the same. -/
theorem integers_divide_to_the_floor {a b : Int64} (nonzero : b ≠ 0) (m : Machine) :
    (∃ r : Int64, call "%" [.int a, .int b] m = .value (.int r) m ∧
      (0 < b.toInt → 0 ≤ r.toInt ∧ r.toInt < b.toInt) ∧
      (b.toInt < 0 → b.toInt < r.toInt ∧ r.toInt ≤ 0) ∧
      r.toInt ≡ a.toInt [ZMOD b.toInt] ∧
      ∀ q n, call "//" [.int a, .int b] m = .value (.int q) n →
        a.toInt = b.toInt * q.toInt + r.toInt) ∧
    (¬(a = Int64.minValue ∧ b = -1) → ∃ q : Int64,
      call "//" [.int a, .int b] m = .value (.int q) m ∧
        q.toInt = ⌊(a.toInt / b.toInt : ℚ)⌋) ∧
    (a = Int64.minValue ∧ b = -1 →
      call "//" [.int a, .int b] m = .fault (.builtin (.overflow "//")) m) ∧
    Checked.strictFloorDiv a b = Checked.floorDiv a b ∧
    Checked.strictFloorMod a b = Checked.floorMod a b := by
  obtain ⟨r, remainder, rest, congruent⟩ := Checked.floorMod_spec (a := a) nonzero
  have remains : call "%" [.int a, .int b] m = .value (.int r) m := by
    change Eval.ofExcept (onDivisor "%" Number.floorMod (.int a) (.int b)) m = _
    rw [Number.floorMod, ofExcept_onDivisor _ nonzero, remainder]
    rfl
  have divides : call "//" [.int a, .int b] m =
      Eval.ofExcept (checked "//" ((Checked.floorDiv a b).map .int)) m := by
    change Eval.ofExcept (onDivisor "//" Number.floorDiv (.int a) (.int b)) m = _
    rw [Number.floorDiv, ofExcept_onDivisor _ nonzero]
  refine ⟨⟨r, remains, rest.1, rest.2, congruent, fun q n ends => ?_⟩, fun other => ?_,
    fun least => ?_, Checked.strictFloorDiv_eq a b, Checked.strictFloorMod_eq a b⟩
  · rw [divides] at ends
    cases quotient : Checked.floorDiv a b with
    | none =>
      rw [quotient] at ends
      cases ends
    | some p =>
      rw [quotient] at ends
      cases ends
      exact Checked.eq_mul_add quotient remainder
  · cases quotient : Checked.floorDiv a b with
    | none => exact absurd ((Checked.floorDiv_eq_none_iff nonzero).mp quotient) other
    | some q =>
      refine ⟨q, by rw [divides, quotient]; rfl, ?_⟩
      exact (Checked.floor_eq_of_leftOver (Checked.ne_zero_iff.mp nonzero) rest
        (Checked.eq_mul_add quotient remainder)).symm
  · rw [divides, (Checked.floorDiv_eq_none_iff nonzero).mpr least]
    rfl

/-- Seven divided by minus two, and the least integer by minus one. -/
theorem integers_divide_to_the_floor_of_both_signs :
    (∃ (q r : Int64), Builtin.call "//" [.int 7, .int (-2)] Machine.initial =
        .value (.int q) Machine.initial ∧
      Builtin.call "%" [.int 7, .int (-2)] Machine.initial = .value (.int r) Machine.initial ∧
      q.toInt = ⌊((7 : Int64).toInt / (-2 : Int64).toInt : ℚ)⌋ ∧
      (7 : Int64).toInt = (-2 : Int64).toInt * q.toInt + r.toInt) ∧
    Builtin.call "//" [.int Int64.minValue, .int (-1)] Machine.initial =
      .fault (.builtin (.overflow "//")) Machine.initial ∧
    ∃ r : Int64, Builtin.call "%" [.int Int64.minValue, .int (-1)] Machine.initial =
      .value (.int r) Machine.initial := by
  obtain ⟨⟨r, remains, _, _, _, whole⟩, divides, _⟩ :=
    integers_divide_to_the_floor (a := 7) (b := -2) (by decide) Machine.initial
  obtain ⟨q, quotient, floor⟩ := divides (by decide)
  obtain ⟨⟨z, rest, _⟩, _, overflows, _⟩ :=
    integers_divide_to_the_floor (a := Int64.minValue) (b := -1) (by decide) Machine.initial
  exact ⟨⟨q, r, quotient, remains, floor, whole q _ quotient⟩, overflows ⟨rfl, rfl⟩, z, rest⟩

end CellLisp
