import CellLisp.Builtin.Rules
import Mathlib.Algebra.Order.Ring.Abs

/-!
# Powers of integers

Power squares and multiplies with a check at every product. Every product on the way is an earlier
power of the base, and once a power is out of range, the later ones are too: the base is at least
two in size then. So a check that fails on the way does not refuse a result that fits, and a power
is exact as long as its exponent is counted. Larger exponents are refused at once. That is right
wherever the base is at least two in size, but the powers of zero, one and minus one stay small for
ever.
-/

namespace CellLisp

namespace Checked

variable {c : Int} {k n : Nat}

theorem ofInt?_eq_none_iff : ofInt? c = none ↔ ¬fits c = true := by simp [ofInt?]

theorem fits_of_natAbs_le_one (small : c.natAbs ≤ 1) : fits c = true := by
  have low : Int64.minValue.toInt = -9223372036854775808 := by decide
  have high : Int64.maxValue.toInt = 9223372036854775807 := by decide
  rw [fits_iff]
  omega

theorem not_fits_of_lt_natAbs (large : 9223372036854775808 < c.natAbs) : ¬fits c = true := by
  have low : Int64.minValue.toInt = -9223372036854775808 := by decide
  have high : Int64.maxValue.toInt = 9223372036854775807 := by decide
  rw [fits_iff]
  omega

theorem le_natAbs_of_not_fits (outside : ¬fits c = true) : 9223372036854775808 ≤ c.natAbs := by
  have low : Int64.minValue.toInt = -9223372036854775808 := by decide
  have high : Int64.maxValue.toInt = 9223372036854775807 := by decide
  rw [fits_iff] at outside
  omega

theorem natAbs_pow_le_one (small : c.natAbs ≤ 1) : (c ^ n).natAbs ≤ 1 := by
  rw [Int.natAbs_pow]
  exact Right.pow_le_one_of_le small

theorem two_le_natAbs_pow (large : 2 ≤ c.natAbs) (positive : n ≠ 0) : 2 ≤ (c ^ n).natAbs := by
  rw [Int.natAbs_pow]
  exact Nat.le_trans large (Nat.le_self_pow positive _)

theorem not_fits_later (later : k ≤ n) (outside : ¬fits (c ^ k) = true) :
    ¬fits (c ^ n) = true := by
  have large : 2 ≤ c.natAbs := by
    by_contra small
    exact outside (fits_of_natAbs_le_one (natAbs_pow_le_one (by omega)))
  rcases Nat.eq_or_lt_of_le later with rfl | later
  · exact outside
  · apply not_fits_of_lt_natAbs
    have size := le_natAbs_of_not_fits outside
    have more := two_le_natAbs_pow large (Nat.sub_ne_zero_of_lt later)
    calc 9223372036854775808 < (c ^ k).natAbs * 2 := by omega
      _ ≤ (c ^ k).natAbs * (c ^ (n - k)).natAbs := Nat.mul_le_mul_left _ more
      _ = (c ^ n).natAbs := by
        rw [← Int.natAbs_mul, ← pow_add, Nat.add_sub_cancel' (Nat.le_of_lt later)]

theorem not_fits_of_two_le (large : 2 ≤ c.natAbs) (many : 64 ≤ n) : ¬fits (c ^ n) = true := by
  apply not_fits_of_lt_natAbs
  rw [Int.natAbs_pow]
  calc 9223372036854775808 < 2 ^ 64 := by decide
    _ ≤ c.natAbs ^ 64 := Nat.pow_le_pow_left large 64
    _ ≤ c.natAbs ^ n := Nat.pow_le_pow_right (by omega) many

/-- Squaring and multiplying finds every power that fits. -/
theorem pow_eq_ofInt? (a : Int64) (n : Nat) : pow a n = ofInt? (a.toInt ^ n) := by
  induction a, n using pow.induct with
  | case1 a =>
    rw [pow, if_pos rfl, pow_zero]
    rfl
  | case2 a _ => rw [pow, if_neg (by decide), if_pos rfl, pow_one, ofInt?_eq_some_iff.mpr rfl]
  | case3 a n many more ih =>
    rw [pow, if_neg many, if_neg more]
    simp only [Option.bind_eq_bind, ih]
    have squared : mul a a = ofInt? (a.toInt ^ 2) := by rw [mul, pow_two]
    rw [squared]
    cases square : ofInt? (a.toInt ^ 2) with
    | none =>
      have outside := ofInt?_eq_none_iff.mp square
      exact (ofInt?_eq_none_iff.mpr (not_fits_later (by omega) outside)).symm
    | some s =>
      rw [Option.bind_some, ofInt?_eq_some_iff.mp square, ← pow_mul]
      cases even : ofInt? (a.toInt ^ (2 * (n / 2))) with
      | none =>
        have outside := ofInt?_eq_none_iff.mp even
        exact (ofInt?_eq_none_iff.mpr (not_fits_later (by omega) outside)).symm
      | some e =>
        rw [Option.bind_some]
        split
        · next whole =>
          have double : 2 * (n / 2) = n := by omega
          rw [double] at even
          exact even.symm
        · next odd =>
          have double : 2 * (n / 2) + 1 = n := by omega
          rw [mul, ofInt?_eq_some_iff.mp even, ← pow_succ, double]

end Checked

namespace Builtin

variable {a n : Int64} {m : Machine}

/-- The call gives the power of two integers where that is an integer in range, and an overflow
fault where it is not. -/
def PowerIsExact (a n : Int64) (m : Machine) : Prop :=
  (∀ p : Int64, p.toInt = a.toInt ^ n.toInt.toNat →
    call "**" [.int a, .int n] m = .value (.int p) m) ∧
  (call "**" [.int a, .int n] m = .fault (.builtin (.overflow "**")) m ↔
    ∀ p : Int64, p.toInt ≠ a.toInt ^ n.toInt.toNat)

theorem call_pow (nonneg : 0 ≤ n.toInt) : call "**" [.int a, .int n] m =
    Eval.ofExcept (checked "**" ((if n.toInt < 4294967296 then
      Checked.ofInt? (a.toInt ^ n.toInt.toNat) else none).map .int)) m := by
  have counted : ¬n < 0 := by
    rw [Int64.lt_iff_toInt_lt]
    exact Int.not_lt.mpr nonneg
  change Eval.ofExcept (checked "**" (if n < 0 then _ else if _ then _ else _)) m = _
  rw [if_neg counted]
  split
  · rw [Checked.pow_eq_ofInt?]
  · rfl

theorem powerIsExact_of_call (ends : call "**" [.int a, .int n] m =
    Eval.ofExcept (checked "**" ((Checked.ofInt? (a.toInt ^ n.toInt.toNat)).map .int)) m) :
    PowerIsExact a n m := by
  unfold PowerIsExact
  rw [ends]
  refine ⟨fun p power => by rw [Checked.ofInt?_eq_some_iff.mpr power]; rfl, ?_⟩
  cases result : Checked.ofInt? (a.toInt ^ n.toInt.toNat) with
  | none =>
    refine ⟨fun _ p power => ?_, fun _ => rfl⟩
    rw [Checked.ofInt?_eq_some_iff.mpr power] at result
    cases result
  | some p =>
    refine ⟨nofun, fun outside => ?_⟩
    exact absurd (Checked.ofInt?_eq_some_iff.mp result) (outside p)

end Builtin

open Builtin in
/-- An integer to the power of one that is not negative is exact but for the bases zero, one and
minus one with an exponent of more than 32 bits. There the power fits, and the call overflows. -/
theorem power_is_exact_iff {a n : Int64} (nonneg : 0 ≤ n.toInt) (m : Machine) :
    (PowerIsExact a n m ↔ ¬(4294967296 ≤ n.toInt ∧ a.toInt.natAbs ≤ 1)) ∧
    (4294967296 ≤ n.toInt ∧ a.toInt.natAbs ≤ 1 →
      call "**" [.int a, .int n] m = .fault (.builtin (.overflow "**")) m ∧
        ∃ p : Int64, p.toInt = a.toInt ^ n.toInt.toNat) := by
  have refused : 4294967296 ≤ n.toInt ∧ a.toInt.natAbs ≤ 1 →
      call "**" [.int a, .int n] m = .fault (.builtin (.overflow "**")) m ∧
        ∃ p : Int64, p.toInt = a.toInt ^ n.toInt.toNat := by
    rintro ⟨long, small⟩
    constructor
    · rw [call_pow nonneg, if_neg (Int.not_lt.mpr long)]
      rfl
    · exact ⟨_, Checked.ofInt?_eq_some_iff.mp
        (if_pos (Checked.fits_of_natAbs_le_one (Checked.natAbs_pow_le_one small)))⟩
  refine ⟨⟨fun exact exception => ?_, fun regular => powerIsExact_of_call ?_⟩, refused⟩
  · obtain ⟨overflows, p, power⟩ := refused exception
    exact exact.2.mp overflows p power
  · rw [call_pow nonneg]
    by_cases short : n.toInt < 4294967296
    · rw [if_pos short]
    · have large : 2 ≤ a.toInt.natAbs := by omega
      rw [if_neg short, Checked.ofInt?_eq_none_iff.mpr
        (Checked.not_fits_of_two_le large (by omega))]

/-- The least integer is a power of minus two. -/
theorem power_is_exact_at_least_integer :
    0 ≤ (63 : Int64).toInt ∧
    Builtin.call "**" [.int (-2), .int 63] Machine.initial =
      .value (.int Int64.minValue) Machine.initial ∧
    Builtin.call "**" [.int 2, .int 63] Machine.initial =
      .fault (.builtin (.overflow "**")) Machine.initial := by
  have least := (power_is_exact_iff (a := -2) (n := 63) (by decide) Machine.initial).1
  have beyond := (power_is_exact_iff (a := 2) (n := 63) (by decide) Machine.initial).1
  refine ⟨by decide, (least.mpr (by decide)).1 Int64.minValue (by decide), ?_⟩
  apply (beyond.mpr (by decide)).2.mpr
  intro p power
  have bound := p.toInt_le
  rw [power] at bound
  revert bound
  decide

/-- One to the power of the first exponent that is not counted. -/
theorem power_of_one_can_overflow :
    0 ≤ (4294967296 : Int64).toInt ∧
    (1 : Int64).toInt = (1 : Int64).toInt ^ (4294967296 : Int64).toInt.toNat ∧
    Builtin.call "**" [.int 1, .int 4294967296] Machine.initial =
      .fault (.builtin (.overflow "**")) Machine.initial ∧
    ¬Builtin.PowerIsExact 1 4294967296 Machine.initial := by
  have one : (1 : Int64).toInt = (1 : Int64).toInt ^ (4294967296 : Int64).toInt.toNat := by
    have unit : (1 : Int64).toInt = 1 := by decide
    rw [unit, one_pow]
  have overflows : Builtin.call "**" [.int 1, .int 4294967296] Machine.initial =
      .fault (.builtin (.overflow "**")) Machine.initial := by
    rw [Builtin.call_pow (by decide)]
    rfl
  exact ⟨by decide, one, overflows, fun exact => exact.2.mp overflows 1 one⟩

end CellLisp
