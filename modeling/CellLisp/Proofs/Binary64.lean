import CellLisp.Number
import Mathlib

/-!
# Integers as binary64 floats

A finite float is kept with a mantissa of 53 bits. Those of one sign, in order of their exponents
and then of their mantissas, stand one behind the other, so each has a place, and a mantissa that
rounding carries to the next power of two is at the place where the next exponent begins. Rounding
an integer keeps its first 53 bits and two bits about the rest. All of it goes by one number, the
weight, which a shift keeps in order; so larger integers get no earlier places.

The mantissas are those from 4503599627370496, two to the power 52, up to its double.
-/

namespace CellLisp.Binary64

open Float.Model Float.Model.UnpackedFloat

variable {m k n : Nat} {e : Int} {s : Sign} {a b : ExtendedMantissa}

/-! Residual bits. -/

theorem shift_succ (a : ExtendedMantissa) (k : Nat) : a >>> (k + 1) = (a >>> k).shiftRightOne := rfl

theorem mantissa_shift (a : ExtendedMantissa) (k : Nat) :
    (a >>> k).mantissa = a.mantissa >>> k := by
  induction k with
  | zero => rfl
  | succ k ih =>
    rw [shift_succ, Nat.shiftRight_succ, ← ih]
    rfl

/-- The mantissa with its two residual bits, as one number. -/
def weight (a : ExtendedMantissa) : Nat :=
  4 * a.mantissa + 2 * a.roundBit.toNat + a.stickyBit.toNat

theorem weight_bounds (a : ExtendedMantissa) :
    4 * a.mantissa ≤ weight a ∧ weight a ≤ 4 * a.mantissa + 3 := by
  have round := Bool.toNat_le a.roundBit
  have sticky := Bool.toNat_le a.stickyBit
  unfold weight
  omega

theorem weight_shiftRightOne (a : ExtendedMantissa) :
    weight a.shiftRightOne = 2 * (weight a / 4) + (weight a % 4 + 3) / 4 := by
  obtain ⟨m, round, sticky⟩ := a
  cases round <;> cases sticky <;> rcases Nat.mod_two_eq_zero_or_one m with even | odd <;>
    simp [weight, ExtendedMantissa.shiftRightOne, *] <;> omega

theorem weight_shift_mono (le : weight a ≤ weight b) (k : Nat) :
    weight (a >>> k) ≤ weight (b >>> k) := by
  induction k with
  | zero => exact le
  | succ k ih =>
    rw [shift_succ, shift_succ, weight_shiftRightOne, weight_shiftRightOne]
    omega

theorem roundedMantissa_eq (a : ExtendedMantissa) :
    a.roundedMantissa = (weight a + 1 + a.mantissa % 2) / 4 := by
  obtain ⟨m, round, sticky⟩ := a
  cases round <;> cases sticky <;> rcases Nat.mod_two_eq_zero_or_one m with even | odd <;>
    simp [weight, ExtendedMantissa.roundedMantissa, ExtendedMantissa.accuracy,
      Accuracy.roundToNearestEven, *] <;> omega

theorem roundedMantissa_bounds (a : ExtendedMantissa) :
    a.mantissa ≤ a.roundedMantissa ∧ a.roundedMantissa ≤ a.mantissa + 1 := by
  have bounds := weight_bounds a
  rw [roundedMantissa_eq]
  omega

theorem roundedMantissa_mono (le : weight a ≤ weight b) :
    a.roundedMantissa ≤ b.roundedMantissa := by
  have first := weight_bounds a
  have second := weight_bounds b
  rcases Nat.lt_or_ge a.mantissa b.mantissa with less | more
  · have above := (roundedMantissa_bounds a).2
    have below := (roundedMantissa_bounds b).1
    omega
  · -- with the same mantissa, ties go the same way
    have same : a.mantissa = b.mantissa := by omega
    rw [roundedMantissa_eq, roundedMantissa_eq, same]
    omega

/-- A mantissa without residual bits, shifted. -/
def shifted (m k : Nat) : ExtendedMantissa := (⟨m, false, false⟩ : ExtendedMantissa) >>> k

theorem shifted_exact (m k : Nat) : shifted (m <<< k) k = ⟨m, false, false⟩ := by
  induction k generalizing m with
  | zero => rfl
  | succ k ih =>
    have again := ih (m <<< 1)
    rw [← Nat.shiftLeft_add, Nat.add_comm] at again
    change (shifted _ k).shiftRightOne = _
    rw [again]
    simp [ExtendedMantissa.shiftRightOne, Nat.shiftLeft_eq]

/-! Lengths. -/

theorem log2_eq (low : 4503599627370496 ≤ m) (high : m < 9007199254740992) : m.log2 = 52 := by
  rw [Nat.log2_eq_iff (by omega)]
  exact ⟨low, high⟩

theorem log2_shiftLeft (positive : 0 < n) (k : Nat) : (n <<< k).log2 = n.log2 + k := by
  obtain ⟨low, high⟩ := (Nat.log2_eq_iff (Nat.ne_of_gt positive)).mp rfl
  have notZero : n <<< k ≠ 0 := by
    rw [Nat.shiftLeft_eq]
    exact Nat.ne_of_gt (Nat.mul_pos positive (Nat.two_pow_pos k))
  rw [Nat.log2_eq_iff notZero, Nat.shiftLeft_eq, Nat.add_right_comm, Nat.pow_add, Nat.pow_add]
  exact ⟨Nat.mul_le_mul_right _ low, Nat.mul_lt_mul_of_pos_right high (Nat.two_pow_pos k)⟩

theorem shiftRight_bounds (long : m.log2 = 52 + k) :
    4503599627370496 ≤ m >>> k ∧ m >>> k < 9007199254740992 := by
  have notZero : m ≠ 0 := by
    rintro rfl
    rw [Nat.log2_zero] at long
    omega
  obtain ⟨low, high⟩ := (Nat.log2_eq_iff notZero).mp long
  rw [Nat.pow_add] at low
  rw [Nat.add_right_comm, Nat.pow_add] at high
  rw [Nat.shiftRight_eq_div_pow, Nat.le_div_iff_mul_le (Nat.two_pow_pos k),
    Nat.div_lt_iff_lt_mul (Nat.two_pow_pos k)]
  exact ⟨low, high⟩

/-! Floats in normal form. -/

/-- A finite float with 53 bits, and its place among those of its sign. -/
def Lies (u : UnpackedFloat) (s : Sign) (place : Int) : Prop :=
  ∃ m e positive, u = .finite s m e positive ∧ 4503599627370496 ≤ m ∧ m < 9007199254740992 ∧
    place = 4503599627370496 * e + m

theorem shiftToTargetExponent_eq (long : m.log2 = 52 + k) (low : -1074 ≤ e + k) :
    shiftToTargetExponent .binary64 m e .exact = (shifted m k, e + k) := by
  have target : Format.binary64.targetExponent (totalExponent m e) = e + k := by
    change max ((m.log2 : Int) + 1 + e - (53 : Nat)) (-1074) = _
    omega
  have amount : (e + k - e).toNat = k := by omega
  simp only [shiftToTargetExponent, target, shiftToExponent, amount]
  rfl

/-- A mantissa that rounding carried to the next power of two is shifted once more. -/
theorem shiftToTargetExponent_rounded (low : 4503599627370496 ≤ m) (high : m ≤ 9007199254740992)
    (above : -1074 ≤ e) :
    ∃ (n : Nat) (f : Int), shiftToTargetExponent .binary64 m e .exact = (⟨n, false, false⟩, f) ∧
      4503599627370496 ≤ n ∧ n < 9007199254740992 ∧
      4503599627370496 * e + m = 4503599627370496 * f + n := by
  rcases Nat.lt_or_eq_of_le high with fits | rfl
  · have long : m.log2 = 52 + 0 := log2_eq low fits
    refine ⟨m, e + (0 : Nat), ?_, low, fits, by omega⟩
    rw [shiftToTargetExponent_eq long (by omega)]
    rfl
  · have long : Nat.log2 9007199254740992 = 52 + 1 := by decide +kernel
    refine ⟨4503599627370496, e + (1 : Nat), ?_, by omega, by omega, by omega⟩
    rw [shiftToTargetExponent_eq long (by omega)]
    rfl

theorem lies_round (long : m.log2 = 52 + k) (low : -1074 ≤ e + k) (s : Sign) :
    Lies (roundWithAccuracy .binary64 s m e .exact) s
      (4503599627370496 * (e + k) + (shifted m k).roundedMantissa) := by
  have kept := shiftRight_bounds long
  have bounds := roundedMantissa_bounds (shifted m k)
  have mantissa : (shifted m k).mantissa = m >>> k := mantissa_shift _ k
  obtain ⟨n, f, settled, above, below, place⟩ :=
    shiftToTargetExponent_rounded (m := (shifted m k).roundedMantissa) (by omega) (by omega) low
  simp only [roundWithAccuracy, shiftToTargetExponent_eq long low, settled]
  rw [dif_neg (by omega)]
  exact ⟨n, f, _, rfl, above, below, place⟩

theorem unpackSign_components (spec : Format) (s : Sign) (e : BitVec spec.exponentBits)
    (m : BitVec spec.mantissaBitsWithoutImplicit) :
    Sign.ofBitVec (unpackSign (packComponents spec s e m)) = s := by
  have same : unpackSign (packComponents spec s e m) = s.toBitVec := by
    ext i inside
    obtain rfl : i = 0 := by omega
    simp [unpackSign, packComponents, BitVec.getLsbD_append, BitVec.getElem_append]
  rw [same]
  cases s <;> rfl

/-- The first of 53 bits is not stored. -/
theorem toNat_implicit (low : 4503599627370496 ≤ m) (high : m < 9007199254740992) :
    (1#1 ++ BitVec.ofNat 52 m).toNat = m := by
  rw [BitVec.toNat_append, ← Nat.shiftLeft_add_eq_or_of_lt (BitVec.isLt _)]
  simp only [BitVec.toNat_ofNat, Nat.shiftLeft_eq]
  omega

theorem toNat_stored (above : -1074 ≤ e) (below : e ≤ 971) :
    (BitVec.ofNat 11 (e + 1075).toNat).toNat = (e + 1075).toNat := by
  rw [BitVec.toNat_ofNat, Nat.mod_eq_of_lt (by omega)]

theorem stored_ne (above : -1074 ≤ e) (below : e ≤ 971) {v : BitVec 11}
    (differ : (e + 1075).toNat ≠ v.toNat) : BitVec.ofNat 11 (e + 1075).toNat ≠ v := by
  rintro rfl
  rw [toNat_stored above below] at differ
  exact differ rfl

theorem pack_finite (positive : 0 < m) (low : 4503599627370496 ≤ m)
    (high : m < 9007199254740992) (below : e ≤ 971) :
    UnpackedFloat.pack .binary64 (.finite s m e positive) =
      packComponents .binary64 s (BitVec.ofNat 11 (e + 1075).toNat) (BitVec.ofNat 52 m) := by
  have biased : (e + Format.binary64.exponentBias +
      Format.binary64.mantissaBitsWithoutImplicit).toNat = (e + 1075).toNat := by
    change (e + (1023 : Nat) + (52 : Nat)).toNat = _
    omega
  have fits : ¬2048 ≤ (e + 1075).toNat + 1 := by omega
  rw [UnpackedFloat.pack, biased, log2_eq low high]
  exact if_neg fits

theorem unpack_pack_finite (positive : 0 < m) (low : 4503599627370496 ≤ m)
    (high : m < 9007199254740992) (above : -1074 ≤ e) (below : e ≤ 971) :
    (Float.Model.pack (.finite s m e positive)).unpack = .finite s m e positive := by
  have stored := toNat_stored above below
  -- the least and the greatest of the stored exponents are for other floats
  have notAll : BitVec.ofNat 11 (e + 1075).toNat ≠ -1#11 := by
    apply stored_ne above below
    change _ ≠ 2047
    omega
  have notNone : BitVec.ofNat 11 (e + 1075).toNat ≠ 0#11 := by
    apply stored_ne above below
    change _ ≠ 0
    omega
  change UnpackedFloat.unpack .binary64 (UnpackedFloat.pack .binary64 _) = _
  rw [pack_finite positive low high below, UnpackedFloat.unpack]
  simp only [unpackMantissa_packComponents, unpackExponent_packComponents, unpackSign_components,
    if_neg notAll, if_neg notNone, stored, toNat_implicit low high]
  congr 1
  change ((e + 1075).toNat : Int) - ((1023 : Nat) + (52 : Nat)) = _
  omega

/-- Places far from where the exponents end. -/
def Moderate (place : Int) : Prop :=
  -64 * 4503599627370496 ≤ place ∧ place < 64 * 4503599627370496

variable {u : UnpackedFloat} {p : Int}

theorem Lies.unpack_pack (lies : Lies u s p) (moderate : Moderate p) :
    (Float.Model.pack u).unpack = u := by
  obtain ⟨m, e, positive, rfl, above, below, rfl⟩ := lies
  obtain ⟨low, high⟩ := moderate
  exact unpack_pack_finite positive above below (by omega) (by omega)

theorem Lies.packed (lies : Lies u s p) (moderate : Moderate p) :
    Lies (Float.Model.pack u).unpack s p := by
  rwa [lies.unpack_pack moderate]

theorem Lies.neg (lies : Lies u .positive p) : Lies u.neg .negative p := by
  obtain ⟨m, e, positive, rfl, above, below, rfl⟩ := lies
  exact ⟨m, e, positive, rfl, above, below, rfl⟩

def one : UnpackedFloat := .finite .positive 4503599627370496 (-52) (by decide)

theorem Lies.mul_one (lies : Lies u .positive p) (moderate : Moderate p) :
    Lies (UnpackedFloat.mul .binary64 u one) .positive p := by
  obtain ⟨m, e, positive, rfl, above, below, rfl⟩ := lies
  obtain ⟨low, high⟩ := moderate
  have long : (m <<< 52).log2 = 52 + 52 := by
    rw [log2_shiftLeft positive, log2_eq above below]
  have rounded := lies_round (e := e + -52) long (by omega) .positive
  have back : e + -52 + (52 : Nat) = e := by omega
  rw [shifted_exact, back] at rounded
  have product : UnpackedFloat.mul .binary64 (.finite .positive m e positive) one =
      roundWithAccuracy .binary64 .positive (m * 4503599627370496) (e + -52) .exact := rfl
  have scaled : m * 4503599627370496 = m <<< 52 := (Nat.shiftLeft_eq m 52).symm
  rw [product, scaled]
  exact rounded

/-! Integers. -/

/-- The place of an integer, rounded to 53 bits. -/
def place (n : Nat) : Int :=
  (4503599627370496 : Int) * (-53 + (n.log2 + 1 : Nat)) +
    (shifted (n <<< 53) (n.log2 + 1)).roundedMantissa

theorem log2_lengthened (positive : 0 < n) : (n <<< 53).log2 = 52 + (n.log2 + 1) := by
  rw [log2_shiftLeft positive]
  omega

theorem place_between (positive : 0 < n) :
    4503599627370496 * ((n.log2 : Int) - 51) ≤ place n ∧
      place n ≤ 4503599627370496 * ((n.log2 : Int) - 50) := by
  have kept := shiftRight_bounds (log2_lengthened positive)
  have bounds := roundedMantissa_bounds (shifted (n <<< 53) (n.log2 + 1))
  have mantissa : (shifted (n <<< 53) (n.log2 + 1)).mantissa = (n <<< 53) >>> (n.log2 + 1) :=
    mantissa_shift _ _
  unfold place
  omega

theorem place_moderate (positive : 0 < n) (high : n < 18446744073709551616) :
    Moderate (place n) := by
  have bits : n.log2 < 64 := (Nat.log2_lt (Nat.ne_of_gt positive)).mpr high
  have between := place_between positive
  unfold Moderate
  omega

/-- Rounding keeps integers in order. -/
theorem place_mono {i j : Nat} (positive : 0 < i) (le : i ≤ j) : place i ≤ place j := by
  have log2 : i.log2 ≤ j.log2 :=
    (Nat.le_log2 (by omega)).mpr (Nat.le_trans (Nat.log2_self_le (by omega)) le)
  rcases Nat.lt_or_eq_of_le log2 with shorter | same
  · have below := (place_between positive).2
    have above := (place_between (Nat.lt_of_lt_of_le positive le)).1
    omega
  · have weights : weight ⟨i <<< 53, false, false⟩ ≤ weight ⟨j <<< 53, false, false⟩ := by
      simp only [weight, Nat.shiftLeft_eq]
      omega
    have rounded := roundedMantissa_mono (weight_shift_mono weights (j.log2 + 1))
    change (shifted _ _).roundedMantissa ≤ (shifted _ _).roundedMantissa at rounded
    rw [place, place, same]
    omega

theorem place_of_short (short : n.log2 ≤ 52) : place n =
    (4503599627370496 : Int) * (-((52 - n.log2 : Nat) : Int) + (0 : Nat)) +
      (n <<< (52 - n.log2) : Nat) := by
  have whole : n <<< 53 = (n <<< (52 - n.log2)) <<< (n.log2 + 1) := by
    rw [← Nat.shiftLeft_add]
    congr 1
    omega
  rw [place, whole, shifted_exact]
  change _ + ((n <<< (52 - n.log2) : Nat) : Int) = _
  omega

theorem toModel_toFloat (positive : 0 < n) (short : n < 9007199254740992) :
    n.toUInt64.toFloat.toModel = .pack (roundWithAccuracy .binary64 .positive
      (n <<< (52 - n.log2)) (-(52 - n.log2 : Nat)) .exact) := by
  have bits : n.log2 < 53 := (Nat.log2_lt (Nat.ne_of_gt positive)).mpr short
  have same : n.toUInt64.toNat = n := by
    change (UInt64.ofNat n).toNat = n
    rw [UInt64.toNat_ofNat', Nat.mod_eq_of_lt (by omega)]
  have target : Format.binary64.targetExponent (totalExponent n 0) = -(52 - n.log2 : Nat) := by
    change max ((n.log2 : Int) + 1 + 0 - (53 : Nat)) (-1074) = _
    omega
  have amount : (-(-(52 - n.log2 : Nat) : Int)).toNat = 52 - n.log2 := by omega
  have normal : UnpackedFloat.normalize .binary64 (n : Int) 0 .positive =
      UnpackedFloat.round .binary64 .positive n 0 := by
    have above : compare (n : Int) 0 = .gt := Int.compare_eq_gt.mpr (by omega)
    simp [UnpackedFloat.normalize, above]
  change Float.Model.pack
    (UnpackedFloat.normalize .binary64 (n.toUInt64.toNat : Int) 0 .positive) = _
  rw [same, normal]
  simp only [UnpackedFloat.round, target, decreaseExponent, Int.zero_sub, amount]

/-- An integer that fits into 53 bits is multiplied by one. -/
theorem toModel_ofNat_of_short (short : n < 9007199254740992) : (Float.ofNat n).toModel =
    .pack (UnpackedFloat.mul .binary64 n.toUInt64.toFloat.toModel.unpack one) := by
  have fast : n < 9007199254740992 ∧ 0 ≤ 22 := ⟨short, by decide⟩
  have unit : Float.exactlyRepresentablePowersOfTen[0].toModel.unpack = one := rfl
  change (Float.ofScientific n false 0).toModel = _
  rw [Float.ofScientific, dif_pos fast, ← unit]
  rfl

theorem toModel_ofNat_of_long (long : 9007199254740992 ≤ n) : (Float.ofNat n).toModel =
    .pack (roundWithAccuracy .binary64 .positive (n <<< 53) (-53) .exact) := by
  have notFast : ¬(n < 9007199254740992 ∧ 0 ≤ 22) := by omega
  have notZero : n ≠ 0 := by omega
  have notTiny : ¬(0 : Int) < -(2048 + (n.log2 : Int)) := by omega
  have scientific : UnpackedFloat.ofScientific .binary64 n 0 =
      roundWithAccuracy .binary64 .positive ((n <<< 53) * 1) (-53 + 0) .exact := by
    rw [UnpackedFloat.ofScientific, dif_neg notZero, if_neg (by decide)]
    exact (if_neg notTiny).trans (if_pos (Int.le_refl 0))
  change (Float.ofScientific n false 0).toModel = _
  rw [Float.ofScientific, dif_neg notFast]
  change Float.Model.pack (UnpackedFloat.ofScientific .binary64 n 0) = _
  rw [scientific, Nat.mul_one]
  rfl

theorem lies_toFloat (positive : 0 < n) (short : n < 9007199254740992) :
    Lies n.toUInt64.toFloat.toModel.unpack .positive (place n) := by
  have bits : n.log2 < 53 := (Nat.log2_lt (Nat.ne_of_gt positive)).mpr short
  have long : (n <<< (52 - n.log2)).log2 = 52 + 0 := by
    rw [log2_shiftLeft positive]
    omega
  have rounded : Lies (roundWithAccuracy .binary64 .positive (n <<< (52 - n.log2))
      (-(52 - n.log2 : Nat)) .exact) .positive (place n) := by
    rw [place_of_short (by omega)]
    exact lies_round long (by omega) .positive
  rw [toModel_toFloat positive short]
  exact rounded.packed (place_moderate positive (by omega))

theorem lies_ofNat (positive : 0 < n) (high : n < 18446744073709551616) :
    Lies (Float.ofNat n).toModel.unpack .positive (place n) := by
  have moderate := place_moderate positive high
  rcases Nat.lt_or_ge n 9007199254740992 with short | long
  · rw [toModel_ofNat_of_short short]
    exact ((lies_toFloat positive short).mul_one moderate).packed moderate
  · have rounded : Lies (roundWithAccuracy .binary64 .positive (n <<< 53) (-53) .exact) .positive
        (place n) := lies_round (log2_lengthened positive) (by omega) .positive
    rw [toModel_ofNat_of_long long]
    exact rounded.packed moderate

/-- What an integer is rounded to, by its sign. -/
inductive Rounds : Int → UnpackedFloat → Prop
  | zero : Rounds 0 (.zero .positive)
  | positive {n : Nat} {u : UnpackedFloat} (positive : 0 < n) (lies : Lies u .positive (place n)) :
      Rounds n u
  | negative {n : Nat} {u : UnpackedFloat} (positive : 0 < n) (lies : Lies u .negative (place n)) :
      Rounds (-n) u

theorem rounds_ofInt {i : Int} (low : -18446744073709551616 < i) (high : i < 18446744073709551616) :
    Rounds i (Float.ofInt i).toModel.unpack := by
  cases i with
  | ofNat n =>
    rcases Nat.eq_zero_or_pos n with rfl | positive
    · exact .zero
    · exact .positive positive (lies_ofNat positive (Int.ofNat_lt.mp high))
  | negSucc n =>
    have positive := Nat.succ_pos n
    have bounded : n.succ < 18446744073709551616 := by omega
    have lies := (lies_ofNat positive bounded).neg.packed (place_moderate positive bounded)
    exact .negative positive lies

end CellLisp.Binary64
