import CellLisp.Builtin.Rules
import CellLisp.Proofs.Binary64

/-!
# How far equality and order of numbers are coherent

Two integers are compared exactly and all else as floats. Floats that are numbers stand in one
order, and rounding integers keeps theirs, so what is equal or in order in two steps is so in one,
but for one case: the middle number is a float, and two integers next to it are both rounded to it.
-/

namespace CellLisp

namespace Binary64

open Float.Model Float.Model.UnpackedFloat

variable {u v : UnpackedFloat} {p q i j : Int}

/-- Where a float stands in the order of all, if it is a number. -/
def rank : UnpackedFloat → ℤ ×ₗ ℤ ×ₗ ℤ
  | .infinity .negative => toLex (-2, toLex (0, 0))
  | .finite .negative m e _ => toLex (-1, toLex (-e, -m))
  | .zero _ => toLex (0, toLex (0, 0))
  | .finite .positive m e _ => toLex (1, toLex (e, m))
  | .infinity .positive => toLex (2, toLex (0, 0))
  | .notANumber => toLex (3, toLex (0, 0))

theorem compare_neg (a b : ℤ) : compare (-a) (-b) = (compare a b).swap := by
  rcases lt_trichotomy a b with less | rfl | more
  · rw [compare_lt_iff_lt.mpr less, compare_gt_iff_gt.mpr (Int.neg_lt_neg less)]
    rfl
  · simp
  · rw [compare_gt_iff_gt.mpr more, compare_lt_iff_lt.mpr (Int.neg_lt_neg more)]
    rfl

theorem compare_cast (a b : ℕ) : compare (a : ℤ) (b : ℤ) = compare a b := by
  rcases lt_trichotomy a b with less | rfl | more
  · rw [compare_lt_iff_lt.mpr less, compare_lt_iff_lt.mpr (Int.ofNat_lt.mpr less)]
  · simp
  · rw [compare_gt_iff_gt.mpr more, compare_gt_iff_gt.mpr (Int.ofNat_lt.mpr more)]

theorem compare_eq (first : u ≠ .notANumber) (second : v ≠ .notANumber) :
    u.compare v = some (compare (rank u) (rank v)) := by
  cases u with
  | notANumber => contradiction
  | infinity s =>
    cases s <;> cases v with
    | notANumber => contradiction
    | infinity t => cases t <;> rfl
    | finite t => cases t <;> rfl
    | zero => rfl
  | zero s =>
    cases v with
    | notANumber => contradiction
    | infinity t => cases t <;> rfl
    | finite t => cases t <;> rfl
    | zero => rfl
  | finite s m e =>
    cases v with
    | notANumber => contradiction
    | infinity t => cases s <;> cases t <;> rfl
    | zero => cases s <;> rfl
    | finite t n f =>
      cases s with
      | negative =>
        cases t with
        | negative =>
          -- both exponents and mantissas stand in the rank with a minus
          simp [UnpackedFloat.compare, rank, Prod.Lex.compare_def, compareLex, compareOn,
            compare_neg, compare_cast, Ordering.swap_then]
        | positive => rfl
      | positive =>
        cases t with
        | negative => rfl
        | positive =>
          simp [UnpackedFloat.compare, rank, Prod.Lex.compare_def, compareLex, compareOn,
            compare_cast]

theorem compare_eq_none (notBoth : ¬(u ≠ .notANumber ∧ v ≠ .notANumber)) : u.compare v = none := by
  cases u with
  | notANumber => rfl
  | infinity | zero | finite =>
    cases v with
    | notANumber => rfl
    | infinity | zero | finite => exact absurd ⟨nofun, nofun⟩ notBoth

theorem compare_eq_some_iff {o : Ordering} : u.compare v = some o ↔
    u ≠ .notANumber ∧ v ≠ .notANumber ∧ compare (rank u) (rank v) = o := by
  by_cases both : u ≠ .notANumber ∧ v ≠ .notANumber
  · rw [compare_eq both.1 both.2, Option.some.injEq]
    exact ⟨fun same => ⟨both.1, both.2, same⟩, fun all => all.2.2⟩
  · rw [compare_eq_none both]
    exact ⟨nofun, fun all => absurd ⟨all.1, all.2.1⟩ both⟩

theorem compare_eq_some_eq_iff : u.compare v = some .eq ↔
    u ≠ .notANumber ∧ v ≠ .notANumber ∧ rank u = rank v := by
  rw [compare_eq_some_iff, compare_eq_iff_eq]

theorem compare_eq_some_gt_iff : u.compare v = some .gt ↔ v.compare u = some .lt := by
  rw [compare_eq_some_iff, compare_eq_some_iff, compare_gt_iff_gt, compare_lt_iff_lt]
  exact ⟨fun ⟨first, second, more⟩ => ⟨second, first, more⟩,
    fun ⟨second, first, less⟩ => ⟨first, second, less⟩⟩

theorem compare_isLE_iff : (u.compare v).any Ordering.isLE = true ↔
    u ≠ .notANumber ∧ v ≠ .notANumber ∧ rank u ≤ rank v := by
  simp only [Option.any_eq_true, compare_eq_some_iff, Ordering.isLE_iff_ne_gt]
  constructor
  · rintro ⟨_, ⟨first, second, rfl⟩, notMore⟩
    exact ⟨first, second, not_lt.mp (compare_gt_iff_gt.not.mp notMore)⟩
  · rintro ⟨first, second, le⟩
    exact ⟨_, ⟨first, second, rfl⟩, compare_gt_iff_gt.not.mpr (not_lt.mpr le)⟩

theorem Lies.rank_le (first : Lies u .positive p) (second : Lies v .positive q) (le : p ≤ q) :
    rank u ≤ rank v := by
  obtain ⟨m, e, _, rfl, _, _, rfl⟩ := first
  obtain ⟨n, f, _, rfl, _, _, rfl⟩ := second
  have earlier : e < f ∨ e = f ∧ m ≤ n := by omega
  simpa [rank, Prod.Lex.toLex_le_toLex] using earlier

theorem Lies.rank_ge (first : Lies u .negative p) (second : Lies v .negative q) (le : q ≤ p) :
    rank u ≤ rank v := by
  obtain ⟨m, e, _, rfl, _, _, rfl⟩ := first
  obtain ⟨n, f, _, rfl, _, _, rfl⟩ := second
  have later : f < e ∨ e = f ∧ n ≤ m := by omega
  simpa [rank, Prod.Lex.toLex_le_toLex] using later

theorem Lies.rank_zero_le (lies : Lies v .positive q) (s : Sign) : rank (.zero s) ≤ rank v := by
  obtain ⟨n, f, _, rfl, _, _, _⟩ := lies
  simp [rank, Prod.Lex.toLex_le_toLex]

theorem Lies.rank_le_zero (lies : Lies u .negative p) (s : Sign) : rank u ≤ rank (.zero s) := by
  obtain ⟨m, e, _, rfl, _, _, _⟩ := lies
  simp [rank, Prod.Lex.toLex_le_toLex]

theorem Rounds.ne_notANumber (rounds : Rounds i u) : u ≠ .notANumber := by
  cases rounds with
  | zero => nofun
  | positive _ lies | negative _ lies =>
    obtain ⟨m, e, _, rfl, _⟩ := lies
    nofun

/-- What larger integers are rounded to comes no earlier. -/
theorem Rounds.rank_mono (first : Rounds i u) (second : Rounds j v) (le : i ≤ j) :
    rank u ≤ rank v := by
  cases first with
  | zero =>
    cases second with
    | zero => exact le_rfl
    | positive _ lies => exact lies.rank_zero_le _
    | negative more => omega
  | positive more lies =>
    cases second with
    | zero => omega
    | positive _ other => exact lies.rank_le other (place_mono more (Int.ofNat_le.mp le))
    | negative => omega
  | negative more lies =>
    cases second with
    | zero => exact lies.rank_le_zero _
    | positive _ other => exact (lies.rank_le_zero .positive).trans (other.rank_zero_le _)
    | negative positive other =>
      exact lies.rank_ge other (place_mono positive (Int.ofNat_le.mp (Int.neg_le_neg_iff.mp le)))

end Binary64

namespace Number

open Float.Model Binary64

variable {a b c : Number} {x : Float} {m n : Int64}

def unpacked (a : Number) : UnpackedFloat := a.toFloat.toModel.unpack

/-- At most as large, as the builtin comparison has it. -/
def atMost (a b : Number) : Bool := (a.order? b).any Ordering.isLE

theorem rounds_unpacked (m : Int64) : Rounds m.toInt (int m).unpacked := by
  have low := m.le_toInt
  have high := m.toInt_lt
  apply rounds_ofInt
  · omega
  · omega

theorem float_lt_iff (x y : Float) :
    x < y ↔ x.toModel.unpack.compare y.toModel.unpack = some .lt := by
  have same : (x < y) = (decide (x.toModel < y.toModel) = true) := rfl
  rw [same, decide_eq_true_iff]
  exact beq_iff_eq

theorem float_beq (x y : Float) :
    (x == y) = (x.toModel.unpack.compare y.toModel.unpack == some .eq) := rfl

theorem float_order (x y : Float) :
    (if x < y then some .lt else if x == y then some .eq else if y < x then some .gt else none) =
      x.toModel.unpack.compare y.toModel.unpack := by
  have back : y < x ↔ x.toModel.unpack.compare y.toModel.unpack = some .gt :=
    (float_lt_iff y x).trans compare_eq_some_gt_iff.symm
  simp only [float_lt_iff x y, back, float_beq, beq_iff_eq]
  generalize x.toModel.unpack.compare y.toModel.unpack = o
  cases o with
  | none => rfl
  | some o => cases o <;> rfl

/-- Two integers are not converted. -/
def Mixed (a b : Number) : Prop := ∀ m n, ¬(a = int m ∧ b = int n)

theorem mixed_or_ints (a b : Number) : Mixed a b ∨ ∃ m n, a = int m ∧ b = int n := by
  by_cases ints : ∃ m n, a = int m ∧ b = int n
  · exact .inr ints
  · exact .inl fun m n both => ints ⟨m, n, both⟩

theorem equal_of_mixed (mixed : Mixed a b) :
    a.equal b = (a.unpacked.compare b.unpacked == some .eq) := by
  cases a <;> cases b
  · exact absurd ⟨rfl, rfl⟩ (mixed _ _)
  · rfl
  · rfl
  · rfl

theorem order?_of_mixed (mixed : Mixed a b) : a.order? b = a.unpacked.compare b.unpacked := by
  cases a <;> cases b
  · exact absurd ⟨rfl, rfl⟩ (mixed _ _)
  · exact float_order _ _
  · exact float_order _ _
  · exact float_order _ _

theorem equal_int_iff : (int m).equal (int n) = true ↔ m = n := beq_iff_eq

theorem atMost_int_iff : (int m).atMost (int n) = true ↔ m ≤ n := by
  simp only [atMost, order?, Option.any_some]
  split
  · next less => simp [Int64.le_of_lt less]
  · next notLess =>
    split
    · next same => simp [same]
    · next differ =>
      have notLe : ¬m ≤ n := fun le => (Int64.lt_or_eq_of_le le).elim notLess differ
      simp [notLe]

theorem compare_of_equal (equal : a.equal b = true) :
    a.unpacked.compare b.unpacked = some .eq := by
  rcases mixed_or_ints a b with mixed | ⟨m, n, rfl, rfl⟩
  · rwa [equal_of_mixed mixed, beq_iff_eq] at equal
  · obtain rfl := equal_int_iff.mp equal
    have number := (rounds_unpacked m).ne_notANumber
    exact compare_eq_some_eq_iff.mpr ⟨number, number, rfl⟩

theorem equal_or_ints (same : a.unpacked.compare b.unpacked = some .eq) :
    a.equal b = true ∨ ∃ m n, a = int m ∧ b = int n := by
  rcases mixed_or_ints a b with mixed | ints
  · rw [equal_of_mixed mixed, same]
    exact .inl rfl
  · exact .inr ints

theorem compare_of_atMost (le : a.atMost b = true) :
    (a.unpacked.compare b.unpacked).any Ordering.isLE = true := by
  rcases mixed_or_ints a b with mixed | ⟨m, n, rfl, rfl⟩
  · rwa [atMost, order?_of_mixed mixed] at le
  · have first := rounds_unpacked m
    have second := rounds_unpacked n
    have ordered := Int64.le_iff_toInt_le.mp (atMost_int_iff.mp le)
    exact compare_isLE_iff.mpr
      ⟨first.ne_notANumber, second.ne_notANumber, first.rank_mono second ordered⟩

theorem atMost_or_ints (le : (a.unpacked.compare b.unpacked).any Ordering.isLE = true) :
    a.atMost b = true ∨ ∃ m n, a = int m ∧ b = int n := by
  rcases mixed_or_ints a b with mixed | ints
  · rw [atMost, order?_of_mixed mixed]
    exact .inl le
  · exact .inr ints

theorem equal_symm (equal : a.equal b = true) : b.equal a = true := by
  obtain ⟨first, second, same⟩ := compare_eq_some_eq_iff.mp (compare_of_equal equal)
  rcases equal_or_ints (compare_eq_some_eq_iff.mpr ⟨second, first, same.symm⟩) with
    back | ⟨n, m, rfl, rfl⟩
  · exact back
  · exact equal_int_iff.mpr (equal_int_iff.mp equal).symm

instance : Std.Symm fun a b : Number => a.equal b = true := ⟨fun _ _ => equal_symm⟩

theorem equal_self (equal : (float x).equal b = true) : (float x).equal (float x) = true := by
  obtain ⟨number, _, _⟩ := compare_eq_some_eq_iff.mp (compare_of_equal equal)
  exact (equal_or_ints (compare_eq_some_eq_iff.mpr ⟨number, number, rfl⟩)).resolve_right nofun

/-- Two integers are rounded to one float. -/
def Merges (x : Float) (m n : Int64) : Prop :=
  m ≠ n ∧ (int m).equal (float x) = true ∧ (int n).equal (float x) = true

/-- Equality of neighbours passes on, unless they are integers rounded to the float between. -/
theorem not_equal_iff (first : a.equal b = true) (second : b.equal c = true) :
    ¬a.equal c = true ↔ ∃ m n x, a = int m ∧ b = float x ∧ c = int n ∧ Merges x m n := by
  constructor
  · intro differ
    obtain ⟨left, _, same⟩ := compare_eq_some_eq_iff.mp (compare_of_equal first)
    obtain ⟨_, right, also⟩ := compare_eq_some_eq_iff.mp (compare_of_equal second)
    have ends := compare_eq_some_eq_iff.mpr ⟨left, right, same.trans also⟩
    obtain ⟨m, n, rfl, rfl⟩ := (equal_or_ints ends).resolve_left differ
    cases b with
    | int k =>
      rw [equal_int_iff] at first second differ
      exact absurd (first.trans second) differ
    | float x =>
      have apart : m ≠ n := fun same => differ (equal_int_iff.mpr same)
      exact ⟨m, n, x, rfl, rfl, rfl, apart, first, equal_symm second⟩
  · rintro ⟨m, n, x, rfl, rfl, rfl, apart, _, _⟩ equal
    exact apart (equal_int_iff.mp equal)

theorem not_atMost_iff (first : a.atMost b = true) (second : b.atMost c = true) :
    ¬a.atMost c = true ↔
      ∃ m n x, a = int m ∧ b = float x ∧ c = int n ∧ n < m ∧ Merges x m n := by
  constructor
  · intro fails
    obtain ⟨left, middle, le⟩ := compare_isLE_iff.mp (compare_of_atMost first)
    obtain ⟨_, right, also⟩ := compare_isLE_iff.mp (compare_of_atMost second)
    have ends := compare_isLE_iff.mpr ⟨left, right, le.trans also⟩
    obtain ⟨m, n, rfl, rfl⟩ := (atMost_or_ints ends).resolve_left fails
    have less : n < m := Int64.not_le.mp (atMost_int_iff.not.mp fails)
    cases b with
    | int k =>
      rw [atMost_int_iff] at first second
      exact absurd (Int64.le_trans first second) (Int64.not_le.mpr less)
    | float x =>
      -- what is rounded keeps its order, so the three are rounded to the same
      have back := (rounds_unpacked n).rank_mono (rounds_unpacked m)
        (Int64.le_iff_toInt_le.mp (Int64.le_of_lt less))
      have firstSame := compare_eq_some_eq_iff.mpr ⟨left, middle, le.antisymm (also.trans back)⟩
      have secondSame := compare_eq_some_eq_iff.mpr ⟨right, middle, (back.trans le).antisymm also⟩
      refine ⟨m, n, x, rfl, rfl, rfl, less, fun same => Int64.lt_irrefl (same ▸ less), ?_, ?_⟩
      · exact (equal_or_ints firstSame).resolve_right nofun
      · exact (equal_or_ints secondSame).resolve_right nofun
  · rintro ⟨m, n, x, rfl, rfl, rfl, less, _⟩ le
    exact Int64.not_le.mpr less (atMost_int_iff.mp le)

/-- Among the numbers are two integers, and a float that both are rounded to. -/
def Merging (ns : List Number) : Prop :=
  ∃ m n x, int m ∈ ns ∧ int n ∈ ns ∧ float x ∈ ns ∧ Merges x m n

variable {ns others : List Number}

theorem pairwise_iff_of_not_merging (apart : ¬Merging (a :: ns)) :
    (a :: ns).Pairwise (fun b c => b.equal c = true) ↔ ∀ b ∈ ns, a.equal b = true := by
  constructor
  · exact fun pairwise => (List.pairwise_cons.mp pairwise).1
  · intro first
    refine .cons first (List.pairwise_of_forall_mem_list fun b memB c memC => ?_)
    have toFirst := equal_symm (first b memB)
    by_contra differ
    obtain ⟨m, n, x, rfl, rfl, rfl, merges⟩ := (not_equal_iff toFirst (first c memC)).mp differ
    exact apart ⟨m, n, x, .tail _ memB, .tail _ memC, .head _, merges⟩

theorem Merging.perm (merging : Merging others) (perm : others.Perm ns) : Merging ns := by
  obtain ⟨m, n, x, memM, memN, memX, merges⟩ := merging
  exact ⟨m, n, x, perm.mem_iff.mp memM, perm.mem_iff.mp memN, perm.mem_iff.mp memX, merges⟩

theorem not_pairwise_of_merging (merging : Merging ns) :
    ¬ns.Pairwise (fun b c => b.equal c = true) := by
  obtain ⟨m, n, x, memM, memN, _, differ, _⟩ := merging
  intro pairwise
  have same := pairwise.forall memM memN fun same => differ (by injection same)
  exact differ (equal_int_iff.mp same)

theorem head_of_merging (merging : Merging (a :: ns)) : (∀ b ∈ ns, a.equal b = true) ↔
    ∃ x, a = float x ∧ ∀ b ∈ a :: ns, (float x).equal b = true := by
  constructor
  · intro first
    obtain ⟨m, n, x, memM, memN, memX, differ, same, also⟩ := merging
    cases a with
    | int k =>
      have among (i : Int64) (mem : int i ∈ int k :: ns) : k = i := by
        cases mem with
        | head => rfl
        | tail _ inside => exact equal_int_iff.mp (first _ inside)
      exact absurd ((among m memM).symm.trans (among n memN)) differ
    | float y =>
      have inside : int m ∈ ns := by simpa using memM
      exact ⟨y, rfl, List.forall_mem_cons.mpr ⟨equal_self (first _ inside), first⟩⟩
  · rintro ⟨x, rfl, all⟩
    exact (List.forall_mem_cons.mp all).2

end Number

namespace Builtin

theorem call_equal {args : List Value} (enough : 2 ≤ args.length) (m : Machine) :
    call "=" args m = .value (.boolean (allEqual args)) m := by
  have admitted : equal.arity.admits args.length = true := decide_eq_true enough
  change (if equal.arity.admits args.length then equal.rule args else _) m = _
  rw [if_pos admitted]
  rfl

/-- The first argument is compared with each of the others. -/
theorem exists_call_equal {a : Number} {ns : List Number} (enough : 2 ≤ (a :: ns).length)
    (m : Machine) : ∃ t, call "=" ((a :: ns).map .number) m = .value (.boolean t) m ∧
      (t = true ↔ ∀ b ∈ ns, a.equal b = true) := by
  refine ⟨_, call_equal (by simpa using enough) m, ?_⟩
  simp [allEqual, Value.equal]

theorem call_lessOrEqual (a b : Number) (m : Machine) :
    call "<=" [.number a, .number b] m = .value (.boolean (a.atMost b)) m := rfl

end Builtin

open Number

/-- What is equal or in order in two steps is so in one, unless the middle is a float that two
different integers are rounded to. So it tells whether all arguments are equal to compare them with
the first, in whatever order, unless such a float and two such integers are among them. -/
theorem comparison_is_coherent :
    (∀ a b c : Number, a.equal b = true → b.equal c = true → (¬a.equal c = true ↔
      ∃ m n x, a = .int m ∧ b = .float x ∧ c = .int n ∧ Merges x m n)) ∧
    (∀ a b c : Number, a.atMost b = true → b.atMost c = true → (¬a.atMost c = true ↔
      ∃ m n x, a = .int m ∧ b = .float x ∧ c = .int n ∧ n < m ∧ Merges x m n)) ∧
    (∀ (a b : Number) (m : Machine),
      Builtin.call "<=" [.number a, .number b] m = .value (.boolean (a.atMost b)) m) ∧
    (∀ (ns others : List Number) (m : Machine), 2 ≤ ns.length → ¬Merging ns → others.Perm ns →
      ∃ t, Builtin.call "=" (others.map .number) m = .value (.boolean t) m ∧
        (t = true ↔ ns.Pairwise fun a b => a.equal b = true)) ∧
    (∀ (ns : List Number) (m : Machine), 2 ≤ ns.length → Merging ns →
      (¬ns.Pairwise fun a b => a.equal b = true) ∧
      ∃ t, Builtin.call "=" (ns.map .number) m = .value (.boolean t) m ∧
        (t = true ↔ ∃ x, ns.head? = some (.float x) ∧ ∀ a ∈ ns, (float x).equal a = true)) := by
  refine ⟨fun a b c => not_equal_iff, fun a b c => not_atMost_iff, Builtin.call_lessOrEqual, ?_, ?_⟩
  · intro ns others m enough apart perm
    rw [← perm.pairwise_iff equal_symm]
    rw [← perm.length_eq] at enough
    have apart : ¬Merging others := fun merging => apart (merging.perm perm)
    cases others with
    | nil => cases enough
    | cons a rest =>
      rw [pairwise_iff_of_not_merging apart]
      exact Builtin.exists_call_equal enough m
  · intro ns m enough merging
    refine ⟨not_pairwise_of_merging merging, ?_⟩
    cases ns with
    | nil => cases enough
    | cons a rest =>
      obtain ⟨t, called, tells⟩ := Builtin.exists_call_equal enough m
      refine ⟨t, called, tells.trans ((head_of_merging merging).trans ?_)⟩
      simp

/-- The first integer whose successor is rounded to the same float. -/
def lastExact : Int64 := 9007199254740992

/-- The float equal to it. -/
def lastExactFloat : Float := Float.ofBits 0x4340000000000000

def roundedTogether : List Number :=
  [.float lastExactFloat, .int lastExact, .int (lastExact + 1)]

theorem merges_lastExact : Merges lastExactFloat lastExact (lastExact + 1) :=
  ⟨by decide, by decide +kernel, by decide +kernel⟩

theorem merging_roundedTogether : Merging roundedTogether :=
  ⟨_, _, _, .tail _ (.head _), .tail _ (.tail _ (.head _)), .head _, merges_lastExact⟩

theorem comparison_is_coherent_around_last_exact :
    (¬(Number.int lastExact).equal (.int (lastExact + 1)) = true ↔ ∃ m n x,
      Number.int lastExact = .int m ∧ Number.float lastExactFloat = .float x ∧
        Number.int (lastExact + 1) = .int n ∧ Merges x m n) ∧
    (¬(Number.int (lastExact + 1)).atMost (.int lastExact) = true ↔ ∃ m n x,
      Number.int (lastExact + 1) = .int m ∧ Number.float lastExactFloat = .float x ∧
        Number.int lastExact = .int n ∧ n < m ∧ Merges x m n) ∧
    (∃ t, Builtin.call "=" ((roundedTogether.take 2).reverse.map .number) Machine.initial =
        .value (.boolean t) Machine.initial ∧
      (t = true ↔ (roundedTogether.take 2).Pairwise fun a b => a.equal b = true)) ∧
    ∃ t, Builtin.call "=" (roundedTogether.map .number) Machine.initial =
        .value (.boolean t) Machine.initial ∧
      (t = true ↔ ∃ x, roundedTogether.head? = some (.float x) ∧
        ∀ a ∈ roundedTogether, (Number.float x).equal a = true) := by
  obtain ⟨apart, same, also⟩ := merges_lastExact
  obtain ⟨equality, order, _, unmerged, merged⟩ := comparison_is_coherent
  refine ⟨equality _ (.float lastExactFloat) _ same (equal_symm also),
    order _ (.float lastExactFloat) _ (by decide +kernel) (by decide +kernel), ?_, ?_⟩
  · apply unmerged _ _ _ (by decide) _ (List.reverse_perm _)
    have only (i : Int64) (mem : .int i ∈ roundedTogether.take 2) : i = lastExact := by
      simpa [roundedTogether] using mem
    rintro ⟨m, n, x, memM, memN, _, differ, _⟩
    exact differ ((only m memM).trans (only n memN).symm)
  · exact (merged _ _ (by decide) merging_roundedTogether).2

/-- The first two of three numbers are equal and the last two are, but not the first and the last;
and it depends on the order of the arguments whether the three are called equal. -/
theorem equality_and_order_fail_through_rounding :
    (Number.int lastExact).equal (.float lastExactFloat) = true ∧
    (Number.float lastExactFloat).equal (.int (lastExact + 1)) = true ∧
    ¬(Number.int lastExact).equal (.int (lastExact + 1)) = true ∧
    (Number.int (lastExact + 1)).atMost (.float lastExactFloat) = true ∧
    (Number.float lastExactFloat).atMost (.int lastExact) = true ∧
    ¬(Number.int (lastExact + 1)).atMost (.int lastExact) = true ∧
    Builtin.call "=" (roundedTogether.map .number) Machine.initial =
      .value (.boolean true) Machine.initial ∧
    Builtin.call "=" (roundedTogether.reverse.map .number) Machine.initial =
      .value (.boolean false) Machine.initial := by
  have forward : Builtin.allEqual (roundedTogether.map .number) = true := by decide +kernel
  have backward : Builtin.allEqual (roundedTogether.reverse.map .number) = false := by
    decide +kernel
  refine ⟨by decide +kernel, by decide +kernel, by decide +kernel, by decide +kernel,
    by decide +kernel, by decide +kernel, ?_, ?_⟩
  · rw [Builtin.call_equal (by decide), forward]
  · rw [Builtin.call_equal (by decide), backward]

end CellLisp
