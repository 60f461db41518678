import CellLisp.Proofs.Power
import Mathlib.Data.List.Induction

/-!
# Sums and products of many integers

The builtins `+` and `*` combine any number of arguments from left to right, and look at each one
only when its turn comes. So on integers the result is the exact one as long as every partial result
is in range. Whether the whole would be in range does not matter: the first argument that is no
number, or that takes the partial result out of range, ends the call, and those behind it are not
looked at.
-/

namespace CellLisp

open Builtin

/-- What many numbers can be combined to. -/
inductive Total where
  | sum
  | product

namespace Builtin

variable {name : String} {op : Number → Number → Option Number} {total next : Number} {n : Int64}

theorem fold_of_some (found : op total (.int n) = some next) (rest : List Value) :
    fold name op total (.int n :: rest) = fold name op next rest := by
  change fold name op total (.number (.int n) :: rest) = _
  simp [fold, asNumber, bind, Except.bind, found]

theorem fold_of_none (refused : op total (.int n) = none) (rest : List Value) :
    fold name op total (.int n :: rest) = .error (.builtin (.overflow name)) := by
  change fold name op total (.number (.int n) :: rest) = _
  simp [fold, asNumber, bind, Except.bind, refused]

end Builtin

namespace Total

variable {t : Total} {before ns : List Int64} {a n : Int64} {args : List Value} {m : Machine}
  {v : Value} {f : Fault}

def builtin : Total → Builtin
  | sum => .add
  | product => .mul

def combine : Total → Number → Number → Option Number
  | sum => Number.add
  | product => Number.mul

def start : Total → Int64
  | sum => 0
  | product => 1

/-- The exact result, whatever its size. -/
def of : Total → List Int64 → Int
  | sum, ns => (ns.map Int64.toInt).sum
  | product, ns => (ns.map Int64.toInt).prod

/-- Every partial result from the left is in range, that of no numbers included. -/
def Within (t : Total) (ns : List Int64) : Prop :=
  ∀ part, part <+: ns → Checked.fits (t.of part) = true

/-- The value cannot be combined with the numbers before it, for this reason. -/
inductive Offends (t : Total) (before : List Int64) : Value → Fault → Prop
  | type {v : Value} (other : v.kind ≠ .number) :
      Offends t before v (.builtin (.type t.builtin.name .number v.kind))
  | range {n : Int64} (outside : ¬Checked.fits (t.of (before ++ [n])) = true) :
      Offends t before (.int n) (.builtin (.overflow t.builtin.name))

theorem toInt_start (t : Total) : t.start.toInt = t.of [] := by
  cases t <;> decide

theorem within_nil (t : Total) : t.Within [] := by
  intro part short
  rw [List.prefix_nil.mp short, ← toInt_start]
  apply Checked.fits_toInt

theorem within_concat_iff :
    t.Within (before ++ [n]) ↔ t.Within before ∧ Checked.fits (t.of (before ++ [n])) = true := by
  constructor
  · intro within
    exact ⟨fun part short => within part (List.prefix_append_of_prefix short),
      within _ List.prefix_rfl⟩
  · rintro ⟨within, whole⟩ part short
    rcases List.prefix_concat_iff.mp short with rfl | short
    · exact whole
    · exact within part short

/-- One integer more. -/
theorem combine_int (same : a.toInt = t.of before) :
    t.combine (.int a) (.int n) = (Checked.ofInt? (t.of (before ++ [n]))).map .int := by
  cases t with
  | sum => simp_all [combine, Number.add, Number.combine, Checked.add, of]
  | product => simp_all [combine, Number.mul, Number.combine, Checked.mul, of]

theorem call_eq (t : Total) (args : List Value) (m : Machine) : call t.builtin.name args m =
    Eval.ofExcept (fold t.builtin.name t.combine (.int t.start) args) m := by
  cases t <;> rfl

/-- Integers whose partial results are in range are passed. -/
theorem fold_of_within (within : t.Within before) : ∃ a : Int64, a.toInt = t.of before ∧
    ∀ rest, fold t.builtin.name t.combine (.int t.start) (before.map .int ++ rest) =
      fold t.builtin.name t.combine (.int a) rest := by
  induction before using List.reverseRecOn with
  | nil => exact ⟨t.start, t.toInt_start, fun _ => rfl⟩
  | append_singleton before n ih =>
    obtain ⟨within, whole⟩ := within_concat_iff.mp within
    obtain ⟨a, same, passes⟩ := ih within
    obtain ⟨b, found⟩ : ∃ b, Checked.ofInt? (t.of (before ++ [n])) = some b :=
      ⟨_, if_pos whole⟩
    refine ⟨b, Checked.ofInt?_eq_some_iff.mp found, fun rest => ?_⟩
    have next : t.combine (.int a) (.int n) = some (.int b) := by simp [combine_int same, found]
    rw [List.map_append, List.append_assoc, passes]
    apply fold_of_some next

theorem call_of_within (within : t.Within ns) :
    ∃ a : Int64, a.toInt = t.of ns ∧ call t.builtin.name (ns.map .int) m = .value (.int a) m := by
  obtain ⟨a, same, passes⟩ := fold_of_within within
  refine ⟨a, same, ?_⟩
  rw [call_eq, ← List.append_nil (ns.map Value.int), passes]
  rfl

theorem call_of_offends (within : t.Within before) (offends : t.Offends before v f)
    (behind : List Value) :
    call t.builtin.name (before.map .int ++ v :: behind) m = .fault f m := by
  obtain ⟨a, same, passes⟩ := fold_of_within within
  rw [call_eq, passes]
  cases offends with
  | type other =>
    cases v with
    | number => exact absurd rfl other
    | string | boolean | nil | cons | lambda => rfl
  | @range n outside =>
    have refused : t.combine (.int a) (.int n) = none := by
      simp [combine_int same, Checked.ofInt?_eq_none_iff.mpr outside]
    rw [fold_of_none refused]
    rfl

/-- Behind integers that can be combined, the rest can be too, or something in it offends. -/
theorem within_or_offends (noFloat : ∀ x, Value.number (.float x) ∉ args)
    (within : t.Within before) :
    (∃ ns, before.map .int ++ args = ns.map .int ∧ t.Within ns) ∨
    ∃ early v behind f, before.map .int ++ args = early.map .int ++ v :: behind ∧
      t.Within early ∧ t.Offends early v f := by
  induction args generalizing before with
  | nil => exact .inl ⟨before, List.append_nil _, within⟩
  | cons v vs ih =>
    by_cases integer : ∃ n, v = .int n
    · obtain ⟨n, rfl⟩ := integer
      by_cases whole : Checked.fits (t.of (before ++ [n])) = true
      · have further := ih (fun x mem => noFloat x (List.mem_cons_of_mem _ mem))
          (within_concat_iff.mpr ⟨within, whole⟩)
        simpa using further
      · exact .inr ⟨before, .int n, vs, _, rfl, within, .range whole⟩
    · refine .inr ⟨before, v, vs, _, rfl, within, .type fun number => ?_⟩
      cases v with
      | number k =>
        cases k with
        | int n => exact integer ⟨n, rfl⟩
        | float x => exact noFloat x List.mem_cons_self
      | string | boolean | nil | cons | lambda => cases number

end Total

/-- On arguments without floats, `+` and `*` give the exact result exactly if all are integers and
every partial result from the left is in range. Else they report the first argument that is no
number or that takes the partial result out of range, whichever comes first. -/
theorem totals_are_exact (t : Total) {args : List Value}
    (noFloat : ∀ x, Value.number (.float x) ∉ args) (m : Machine) :
    (∀ total : Int64, call t.builtin.name args m = .value (.int total) m ↔
      ∃ ns, args = ns.map .int ∧ t.Within ns ∧ total.toInt = t.of ns) ∧
    (∀ f, call t.builtin.name args m = .fault f m ↔
      ∃ before v behind, args = before.map .int ++ v :: behind ∧ t.Within before ∧
        t.Offends before v f) ∧
    ((∃ total : Int64, call t.builtin.name args m = .value (.int total) m) ∨
      ∃ f, call t.builtin.name args m = .fault f m) := by
  have values : ∀ ns, args = ns.map .int → t.Within ns →
      ∃ a : Int64, a.toInt = t.of ns ∧ call t.builtin.name args m = .value (.int a) m := by
    rintro ns rfl within
    exact Total.call_of_within within
  have faults : ∀ before v behind f, args = before.map .int ++ v :: behind → t.Within before →
      t.Offends before v f → call t.builtin.name args m = .fault f m := by
    rintro before v behind f rfl within offends
    exact Total.call_of_offends within offends behind
  have decided := Total.within_or_offends noFloat t.within_nil
  refine ⟨fun total => ⟨fun ends => ?_, ?_⟩, fun f => ⟨fun ends => ?_, ?_⟩, ?_⟩
  · rcases decided with ⟨ns, integers, within⟩ | ⟨before, v, behind, g, split, within, offends⟩
    · obtain ⟨a, exact, same⟩ := values ns integers within
      rw [same] at ends
      cases ends
      exact ⟨ns, integers, within, exact⟩
    · rw [faults before v behind g split within offends] at ends
      cases ends
  · rintro ⟨ns, integers, within, total⟩
    obtain ⟨a, exact, same⟩ := values ns integers within
    rw [same, Int64.toInt_inj.mp (exact.trans total.symm)]
  · rcases decided with ⟨ns, integers, within⟩ | ⟨before, v, behind, g, split, within, offends⟩
    · obtain ⟨a, _, same⟩ := values ns integers within
      rw [same] at ends
      cases ends
    · rw [faults before v behind g split within offends] at ends
      cases ends
      exact ⟨before, v, behind, split, within, offends⟩
  · rintro ⟨before, v, behind, split, within, offends⟩
    exact faults before v behind f split within offends
  · rcases decided with ⟨ns, integers, within⟩ | ⟨before, v, behind, g, split, within, offends⟩
    · obtain ⟨a, _, same⟩ := values ns integers within
      exact .inl ⟨a, same⟩
    · exact .inr ⟨g, faults before v behind g split within offends⟩

/-- The greatest integer and one, with minus one behind them. The exact sum is in range. -/
theorem totals_are_exact_beyond_range :
    let args : List Value := [.int Int64.maxValue, .int 1, .int (-1), .nil]
    (∀ x, Value.number (.float x) ∉ args) ∧
    call "+" args Machine.initial = .fault (.builtin (.overflow "+")) Machine.initial ∧
    call "*" args Machine.initial = .fault (.builtin (.type "*" .number .nil)) Machine.initial := by
  intro args
  have noFloat : ∀ x, Value.number (.float x) ∉ args := by simp [args, Value.int]
  obtain ⟨_, sums, _⟩ := totals_are_exact .sum noFloat Machine.initial
  obtain ⟨_, products, _⟩ := totals_are_exact .product noFloat Machine.initial
  refine ⟨noFloat, (sums _).mpr ?_, (products _).mpr ?_⟩
  · have first : Total.sum.Within ([] ++ [Int64.maxValue]) :=
      Total.within_concat_iff.mpr ⟨Total.within_nil _, by decide⟩
    exact ⟨_, .int 1, [.int (-1), .nil], rfl, first, .range (by decide)⟩
  · have first : Total.product.Within ([] ++ [Int64.maxValue]) :=
      Total.within_concat_iff.mpr ⟨Total.within_nil _, by decide⟩
    have second : Total.product.Within ([] ++ [Int64.maxValue] ++ [1]) :=
      Total.within_concat_iff.mpr ⟨first, by decide⟩
    have third : Total.product.Within ([] ++ [Int64.maxValue] ++ [1] ++ [-1]) :=
      Total.within_concat_iff.mpr ⟨second, by decide⟩
    exact ⟨_, .nil, [], rfl, third, .type nofun⟩

end CellLisp
