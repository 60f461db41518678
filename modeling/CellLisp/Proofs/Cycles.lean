import Mathlib.Logic.Relation
import CellLisp.Proofs.Store
import CellLisp.Store.Sketch

/-!
# Cells inside themselves

A cell refers to the cells that are its car and its cdr, and it is on a cycle if references lead
from it back to it. The sketch of a value is cut somewhere exactly if one of the cells of the value
is on a cycle. However many cells share one, a cell inside none of its own parts is never cut.
-/

namespace CellLisp

namespace Store

/-- The cells of a value, in whatever position. -/
inductive PartOf (s : Store) : Value → CellId → Prop
  | here (c : CellId) : PartOf s (.cons c) c
  | car {c e : CellId} (inside : PartOf s (s.car c) e) : PartOf s (.cons c) e
  | cdr {c e : CellId} (inside : PartOf s (s.cdr c) e) : PartOf s (.cons c) e

/-- The car or the cdr of a cell is another. -/
def Refers (s : Store) (c e : CellId) : Prop := s.car c = .cons e ∨ s.cdr c = .cons e

def OnCycle (s : Store) (c : CellId) : Prop := Relation.TransGen s.Refers c c

def Acyclic (s : Store) : Prop := ∀ c, ¬s.OnCycle c

variable {s : Store} {v : Value} {c e : CellId} {opened : List CellId}

theorem PartOf.exists_root (part : s.PartOf v e) : ∃ c, v = .cons c := by
  cases part <;> exact ⟨_, rfl⟩

theorem partOf_cons_iff : s.PartOf (.cons c) e ↔ Relation.ReflTransGen s.Refers c e := by
  constructor
  · intro part
    generalize root : Value.cons c = v at part
    induction part generalizing c with
    | here =>
      cases root
      exact .refl
    | car inside ih =>
      cases root
      obtain ⟨d, same⟩ := inside.exists_root
      exact .head (.inl same) (ih same.symm)
    | cdr inside ih =>
      cases root
      obtain ⟨d, same⟩ := inside.exists_root
      exact .head (.inr same) (ih same.symm)
  · intro leads
    induction leads using Relation.ReflTransGen.head_induction_on with
    | refl => exact .here e
    | head first _ ih =>
      rcases first with car | cdr
      · exact .car (by rwa [car])
      · exact .cdr (by rwa [cdr])

theorem onCycle_of_car (part : s.PartOf (s.car c) c) : s.OnCycle c := by
  obtain ⟨d, same⟩ := part.exists_root
  rw [same] at part
  exact .head' (.inl same) (partOf_cons_iff.mp part)

theorem onCycle_of_cdr (part : s.PartOf (s.cdr c) c) : s.OnCycle c := by
  obtain ⟨d, same⟩ := part.exists_root
  rw [same] at part
  exact .head' (.inr same) (partOf_cons_iff.mp part)

/-! The tree of a value, by what is open around it. -/

theorem sketchWithin_fresh (fresh : c ∉ opened) : s.sketchWithin opened (.cons c) =
    .pair (s.sketchWithin (c :: opened) (s.car c)) (s.sketchWithin (c :: opened) (s.cdr c)) := by
  by_cases inside : c.index < s.cells.size
  · rw [sketchWithin, dif_pos fresh, dif_pos inside]
  · have empty := cell_of_le s (Nat.not_lt.mp inside)
    rw [sketchWithin, dif_pos fresh, dif_neg inside, car, cdr, empty, sketchWithin]

theorem sketchWithin_open (mem : c ∈ opened) : s.sketchWithin opened (.cons c) = .again := by
  rw [sketchWithin, dif_neg (not_not_intro mem)]

theorem induction_on_sketch (s : Store) {motive : List CellId → Value → Prop}
    (atom : ∀ opened v, (∀ c, v ≠ .cons c) → motive opened v)
    (seen : ∀ opened c, c ∈ opened → motive opened (.cons c))
    (fresh : ∀ opened c, c ∉ opened → motive (c :: opened) (s.car c) →
      motive (c :: opened) (s.cdr c) → motive opened (.cons c))
    (opened : List CellId) (v : Value) : motive opened v :=
  match v with
  | .number _ | .string _ | .boolean _ | .nil | .lambda _ => atom _ _ nofun
  | .cons c =>
    if new : c ∉ opened then
      if inside : c.index < s.cells.size then
        fresh opened c new
          (s.induction_on_sketch atom seen fresh (c :: opened) (s.car c))
          (s.induction_on_sketch atom seen fresh (c :: opened) (s.cdr c))
      else by
        have empty := cell_of_le s (Nat.not_lt.mp inside)
        have none : motive (c :: opened) .nil := atom _ _ nofun
        apply fresh opened c new
        · rwa [car, empty]
        · rwa [cdr, empty]
    else seen opened c (Decidable.not_not.mp new)
termination_by s.closedCells opened
decreasing_by all_goals exact closedCells_lt new inside

end Store

/-- Somewhere in the tree a cell is only marked. -/
def Sketch.cut : Sketch → Bool
  | leaf _ | nil => false
  | pair a d => a.cut || d.cut
  | again => true

namespace Store

variable {s : Store} {v : Value} {c e : CellId} {opened : List CellId}

theorem cut_atom (atom : ∀ c, v ≠ .cons c) : (s.sketchWithin opened v).cut = false := by
  cases v with
  | cons c => exact absurd rfl (atom c)
  | number | string | boolean | nil | lambda =>
    rw [sketchWithin]
    rfl

/-- What is cut is a cell around the value or one that the value meets inside itself. -/
theorem exists_part_of_cut (cut : (s.sketchWithin opened v).cut = true) :
    (∃ c ∈ opened, s.PartOf v c) ∨ ∃ c, s.PartOf v c ∧ s.OnCycle c := by
  induction opened, v using s.induction_on_sketch with
  | atom opened v atom =>
    rw [cut_atom atom] at cut
    cases cut
  | seen opened c mem => exact .inl ⟨c, mem, .here c⟩
  | fresh opened c new ihCar ihCdr =>
    rw [sketchWithin_fresh new, Sketch.cut, Bool.or_eq_true] at cut
    rcases cut with cut | cut
    · rcases ihCar cut with ⟨e, mem, part⟩ | ⟨e, part, cycle⟩
      · rcases List.mem_cons.mp mem with rfl | mem
        · exact .inr ⟨e, .here e, onCycle_of_car part⟩
        · exact .inl ⟨e, mem, .car part⟩
      · exact .inr ⟨e, .car part, cycle⟩
    · rcases ihCdr cut with ⟨e, mem, part⟩ | ⟨e, part, cycle⟩
      · rcases List.mem_cons.mp mem with rfl | mem
        · exact .inr ⟨e, .here e, onCycle_of_cdr part⟩
        · exact .inl ⟨e, mem, .cdr part⟩
      · exact .inr ⟨e, .cdr part, cycle⟩

/-- What is on a cycle inside of a cell is inside of one of its parts. -/
theorem OnCycle.inside (cycle : s.OnCycle e) (part : s.PartOf (.cons c) e) :
    s.PartOf (s.car c) e ∨ s.PartOf (s.cdr c) e := by
  cases part with
  | here =>
    obtain ⟨d, first, back⟩ := Relation.TransGen.head'_iff.mp cycle
    rcases first with car | cdr
    · exact .inl (by rw [car]; exact partOf_cons_iff.mpr back)
    · exact .inr (by rw [cdr]; exact partOf_cons_iff.mpr back)
  | car inside => exact .inl inside
  | cdr inside => exact .inr inside

theorem not_onCycle_of_cut_eq_false (whole : (s.sketchWithin opened v).cut = false)
    (part : s.PartOf v e) : ¬s.OnCycle e := by
  intro cycle
  induction opened, v using s.induction_on_sketch with
  | atom opened v atom =>
    obtain ⟨c, rfl⟩ := part.exists_root
    exact absurd rfl (atom c)
  | seen opened c mem =>
    rw [sketchWithin_open mem] at whole
    cases whole
  | fresh opened c new ihCar ihCdr =>
    rw [sketchWithin_fresh new, Sketch.cut, Bool.or_eq_false_iff] at whole
    rcases cycle.inside part with car | cdr
    · exact ihCar whole.1 car
    · exact ihCdr whole.2 cdr

theorem cut_iff : (s.sketch v).cut = true ↔ ∃ c, s.PartOf v c ∧ s.OnCycle c := by
  constructor
  · intro cut
    rcases exists_part_of_cut cut with ⟨c, mem, _⟩ | cycle
    · cases mem
    · exact cycle
  · rintro ⟨c, part, cycle⟩
    by_cases cut : (s.sketch v).cut = true
    · exact cut
    · exact absurd cycle (not_onCycle_of_cut_eq_false (eq_false_of_ne_true cut) part)

theorem Acyclic.cut_eq_false (acyclic : s.Acyclic) (v : Value) : (s.sketch v).cut = false := by
  rw [← Bool.not_eq_true, cut_iff]
  rintro ⟨c, _, cycle⟩
  exact acyclic c cycle

end Store

end CellLisp
