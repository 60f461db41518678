import CellLisp.Proofs.Process.Discipline

/-!
# Code apart from data

The cells of a form are code, but for those of quoted data. If no value that a program computes with
is a cell of code, and no other cell holds one, then nothing that a program does can change a cell
of code: this is a discipline. It is kept when a form is read, as the form is made of new cells and
no two parts of it share a cell.
-/

namespace CellLisp

namespace Store

variable {s t : Store} {r : Position} {v : Value} {c : CellId}

/-- The cells that are code where the value stands. -/
inductive CodeCell (s : Store) : Position → Value → CellId → Prop
  | here {r : Position} {c : CellId} (code : r ≠ .datum) : CodeCell s r (.cons c) c
  | car {r : Position} {c e : CellId} (inside : CodeCell s r.item (s.car c) e) :
    CodeCell s r (.cons c) e
  | cdr {r : Position} {c e : CellId} (inside : CodeCell s (r.rest (s.car c)) (s.cdr c) e) :
    CodeCell s r (.cons c) e

theorem not_codeCell_datum : ¬s.CodeCell .datum v c := by
  intro inside
  generalize position : Position.datum = r at inside
  induction inside with
  | here code => exact code position.symm
  | car inside ih =>
    subst position
    exact ih rfl
  | cdr inside ih =>
    subst position
    exact ih rfl

theorem CodeCell.ne_datum (inside : s.CodeCell r v c) : r ≠ .datum := by
  rintro rfl
  exact not_codeCell_datum inside

end Store

/-- Code whose cells are marked, and hold what they hold in the given store. What it quotes is not
marked. -/
inductive Code (marked : CellId → Prop) (base : Store) : Position → Value → Prop
  | atom {r : Position} {v : Value} (atom : ∀ c, v ≠ .cons c) : Code marked base r v
  | datum {v : Value} (free : ∀ c, v = .cons c → ¬marked c) : Code marked base .datum v
  | cell {r : Position} {c : CellId} (code : r ≠ .datum) (mark : marked c)
    (car : Code marked base r.item (base.car c))
    (cdr : Code marked base (r.rest (base.car c)) (base.cdr c)) : Code marked base r (.cons c)

/-- The value is no marked cell. -/
def Value.Free (marked : CellId → Prop) (v : Value) : Prop := ∀ c, v = .cons c → ¬marked c

variable {marked : CellId → Prop} {base s t : Store} {r : Position} {v : Value} {c : CellId}
  {foreign : Prop}

theorem code_datum_iff : Code marked base .datum v ↔ v.Free marked := by
  constructor
  · intro code c same
    cases code with
    | atom atom => exact absurd same (atom c)
    | datum free => exact free c same
    | cell code => exact absurd rfl code
  · exact .datum

/-- Where foreign code may run, free values are code everywhere: it is of no concern then. -/
def Store.Allows (marked : CellId → Prop) (base : Store) (foreign : Prop) (r : Position)
    (v : Value) : Prop := Code marked base r v ∨ foreign ∧ v.Free marked

/-- The marked cells are as they were, and only code leads to them. -/
structure Store.Guards (s : Store) (marked : CellId → Prop) (base : Store) (foreign : Prop) :
    Prop where
  kept : ∀ c, marked c → s.cell c = base.cell c
  inside : ∀ c, marked c → c.index < s.cells.size
  car : ∀ c, ¬marked c → (s.car c).Free marked
  cdr : ∀ c, ¬marked c → (s.cdr c).Free marked
  body : ∀ l, Store.Allows marked base foreign .form (s.lambda l).body
  bound : ∀ i name v, (s.scope i).get? name = some v → v.Free marked

namespace Store

theorem allows_datum_iff : Allows marked base foreign .datum v ↔ v.Free marked := by
  unfold Allows
  rw [code_datum_iff]
  exact ⟨fun known => known.elim id And.right, .inl⟩

namespace Guards

variable (guards : s.Guards marked base foreign)

include guards

theorem allows_car (known : Allows marked base foreign r (.cons c)) :
    Allows marked base foreign r.item (s.car c) := by
  rcases known with code | ⟨other, free⟩
  · cases code with
    | atom atom => exact absurd rfl (atom c)
    | datum free => exact allows_datum_iff.mpr (guards.car c (free c rfl))
    | cell code mark car cdr =>
      rw [Store.car, guards.kept c mark]
      exact .inl car
  · exact .inr ⟨other, guards.car c (free c rfl)⟩

theorem allows_cdr (known : Allows marked base foreign r (.cons c)) :
    Allows marked base foreign (r.rest (s.car c)) (s.cdr c) := by
  rcases known with code | ⟨other, free⟩
  · cases code with
    | atom atom => exact absurd rfl (atom c)
    | datum free => exact allows_datum_iff.mpr (guards.cdr c (free c rfl))
    | cell code mark car cdr =>
      rw [Store.car, Store.cdr, guards.kept c mark]
      exact .inl cdr
  · exact .inr ⟨other, guards.cdr c (free c rfl)⟩

/-- A change that leaves the cells alone. -/
theorem of_cells (cells : t.cells = s.cells)
    (body : ∀ l, Allows marked base foreign .form (t.lambda l).body)
    (bound : ∀ i name v, (t.scope i).get? name = some v → v.Free marked) :
    t.Guards marked base foreign := by
  have same (c : CellId) : t.cell c = s.cell c := by rw [cell, cell, cells]
  exact {
    kept := fun c mark => (same c).trans (guards.kept c mark)
    inside := fun c mark => by rw [cells]; exact guards.inside c mark
    car := fun c unmarked => by rw [Store.car, same]; exact guards.car c unmarked
    cdr := fun c unmarked => by rw [Store.cdr, same]; exact guards.cdr c unmarked
    body, bound }

theorem unmarked_of_le (outside : s.cells.size ≤ c.index) : ¬marked c := fun mark =>
  Nat.not_lt_of_le outside (guards.inside c mark)

theorem cons {a d : Value} (head : a.Free marked) (tail : d.Free marked) :
    (s.cons a d).2.Guards marked base foreign ∧ (s.cons a d).1.Free marked where
  left := {
    kept := fun c mark => by
      rw [cell_cons, if_neg (Nat.ne_of_lt (guards.inside c mark))]
      exact guards.kept c mark
    inside := fun c mark => by
      rw [size_cells_cons]
      exact Nat.lt_succ_of_lt (guards.inside c mark)
    car := fun c unmarked => by
      rw [Store.car, cell_cons]
      split
      · exact head
      · exact guards.car c unmarked
    cdr := fun c unmarked => by
      rw [Store.cdr, cell_cons]
      split
      · exact tail
      · exact guards.cdr c unmarked
    body := guards.body
    bound := guards.bound }
  right c same := by
    cases same
    exact guards.unmarked_of_le (Nat.le_refl _)

theorem setCar (free : (Value.cons c).Free marked) (known : v.Free marked) :
    (s.setCar c v).Guards marked base foreign where
  kept e mark := by
    have other : c ≠ e := fun same => free e (congrArg _ same) mark
    rw [cell_setCar, if_neg fun both => other both.1]
    exact guards.kept e mark
  inside e mark := by
    rw [size_cells_setCar]
    exact guards.inside e mark
  car e unmarked := by
    rw [Store.car, cell_setCar]
    split
    · exact known
    · exact guards.car e unmarked
  cdr e unmarked := by
    rw [Store.cdr, cell_setCar]
    split <;> exact guards.cdr e unmarked
  body := guards.body
  bound := guards.bound

theorem setCdr (free : (Value.cons c).Free marked) (known : v.Free marked) :
    (s.setCdr c v).Guards marked base foreign where
  kept e mark := by
    have other : c ≠ e := fun same => free e (congrArg _ same) mark
    rw [cell_setCdr, if_neg fun both => other both.1]
    exact guards.kept e mark
  inside e mark := by
    rw [size_cells_setCdr]
    exact guards.inside e mark
  car e unmarked := by
    rw [Store.car, cell_setCdr]
    split <;> exact guards.car e unmarked
  cdr e unmarked := by
    rw [Store.cdr, cell_setCdr]
    split
    · exact known
    · exact guards.cdr e unmarked
  body := guards.body
  bound := guards.bound

theorem bind (i : ScopeId) (name : String) (known : v.Free marked) :
    (s.bind i name v).Guards marked base foreign := by
  refine guards.of_cells rfl guards.body fun j other w found => ?_
  rw [scope_bind] at found
  split at found
  · rw [Scope.get?_insert] at found
    split at found
    · cases found
      exact known
    · exact guards.bound j other w found
  · exact guards.bound j other w found

theorem newScope {content : Scope}
    (known : ∀ name v, content.get? name = some v → v.Free marked) :
    (s.newScope content).2.Guards marked base foreign := by
  refine guards.of_cells rfl guards.body fun j name w found => ?_
  rw [scope_newScope] at found
  split at found
  · exact known name w found
  · exact guards.bound j name w found

theorem newLambda {f : Lambda} (known : Allows marked base foreign .form f.body) :
    (s.newLambda f).2.Guards marked base foreign := by
  refine guards.of_cells rfl (fun l => ?_) guards.bound
  rw [lambda_newLambda]
  split
  · exact known
  · exact guards.body l

theorem setLambdaScope (l : LambdaId) (i : ScopeId) :
    (s.setLambdaScope l i).Guards marked base foreign := by
  refine guards.of_cells rfl (fun k => ?_) guards.bound
  rw [lambda_setLambdaScope]
  split <;> exact guards.body k

end Guards

end Store

theorem Value.Atomic.free (atomic : v.Atomic) : v.Free marked := by
  rintro c rfl
  cases atomic

theorem Value.free_lambda (l : LambdaId) : (Value.lambda l).Free marked := nofun

/-- Only code leads to cells of code. -/
def Discipline.guard (marked : CellId → Prop) (base : Store) (foreign : Prop) : Discipline where
  changing := True
  store s := s.Guards marked base foreign
  allows _ := Store.Allows marked base foreign
  scope _ _ := True
  later _ _ := True
  refl _ := trivial
  trans _ _ := trivial
  allows_later _ := id
  scope_later _ := id
  atom atomic := Store.allows_datum_iff.mpr atomic.free
  lambda _ := Store.allows_datum_iff.mpr (Value.free_lambda _)
  car guards := guards.allows_car
  cdr guards := guards.allows_cdr
  bound guards found := Store.allows_datum_iff.mpr (guards.bound _ _ _ found)
  body l guards := guards.body l
  owned _ _ := trivial
  cons guards head tail := by
    obtain ⟨after, free⟩ :=
      guards.cons (Store.allows_datum_iff.mp head) (Store.allows_datum_iff.mp tail)
    exact ⟨after, trivial, Store.allows_datum_iff.mpr free⟩
  setCar _ guards free known :=
    ⟨guards.setCar (Store.allows_datum_iff.mp free) (Store.allows_datum_iff.mp known), trivial⟩
  setCdr _ guards free known :=
    ⟨guards.setCdr (Store.allows_datum_iff.mp free) (Store.allows_datum_iff.mp known), trivial⟩
  bind i name _ guards known := ⟨guards.bind i name (Store.allows_datum_iff.mp known), trivial⟩
  newScope guards known :=
    ⟨guards.newScope fun name v found => Store.allows_datum_iff.mp (known name v found), trivial,
      trivial⟩
  newLambda guards body _ :=
    ⟨guards.newLambda body, trivial, Store.allows_datum_iff.mpr (Value.free_lambda _)⟩
  setLambdaScope l i guards _ := ⟨guards.setLambdaScope l i, trivial⟩

end CellLisp
