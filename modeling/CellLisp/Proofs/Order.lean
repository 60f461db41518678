import CellLisp.Proofs.Cycles
import CellLisp.Proofs.Session

/-!
# Cells refer to older cells

A new cell refers to cells that were there before it. So as long as no cell is changed, the cells
made since some point refer only to older ones, and a cycle would have to lie among the cells from
before. Only applying a builtin that changes cells can close one. Scopes and lambdas may refer to
each other in circles all the same: they are no cells.
-/

namespace CellLisp

namespace Store

variable {s t base : Store} {a d v : Value} {c e : CellId}

theorem Refers.known (refers : s.Refers c e) (sound : s.Sound) : e.index < s.cells.size := by
  rcases refers with car | cdr
  · have known := sound.car c
    rwa [car] at known
  · have known := sound.cdr c
    rwa [cdr] at known

theorem refers_congr (same : t.cell c = s.cell c) : t.Refers c e ↔ s.Refers c e := by
  rw [Refers, Refers, Store.car, Store.cdr, Store.car, Store.cdr, same]

theorem not_refers_of_le (outside : s.cells.size ≤ c.index) : ¬s.Refers c e := by
  rw [Refers, Store.car, Store.cdr, cell_of_le s outside]
  rintro (car | cdr)
  · cases car
  · cases cdr

/-- What was there is as it was, and the cells made since refer to older cells only. -/
structure Follows (s base : Store) : Prop where
  kept : base.Extends s
  older : ∀ c e, base.cells.size ≤ c.index → s.Refers c e → e.index < c.index

namespace Follows

theorem refl (s : Store) : s.Follows s where
  kept := .refl s
  older _ _ outside refers := absurd refers (not_refers_of_le outside)

theorem of_cells (follows : s.Follows base) (same : t.cells = s.cells) : t.Follows base where
  kept := {
    size := by rw [same]; exact follows.kept.size
    cell := fun c inside => by
      rw [cell, same]
      exact follows.kept.cell c inside }
  older c e outside refers := by
    refine follows.older c e outside ((refers_congr ?_).mp refers)
    rw [cell, cell, same]

theorem cons (follows : s.Follows base) (head : a.KnownTo s) (tail : d.KnownTo s) :
    (s.cons a d).2.Follows base where
  kept := follows.kept.trans (extends_cons s a d)
  older c e outside refers := by
    by_cases last : c.index = s.cells.size
    · rw [Refers, Store.car, Store.cdr, cell_cons, if_pos last] at refers
      rw [last]
      rcases refers with rfl | rfl
      · exact head
      · exact tail
    · refine follows.older c e outside ((refers_congr ?_).mp refers)
      rw [cell_cons, if_neg last]

theorem place (follows : s.Follows base) (sound : s.Sound) (d : Datum) :
    (s.place d).2.Follows base := by
  induction d generalizing s with
  | pair a d ihCar ihCdr =>
    obtain ⟨soundCar, knownCar⟩ := sound.place a
    obtain ⟨_, knownCdr⟩ := soundCar.place d
    exact (ihCdr (ihCar follows sound) soundCar).cons (knownCar.mono (within_place _ d)) knownCdr
  | number | string | boolean | nil => exact follows

/-- References lead from an old cell to old cells, as they did before. -/
theorem transGen_base (follows : s.Follows base) (sound : base.Sound)
    (leads : Relation.TransGen s.Refers c e) (old : c.index < base.cells.size) :
    e.index < base.cells.size ∧ Relation.TransGen base.Refers c e := by
  have before {c e : CellId} (refers : s.Refers c e) (old : c.index < base.cells.size) :
      base.Refers c e := (refers_congr (follows.kept.cell c old)).mp refers
  induction leads with
  | single refers => exact ⟨(before refers old).known sound, .single (before refers old)⟩
  | tail _ refers ih =>
    have last := before refers ih.1
    exact ⟨last.known sound, ih.2.tail last⟩

/-- References lead from a new cell to older ones. -/
theorem index_lt_of_transGen (follows : s.Follows base) (sound : base.Sound)
    (leads : Relation.TransGen s.Refers c e) (new : base.cells.size ≤ c.index) :
    e.index < c.index := by
  induction leads with
  | single refers => exact follows.older c _ new refers
  | @tail d e _ refers ih =>
    rcases Nat.lt_or_ge d.index base.cells.size with old | newer
    · have inside := (follows.transGen_base sound (.single refers) old).1
      exact Nat.lt_of_lt_of_le inside new
    · exact Nat.lt_trans (follows.older d e newer refers) ih

theorem onCycle_iff (follows : s.Follows base) (sound : base.Sound) :
    s.OnCycle c ↔ base.OnCycle c := by
  constructor
  · intro cycle
    rcases Nat.lt_or_ge c.index base.cells.size with old | new
    · exact (follows.transGen_base sound cycle old).2
    · exact absurd (follows.index_lt_of_transGen sound cycle new) (Nat.lt_irrefl _)
  · intro cycle
    refine cycle.lift id fun d e refers => ?_
    rcases Nat.lt_or_ge d.index base.cells.size with old | new
    · exact (refers_congr (follows.kept.cell d old)).mpr refers
    · exact absurd refers (not_refers_of_le new)

end Follows

theorem acyclic_initial : Machine.initial.store.Acyclic := by
  intro c cycle
  obtain ⟨e, first, _⟩ := Relation.TransGen.head'_iff.mp cycle
  exact not_refers_of_le (Nat.zero_le _) first

end Store

/-- Nothing changes the cells of the given store, and what is made since is in order. -/
def Discipline.ordered (base : Store) : Discipline :=
  { Discipline.sound with
    changing := False
    store := fun s => s.Sound ∧ s.Follows base
    car := fun kept _ => kept.1.car _
    cdr := fun kept _ => kept.1.cdr _
    bound := fun kept found => kept.1.bound _ _ _ found
    body := fun l kept => kept.1.body l
    owned := fun kept valid => kept.1.owned _ valid
    cons := fun kept head tail =>
      have made := Discipline.sound.cons kept.1 head tail
      ⟨⟨made.1, kept.2.cons head tail⟩, made.2⟩
    setCar := nofun
    setCdr := nofun
    bind := fun i name _ kept known =>
      have made := Discipline.sound.bind i name kept.1 known
      ⟨⟨made.1, kept.2.of_cells rfl⟩, made.2⟩
    newScope := fun kept known =>
      have made := Discipline.sound.newScope kept.1 known
      ⟨⟨made.1, kept.2.of_cells rfl⟩, made.2⟩
    newLambda := fun kept body inside =>
      have made := Discipline.sound.newLambda kept.1 body inside
      ⟨⟨made.1, kept.2.of_cells rfl⟩, made.2⟩
    setLambdaScope := fun l _ kept inside =>
      have made := Discipline.sound.setLambdaScope l kept.1 inside
      ⟨⟨made.1, kept.2.of_cells rfl⟩, made.2⟩ }

namespace Process

variable {base : Store} {p q : Process}

theorem governs_ordered (sound : p.Sound) (follows : p.machine.store.Follows base) :
    (Discipline.ordered base).Governs p := by
  obtain ⟨⟨machine, frames⟩, focus⟩ := governs_sound_iff.mpr sound
  exact ⟨⟨⟨⟨machine.store, follows⟩, machine.stack⟩, frames⟩, focus⟩

theorem follows_of_next (sound : p.Sound) (follows : p.machine.store.Follows base)
    (quiet : ¬p.Mutates) (step : p.next = some q) : q.machine.store.Follows base := by
  have governs := (governs_ordered sound follows).next quiet step
  exact governs.grounded.machine.store.2

theorem Leads.follows (leads : Leads p q) (sound : p.Sound)
    (quiet : ∀ t, Leads p t → ¬t.Mutates) : q.machine.store.Follows p.machine.store := by
  induction leads with
  | refl => exact .refl _
  | tail before step ih => exact follows_of_next (sound.leads before) ih (quiet _ before) step

end Process

end CellLisp
