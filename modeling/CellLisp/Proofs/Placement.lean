import CellLisp.Proofs.Concatenation
import CellLisp.Proofs.Cycles
import CellLisp.Proofs.Printing

/-!
# A datum is placed as a tree of new cells

Placing a datum makes a cell for each of its pairs, after the cells of what the pair holds. So the
cells of the value are those made last, no two ways through its cars and cdrs lead to the same one,
and none of them is inside of itself. What was there before stands as it was.
-/

namespace CellLisp

/-- The two parts of a cell. -/
inductive Side where
  | car
  | cdr

namespace Store

variable {s t : Store} {v : Value} {c e : CellId} {d : Datum} {way : List Side} {low mid : Nat}

/-- The way leads from the value to the cell. -/
inductive Way (s : Store) : Value → List Side → CellId → Prop
  | here (c : CellId) : Way s (.cons c) [] c
  | car {c e : CellId} {way : List Side} (rest : Way s (s.car c) way e) :
      Way s (.cons c) (.car :: way) e
  | cdr {c e : CellId} {way : List Side} (rest : Way s (s.cdr c) way e) :
      Way s (.cons c) (.cdr :: way) e

theorem partOf_iff : s.PartOf v e ↔ ∃ way, s.Way v way e := by
  constructor
  · intro part
    induction part with
    | here c => exact ⟨[], .here c⟩
    | car inside ih =>
      obtain ⟨way, leads⟩ := ih
      exact ⟨_, .car leads⟩
    | cdr inside ih =>
      obtain ⟨way, leads⟩ := ih
      exact ⟨_, .cdr leads⟩
  · rintro ⟨way, leads⟩
    induction leads with
    | here c => exact .here c
    | car _ ih => exact .car ih
    | cdr _ ih => exact .cdr ih

theorem Way.append {more : List Side} (first : s.Way v way c) (second : s.Way (.cons c) more e) :
    s.Way v (way ++ more) e := by
  induction first with
  | here c => exact second
  | car _ ih => exact .car (ih second)
  | cdr _ ih => exact .cdr (ih second)

/-- A cell on a cycle is inside of itself. -/
theorem OnCycle.exists_way (cycle : s.OnCycle c) : ∃ way, way ≠ [] ∧ s.Way (.cons c) way c := by
  obtain ⟨e, first, back⟩ := Relation.TransGen.head'_iff.mp cycle
  obtain ⟨way, leads⟩ := partOf_iff.mp (partOf_cons_iff.mpr back)
  rcases first with car | cdr
  · exact ⟨.car :: way, nofun, .car (by rwa [car])⟩
  · exact ⟨.cdr :: way, nofun, .cdr (by rwa [cdr])⟩

/-- What spells a datum has the same cells in a store with more of them. -/
theorem Holds.way_iff (holds : s.Holds v d) (kept : s.Extends t) :
    t.Way v way e ↔ s.Way v way e := by
  induction holds generalizing way with
  | number | string | boolean | nil =>
    constructor
    · nofun
    · nofun
  | @cons c a d inside car cdr ihCar ihCdr =>
    have sameCar : t.car c = s.car c := congrArg Cell.car (kept.cell c inside)
    have sameCdr : t.cdr c = s.cdr c := congrArg Cell.cdr (kept.cell c inside)
    constructor
    · rintro (_ | rest | rest)
      · exact .here _
      · exact .car (ihCar.mp (sameCar ▸ rest))
      · exact .cdr (ihCdr.mp (sameCdr ▸ rest))
    · rintro (_ | rest | rest)
      · exact .here _
      · exact .car (sameCar ▸ ihCar.mpr rest)
      · exact .cdr (sameCdr ▸ ihCdr.mpr rest)

/-- The cells of the value are those in a range of places, and only one way leads to each. -/
structure Tree (s : Store) (low high : Nat) (v : Value) : Prop where
  range : ∀ c, s.PartOf v c ↔ low ≤ c.index ∧ c.index < high
  single : ∀ c way other, s.Way v way c → s.Way v other c → way = other

theorem Tree.not_onCycle {high : Nat} (tree : s.Tree low high v) (part : s.PartOf v c) :
    ¬s.OnCycle c := by
  intro cycle
  obtain ⟨way, leads⟩ := partOf_iff.mp part
  obtain ⟨round, notHere, back⟩ := cycle.exists_way
  have same := tree.single c _ _ leads (leads.append back)
  exact notHere (List.self_eq_append_right.mp same)

theorem Tree.extends {high : Nat} (tree : s.Tree low high v) (holds : s.Holds v d)
    (kept : s.Extends t) : t.Tree low high v where
  range c := by
    rw [← tree.range, partOf_iff, partOf_iff]
    simp [holds.way_iff kept]
  single c way other first second :=
    tree.single c way other ((holds.way_iff kept).mp first) ((holds.way_iff kept).mp second)

theorem tree_atom (atom : ∀ c, v ≠ .cons c) (low : Nat) : s.Tree low low v where
  range c := by
    constructor
    · intro part
      obtain ⟨e, root⟩ := part.exists_root
      exact absurd root (atom e)
    · omega
  single c way other first _ := by
    cases first <;> exact absurd rfl (atom _)

/-- A cell above two trees that lie side by side below it. -/
theorem Tree.cons (car : s.Tree low mid (s.car c)) (cdr : s.Tree mid c.index (s.cdr c))
    (first : low ≤ mid) (second : mid ≤ c.index) : s.Tree low (c.index + 1) (.cons c) where
  range e := by
    constructor
    · rintro (_ | inside | inside)
      · omega
      · have bounds := (car.range e).mp inside
        omega
      · have bounds := (cdr.range e).mp inside
        omega
    · rintro ⟨above, below⟩
      rcases Nat.lt_trichotomy e.index c.index with less | same | more
      · rcases Nat.lt_or_ge e.index mid with left | right
        · exact .car ((car.range e).mpr ⟨above, left⟩)
        · exact .cdr ((cdr.range e).mpr ⟨right, less⟩)
      · rw [show e = c from congrArg CellId.mk same]
        exact .here c
      · omega
  single e way other one two := by
    have inCar {way} (leads : s.Way (s.car c) way e) := (car.range e).mp (partOf_iff.mpr ⟨_, leads⟩)
    have inCdr {way} (leads : s.Way (s.cdr c) way e) := (cdr.range e).mp (partOf_iff.mpr ⟨_, leads⟩)
    -- the places tell in which of the two parts the cell is, if it is not the one above them
    rcases one with _ | one | one
    · rcases two with _ | two | two
      · rfl
      · have bounds := inCar two
        omega
      · have bounds := inCdr two
        omega
    · have bounds := inCar one
      rcases two with _ | two | two
      · omega
      · rw [car.single e _ _ one two]
      · have others := inCdr two
        omega
    · have bounds := inCdr one
      rcases two with _ | two | two
      · omega
      · have others := inCar two
        omega
      · rw [cdr.single e _ _ one two]

theorem tree_cons {a b : Value} {x y : Datum} (car : s.Tree low mid a)
    (cdr : s.Tree mid s.cells.size b) (spellsCar : s.Holds a x) (spellsCdr : s.Holds b y)
    (first : low ≤ mid) (second : mid ≤ s.cells.size) :
    (s.cons a b).2.Tree low (s.cons a b).2.cells.size (s.cons a b).1 := by
  have cell := cell_cons s a b ⟨s.cells.size⟩
  rw [if_pos rfl] at cell
  have above := extends_cons s a b
  have left : (s.cons a b).2.Tree low mid ((s.cons a b).2.car ⟨s.cells.size⟩) := by
    rw [Store.car, cell]
    exact car.extends spellsCar above
  have right : (s.cons a b).2.Tree mid s.cells.size ((s.cons a b).2.cdr ⟨s.cells.size⟩) := by
    rw [Store.cdr, cell]
    exact cdr.extends spellsCdr above
  rw [fst_cons, size_cells_cons]
  exact left.cons right first second

theorem tree_place (s : Store) (d : Datum) :
    (s.place d).2.Tree s.cells.size (s.place d).2.cells.size (s.place d).1 := by
  induction d generalizing s with
  | number | string | boolean | nil =>
    apply tree_atom
    intro c same
    cases same
  | pair a d ihCar ihCdr =>
    have spellsCar := holds_place s a
    have spellsCdr := holds_place (s.place a).2 d
    have kept := extends_place (s.place a).2 d
    exact tree_cons ((ihCar s).extends spellsCar kept) (ihCdr (s.place a).2)
      (spellsCar.extends kept) spellsCdr (extends_place s a).size kept.size

theorem untouched_place (s : Store) (d : Datum) : s.Untouched (s.place d).2 where
  __ := extends_place s d
  lambdas := Nat.le_of_eq (by rw [place_lambdas])
  lambda l _ := lambda_congr (place_lambdas s d) l
  scopes := Nat.le_of_eq (by rw [place_scopes])
  scope i _ := scope_congr (place_scopes s d) i

end Store

/-- Atoms, and lists of such data that end in nil. -/
inductive Datum.Proper : Datum → Prop
  | number (n : Number) : Proper (.number n)
  | string (text : String) : Proper (.string text)
  | boolean (b : Bool) : Proper (.boolean b)
  | list {ds : List Datum} (each : ∀ d ∈ ds, Proper d) : Proper (.list ds)

namespace Store

variable {s : Store} {v : Value} {c : CellId} {d : Datum} {ds : List Datum}

theorem Holds.proper (holds : s.Holds v (.list ds)) : s.Proper v := by
  induction ds generalizing v with
  | nil =>
    cases holds
    exact ⟨[], trail_nil⟩
  | cons d ds ih =>
    cases holds with
    | @cons c _ _ inside car cdr =>
      obtain ⟨items, trail⟩ := ih cdr
      exact ⟨_, .cons trail⟩

/-- Wherever a cell stands in the value, its chain ends in nil. -/
theorem Holds.proper_of_partOf (proper : d.Proper) (holds : s.Holds v d) (part : s.PartOf v c) :
    s.Proper (.cons c) := by
  induction proper generalizing v with
  | number | string | boolean =>
    cases holds
    cases part
  | @list ds each ih =>
    clear each
    induction ds generalizing v with
    | nil =>
      cases holds
      cases part
    | cons d ds rest =>
      obtain ⟨here, there⟩ := List.forall_mem_cons.mp ih
      have whole := holds.proper
      cases holds with
      | @cons k _ _ inside car cdr =>
        cases part with
        | here => exact whole
        | car inner => exact here car inner
        | cdr inner => exact rest there cdr inner

end Store

end CellLisp
