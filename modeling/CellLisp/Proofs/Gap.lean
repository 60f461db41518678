import CellLisp.Proofs.Chains
import CellLisp.Proofs.Plain
import CellLisp.Proofs.Store

/-!
# Stores with a gap

One store has some cells in the midst of its own that another one lacks, and nothing refers to them.
What lies behind the gap is known by other places in the two stores; but for that they are the same.
Every computation that evaluates nothing comes to the same on both, up to the places, and leaves
them the same up to the gap. Cells are made at the end, behind the gap, and the longer store lets
walks go on for longer, which does not matter where nothing dangles.
-/

namespace CellLisp

/-- So many more cells from a place on. -/
structure Gap where
  start : Nat
  width : Nat

namespace Gap

variable (g : Gap)

/-- The cell as the store with the gap knows it. -/
def cell (c : CellId) : CellId := if c.index < g.start then c else ⟨c.index + g.width⟩

def value : Value → Value
  | .cons c => .cons (g.cell c)
  | v => v

def contents (c : Cell) : Cell := ⟨g.value c.car, g.value c.cdr⟩

def lambda (f : Lambda) : Lambda := { f with body := g.value f.body }

def chain : Chain → Chain
  | .proper vs => .proper (vs.map g.value)
  | c => c

variable {g}

theorem cell_inj {c d : CellId} : g.cell c = g.cell d ↔ c = d := by
  rcases c with ⟨c⟩
  rcases d with ⟨d⟩
  unfold cell
  constructor
  · intro same
    split at same <;> split at same <;> simp_all <;> omega
  · intro same
    rw [same]

theorem cell_of_lt {c : CellId} (before : c.index < g.start) : g.cell c = c := if_pos before

theorem cell_of_le {c : CellId} (behind : g.start ≤ c.index) : g.cell c = ⟨c.index + g.width⟩ :=
  if_neg (Nat.not_lt_of_le behind)

theorem mem_map_cell {c : CellId} {cs : List CellId} : g.cell c ∈ cs.map g.cell ↔ c ∈ cs := by
  simp [cell_inj]

@[simp] theorem name?_value (v : Value) : (g.value v).name? = v.name? := by cases v <;> rfl

@[simp] theorem truth_value (v : Value) : (g.value v).truth = v.truth := by cases v <;> rfl

@[simp] theorem equal_value (v w : Value) : (g.value v).equal (g.value w) = v.equal w := by
  cases v <;> cases w <;> simp [value, Value.equal, cell_inj]

end Gap

namespace Store

variable {g : Gap} {s t : Store}

/-- But for the gap, the stores are the same. -/
structure Beside (g : Gap) (s t : Store) : Prop where
  start : g.start ≤ s.cells.size
  size : t.cells.size = s.cells.size + g.width
  cell : ∀ c, t.cell (g.cell c) = g.contents (s.cell c)
  lambdas : t.lambdas.size = s.lambdas.size
  lambda : ∀ l, t.lambda l = g.lambda (s.lambda l)
  scopes : t.scopes.size = s.scopes.size
  bindings : ∀ i name, (t.scope i).get? name = ((s.scope i).get? name).map g.value

variable (beside : s.Beside g t)

include beside

theorem Beside.inside (c : CellId) : (g.cell c).index < t.cells.size ↔ c.index < s.cells.size := by
  have start := beside.start
  have size := beside.size
  unfold Gap.cell
  split
  · omega
  · change c.index + g.width < t.cells.size ↔ _
    omega

/-! What is read. -/

theorem Beside.car (c : CellId) : t.car (g.cell c) = g.value (s.car c) := by
  rw [Store.car, beside.cell]
  rfl

theorem Beside.cdr (c : CellId) : t.cdr (g.cell c) = g.value (s.cdr c) := by
  rw [Store.cdr, beside.cell]
  rfl

theorem Beside.chainWithin (limit : Nat) (v : Value) :
    t.chainWithin limit (g.value v) = g.chain (s.chainWithin limit v) := by
  induction limit generalizing v with
  | zero => cases v <;> rfl
  | succ limit ih =>
    cases v with
    | cons c =>
      change (t.chainWithin limit (t.cdr (g.cell c))).cons (t.car (g.cell c)) =
        g.chain ((s.chainWithin limit (s.cdr c)).cons (s.car c))
      rw [beside.cdr, beside.car, ih]
      cases s.chainWithin limit (s.cdr c) <;> rfl
    | number | string | boolean | nil | lambda => rfl

theorem Beside.chain (sound : s.Sound) {v : Value} (known : v.KnownTo s) :
    t.chain (g.value v) = g.chain (s.chain v) := by
  rw [Store.chain, beside.chainWithin, sound.chainWithin_eq known (by rw [beside.size]; omega)]

theorem Beside.afterHead? (name : String) (v : Value) :
    t.afterHead? name (g.value v) = (s.afterHead? name v).map g.value := by
  cases v with
  | cons c =>
    change (if (t.car (g.cell c)).name? = _ then some (t.cdr (g.cell c)) else none) =
      (if _ then _ else none : Option Value).map g.value
    rw [beside.car, beside.cdr, Gap.name?_value]
    split <;> rfl
  | number | string | boolean | nil | lambda => rfl

theorem Beside.sketchWithin (opened : List CellId) (v : Value) :
    t.sketchWithin (opened.map g.cell) (g.value v) = s.sketchWithin opened v := by
  fun_induction s.sketchWithin opened v with
  | case1 | case2 | case3 | case4 => simp [Store.sketchWithin, Gap.value]
  | case5 opened l => simp [Store.sketchWithin, Gap.value, beside.lambda, Gap.lambda]
  | case6 opened c fresh inside head tail =>
    rw [Gap.value, Store.sketchWithin, dif_pos (mt Gap.mem_map_cell.mp fresh),
      dif_pos ((beside.inside c).mpr inside), beside.car, beside.cdr]
    exact congrArg₂ Sketch.pair head tail
  | case7 opened c fresh outside =>
    rw [Gap.value, Store.sketchWithin, dif_pos (mt Gap.mem_map_cell.mp fresh),
      dif_neg (mt (beside.inside c).mp outside)]
  | case8 opened c again =>
    have openedThere : g.cell c ∈ opened.map g.cell := Gap.mem_map_cell.mpr (not_not.mp again)
    rw [Gap.value, Store.sketchWithin, dif_neg (not_not_intro openedThere)]

theorem Beside.shown (v : Value) : t.shown (g.value v) = s.shown v :=
  congrArg Sketch.text (beside.sketchWithin [] v)

/-! Each operation. -/

theorem Beside.newScope {content other : Scope}
    (same : ∀ name, other.get? name = (content.get? name).map g.value) :
    (t.newScope other).1 = (s.newScope content).1 ∧
      (s.newScope content).2.Beside g (t.newScope other).2 := by
  refine ⟨?_, { beside with scopes := by simp [beside.scopes], bindings := fun i name => ?_ }⟩
  · rw [fst_newScope, fst_newScope, beside.scopes]
  · rw [scope_newScope, scope_newScope, beside.scopes]
    split
    · exact same name
    · exact beside.bindings i name

theorem Beside.newLambda (f : Lambda) :
    (t.newLambda (g.lambda f)).1 = (s.newLambda f).1 ∧
      (s.newLambda f).2.Beside g (t.newLambda (g.lambda f)).2 := by
  refine ⟨?_, { beside with lambdas := by simp [beside.lambdas], lambda := fun l => ?_ }⟩
  · rw [fst_newLambda, fst_newLambda, beside.lambdas]
  · rw [lambda_newLambda, lambda_newLambda, beside.lambdas]
    split
    · rfl
    · exact beside.lambda l

theorem Beside.setLambdaScope (l : LambdaId) (i : ScopeId) :
    (s.setLambdaScope l i).Beside g (t.setLambdaScope l i) where
  __ := beside
  lambdas := by simp [beside.lambdas]
  lambda k := by
    rw [lambda_setLambdaScope, lambda_setLambdaScope, beside.lambdas, beside.lambda]
    split <;> rfl

theorem Beside.bind (i : ScopeId) (name : String) (v : Value) :
    (s.bind i name v).Beside g (t.bind i name (g.value v)) where
  __ := beside
  scopes := by simp [beside.scopes]
  bindings j other := by
    rw [scope_bind, scope_bind, beside.scopes]
    split
    · rw [Scope.get?_insert, Scope.get?_insert, beside.bindings]
      split <;> rfl
    · exact beside.bindings j other

theorem Beside.setCar (c : CellId) (v : Value) :
    (s.setCar c v).Beside g (t.setCar (g.cell c) (g.value v)) where
  __ := beside
  start := by simp [beside.start]
  size := by simp [beside.size]
  cell e := by
    simp only [cell_setCar, beside.inside, Gap.cell_inj, beside.cell]
    split <;> rfl

theorem Beside.setCdr (c : CellId) (v : Value) :
    (s.setCdr c v).Beside g (t.setCdr (g.cell c) (g.value v)) where
  __ := beside
  start := by simp [beside.start]
  size := by simp [beside.size]
  cell e := by
    simp only [cell_setCdr, beside.inside, Gap.cell_inj, beside.cell]
    split <;> rfl

/-- The new cell lies behind the gap. -/
theorem Beside.isNew (c : CellId) :
    (g.cell c).index = t.cells.size ↔ c.index = s.cells.size := by
  have start := beside.start
  have size := beside.size
  unfold Gap.cell
  split
  · omega
  · change c.index + g.width = t.cells.size ↔ _
    omega

theorem Beside.cons (a d : Value) :
    (t.cons (g.value a) (g.value d)).1 = g.value (s.cons a d).1 ∧
      (s.cons a d).2.Beside g (t.cons (g.value a) (g.value d)).2 := by
  constructor
  · have last : g.cell ⟨s.cells.size⟩ = ⟨s.cells.size + g.width⟩ := Gap.cell_of_le beside.start
    rw [fst_cons, fst_cons, Gap.value, last, beside.size]
  · refine { beside with
      start := by simp [Nat.le_succ_of_le beside.start]
      size := by simp [beside.size, Nat.add_right_comm]
      cell := fun c => ?_ }
    simp only [cell_cons, beside.isNew, beside.cell]
    split <;> rfl

theorem Beside.list (vs : List Value) :
    (t.list (vs.map g.value)).1 = g.value (s.list vs).1 ∧
      (s.list vs).2.Beside g (t.list (vs.map g.value)).2 := by
  induction vs with
  | nil => exact ⟨rfl, beside⟩
  | cons v vs ih =>
    obtain ⟨tail, besideTail⟩ := ih
    change ((t.list _).2.cons (g.value v) (t.list (vs.map g.value)).1).1 =
        g.value ((s.list vs).2.cons v (s.list vs).1).1 ∧
      ((s.list vs).2.cons v (s.list vs).1).2.Beside g
        ((t.list _).2.cons (g.value v) (t.list (vs.map g.value)).1).2
    rw [tail]
    exact besideTail.cons v _

end Store

end CellLisp
