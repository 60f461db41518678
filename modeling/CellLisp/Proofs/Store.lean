import CellLisp.Store.Chain

/-!
What can be read off the store after each of its operations.
-/

namespace CellLisp

namespace Scope

@[simp] theorem binds_insert (s : Scope) (name other : String) (v : Value) :
    (s.insert name v).binds other = (decide (name = other) || s.binds other) := by
  unfold binds
  rw [get?_insert]
  by_cases same : name = other <;> simp [same]

theorem binds_empty (name : String) : empty.binds name = false := rfl

end Scope

namespace Store

variable (s : Store)

/-! Fields that an operation does not touch. -/

@[simp] theorem lambdas_setCar (c : CellId) (v : Value) : (s.setCar c v).lambdas = s.lambdas := rfl

@[simp] theorem scopes_setCar (c : CellId) (v : Value) : (s.setCar c v).scopes = s.scopes := rfl

@[simp] theorem lambdas_setCdr (c : CellId) (v : Value) : (s.setCdr c v).lambdas = s.lambdas := rfl

@[simp] theorem scopes_setCdr (c : CellId) (v : Value) : (s.setCdr c v).scopes = s.scopes := rfl

@[simp] theorem cells_setLambdaScope (l : LambdaId) (i : ScopeId) :
    (s.setLambdaScope l i).cells = s.cells := rfl

@[simp] theorem scopes_setLambdaScope (l : LambdaId) (i : ScopeId) :
    (s.setLambdaScope l i).scopes = s.scopes := rfl

@[simp] theorem cells_bind (i : ScopeId) (name : String) (v : Value) :
    (s.bind i name v).cells = s.cells := rfl

@[simp] theorem lambdas_bind (i : ScopeId) (name : String) (v : Value) :
    (s.bind i name v).lambdas = s.lambdas := rfl

@[simp] theorem cells_newScope (scope : Scope) : (s.newScope scope).2.cells = s.cells := rfl

@[simp] theorem lambdas_newScope (scope : Scope) : (s.newScope scope).2.lambdas = s.lambdas := rfl

@[simp] theorem cells_newLambda (f : Lambda) : (s.newLambda f).2.cells = s.cells := rfl

@[simp] theorem scopes_newLambda (f : Lambda) : (s.newLambda f).2.scopes = s.scopes := rfl

@[simp] theorem lambdas_cons (a d : Value) : (s.cons a d).2.lambdas = s.lambdas := rfl

@[simp] theorem scopes_cons (a d : Value) : (s.cons a d).2.scopes = s.scopes := rfl

/-! Identities given out, and how many places there are. -/

@[simp] theorem fst_newScope (scope : Scope) : (s.newScope scope).1 = ⟨s.scopes.size⟩ := rfl

@[simp] theorem fst_newLambda (f : Lambda) : (s.newLambda f).1 = ⟨s.lambdas.size⟩ := rfl

@[simp] theorem fst_cons (a d : Value) : (s.cons a d).1 = .cons ⟨s.cells.size⟩ := rfl

@[simp] theorem size_scopes_newScope (scope : Scope) :
    (s.newScope scope).2.scopes.size = s.scopes.size + 1 := Array.size_push _

@[simp] theorem size_lambdas_newLambda (f : Lambda) :
    (s.newLambda f).2.lambdas.size = s.lambdas.size + 1 := Array.size_push _

@[simp] theorem size_cells_cons (a d : Value) :
    (s.cons a d).2.cells.size = s.cells.size + 1 := Array.size_push _

@[simp] theorem size_cells_setCar (c : CellId) (v : Value) :
    (s.setCar c v).cells.size = s.cells.size := Array.size_modify

@[simp] theorem size_cells_setCdr (c : CellId) (v : Value) :
    (s.setCdr c v).cells.size = s.cells.size := Array.size_modify

@[simp] theorem size_lambdas_setLambdaScope (l : LambdaId) (i : ScopeId) :
    (s.setLambdaScope l i).lambdas.size = s.lambdas.size := Array.size_modify

@[simp] theorem size_scopes_bind (i : ScopeId) (name : String) (v : Value) :
    (s.bind i name v).scopes.size = s.scopes.size := Array.size_modify

/-! What is read at a place. -/

theorem lambda_congr {s t : Store} (same : t.lambdas = s.lambdas) (l : LambdaId) :
    t.lambda l = s.lambda l := by
  unfold lambda
  rw [same]

theorem scope_congr {s t : Store} (same : t.scopes = s.scopes) (i : ScopeId) :
    t.scope i = s.scope i := by
  unfold scope
  rw [same]

@[simp] theorem scope_setLambdaScope (l : LambdaId) (i j : ScopeId) :
    (s.setLambdaScope l i).scope j = s.scope j := rfl

theorem lambda_setLambdaScope (l k : LambdaId) (i : ScopeId) :
    (s.setLambdaScope l i).lambda k =
      if l = k ∧ k.index < s.lambdas.size then { s.lambda k with scope := i } else s.lambda k := by
  rcases l with ⟨l⟩
  rcases k with ⟨k⟩
  simp only [setLambdaScope, lambda, Array.getD_eq_getD_getElem?, Array.getElem?_modify,
    LambdaId.mk.injEq]
  by_cases same : l = k
  · subst same
    by_cases inside : l < s.lambdas.size <;> simp [inside]
  · simp [same]

theorem lambda_newLambda (f : Lambda) (k : LambdaId) :
    (s.newLambda f).2.lambda k = if k.index = s.lambdas.size then f else s.lambda k := by
  simp only [newLambda, lambda, Array.getD_eq_getD_getElem?, Array.getElem?_push]
  split <;> rfl

theorem scope_newScope (content : Scope) (j : ScopeId) :
    (s.newScope content).2.scope j = if j.index = s.scopes.size then content else s.scope j := by
  simp only [newScope, scope, Array.getD_eq_getD_getElem?, Array.getElem?_push]
  split <;> rfl

theorem scope_bind (i j : ScopeId) (name : String) (v : Value) :
    (s.bind i name v).scope j =
      if i = j ∧ j.index < s.scopes.size then (s.scope j).insert name v else s.scope j := by
  rcases i with ⟨i⟩
  rcases j with ⟨j⟩
  simp only [bind, scope, Array.getD_eq_getD_getElem?, Array.getElem?_modify, ScopeId.mk.injEq]
  by_cases same : i = j
  · subst same
    by_cases inside : i < s.scopes.size <;> simp [inside]
  · simp [same]

theorem cell_of_le {c : CellId} (outside : s.cells.size ≤ c.index) : s.cell c = ⟨.nil, .nil⟩ := by
  simp [cell, Array.getD_eq_getD_getElem?, Array.getElem?_eq_none outside]

theorem cell_cons (a d : Value) (c : CellId) :
    (s.cons a d).2.cell c = if c.index = s.cells.size then ⟨a, d⟩ else s.cell c := by
  simp only [cons, newCell, cell, Array.getD_eq_getD_getElem?, Array.getElem?_push]
  split <;> rfl

theorem cell_setCar (c e : CellId) (v : Value) :
    (s.setCar c v).cell e =
      if c = e ∧ e.index < s.cells.size then { s.cell e with car := v } else s.cell e := by
  rcases c with ⟨c⟩
  rcases e with ⟨e⟩
  simp only [setCar, cell, Array.getD_eq_getD_getElem?, Array.getElem?_modify, CellId.mk.injEq]
  by_cases same : c = e
  · subst same
    by_cases inside : c < s.cells.size <;> simp [inside]
  · simp [same]

theorem cell_setCdr (c e : CellId) (v : Value) :
    (s.setCdr c v).cell e =
      if c = e ∧ e.index < s.cells.size then { s.cell e with cdr := v } else s.cell e := by
  rcases c with ⟨c⟩
  rcases e with ⟨e⟩
  simp only [setCdr, cell, Array.getD_eq_getD_getElem?, Array.getElem?_modify, CellId.mk.injEq]
  by_cases same : c = e
  · subst same
    by_cases inside : c < s.cells.size <;> simp [inside]
  · simp [same]

theorem lambda_of_le {l : LambdaId} (outside : s.lambdas.size ≤ l.index) :
    s.lambda l = ⟨[], .nil, ⟨0⟩⟩ := by
  simp [lambda, Array.getD_eq_getD_getElem?, Array.getElem?_eq_none outside]

theorem scope_of_le {i : ScopeId} (outside : s.scopes.size ≤ i.index) : s.scope i = .empty := by
  simp [scope, Array.getD_eq_getD_getElem?, Array.getElem?_eq_none outside]

/-- A place that was never given out binds nothing. -/
theorem index_lt_of_binds {s : Store} {i : ScopeId} {name : String}
    (bound : (s.scope i).binds name = true) : i.index < s.scopes.size := by
  apply Nat.lt_of_not_le
  intro outside
  rw [scope_of_le s outside, Scope.binds_empty] at bound
  cases bound

/-! Lists and data are placed in new cells alone. -/

theorem list_lambdas (vs : List Value) : (s.list vs).2.lambdas = s.lambdas := by
  induction vs with
  | nil => rfl
  | cons v vs ih => simpa [list] using ih

theorem list_scopes (vs : List Value) : (s.list vs).2.scopes = s.scopes := by
  induction vs with
  | nil => rfl
  | cons v vs ih => simpa [list] using ih

theorem place_lambdas (d : Datum) : (s.place d).2.lambdas = s.lambdas := by
  induction d generalizing s with
  | pair a d iha ihd => simp [place, iha, ihd]
  | number | string | boolean | nil => rfl

theorem place_scopes (d : Datum) : (s.place d).2.scopes = s.scopes := by
  induction d generalizing s with
  | pair a d iha ihd => simp [place, iha, ihd]
  | number | string | boolean | nil => rfl

/-! What is walked along. -/

/-- Every item of a walk is what the car of a cell on it is. -/
theorem forall_mem_of_chainWithin (rest : Value → Prop) {item : Value → Prop}
    (car : ∀ c, rest (.cons c) → item (s.car c)) (cdr : ∀ c, rest (.cons c) → rest (s.cdr c))
    {limit : Nat} {v : Value} {vs : List Value} (start : rest v)
    (walked : s.chainWithin limit v = .proper vs) : ∀ w ∈ vs, item w := by
  induction limit generalizing v vs with
  | zero =>
    cases v with
    | nil =>
      cases walked
      nofun
    | number | string | boolean | cons | lambda => cases walked
  | succ limit ih =>
    cases v with
    | cons c =>
      rw [Store.chainWithin] at walked
      cases behind : s.chainWithin limit (s.cdr c) with
      | proper ws =>
        rw [behind] at walked
        cases walked
        exact List.forall_mem_cons.mpr ⟨car c start, ih (cdr c start) behind⟩
      | improper =>
        rw [behind] at walked
        cases walked
      | endless =>
        rw [behind] at walked
        cases walked
    | nil =>
      cases walked
      nofun
    | number | string | boolean | lambda => cases walked

/-! New cells beside the old ones. -/

/-- Every cell of the one store is the same cell of the other. -/
structure Extends (s t : Store) : Prop where
  size : s.cells.size ≤ t.cells.size
  cell : ∀ c : CellId, c.index < s.cells.size → t.cell c = s.cell c

theorem Extends.refl (s : Store) : s.Extends s := ⟨Nat.le_refl _, fun _ _ => rfl⟩

variable {s} {t u : Store}

theorem Extends.trans (first : s.Extends t) (second : t.Extends u) : s.Extends u where
  size := Nat.le_trans first.size second.size
  cell c inside :=
    (second.cell c (Nat.lt_of_lt_of_le inside first.size)).trans (first.cell c inside)

theorem extends_cons (s : Store) (a d : Value) : s.Extends (s.cons a d).2 where
  size := by simp
  cell c inside := by rw [cell_cons, if_neg (Nat.ne_of_lt inside)]

theorem extends_place (s : Store) (d : Datum) : s.Extends (s.place d).2 := by
  induction d generalizing s with
  | number | string | boolean | nil => exact .refl s
  | pair a d iha ihd => exact ((iha s).trans (ihd _)).trans (extends_cons _ _ _)

end Store

end CellLisp
