import CellLisp.Proofs.Untouched

/-!
# Scopes at other places

Two machines that evaluate the same make the same cells and lambdas. Their scopes may lie at
different places, if one of them has made further scopes in between. A place in the second store is
given for each scope of the first and, in the same order, for each scope that will be made.
-/

namespace CellLisp

variable {move : ScopeId → ScopeId} {s t s' t' : Store} {v : Value}

def Lambda.relocate (move : ScopeId → ScopeId) (f : Lambda) : Lambda :=
  { f with scope := move f.scope }

namespace Region

def relocate (move : ScopeId → ScopeId) : Region → Region
  | block inner => block (move inner)
  | call callee locals owned => call callee (move locals) (move owned)

theorem scopes_relocate (r : Region) : (r.relocate move).scopes = r.scopes.map move := by
  cases r <;> rfl

end Region

namespace Store

/-- The stores are the same, but for the places of scopes. -/
structure Relocated (move : ScopeId → ScopeId) (s t : Store) : Prop where
  injective {i j} : move i = move j → i = j
  cells : t.cells = s.cells
  lambdas : t.lambdas.size = s.lambdas.size
  lambda : ∀ l, t.lambda l = (s.lambda l).relocate move
  later : ∀ j, move ⟨s.scopes.size + j⟩ = ⟨t.scopes.size + j⟩
  scope : ∀ i, t.scope (move i) = s.scope i

theorem relocated_self (s : Store) : s.Relocated id s where
  injective := id
  cells := rfl
  lambdas := rfl
  lambda _ := rfl
  later _ := rfl
  scope _ := rfl

namespace Relocated

theorem next (relocated : s.Relocated move t) : move ⟨s.scopes.size⟩ = ⟨t.scopes.size⟩ :=
  relocated.later 0

theorem move_of_le (relocated : s.Relocated move t) {i : ScopeId} (new : s.scopes.size ≤ i.index) :
    t.scopes.size ≤ (move i).index := by
  obtain ⟨j, same⟩ := Nat.exists_eq_add_of_le new
  have found := relocated.later j
  rw [← same] at found
  rw [found]
  exact Nat.le_add_right _ _

theorem inside (relocated : s.Relocated move t) (i : ScopeId) :
    (move i).index < t.scopes.size ↔ i.index < s.scopes.size := by
  constructor
  · intro within
    by_contra outside
    exact Nat.not_lt_of_le (relocated.move_of_le (Nat.le_of_not_lt outside)) within
  · intro within
    by_contra outside
    obtain ⟨j, same⟩ := Nat.exists_eq_add_of_le (Nat.le_of_not_lt outside)
    have found : move i = move ⟨s.scopes.size + j⟩ := by
      rw [relocated.later]
      exact congrArg ScopeId.mk same
    have place : i = ⟨s.scopes.size + j⟩ := relocated.injective found
    rw [place] at within
    exact Nat.not_lt_of_le (Nat.le_add_right _ _) within

/-! Each operation. -/

theorem withCells (relocated : s.Relocated move t) (cells : Array Cell) :
    Relocated move { s with cells := cells } { t with cells := cells } :=
  { relocated with cells := rfl }

theorem newScope (relocated : s.Relocated move t) (content : Scope) :
    (s.newScope content).2.Relocated move (t.newScope content).2 where
  __ := relocated
  later j := by
    have behind := relocated.later (1 + j)
    simp only [size_scopes_newScope]
    rwa [← Nat.add_assoc, ← Nat.add_assoc] at behind
  scope i := by
    have isNew : (move i).index = t.scopes.size ↔ i.index = s.scopes.size := by
      constructor
      · intro same
        have found : move i = move ⟨s.scopes.size⟩ := by
          rw [relocated.next]
          exact congrArg ScopeId.mk same
        rw [relocated.injective found]
      · intro same
        have place : i = ⟨s.scopes.size⟩ := congrArg ScopeId.mk same
        rw [place, relocated.next]
    simp only [scope_newScope, isNew, relocated.scope]

theorem newLambda (relocated : s.Relocated move t) (f : Lambda) :
    (s.newLambda f).2.Relocated move (t.newLambda (f.relocate move)).2 where
  __ := relocated
  lambdas := by simp [relocated.lambdas]
  lambda l := by
    rw [lambda_newLambda, lambda_newLambda, relocated.lambdas, relocated.lambda]
    split <;> rfl

theorem setLambdaScope (relocated : s.Relocated move t) (l : LambdaId) (i : ScopeId) :
    (s.setLambdaScope l i).Relocated move (t.setLambdaScope l (move i)) where
  __ := relocated
  lambdas := by simp [relocated.lambdas]
  lambda k := by
    rw [lambda_setLambdaScope, lambda_setLambdaScope, relocated.lambdas, relocated.lambda]
    split <;> rfl

theorem bind (relocated : s.Relocated move t) (i : ScopeId) (name : String) (v : Value) :
    (s.bind i name v).Relocated move (t.bind (move i) name v) where
  __ := relocated
  later j := by simpa using relocated.later j
  scope j := by
    have same : move i = move j ↔ i = j := ⟨relocated.injective, congrArg move⟩
    simp only [scope_bind, same, relocated.inside, relocated.scope]

theorem settle (relocated : s.Relocated move t) (r : Region) (result : Except Fault Value) :
    (r.settle result s).Relocated move ((r.relocate move).settle result t) := by
  cases r with
  | block inner => exact relocated
  | call callee locals owned =>
    cases result with
    | error f => exact relocated
    | ok v =>
      cases v with
      | lambda l => exact (relocated.setLambdaScope l locals).setLambdaScope callee owned
      | number | string | boolean | nil | cons => exact relocated.setLambdaScope callee owned

/-! What is left untouched, and scopes that are made beside. -/

/-- What leaves the first store untouched does so with the second, if it leaves the scopes that only
the second one has. -/
theorem untouched (before : s.Relocated move t) (after : s'.Relocated move t')
    (untouched : s.Untouched s')
    (kept : ∀ i, i.index < t.scopes.size → (∀ j, move j ≠ i) → t'.scope i = t.scope i) :
    t.Untouched t' where
  size := by
    rw [before.cells, after.cells]
    exact untouched.size
  cell c inside := by
    rw [before.cells] at inside
    have same := untouched.cell c inside
    unfold Store.cell at same ⊢
    rwa [before.cells, after.cells]
  lambdas := by
    rw [before.lambdas, after.lambdas]
    exact untouched.lambdas
  lambda l valid := by
    rw [before.lambdas] at valid
    rw [before.lambda, after.lambda, untouched.lambda l valid]
  scopes := by
    have next := after.next
    obtain ⟨more, same⟩ := Nat.exists_eq_add_of_le untouched.scopes
    rw [same, before.later] at next
    have size : t.scopes.size + more = t'.scopes.size := congrArg ScopeId.index next
    rw [← size]
    exact Nat.le_add_right _ _
  scope i inside := by
    by_cases known : ∃ j, move j = i
    · obtain ⟨j, rfl⟩ := known
      rw [before.scope, after.scope, untouched.scope j ((before.inside j).mp inside)]
    · exact kept i inside fun j same => known ⟨j, same⟩

/-- Once the second store has made scopes of its own, later ones lie behind these. -/
theorem exists_extend (relocated : s.Relocated move t)
    (owned : ∀ l, (s.lambda l).scope.index < s.scopes.size) (untouched : t.Untouched t')
    (cells : t'.cells = t.cells) (lambdas : t'.lambdas = t.lambdas) :
    ∃ moved : ScopeId → ScopeId, s.Relocated moved t' ∧
      ∀ i, i.index < s.scopes.size → moved i = move i := by
  let moved (i : ScopeId) : ScopeId :=
    if i.index < s.scopes.size then move i else ⟨t'.scopes.size + (i.index - s.scopes.size)⟩
  have old {i : ScopeId} (inside : i.index < s.scopes.size) : moved i = move i := if_pos inside
  have new {i : ScopeId} (outside : ¬i.index < s.scopes.size) :
      moved i = ⟨t'.scopes.size + (i.index - s.scopes.size)⟩ := if_neg outside
  have low {i : ScopeId} (inside : i.index < s.scopes.size) :
      (move i).index < t'.scopes.size :=
    Nat.lt_of_lt_of_le ((relocated.inside i).mpr inside) untouched.scopes
  refine ⟨moved, ⟨?_, cells.trans relocated.cells, ?_, ?_, ?_, ?_⟩, fun i => old⟩
  · intro i j same
    by_cases insideI : i.index < s.scopes.size <;> by_cases insideJ : j.index < s.scopes.size
    · rw [old insideI, old insideJ] at same
      exact relocated.injective same
    · rw [old insideI, new insideJ] at same
      have before := low insideI
      rw [same] at before
      exact absurd before (Nat.not_lt_of_le (Nat.le_add_right _ _))
    · rw [new insideI, old insideJ] at same
      have before := low insideJ
      rw [← same] at before
      exact absurd before (Nat.not_lt_of_le (Nat.le_add_right _ _))
    · rw [new insideI, new insideJ] at same
      have places := congrArg ScopeId.index same
      rcases i with ⟨i⟩
      rcases j with ⟨j⟩
      simp only at insideI insideJ places
      congr 1
      omega
  · rw [lambdas, relocated.lambdas]
  · intro l
    rw [lambda_congr lambdas, relocated.lambda, Lambda.relocate, Lambda.relocate, old (owned l)]
  · intro j
    rw [new (Nat.not_lt_of_le (Nat.le_add_right _ _)), Nat.add_sub_cancel_left]
  · intro i
    by_cases inside : i.index < s.scopes.size
    · rw [old inside, untouched.scope _ ((relocated.inside i).mpr inside), relocated.scope]
    · rw [new inside, scope_of_le t' (Nat.le_add_right _ _),
        scope_of_le s (Nat.le_of_not_lt inside)]

end Relocated

end Store

end CellLisp
