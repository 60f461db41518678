import CellLisp.Proofs.Plain
import CellLisp.Proofs.Store

/-!
# Computations that do not look into scopes

Two machines are alike but for some hidden bindings if they have the same cells, the same lambdas,
the same stack and as many scopes, and their scopes bind the same otherwise. Apart from looking a
name up and assigning to it, no computation that evaluates nothing reads what a scope binds. So
whatever is hidden, on machines that are alike it has the same outcome and leaves them alike.
-/

namespace CellLisp

variable {hidden : ScopeId → String → Prop} {s t : Store} {m n : Machine}

namespace Store

/-- The stores differ in hidden bindings at most. -/
structure Alike (hidden : ScopeId → String → Prop) (s t : Store) : Prop where
  cells : t.cells = s.cells
  lambdas : t.lambdas = s.lambdas
  places : t.scopes.size = s.scopes.size
  bindings : ∀ i name, ¬hidden i name → (t.scope i).get? name = (s.scope i).get? name

theorem Alike.symm (alike : s.Alike hidden t) : t.Alike hidden s where
  cells := alike.cells.symm
  lambdas := alike.lambdas.symm
  places := alike.places.symm
  bindings i name seen := (alike.bindings i name seen).symm

theorem Alike.lambda (alike : s.Alike hidden t) (l : LambdaId) : t.lambda l = s.lambda l :=
  lambda_congr alike.lambdas l

/-! Each operation. -/

theorem Alike.newScope (alike : s.Alike hidden t) (content : Scope) :
    (t.newScope content).1 = (s.newScope content).1 ∧
      (s.newScope content).2.Alike hidden (t.newScope content).2 := by
  refine ⟨?_, alike.cells, alike.lambdas, by simp [alike.places], fun i name seen => ?_⟩
  · rw [fst_newScope, fst_newScope, alike.places]
  · rw [scope_newScope, scope_newScope, alike.places]
    split
    · rfl
    · exact alike.bindings i name seen

theorem Alike.newLambda (alike : s.Alike hidden t) (f : Lambda) :
    (t.newLambda f).1 = (s.newLambda f).1 ∧
      (s.newLambda f).2.Alike hidden (t.newLambda f).2 := by
  refine ⟨?_, alike.cells, congrArg (·.push f) alike.lambdas, alike.places, alike.bindings⟩
  rw [fst_newLambda, fst_newLambda, alike.lambdas]

theorem Alike.setLambdaScope (alike : s.Alike hidden t) (l : LambdaId) (i : ScopeId) :
    (s.setLambdaScope l i).Alike hidden (t.setLambdaScope l i) where
  cells := alike.cells
  lambdas := by
    unfold Store.setLambdaScope
    rw [alike.lambdas]
  places := alike.places
  bindings := alike.bindings

theorem Alike.bind (alike : s.Alike hidden t) (i : ScopeId) (name : String) (v : Value) :
    (s.bind i name v).Alike hidden (t.bind i name v) where
  cells := alike.cells
  lambdas := alike.lambdas
  places := by simp [alike.places]
  bindings j other seen := by
    rw [scope_bind, scope_bind, alike.places]
    split
    · rw [Scope.get?_insert, Scope.get?_insert, alike.bindings j other seen]
    · exact alike.bindings j other seen

end Store

/-- The machines differ in hidden bindings at most. -/
structure Machine.Alike (hidden : ScopeId → String → Prop) (m n : Machine) : Prop where
  store : m.store.Alike hidden n.store
  stack : n.stack = m.stack

theorem Machine.Alike.symm (alike : m.Alike hidden n) : n.Alike hidden m :=
  ⟨alike.store.symm, alike.stack.symm⟩

/-- Binding what is hidden is a difference that does not count. -/
theorem Machine.alike_bind (m : Machine) {i : ScopeId} {name : String} (held : hidden i name)
    (v : Value) : m.Alike hidden ⟨m.store.bind i name v, m.stack⟩ := by
  refine ⟨⟨rfl, rfl, Store.size_scopes_bind _ _ _ _, fun j other seen => ?_⟩, rfl⟩
  rw [Store.scope_bind]
  split
  · next here =>
    have different : name ≠ other := by
      rintro rfl
      exact seen (here.1 ▸ held)
    rw [Scope.get?_insert, if_neg different]
  · rfl

theorem Machine.Alike.withCells (alike : m.Alike hidden n) (cells : Array Cell) :
    (m.withCells cells).Alike hidden (n.withCells cells) :=
  ⟨⟨rfl, alike.store.lambdas, alike.store.places, alike.store.bindings⟩, alike.stack⟩

namespace Eval

variable {α β : Type}

/-- Whatever is hidden makes no difference. -/
def Blind (x : Eval α) : Prop :=
  ∀ hidden m n, m.Alike hidden n → (x m).Like (Machine.Alike hidden) (x n)

theorem Blind.bind {x : Eval α} {f : α → Eval β} (first : Blind x) (second : ∀ a, Blind (f a)) :
    Blind (x >>= f) := fun hidden m n alike =>
  like_bind (first hidden m n alike) fun a => second a hidden

theorem blind_pure (a : α) : Blind (pure a : Eval α) := fun _ _ _ alike => .value a alike

theorem blind_fail (f : Fault) : Blind (fail f : Eval α) := fun _ _ _ alike => .fault f alike

theorem blind_ofExcept (result : Except Fault α) : Blind (ofExcept result) := by
  cases result with
  | ok a => exact blind_pure a
  | error f => exact blind_fail f

theorem blind_read {f : Store → α}
    (same : ∀ s t : Store, t.cells = s.cells → t.lambdas = s.lambdas → f t = f s) :
    Blind (read f) := by
  intro hidden m n alike
  change Outcome.Like (Machine.Alike hidden) (.value (f m.store) m) (.value (f n.store) n)
  rw [same m.store n.store alike.store.cells alike.store.lambdas]
  exact .value _ alike

theorem blind_update {f : Store → α × Store}
    (same : ∀ hidden s t, Store.Alike hidden s t →
      (f t).1 = (f s).1 ∧ (f s).2.Alike hidden (f t).2) : Blind (update f) := by
  intro hidden m n alike
  obtain ⟨result, stores⟩ := same hidden m.store n.store alike.store
  change Outcome.Like (Machine.Alike hidden) (.value (f m.store).1 _) (.value (f n.store).1 _)
  rw [result]
  exact .value _ ⟨stores, alike.stack⟩

theorem blind_modify {f : Store → Store}
    (same : ∀ hidden s t, Store.Alike hidden s t → (f s).Alike hidden (f t)) : Blind (modify f) :=
  blind_update fun hidden s t alike => ⟨rfl, same hidden s t alike⟩

theorem blind_pop : Blind pop := by
  intro hidden m n alike
  unfold pop
  rw [alike.stack]
  cases m.stack with
  | nil => exact .fault _ alike
  | cons i rest => exact .value i ⟨alike.store, rfl⟩

/-- A definition goes to the innermost scope, whatever that binds. -/
theorem blind_define (name : String) (v : Value) : Blind (define name v) := by
  intro hidden m n alike
  unfold define Machine.define?
  rw [alike.stack]
  cases m.stack.head? with
  | none => exact .fault _ alike
  | some i => exact .value () ⟨alike.store.bind i name v, rfl⟩

/-- Computations on cells see and change the same cells. -/
theorem Simple.blind {x : Eval α} (simple : x.Simple) : x.Blind := fun _ _ _ alike =>
  simple.like alike.store.cells (fun l => congrArg Lambda.params (alike.store.lambda l))
    alike.withCells

theorem Plain.blind {x : Eval α} (plain : x.Plain) : x.Blind := by
  induction plain with
  | simple simple => exact simple.blind
  | fail other => exact blind_fail _
  | lambda l => exact blind_read fun _ _ _ lambdas => Store.lambda_congr lambdas l
  | newLambda f => exact blind_update fun _ _ _ alike => alike.newLambda f
  | setLambdaScope l i => exact blind_modify fun _ _ _ alike => alike.setLambdaScope l i
  | newScope content => exact blind_update fun _ _ _ alike => alike.newScope content
  | push i => exact fun _ _ _ alike => .value () ⟨alike.store, congrArg (i :: ·) alike.stack⟩
  | pop => exact blind_pop
  | define name v => exact blind_define name v
  | bind first second ihFirst ihSecond => exact ihFirst.bind ihSecond

end Eval

/-- Leaving a region passes on any result that it is left with. -/
theorem Region.blind_leave (r : Region) (result : Except Fault Value) : (r.leave result).Blind := by
  have final := Eval.blind_ofExcept result
  cases r with
  | block inner => exact Eval.blind_pop.bind fun _ => final
  | call callee locals owned =>
    exact Eval.blind_pop.bind fun used => Eval.blind_pop.bind fun owned => final.bind fun v =>
      (Evaluation.plain_adopt v used).blind.bind fun _ =>
        (Eval.Plain.setLambdaScope callee owned).blind.bind fun _ => Eval.blind_pure v

end CellLisp
