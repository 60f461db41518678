import CellLisp.Proofs.Session

/-!
# What is never taken away

Cells, lambdas and scopes stay where they are, a lambda keeps its parameters and its body, and a
name that a scope binds stays bound there. The scope of a lambda that exists changes only where a
call is left.
-/

namespace CellLisp

/-- One store is as good as an earlier one: what was there still is. -/
structure Store.Grows (s t : Store) : Prop where
  lambdas : s.lambdas.size ≤ t.lambdas.size
  scopes : s.scopes.size ≤ t.scopes.size
  params : ∀ l, l.index < s.lambdas.size → (t.lambda l).params = (s.lambda l).params
  body : ∀ l, l.index < s.lambdas.size → (t.lambda l).body = (s.lambda l).body
  binds : ∀ i name, (s.scope i).binds name = true → (t.scope i).binds name = true

namespace Store

variable {s t u : Store}

theorem Grows.refl (s : Store) : s.Grows s :=
  ⟨Nat.le_refl _, Nat.le_refl _, fun _ _ => rfl, fun _ _ => rfl, fun _ _ bound => bound⟩

theorem Grows.trans (first : s.Grows t) (second : t.Grows u) : s.Grows u where
  lambdas := Nat.le_trans first.lambdas second.lambdas
  scopes := Nat.le_trans first.scopes second.scopes
  params l valid :=
    (second.params l (Nat.lt_of_lt_of_le valid first.lambdas)).trans (first.params l valid)
  body l valid :=
    (second.body l (Nat.lt_of_lt_of_le valid first.lambdas)).trans (first.body l valid)
  binds i name bound := second.binds i name (first.binds i name bound)

theorem grows_of_cells (lambdas : t.lambdas = s.lambdas) (scopes : t.scopes = s.scopes) :
    s.Grows t where
  lambdas := Nat.le_of_eq (by rw [lambdas])
  scopes := Nat.le_of_eq (by rw [scopes])
  params l _ := by rw [lambda_congr lambdas]
  body l _ := by rw [lambda_congr lambdas]
  binds i name bound := by rwa [scope_congr scopes]

theorem grows_bind (s : Store) (i : ScopeId) (name : String) (v : Value) :
    s.Grows (s.bind i name v) where
  lambdas := Nat.le_refl _
  scopes := by simp
  params _ _ := rfl
  body _ _ := rfl
  binds j other bound := by
    rw [scope_bind]
    split
    · rw [Scope.binds_insert, bound, Bool.or_true]
    · exact bound

theorem grows_newScope (s : Store) (content : Scope) : s.Grows (s.newScope content).2 where
  lambdas := Nat.le_refl _
  scopes := by simp
  params _ _ := rfl
  body _ _ := rfl
  binds i name bound := by
    rw [scope_newScope, if_neg (Nat.ne_of_lt (index_lt_of_binds bound))]
    exact bound

theorem lambda_newLambda_of_lt {l : LambdaId} (valid : l.index < s.lambdas.size) (f : Lambda) :
    (s.newLambda f).2.lambda l = s.lambda l := by
  rw [lambda_newLambda, if_neg (Nat.ne_of_lt valid)]

theorem grows_newLambda (s : Store) (f : Lambda) : s.Grows (s.newLambda f).2 where
  lambdas := by simp
  scopes := Nat.le_refl _
  params l valid := by rw [lambda_newLambda_of_lt valid]
  body l valid := by rw [lambda_newLambda_of_lt valid]
  binds _ _ bound := bound

theorem grows_setLambdaScope (s : Store) (l : LambdaId) (i : ScopeId) :
    s.Grows (s.setLambdaScope l i) where
  lambdas := by simp
  scopes := Nat.le_refl _
  params k _ := by
    rw [lambda_setLambdaScope]
    split <;> rfl
  body k _ := by
    rw [lambda_setLambdaScope]
    split <;> rfl
  binds _ _ bound := bound

theorem grows_adopt (s : Store) (v : Value) (i : ScopeId) : s.Grows (s.adopt v i) := by
  cases v with
  | lambda l => exact grows_setLambdaScope s l i
  | number | string | boolean | nil | cons => exact .refl s

end Store

theorem Region.grows_settle (r : Region) (result : Except Fault Value) (s : Store) :
    s.Grows (r.settle result s) := by
  cases r with
  | block inner => exact .refl s
  | call callee locals owned =>
    cases result with
    | error f => exact .refl s
    | ok v => exact (Store.grows_adopt s v locals).trans (Store.grows_setLambdaScope _ callee owned)

namespace Machine.Change

variable {m n : Machine} (change : m.Change n)

include change

theorem grows : m.store.Grows n.store := by
  cases change with
  | none => exact .refl _
  | cons | setCar | setCdr => exact Store.grows_of_cells rfl rfl
  | list vs => exact Store.grows_of_cells (Store.list_lambdas _ _) (Store.list_scopes _ _)
  | place d => exact Store.grows_of_cells (Store.place_lambdas _ _) (Store.place_scopes _ _)
  | assign i name v => exact Store.grows_bind _ i name v
  | define i name v => exact Store.grows_bind _ i name v
  | lambda params body => exact (Store.grows_newScope _ _).trans (Store.grows_newLambda _ _)

theorem lambda_eq {l : LambdaId} (valid : l.index < m.store.lambdas.size) :
    n.store.lambda l = m.store.lambda l := by
  cases change with
  | none | cons | setCar | setCdr | assign | define => rfl
  | list vs => exact Store.lambda_congr (Store.list_lambdas _ _) l
  | place d => exact Store.lambda_congr (Store.place_lambdas _ _) l
  | lambda params body =>
    have old : l.index < (m.store.newScope .empty).2.lambdas.size := valid
    exact Store.lambda_newLambda_of_lt old _

/-- Besides making a lambda with a new scope, a change leaves the lambdas alone. -/
theorem lambdas_eq : n.store.lambdas = m.store.lambdas ∨
    ∃ f : Lambda, f.scope = ⟨m.store.scopes.size⟩ ∧
      n.store = ((m.store.newScope .empty).2.newLambda f).2 := by
  cases change with
  | none | cons | setCar | setCdr | assign | define => exact .inl rfl
  | list vs => exact .inl (Store.list_lambdas _ _)
  | place d => exact .inl (Store.place_lambdas _ _)
  | lambda params body => exact .inr ⟨_, rfl, rfl⟩

end Machine.Change

def Value.lambda? : Value → Option LambdaId
  | lambda l => some l
  | _ => none

theorem Value.lambda?_eq_some {v : Value} {l : LambdaId} : v.lambda? = some l ↔ v = .lambda l := by
  cases v <;> simp [lambda?]

theorem Outcome.exists_of_lambda? {o : Outcome Value} {l : LambdaId}
    (ends : o.value?.bind Value.lambda? = some l) : ∃ m, o = .value (.lambda l) m := by
  obtain ⟨v, found, lambda⟩ := Option.bind_eq_some_iff.mp ends
  rw [← Value.lambda?_eq_some.mp lambda]
  exact exists_of_value? found

theorem Store.lambdas_adopt (s : Store) (v : Value) (i : ScopeId) :
    (s.adopt v i).lambdas.size = s.lambdas.size := by
  cases v with
  | lambda l => exact size_lambdas_setLambdaScope s l i
  | number | string | boolean | nil | cons => rfl

theorem Store.scope_adopt {s : Store} {k : LambdaId} (valid : k.index < s.lambdas.size) (v : Value)
    (i : ScopeId) :
    ((s.adopt v i).lambda k).scope = if v.lambda? = some k then i else (s.lambda k).scope := by
  cases v with
  | lambda l =>
    simp only [adopt, lambda_setLambdaScope, valid, and_true, Value.lambda?, Option.some.injEq]
    split <;> rfl
  | number | string | boolean | nil | cons => rfl

/-- Whose scope is which once a call is left with a value. -/
theorem Region.scope_settle {k : LambdaId} {s : Store} (valid : k.index < s.lambdas.size)
    (callee : LambdaId) (locals owned : ScopeId) (v : Value) :
    (((call callee locals owned).settle (.ok v) s).lambda k).scope =
      if k = callee then owned else if v.lambda? = some k then locals else (s.lambda k).scope := by
  rw [settle, Store.lambda_setLambdaScope, Store.lambdas_adopt]
  by_cases called : k = callee
  · rw [if_pos called, if_pos ⟨called.symm, valid⟩]
  · rw [if_neg called, if_neg fun same => called same.1.symm]
    exact Store.scope_adopt valid v locals

namespace Process

variable {p q : Process}

theorem Move.grows (move : Move p q) : p.machine.store.Grows q.machine.store := by
  cases move with
  | change _ change => exact change.grows
  | enter r content opens regions fresh store stack =>
    rw [store]
    exact Store.grows_newScope _ _
  | leave r result before after frames store stack =>
    rw [store]
    exact r.grows_settle result _

/-- A region that is entered later has a later scope. None of them is older than `since`. -/
structure Dated (since : Nat) (p : Process) : Prop where
  younger : p.regions.Pairwise fun inner outer => outer.own.index < inner.own.index
  recent : ∀ r ∈ p.regions, since ≤ r.own.index ∧ r.own.index < p.machine.store.scopes.size

theorem Dated.move {since : Nat} (dated : p.Dated since)
    (begun : since ≤ p.machine.store.scopes.size) (move : Move p q) : q.Dated since := by
  have grows := move.grows.scopes
  obtain ⟨younger, recent⟩ := dated
  have before : ∀ r ∈ p.regions, since ≤ r.own.index ∧ r.own.index < q.machine.store.scopes.size :=
    fun r mem => ⟨(recent r mem).1, Nat.lt_of_lt_of_le (recent r mem).2 grows⟩
  cases move with
  | change regions change =>
    rw [← regions] at younger before
    exact ⟨younger, before⟩
  | enter r content opens regions fresh store stack =>
    constructor
    · rw [regions, List.pairwise_cons, fresh]
      exact ⟨fun r mem => (recent r mem).2, younger⟩
    · rw [regions]
      refine List.forall_mem_cons.mpr ⟨?_, before⟩
      rw [fresh, store, Store.size_scopes_newScope]
      exact ⟨begun, Nat.lt_succ_self _⟩
  | leave r result focus after frames store stack =>
    rw [regions_of_frames frames] at younger before
    exact ⟨(List.pairwise_cons.mp younger).2, (List.forall_mem_cons.mp before).2⟩

end Process

theorem Session.Course.grows {base : List ScopeId} {p q : Process} (course : Course p q)
    (balanced : p.Balanced base) : p.machine.store.Grows q.machine.store := by
  induction course with
  | refl => exact .refl _
  | tail before turn ih =>
    have there : Process.Balanced base _ := Course.balanced before balanced
    exact ih.trans (turn.move there).grows

theorem Session.dated_start : start.Dated 0 := ⟨.nil, nofun⟩

theorem Session.Course.dated {base : List ScopeId} {p q : Process} {since : Nat}
    (course : Course p q) (balanced : p.Balanced base) (dated : p.Dated since)
    (begun : since ≤ p.machine.store.scopes.size) : q.Dated since := by
  induction course with
  | refl => exact dated
  | tail before turn ih =>
    have grown := (Course.grows before balanced).scopes
    exact ih.move (Nat.le_trans begun grown) (turn.move (Course.balanced before balanced))

namespace Process

variable {p q : Process}

theorem Leads.grows {base : List ScopeId} (leads : Leads p q) (balanced : p.Balanced base) :
    p.machine.store.Grows q.machine.store :=
  (Session.course_of_leads leads).grows balanced

end Process

end CellLisp
