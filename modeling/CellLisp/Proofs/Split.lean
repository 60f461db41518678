import CellLisp.Proofs.Compositional
import CellLisp.Proofs.Outcome
import Mathlib.Tactic.Spread

/-!
# A scope that is split in two

On one machine a scope holds what on another one two scopes hold together, the one entered right on
top of the other and made right after it. Scopes made later are known by other places on the two
machines. What the upper part binds shadows the lower part, as on the first machine it would
overwrite it. A name is looked up in the parts where it is looked up in the whole; it is bound in
the upper part where it is bound in the whole; and where it is assigned to, the part that binds it
changes. The whole stays in one piece as long as no lambda has it for its scope, for then nobody can
enter it again. None gets it: lambdas get scopes that are made or left, and the whole is not left
while it is split. So evaluation comes to the same on both machines.
-/

namespace CellLisp

variable {k : ScopeId} {s t : Store} {m n : Machine}

/-! Places. -/

namespace ScopeId

theorem ext {i j : ScopeId} (same : i.index = j.index) : i = j := by
  cases i
  cases same
  rfl

/-- The place right behind. -/
def next (k : ScopeId) : ScopeId := ⟨k.index + 1⟩

/-- The scope as it is known where one more scope was made right behind `k`. -/
def past (k i : ScopeId) : ScopeId := if i.index ≤ k.index then i else ⟨i.index + 1⟩

/-- What is entered for a scope where `k` is split in two. -/
def parts (k i : ScopeId) : List ScopeId := if i = k then [k.next, k] else [k.past i]

variable {i j : ScopeId}

theorem next_ne (k : ScopeId) : k.next ≠ k := by
  rcases k with ⟨k⟩
  simp [next]

theorem past_of_le (low : i.index ≤ k.index) : k.past i = i := if_pos low

theorem past_of_lt (high : k.index < i.index) : k.past i = i.next := if_neg (Nat.not_le_of_lt high)

theorem index_past :
    (k.past i).index = if i.index ≤ k.index then i.index else i.index + 1 := by
  unfold past
  split <;> rfl

theorem past_inj : k.past i = k.past j ↔ i = j := by
  rcases i with ⟨i⟩
  rcases j with ⟨j⟩
  simp only [past]
  split <;> split <;> simp <;> omega

theorem past_eq_self_iff : k.past i = k ↔ i = k := by
  have same := past_inj (k := k) (i := i) (j := k)
  rwa [past_of_le (Nat.le_refl k.index)] at same

theorem past_ne_next : k.past i ≠ k.next := by
  rcases i with ⟨i⟩
  rcases k with ⟨k⟩
  simp only [past, next]
  split <;> simp <;> omega

theorem index_past_lt {size : Nat} (inside : k.index < size) :
    (k.past i).index < size + 1 ↔ i.index < size := by
  rw [index_past]
  split <;> omega

theorem flatMap_parts {stack : List ScopeId} (low : ∀ i ∈ stack, i.index < k.index) :
    stack.flatMap k.parts = stack := by
  induction stack with
  | nil => rfl
  | cons i stack ih =>
    obtain ⟨here, there⟩ := List.forall_mem_cons.mp low
    have other : i ≠ k := by
      rintro rfl
      exact Nat.lt_irrefl _ here
    rw [List.flatMap_cons, ih there, parts, if_neg other, past_of_le (Nat.le_of_lt here)]
    rfl

end ScopeId

/-- The lambda as it is known where one more scope was made right behind `k`. -/
def Lambda.past (k : ScopeId) (f : Lambda) : Lambda := { f with scope := k.past f.scope }

namespace Store

/-- The stores are the same, but for what `k` and the place behind it bind. -/
structure Renamed (k : ScopeId) (s t : Store) : Prop where
  cells : t.cells = s.cells
  lambdas : t.lambdas.size = s.lambdas.size
  lambda : ∀ l, t.lambda l = (s.lambda l).past k
  places : ∀ i, i ≠ k → ((k.past i).index < t.scopes.size ↔ i.index < s.scopes.size)
  scope : ∀ i, i ≠ k → t.scope (k.past i) = s.scope i

/-- A scope that no lambda has, in one piece and split. -/
structure Split (k : ScopeId) (s t : Store) : Prop extends s.Renamed k t where
  inside : k.index < s.scopes.size
  size : t.scopes.size = s.scopes.size + 1
  free : ∀ l, (s.lambda l).scope ≠ k
  parted : ∀ name,
    (s.scope k).get? name = ((t.scope k.next).get? name).or ((t.scope k).get? name)

theorem Renamed.params (renamed : s.Renamed k t) (l : LambdaId) :
    (t.lambda l).params = (s.lambda l).params := by
  rw [renamed.lambda]
  rfl

/-- Where nothing was made behind `k`, nothing is renamed. -/
theorem renamed_self (last : s.scopes.size ≤ k.index + 1)
    (older : ∀ l, (s.lambda l).scope.index < k.index) : s.Renamed k s where
  cells := rfl
  lambdas := rfl
  lambda l := by
    rw [Lambda.past, ScopeId.past_of_le (Nat.le_of_lt (older l))]
  places i other := by
    have differs : i.index ≠ k.index := fun same => other (ScopeId.ext same)
    rw [ScopeId.index_past]
    split <;> omega
  scope i other := by
    by_cases low : i.index ≤ k.index
    · rw [ScopeId.past_of_le low]
    · have behind : s.scopes.size ≤ i.index := by omega
      have further : s.scopes.size ≤ i.next.index := Nat.le_succ_of_le behind
      rw [ScopeId.past_of_lt (Nat.lt_of_not_le low), scope_of_le s behind, scope_of_le s further]

theorem Renamed.setLambdaScope (renamed : s.Renamed k t) (l : LambdaId) (i : ScopeId) :
    (s.setLambdaScope l i).Renamed k (t.setLambdaScope l (k.past i)) where
  __ := renamed
  lambdas := by simp [renamed.lambdas]
  lambda j := by
    rw [lambda_setLambdaScope, lambda_setLambdaScope, renamed.lambdas, renamed.lambda]
    split <;> rfl

variable (split : s.Split k t)

include split

theorem Split.next_inside : k.next.index < t.scopes.size := by
  rw [split.size]
  exact Nat.succ_lt_succ split.inside

theorem Split.past_inside (i : ScopeId) :
    (k.past i).index < t.scopes.size ↔ i.index < s.scopes.size := by
  rw [split.size]
  exact ScopeId.index_past_lt split.inside

/-! Each operation. -/

theorem Split.withCells (cells : Array Cell) :
    Split k { s with cells := cells } { t with cells := cells } :=
  { split with cells := rfl }

theorem Split.setLambdaScope (l : LambdaId) {i : ScopeId} (apart : i ≠ k) :
    (s.setLambdaScope l i).Split k (t.setLambdaScope l (k.past i)) where
  __ := split.toRenamed.setLambdaScope l i
  __ := split
  free j := by
    rw [lambda_setLambdaScope]
    split
    · exact apart
    · exact split.free j

theorem Split.newLambda (names : List String) (body : Value) {i : ScopeId} (apart : i ≠ k) :
    (s.newLambda ⟨names, body, i⟩).2.Split k (t.newLambda ⟨names, body, k.past i⟩).2 where
  __ := split
  lambdas := by simp [split.lambdas]
  lambda j := by
    rw [lambda_newLambda, lambda_newLambda, split.lambdas, split.lambda]
    split <;> rfl
  free j := by
    rw [lambda_newLambda]
    split
    · exact apart
    · exact split.free j

theorem Split.fst_newScope : (⟨t.scopes.size⟩ : ScopeId) = k.past ⟨s.scopes.size⟩ := by
  have behind : k.past ⟨s.scopes.size⟩ = ScopeId.next ⟨s.scopes.size⟩ :=
    ScopeId.past_of_lt split.inside
  rw [behind, split.size]
  rfl

theorem Split.newScope (content : Scope) :
    (s.newScope content).2.Split k (t.newScope content).2 := by
  have size := split.size
  have inside := split.inside
  refine { split with
    inside := by simp [Nat.lt_succ_of_lt inside]
    size := by simp [size]
    places := fun i other => ?_
    scope := fun i other => ?_
    parted := fun name => ?_ }
  · rw [size_scopes_newScope, size_scopes_newScope, size]
    exact ScopeId.index_past_lt (Nat.lt_succ_of_lt inside)
  · have isNew : (k.past i).index = t.scopes.size ↔ i.index = s.scopes.size := by
      rw [size, ScopeId.index_past]
      split <;> omega
    simp only [scope_newScope, isNew, split.scope i other]
  · have lower : k.index ≠ s.scopes.size := Nat.ne_of_lt inside
    have lowerThere : k.index ≠ t.scopes.size := by omega
    have upper : k.next.index ≠ t.scopes.size := Nat.ne_of_lt split.next_inside
    simp only [scope_newScope, if_neg lower, if_neg lowerThere, if_neg upper, split.parted]

theorem Split.bind {i : ScopeId} (other : i ≠ k) (name : String) (v : Value) :
    (s.bind i name v).Split k (t.bind (k.past i) name v) where
  __ := split
  inside := by simp [split.inside]
  size := by simp [split.size]
  places j apart := by simpa using split.places j apart
  scope j apart := by
    simp only [scope_bind, ScopeId.past_inj, split.past_inside, split.scope j apart]
  parted x := by
    have upper : k.past i ≠ k.next := ScopeId.past_ne_next
    have lower : k.past i ≠ k := mt ScopeId.past_eq_self_iff.mp other
    simp only [scope_bind, other, upper, lower, false_and, if_false, split.parted]

/-- A name is bound in the upper part, or in the lower one if the upper does not bind it. -/
theorem Split.bind_part {i : ScopeId} {name : String}
    (part : i = k.next ∨ i = k ∧ (t.scope k.next).get? name = none) (v : Value) :
    (s.bind k name v).Split k (t.bind i name v) where
  __ := split
  inside := by simp [split.inside]
  size := by simp [split.size]
  places j apart := by simpa using split.places j apart
  scope j apart := by
    have elsewhere : i ≠ k.past j := by
      rcases part with rfl | ⟨rfl, _⟩
      · exact ScopeId.past_ne_next.symm
      · exact fun same => apart (ScopeId.past_eq_self_iff.mp same.symm)
    simp only [scope_bind, elsewhere, Ne.symm apart, false_and, if_false, split.scope j apart]
  parted x := by
    have inside := split.inside
    have upper := split.next_inside
    have lower : k.index < t.scopes.size := Nat.lt_of_succ_lt upper
    rcases part with rfl | ⟨rfl, absent⟩
    · have parted := split.parted x
      by_cases same : name = x <;> simp [scope_bind, inside, upper, ScopeId.next_ne, same, parted]
    · have parted := split.parted x
      by_cases same : name = x
      · subst same
        simp [scope_bind, inside, lower, (ScopeId.next_ne i).symm, absent]
      · simp [scope_bind, inside, lower, (ScopeId.next_ne i).symm, same, parted]

end Store

/-- The machines are the same, but for a scope that is in one piece or split. -/
structure Machine.Split (k : ScopeId) (m n : Machine) : Prop where
  store : m.store.Split k n.store
  stack : n.stack = m.stack.flatMap k.parts

namespace Machine

theorem Split.withCells (split : m.Split k n) (cells : Array Cell) :
    (m.withCells cells).Split k (n.withCells cells) := ⟨split.store.withCells cells, split.stack⟩

theorem Split.enter (split : m.Split k n) {i : ScopeId} (apart : i ≠ k) :
    Split k ⟨m.store, i :: m.stack⟩ ⟨n.store, k.past i :: n.stack⟩ := by
  refine ⟨split.store, ?_⟩
  rw [List.flatMap_cons, ← split.stack, ScopeId.parts, if_neg apart]
  rfl

/-! Names. -/

/-- The scope that binds a name where `i` does in one piece. -/
def boundPart (k : ScopeId) (t : Store) (name : String) (i : ScopeId) : ScopeId :=
  if i = k then if (t.scope k.next).binds name then k.next else k else k.past i

theorem find?_parts (split : s.Split k t) (name : String) (stack : List ScopeId) :
    (stack.flatMap k.parts).find? (fun i => (t.scope i).binds name) =
      (stack.find? fun i => (s.scope i).binds name).map (boundPart k t name) := by
  induction stack with
  | nil => rfl
  | cons i stack ih =>
    rw [List.flatMap_cons, List.find?_append, ih]
    by_cases whole : i = k
    · subst whole
      have parted : (s.scope i).binds name =
          ((t.scope i.next).binds name || (t.scope i).binds name) := by
        rw [Scope.binds, split.parted, Option.isSome_or]
        rfl
      cases upper : (t.scope i.next).binds name <;> cases lower : (t.scope i).binds name <;>
        simp [ScopeId.parts, boundPart, parted, upper, lower]
    · have same : (t.scope (k.past i)).binds name = (s.scope i).binds name := by
        rw [split.scope i whole]
      cases bound : (s.scope i).binds name <;>
        simp [ScopeId.parts, boundPart, whole, same, bound]

theorem Split.binder?_eq (split : m.Split k n) (name : String) :
    n.binder? name = (m.binder? name).map (boundPart k n.store name) := by
  unfold binder?
  rw [split.stack]
  exact find?_parts split.store name m.stack

theorem Split.lookup?_eq (split : m.Split k n) (name : String) :
    n.lookup? name = m.lookup? name := by
  unfold lookup?
  rw [split.binder?_eq]
  cases m.binder? name with
  | none => rfl
  | some i =>
    change (n.store.scope (boundPart k n.store name i)).get? name = (m.store.scope i).get? name
    unfold boundPart
    split
    · next whole =>
      subst whole
      rw [split.store.parted]
      cases upper : (n.store.scope i.next).get? name <;> simp [Scope.binds, upper]
    · next other => rw [split.store.scope i other]

theorem Split.assign (split : m.Split k n) (i : ScopeId) (name : String) (v : Value) :
    (m.store.bind i name v).Split k
      (n.store.bind (boundPart k n.store name i) name v) := by
  unfold boundPart
  split
  · next whole =>
    subst whole
    apply split.store.bind_part
    cases upper : (n.store.scope i.next).get? name <;> simp [Scope.binds, upper]
  · next other => exact split.store.bind other name v

theorem Split.head?_eq (split : m.Split k n) :
    n.stack.head? = m.stack.head?.map fun i => if i = k then k.next else k.past i := by
  rw [split.stack]
  cases m.stack with
  | nil => rfl
  | cons i stack =>
    unfold ScopeId.parts
    simp only [List.flatMap_cons, List.head?_cons, Option.map_some]
    split <;> rfl

theorem Split.define (split : m.Split k n) (i : ScopeId) (name : String) (v : Value) :
    (m.store.bind i name v).Split k
      (n.store.bind (if i = k then k.next else k.past i) name v) := by
  split
  · next whole =>
    subst whole
    exact split.store.bind_part (.inl rfl) v
  · next other => exact split.store.bind other name v

/-! What begins on the machines. -/

theorem Split.locals_ne (split : m.Split k n) : m.locals ≠ k := by
  rintro rfl
  exact Nat.lt_irrefl _ split.store.inside

theorem Split.locals_eq (split : m.Split k n) : n.locals = k.past m.locals :=
  split.store.fst_newScope

theorem Split.opened (split : m.Split k n) : m.opened.Split k n.opened := by
  have entered : Split k ⟨(m.store.newScope .empty).2, m.stack⟩
      ⟨(n.store.newScope .empty).2, n.stack⟩ := ⟨split.store.newScope .empty, split.stack⟩
  have opened := entered.enter split.locals_ne
  rwa [← split.locals_eq] at opened

theorem Split.called (split : m.Split k n) (l : LambdaId) (args : List Value) :
    (m.called l args).Split k (n.called l args) := by
  unfold Machine.called
  rw [split.store.lambda, split.locals_eq]
  have begun : Split k
      ⟨(m.store.newScope (.ofArguments (m.store.lambda l).params args)).2, m.stack⟩
      ⟨(n.store.newScope (.ofArguments (m.store.lambda l).params args)).2, n.stack⟩ :=
    ⟨split.store.newScope _, split.stack⟩
  exact (begun.enter (split.store.free l)).enter split.locals_ne

end Machine

/-! Regions. -/

namespace Region

/-- The region as it is known where one more scope was made right behind `k`. -/
def past (k : ScopeId) : Region → Region
  | block inner => .block (k.past inner)
  | call callee locals owned => .call callee (k.past locals) (k.past owned)

variable {r : Region}

theorem split_settle (split : s.Split k t) (apart : ∀ i ∈ r.scopes, i ≠ k)
    (result : Except Fault Value) :
    (r.settle result s).Split k ((r.past k).settle result t) := by
  cases r with
  | block inner => exact split
  | call callee locals owned =>
    simp only [scopes, List.forall_mem_cons] at apart
    obtain ⟨apartLocals, apartOwned, _⟩ := apart
    cases result with
    | error f => exact split
    | ok v =>
      cases v with
      | lambda l => exact (split.setLambdaScope l apartLocals).setLambdaScope callee apartOwned
      | number | string | boolean | nil | cons => exact split.setLambdaScope callee apartOwned

theorem split_conclude {o u : Outcome Value} (same : o.Like (Machine.Split k) u)
    (apart : ∀ i ∈ r.scopes, i ≠ k) (stack : List ScopeId) :
    (r.conclude stack o).Like (Machine.Split k)
      ((r.past k).conclude (stack.flatMap k.parts) u) := by
  cases same with
  | value v split => exact .value v ⟨split_settle split.store apart (.ok v), rfl⟩
  | fault f split => exact .fault f ⟨split_settle split.store apart (.error f), rfl⟩
  | unfinished => exact .unfinished

end Region

/-! Computations. -/

namespace Eval

variable {α β : Type}

/-- The computation comes to the same whether a scope is split or not. -/
def Splits (x : Eval α) : Prop := ∀ k m n, m.Split k n → (x m).Like (Machine.Split k) (x n)

theorem Splits.bind {x : Eval α} {f : α → Eval β} (first : x.Splits)
    (second : ∀ a, (f a).Splits) : (x >>= f).Splits := fun k m n split =>
  like_bind (first k m n split) fun a => second a k

theorem Simple.splits {x : Eval α} (simple : x.Simple) : x.Splits := fun _ _ _ split =>
  simple.like split.store.cells split.store.params split.withCells

theorem splits_lookup (name : String) : (lookup name).Splits := by
  intro k m n split
  unfold lookup
  rw [split.lookup?_eq]
  cases m.lookup? name with
  | none => exact .fault _ split
  | some v => exact .value v split

theorem splits_assign (name : String) (v : Value) : (assign name v).Splits := by
  intro k m n split
  unfold assign Machine.assign?
  rw [split.binder?_eq]
  cases m.binder? name with
  | none => exact .fault _ split
  | some i => exact .value () ⟨split.assign i name v, split.stack⟩

theorem splits_define (name : String) (v : Value) : (define name v).Splits := by
  intro k m n split
  unfold define Machine.define?
  rw [split.head?_eq]
  cases m.stack.head? with
  | none => exact .fault _ split
  | some i => exact .value () ⟨split.define i name v, split.stack⟩

theorem splits_newLambda (names : List String) (body : Value) :
    (Evaluation.newLambda names body).Splits := by
  intro k m n split
  have made := (split.store.newScope .empty).newLambda names body split.locals_ne
  rw [← split.locals_eq] at made
  have same : n.store.lambdas.size = m.store.lambdas.size := split.store.lambdas
  change Outcome.Like (Machine.Split k) (.value (Value.lambda ⟨m.store.lambdas.size⟩) ⟨_, m.stack⟩)
    (.value (Value.lambda ⟨n.store.lambdas.size⟩) ⟨_, n.stack⟩)
  rw [same]
  exact .value _ ⟨made, split.stack⟩

theorem compositional_splits : Compositional @Splits where
  simple simple := simple.splits
  bind first second := first.bind second
  lookup := splits_lookup
  assign := splits_assign
  define := splits_define
  newLambda := splits_newLambda
  block depth statements inner := by
    intro k m n split
    have ran := inner k m.opened n.opened split.opened
    have apart : ∀ i ∈ (Region.block m.locals).scopes, i ≠ k := by
      simpa [Region.scopes] using split.locals_ne
    have concluded := Region.split_conclude ran apart m.stack
    rwa [← split.stack, Region.past, ← split.locals_eq, ← Evaluation.evalBlock_outcome,
      ← Evaluation.evalBlock_outcome] at concluded
  call depth l args inner := by
    intro k m n split
    have params := split.store.params l
    by_cases arity : (m.store.lambda l).params.length = args.length
    · have ran := inner (m.store.lambda l).body k _ _ (split.called l args)
      have apart : ∀ i ∈ (m.region l).scopes, i ≠ k := by
        simpa [Machine.region, Region.scopes] using ⟨split.locals_ne, split.store.free l⟩
      have concluded := Region.split_conclude ran apart m.stack
      have region : n.region l = (m.region l).past k := by
        rw [Machine.region, Machine.region, split.locals_eq, split.store.lambda]
        rfl
      have body : (n.store.lambda l).body = (m.store.lambda l).body := by
        rw [split.store.lambda]
        rfl
      rwa [← split.stack, ← region, ← body, ← Evaluation.call_outcome (by rwa [params]), body,
        ← Evaluation.call_outcome arity] at concluded
    · rw [Evaluation.call_eq_callBy, Evaluation.callBy_of_arity_ne arity,
        Evaluation.callBy_of_arity_ne (by rwa [params]), params]
      exact .fault _ split

end Eval

end CellLisp
