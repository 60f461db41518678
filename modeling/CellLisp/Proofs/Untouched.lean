import CellLisp.Proofs.Privacy
import CellLisp.Proofs.Walking

/-!
# What is left untouched

A later store leaves an earlier one untouched if every cell, every lambda with its scope and every
scope of it still is as it was. New cells, lambdas and scopes may have been made beside them. Calls
make scopes for their arguments and give the lambda that was called its own scope again, so a call
touches nothing if its body does not and if it returns no lambda. Names are looked up along a stack
of scopes that existed to the same values.
-/

namespace CellLisp

open Evaluation

variable {s t u : Store} {m n : Machine} {l : LambdaId} {args : List Value} {name : String}
  {v : Value} {vs : List Value}

namespace Store

/-- All that the one store holds stands in the other as it was. -/
structure Untouched (s t : Store) : Prop extends s.Extends t where
  lambdas : s.lambdas.size ≤ t.lambdas.size
  lambda : ∀ l : LambdaId, l.index < s.lambdas.size → t.lambda l = s.lambda l
  scopes : s.scopes.size ≤ t.scopes.size
  scope : ∀ i : ScopeId, i.index < s.scopes.size → t.scope i = s.scope i

theorem Untouched.refl (s : Store) : s.Untouched s where
  __ := Extends.refl s
  lambdas := Nat.le_refl _
  lambda _ _ := rfl
  scopes := Nat.le_refl _
  scope _ _ := rfl

theorem Untouched.trans (first : s.Untouched t) (second : t.Untouched u) : s.Untouched u where
  __ := first.toExtends.trans second.toExtends
  lambdas := Nat.le_trans first.lambdas second.lambdas
  lambda l valid :=
    (second.lambda l (Nat.lt_of_lt_of_le valid first.lambdas)).trans (first.lambda l valid)
  scopes := Nat.le_trans first.scopes second.scopes
  scope i inside :=
    (second.scope i (Nat.lt_of_lt_of_le inside first.scopes)).trans (first.scope i inside)

theorem Untouched.within (untouched : s.Untouched t) : s.Within t :=
  ⟨untouched.size, untouched.lambdas, untouched.scopes⟩

theorem untouched_newScope (s : Store) (content : Scope) : s.Untouched (s.newScope content).2 where
  size := Nat.le_refl _
  cell _ _ := rfl
  lambdas := Nat.le_refl _
  lambda _ _ := rfl
  scopes := by simp
  scope i inside := by rw [scope_newScope, if_neg (Nat.ne_of_lt inside)]

theorem untouched_cons (s : Store) (a d : Value) : s.Untouched (s.cons a d).2 where
  __ := extends_cons s a d
  lambdas := Nat.le_refl _
  lambda _ _ := rfl
  scopes := Nat.le_refl _
  scope _ _ := rfl

theorem untouched_list (s : Store) (vs : List Value) : s.Untouched (s.list vs).2 := by
  induction vs with
  | nil => exact .refl s
  | cons v vs ih => exact ih.trans (untouched_cons _ _ _)

/-- To give a lambda the scope that it has changes nothing. -/
theorem setLambdaScope_self (s : Store) (l : LambdaId) :
    s.setLambdaScope l (s.lambda l).scope = s := by
  have same : (s.lambdas.modify l.index fun f => { f with scope := (s.lambda l).scope }) =
      s.lambdas := by
    apply Array.ext (Array.size_modify ..)
    intro i _ inside
    rw [Array.getElem_modify]
    split
    · next here =>
      subst here
      simp [lambda, Array.getD_eq_getD_getElem?, inside]
    · rfl
  rw [setLambdaScope, same]

end Store

theorem Region.settle_untouched (untouched : m.store.Untouched s)
    (valid : l.index < m.store.lambdas.size) (noLambda : v.lambda? = none) :
    (m.region l).settle (.ok v) s = s := by
  have adopted : s.adopt v m.locals = s := by
    cases v with
    | lambda => cases noLambda
    | number | string | boolean | nil | cons => rfl
  change (s.adopt v m.locals).setLambdaScope l (m.store.lambda l).scope = s
  rw [adopted, ← untouched.lambda l valid, Store.setLambdaScope_self]

/-- The stack is the same, and all that was in the store stands as it was. -/
structure Machine.Untouched (m n : Machine) : Prop where
  store : m.store.Untouched n.store
  stack : n.stack = m.stack

theorem Machine.untouched_called (m : Machine) (l : LambdaId) (args : List Value) :
    m.store.Untouched (m.called l args).store := m.store.untouched_newScope _

/-! Names. -/

namespace Machine

variable {i : ScopeId} {stack : List ScopeId}

theorem lookup?_cons (s : Store) (i : ScopeId) (stack : List ScopeId) (name : String) :
    lookup? ⟨s, i :: stack⟩ name = ((s.scope i).get? name).or (lookup? ⟨s, stack⟩ name) := by
  unfold lookup? binder?
  rw [List.find?_cons]
  cases found : (s.scope i).get? name with
  | none => simp [Scope.binds, found]
  | some v => simp [Scope.binds, found]

theorem lookup?_untouched (untouched : s.Untouched t)
    (inside : ∀ i ∈ stack, i.index < s.scopes.size) (name : String) :
    lookup? ⟨t, stack⟩ name = lookup? ⟨s, stack⟩ name := by
  induction stack with
  | nil => rfl
  | cons i stack ih =>
    obtain ⟨here, there⟩ := List.forall_mem_cons.mp inside
    rw [lookup?_cons, lookup?_cons, untouched.scope i here, ih there]

theorem Untouched.lookup? (untouched : m.Untouched n) (sound : m.Sound) (name : String) :
    n.lookup? name = m.lookup? name := by
  rcases n with ⟨t, _⟩
  obtain ⟨store, rfl⟩ := untouched
  exact lookup?_untouched store sound.stack name

/-- In a call, a name is that of an argument, or it is bound in the scope of the lambda, or it is
the caller's. -/
theorem lookup?_called (owned : (m.store.lambda l).scope.index < m.store.scopes.size)
    (inside : ∀ i ∈ m.stack, i.index < m.store.scopes.size) (name : String) :
    (m.called l args).lookup? name =
      ((Scope.ofArguments (m.store.lambda l).params args).get? name).or
        (((m.store.scope (m.store.lambda l).scope).get? name).or (m.lookup? name)) := by
  have untouched := m.untouched_called l args
  have new : m.locals.index = m.store.scopes.size := rfl
  unfold Machine.called at untouched ⊢
  rw [lookup?_cons, lookup?_cons, lookup?_untouched untouched inside, untouched.scope _ owned,
    Store.scope_newScope, if_pos new]

theorem Sound.called (sound : m.Sound) (valid : l.index < m.store.lambdas.size)
    (known : ∀ v ∈ args, v.KnownTo m.store)
    (arity : (m.store.lambda l).params.length = args.length) : (m.called l args).Sound :=
  (Process.sound_body sound valid known arity).grounded.machine

end Machine

theorem Evaluation.CallEnds.sound (ends : CallEnds m l args (.ok v) n) (sound : m.Sound)
    (valid : l.index < m.store.lambdas.size) (known : ∀ v ∈ args, v.KnownTo m.store) :
    n.Sound ∧ v.KnownTo n.store := by
  have leads := (Process.exists_eq_iff fun depth => Process.call_follows depth l args m).mp ends
  have after := (Process.sound_call sound valid known).leads leads
  exact ⟨after.grounded.machine, after.focus v rfl⟩

theorem Evaluation.CallEnds.stack {result : Except Fault Value}
    (ends : CallEnds m l args result n) : n.stack = m.stack := by
  have leads := (Process.exists_eq_iff fun depth => Process.call_follows depth l args m).mp ends
  have start : Process.Balanced m.stack ⟨.call l args, [], m⟩ := rfl
  exact start.leads leads

/-! Lists. -/

namespace Store

variable {low : Nat} {xs : List Value}

/-- The value is a proper list of these items, in cells from this place on. -/
inductive Listed (s : Store) (low : Nat) : Value → List Value → Prop
  | nil : Listed s low .nil []
  | cons {c : CellId} {xs : List Value} (fresh : low ≤ c.index) (inside : c.index < s.cells.size)
    (rest : Listed s low (s.cdr c) xs) : Listed s low (.cons c) (s.car c :: xs)

theorem Listed.extends (listed : s.Listed low v xs) (kept : s.Extends t) : t.Listed low v xs := by
  induction listed with
  | nil => exact .nil
  | @cons c xs fresh inside rest ih =>
    have same := kept.cell c inside
    have car : t.car c = s.car c := congrArg Cell.car same
    have cdr : t.cdr c = s.cdr c := congrArg Cell.cdr same
    rw [← car]
    exact .cons fresh (Nat.lt_of_lt_of_le inside kept.size) (by rwa [cdr])

theorem Listed.mono {high : Nat} (listed : s.Listed high v xs) (le : low ≤ high) :
    s.Listed low v xs := by
  induction listed with
  | nil => exact .nil
  | cons fresh inside rest ih => exact .cons (Nat.le_trans le fresh) inside ih

theorem Listed.spine (listed : s.Listed low v xs) :
    ∃ cs, s.Spine v cs ∧ cs.length = xs.length ∧ ∀ c ∈ cs, c.index < s.cells.size := by
  induction listed with
  | nil => exact ⟨[], .stop nofun, rfl, nofun⟩
  | @cons c xs fresh inside rest ih =>
    obtain ⟨cs, spine, length, within⟩ := ih
    exact ⟨c :: cs, .cons spine, congrArg (· + 1) length, List.forall_mem_cons.mpr ⟨inside, within⟩⟩

theorem Listed.trail (listed : s.Listed low v xs) : s.Trail v xs .nil := by
  induction listed with
  | nil => exact trail_nil
  | cons fresh inside rest ih => exact .cons ih

theorem Listed.chain (listed : s.Listed low v xs) : s.chain v = .proper xs := by
  obtain ⟨cs, spine, length, within⟩ := listed.spine
  rw [Store.chain, listed.trail.chainWithin]
  rw [← length]
  exact spine.length_le_of_inside within

theorem listed_of_chain (sound : s.Sound) (known : v.KnownTo s)
    (walked : s.chain v = .proper xs) : s.Listed 0 v xs := by
  suffices general : ∀ {limit : Nat} {v : Value} {xs : List Value}, v.KnownTo s →
      s.chainWithin limit v = .proper xs → s.Listed 0 v xs from general known walked
  intro limit
  induction limit with
  | zero =>
    intro v xs known walked
    cases v with
    | nil =>
      cases walked
      exact .nil
    | number | string | boolean | cons | lambda => cases walked
  | succ limit ih =>
    intro v xs known walked
    cases v with
    | nil =>
      cases walked
      exact .nil
    | cons c =>
      rw [Store.chainWithin] at walked
      cases behind : s.chainWithin limit (s.cdr c) with
      | proper ys =>
        rw [behind] at walked
        cases walked
        exact .cons (Nat.zero_le _) known (ih (sound.cdr c) behind)
      | improper | endless =>
        rw [behind] at walked
        cases walked
    | number | string | boolean | lambda => cases walked

theorem Listed.prepend {d : Value} (listed : s.Listed low d xs) (older : low ≤ s.cells.size)
    (v : Value) : (s.cons v d).2.Listed low (s.cons v d).1 (v :: xs) := by
  have cell : (s.cons v d).2.cell ⟨s.cells.size⟩ = ⟨v, d⟩ := by rw [cell_cons, if_pos rfl]
  have car : (s.cons v d).2.car ⟨s.cells.size⟩ = v := congrArg Cell.car cell
  have cdr : (s.cons v d).2.cdr ⟨s.cells.size⟩ = d := congrArg Cell.cdr cell
  have behind : (s.cons v d).2.Listed low ((s.cons v d).2.cdr ⟨s.cells.size⟩) xs := by
    rw [cdr]
    exact listed.extends (extends_cons s v d)
  have whole := Listed.cons (c := ⟨s.cells.size⟩) older (by simp) behind
  rwa [car] at whole

/-- A new list is made of cells behind those that there were. -/
theorem listed_list (s : Store) (vs : List Value) :
    (s.list vs).2.Listed s.cells.size (s.list vs).1 vs := by
  induction vs with
  | nil => exact .nil
  | cons v vs ih => exact ih.prepend (s.untouched_list vs).size v

end Store

end CellLisp
