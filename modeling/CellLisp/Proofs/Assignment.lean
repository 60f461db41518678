import CellLisp.Proofs.Locality

/-!
# Assignment changes one scope

A stack may hold one scope at several depths. A name is assigned in the scope where it would be
looked up, so the change is seen wherever that scope is the first to bind the name, also once the
scopes above it are left, and nowhere else. No scope gains or loses a name, so every name is looked
up in the same scope as before.
-/

namespace CellLisp

/-- Leaves so many scopes, the innermost first. -/
def Eval.popTimes : Nat → Eval Unit
  | 0 => return ()
  | k + 1 => do
    let _ ← pop
    popTimes k

namespace Machine

variable {m : Machine} {x y : String} {v : Value} {i : ScopeId}

/-- The scope that binds the name and has none above it that does. -/
def Binder (m : Machine) (x : String) (i : ScopeId) : Prop :=
  ∃ inner outer, m.stack = inner ++ i :: outer ∧
    (∀ j ∈ inner, (m.store.scope j).binds x = false) ∧ (m.store.scope i).binds x = true

theorem binder?_eq_some_iff : m.binder? x = some i ↔ m.Binder x i := by
  unfold binder?
  rw [List.find?_eq_some_iff_append]
  constructor
  · rintro ⟨bound, inner, outer, stack, free⟩
    exact ⟨inner, outer, stack, fun j mem => by simpa using free j mem, bound⟩
  · rintro ⟨inner, outer, stack, free, bound⟩
    exact ⟨bound, inner, outer, stack, fun j mem => by simpa using free j mem⟩

/-- What is left once so many scopes were left. -/
def without (m : Machine) (k : Nat) : Machine := ⟨m.store, m.stack.drop k⟩

theorem popTimes_eq {k : Nat} (enough : k ≤ m.stack.length) :
    Eval.popTimes k m = .value () (m.without k) := by
  induction k generalizing m with
  | zero => rfl
  | succ k ih =>
    rcases m with ⟨s, stack⟩
    cases stack with
    | nil => cases enough
    | cons i rest => exact ih (m := ⟨s, rest⟩) (Nat.le_of_succ_le_succ enough)

/-- The machine once a name was given a value in a scope. -/
def withBinding (m : Machine) (i : ScopeId) (x : String) (v : Value) : Machine :=
  ⟨m.store.bind i x v, m.stack⟩

theorem binder?_withBinding (bound : (m.store.scope i).binds x = true) (v : Value) (k : Nat)
    (y : String) : ((m.withBinding i x v).without k).binder? y = (m.without k).binder? y := by
  unfold binder?
  congr 1
  funext j
  exact congrFun (Store.binds_bind_of_binds bound v j) y

/-- Only the new binding is read differently. -/
theorem get?_withBinding (bound : (m.store.scope i).binds x = true) (v : Value) (j : ScopeId)
    (y : String) : ((m.withBinding i x v).store.scope j).get? y =
      if j = i ∧ y = x then some v else (m.store.scope j).get? y := by
  change ((m.store.bind i x v).scope j).get? y = _
  rw [Store.scope_bind]
  by_cases same : i = j
  · subst same
    rw [if_pos ⟨rfl, Store.index_lt_of_binds bound⟩, Scope.get?_insert]
    simp [eq_comm]
  · rw [if_neg fun both => same both.1, if_neg fun both => same both.1.symm]

theorem lookup?_withBinding (bound : (m.store.scope i).binds x = true) (v : Value) (k : Nat)
    (y : String) : ((m.withBinding i x v).without k).lookup? y =
      if (m.without k).binder? y = some i ∧ y = x then some v else (m.without k).lookup? y := by
  unfold lookup?
  rw [binder?_withBinding bound]
  cases found : (m.without k).binder? y with
  | none => simp
  | some j =>
    simp only [Option.bind_some, Option.some_inj]
    apply get?_withBinding bound

/-- A name is looked up and assigned in the scope that binds it, or neither can be done. -/
theorem binder_cases (m : Machine) (x : String) :
    (∃ i w, m.Binder x i ∧ (m.store.scope i).get? x = some w ∧ Eval.lookup x m = .value w m ∧
      ∀ v, Eval.assign x v m = .value () (m.withBinding i x v)) ∨
    ((∀ i, ¬m.Binder x i) ∧ Eval.lookup x m = .fault (.evaluation (.unbound x)) m ∧
      ∀ v, Eval.assign x v m = .fault (.evaluation (.unbound x)) m) := by
  cases found : m.binder? x with
  | none =>
    refine .inr ⟨fun i binder => ?_, ?_, fun v => ?_⟩
    · rw [binder?_eq_some_iff.mpr binder] at found
      cases found
    · simp [Eval.lookup, lookup?, found]
    · simp [Eval.assign, assign?, found]
  | some i =>
    obtain ⟨w, value⟩ := Option.isSome_iff_exists.mp (binds_of_binder? found)
    refine .inl ⟨i, w, binder?_eq_some_iff.mp found, value, ?_, fun v => ?_⟩
    · simp [Eval.lookup, lookup?, found, value]
    · simp [Eval.assign, assign?, found, withBinding]

/-- A name was assigned in this scope, and nothing else was done. -/
structure Assigned (m n : Machine) (x : String) (v : Value) (i : ScopeId) : Prop where
  binder : m.Binder x i
  stack : n.stack = m.stack
  cells : n.store.cells = m.store.cells
  lambdas : n.store.lambdas = m.store.lambdas
  scopes : n.store.scopes.size = m.store.scopes.size
  others : ∀ j, j ≠ i → n.store.scope j = m.store.scope j
  binds : ∀ j y, (n.store.scope j).binds y = (m.store.scope j).binds y
  otherNames : ∀ k y, y ≠ x → (n.without k).lookup? y = (m.without k).lookup? y
  seen : ∀ k, (m.without k).Binder x i → (n.without k).lookup? x = some v
  unseen : ∀ k, ¬(m.without k).Binder x i → (n.without k).lookup? x = (m.without k).lookup? x

theorem assigned_withBinding (binder : m.Binder x i) (v : Value) :
    m.Assigned (m.withBinding i x v) x v i := by
  have bound : (m.store.scope i).binds x = true := by
    obtain ⟨_, _, _, _, bound⟩ := binder
    exact bound
  exact {
    binder := binder
    stack := rfl
    cells := rfl
    lambdas := rfl
    scopes := Store.size_scopes_bind _ _ _ _
    others := fun j other => by
      change (m.store.bind i x v).scope j = _
      rw [Store.scope_bind, if_neg fun both => other both.1.symm]
    binds := fun j y => congrFun (Store.binds_bind_of_binds bound v j) y
    otherNames := fun k y other => by
      rw [lookup?_withBinding bound, if_neg fun both => other both.2]
    seen := fun k here => by
      rw [lookup?_withBinding bound, if_pos ⟨binder?_eq_some_iff.mpr here, rfl⟩]
    unseen := fun k elsewhere => by
      rw [lookup?_withBinding bound,
        if_neg fun both => elsewhere (binder?_eq_some_iff.mp both.1)] }

end Machine

/-- A name can be assigned exactly if it can be looked up. What changes then is the scope that it is
looked up in. After any number of scopes is left, the name has the new value where that scope is the
first that binds it, and is looked up as before where it is not. Where the name is not bound,
nothing changes. -/
theorem assignment_changes_one_scope (m : Machine) (x : String) (v : Value) :
    ((∃ n, Eval.assign x v m = .value () n) ↔ ∃ w, Eval.lookup x m = .value w m) ∧
    (∀ n, Eval.assign x v m = .value () n → Eval.lookup x n = .value v n ∧
      ∃ i, m.Assigned n x v i ∧ m.lookup? x = (m.store.scope i).get? x ∧
        ∀ k ≤ m.stack.length, Eval.popTimes k m = .value () (m.without k) ∧
          Eval.popTimes k n = .value () (n.without k)) ∧
    ((¬∃ w, Eval.lookup x m = .value w m) →
      Eval.lookup x m = .fault (.evaluation (.unbound x)) m ∧
        Eval.assign x v m = .fault (.evaluation (.unbound x)) m) := by
  rcases m.binder_cases x with ⟨i, w, binder, value, reads, writes⟩ | ⟨_, reads, writes⟩
  · refine ⟨⟨fun _ => ⟨w, reads⟩, fun _ => ⟨_, writes v⟩⟩, fun n ends => ?_,
      fun unbound => absurd ⟨w, reads⟩ unbound⟩
    rw [writes v] at ends
    cases ends
    have assigned := Machine.assigned_withBinding binder v
    refine ⟨?_, i, assigned, ?_, fun k enough =>
      ⟨Machine.popTimes_eq enough, Machine.popTimes_eq enough⟩⟩
    · have now : (m.withBinding i x v).lookup? x = some v := assigned.seen 0 binder
      simp [Eval.lookup, now]
    · rw [Machine.lookup?, Machine.binder?_eq_some_iff.mpr binder]
      rfl
  · rw [reads, writes v]
    refine ⟨⟨?_, ?_⟩, nofun, fun _ => ⟨rfl, rfl⟩⟩
    · rintro ⟨n, ⟨⟩⟩
    · rintro ⟨w, ⟨⟩⟩

/-- Two scopes in turn, each at two depths. -/
def alternating : Machine :=
  ⟨⟨#[], #[], #[⟨[("x", .int 1)]⟩, ⟨[("y", .int 2)]⟩]⟩, [⟨1⟩, ⟨0⟩, ⟨1⟩, ⟨0⟩]⟩

theorem assignment_changes_one_scope_at_two_depths :
    ∃ n, Eval.assign "x" (.int 3) alternating = .value () n ∧
      Eval.lookup "x" n = .value (.int 3) n ∧ Eval.popTimes 2 n = .value () (n.without 2) ∧
      (n.without 2).lookup? "x" = some (.int 3) ∧
      Eval.lookup "z" alternating = .fault (.evaluation (.unbound "z")) alternating ∧
      Eval.assign "z" (.int 3) alternating = .fault (.evaluation (.unbound "z")) alternating := by
  obtain ⟨_, changes, _⟩ := assignment_changes_one_scope alternating "x" (.int 3)
  obtain ⟨_, _, refuses⟩ := assignment_changes_one_scope alternating "z" (.int 3)
  obtain ⟨reads, i, assigned, _, pops⟩ := changes _ rfl
  have innermost : alternating.Binder "x" ⟨0⟩ :=
    ⟨[⟨1⟩], [⟨1⟩, ⟨0⟩], rfl, List.forall_mem_singleton.mpr rfl, rfl⟩
  have again : (alternating.without 2).Binder "x" ⟨0⟩ :=
    ⟨[⟨1⟩], [], rfl, List.forall_mem_singleton.mpr rfl, rfl⟩
  have same : (⟨0⟩ : ScopeId) = i := by
    apply Option.some.inj
    rw [← Machine.binder?_eq_some_iff.mpr innermost, Machine.binder?_eq_some_iff.mpr assigned.binder]
  subst same
  exact ⟨_, rfl, reads, (pops 2 (by decide)).2, assigned.seen 2 again, refuses (by rintro ⟨w, ⟨⟩⟩)⟩

end CellLisp
