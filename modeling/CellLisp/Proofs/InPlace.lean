import CellLisp.Proofs.Discipline
import CellLisp.Proofs.Privacy
import CellLisp.Proofs.Split

/-!
# A body that is a block runs in place

The statements of a body that is a block run in the scope of the arguments itself. Evaluated like
any other block, they would run in a scope of their own on top of it. So the scope of the arguments
is in one piece in the one call and split in the other, and what runs in them comes to the same. Of
the scopes on the stack that one is lost when the call is left, and no lambda has it but one that
the call returns. So the calls differ in nothing else than what a returned lambda sees.
-/

namespace CellLisp

variable {k : ScopeId} {s t : Store} {m n : Machine} {l : LambdaId} {args : List Value}
  {result : Except Fault Value}

/-- Called on this machine, the lambda comes to this result if its body is evaluated like any other
form. -/
def Evaluation.FormCallEnds (m : Machine) (l : LambdaId) (args : List Value)
    (result : Except Fault Value) (n : Machine) : Prop :=
  ∃ depth, callBy (eval depth) l args m = Eval.ofExcept result n

/-- Two calls with this result left machines that are the same, but for what `k` and the place
behind it bind; and no lambda sees that unless it was returned. -/
structure Machine.LeftRenamed (k : ScopeId) (result : Except Fault Value) (m n : Machine) :
    Prop where
  stack : n.stack = m.stack
  store : m.store.Renamed k n.store
  free : (∀ r, result ≠ .ok (.lambda r)) → ∀ l, (m.store.lambda l).scope ≠ k

namespace Store

/-- The stores are the same, but for what `k` and the place behind it bind, and no lambda sees
that. -/
structure Unseen (k : ScopeId) (s t : Store) : Prop extends s.Renamed k t where
  free : ∀ l, (s.lambda l).scope ≠ k

theorem Split.unseen (split : s.Split k t) : s.Unseen k t := ⟨split.toRenamed, split.free⟩

theorem unseen_self (last : s.scopes.size ≤ k.index + 1)
    (older : ∀ l, (s.lambda l).scope.index < k.index) : s.Unseen k s := by
  refine ⟨renamed_self last older, fun l same => ?_⟩
  have before := older l
  rw [same] at before
  exact Nat.lt_irrefl _ before

/-- Leaving a call for whose arguments `k` was made. -/
theorem Unseen.leave (unseen : s.Unseen k t) {callee : LambdaId} {owned : ScopeId}
    (older : owned.index < k.index) (stack : List ScopeId) :
    Machine.LeftRenamed k result ⟨(Region.call callee k owned).settle result s, stack⟩
      ⟨(Region.call callee k owned).settle result t, stack⟩ := by
  have renamed := unseen.toRenamed
  have fixed : k.past owned = owned := ScopeId.past_of_le (Nat.le_of_lt older)
  have self : k.past k = k := ScopeId.past_of_le (Nat.le_refl _)
  have restored (s t : Store) (renamed : s.Renamed k t) :
      (s.setLambdaScope callee owned).Renamed k (t.setLambdaScope callee owned) := by
    have given := renamed.setLambdaScope callee owned
    rwa [fixed] at given
  cases result with
  | error f => exact ⟨rfl, renamed, fun _ => unseen.free⟩
  | ok v =>
    cases v with
    | lambda r =>
      have adopted := renamed.setLambdaScope r k
      rw [self] at adopted
      exact ⟨rfl, restored _ _ adopted, fun other => absurd rfl (other r)⟩
    | number | string | boolean | nil | cons =>
      refine ⟨rfl, restored _ _ renamed, fun _ l => ?_⟩
      simp only [Region.settle, Store.adopt, lambda_setLambdaScope]
      split
      · rintro rfl
        exact Nat.lt_irrefl _ older
      · exact unseen.free l

end Store

/-- Both computations end with the same result or neither ends, and if they end they leave machines
in this relation. -/
inductive Outcome.Alongside (R : Except Fault Value → Machine → Machine → Prop) :
    Outcome Value → Outcome Value → Prop
  | ended (result : Except Fault Value) {m n : Machine} (left : R result m n) :
    Alongside R (Eval.ofExcept result m) (Eval.ofExcept result n)
  | unfinished : Alongside R .unfinished .unfinished

namespace Outcome.Alongside

variable {R : Except Fault Value → Machine → Machine → Prop} {o u : Outcome Value}

theorem first (both : o.Alongside R u) (ends : o = Eval.ofExcept result m) :
    ∃ n, u = Eval.ofExcept result n ∧ R result m n := by
  cases both with
  | unfinished => cases result <;> cases ends
  | ended other left =>
    cases other <;> cases result <;> cases ends <;> exact ⟨_, rfl, left⟩

theorem second (both : o.Alongside R u) (ends : u = Eval.ofExcept result n) :
    ∃ m, o = Eval.ofExcept result m ∧ R result m n := by
  cases both with
  | unfinished => cases result <;> cases ends
  | ended other left =>
    cases other <;> cases result <;> cases ends <;> exact ⟨_, rfl, left⟩

end Outcome.Alongside

theorem Outcome.Like.alongside {o u : Outcome Value} (same : o.Like (Machine.Split k) u)
    (i : ScopeId) (stack : List ScopeId) :
    o.Alongside (fun _ m n => m.store.Unseen k n.store) ((Region.block i).conclude stack u) := by
  cases same with
  | value v split => exact .ended (.ok v) (n := ⟨_, stack⟩) split.store.unseen
  | fault f split => exact .ended (.error f) (n := ⟨_, stack⟩) split.store.unseen
  | unfinished => exact .unfinished

theorem Region.alongside_conclude {o u : Outcome Value} {callee : LambdaId} {owned : ScopeId}
    (both : o.Alongside (fun _ m n => m.store.Unseen k n.store) u) (older : owned.index < k.index)
    (stack : List ScopeId) :
    ((Region.call callee k owned).conclude stack o).Alongside (Machine.LeftRenamed k)
      ((Region.call callee k owned).conclude stack u) := by
  cases both with
  | unfinished => exact .unfinished
  | ended result unseen =>
    cases result with
    | ok v => exact .ended (.ok v) (unseen.leave older stack)
    | error f => exact .ended (.error f) (unseen.leave older stack)

/-! The body. -/

theorem Store.exists_of_afterHead? {name : String} {v rest : Value}
    (after : s.afterHead? name v = some rest) :
    ∃ c, v = .cons c ∧ s.car c = .string name ∧ s.cdr c = rest := by
  cases v with
  | cons c =>
    by_cases named : (s.car c).name? = some name
    · have found : some (s.cdr c) = some rest := by rwa [Store.afterHead?, if_pos named] at after
      exact ⟨c, rfl, Value.eq_string_of_name? named, Option.some.inj found⟩
    · rw [Store.afterHead?, if_neg named] at after
      cases after
  | number | string | boolean | nil | lambda => cases after

/-- The last scope is split by a new one on top of it. -/
theorem Store.split_newScope (top : s.scopes.size = k.index + 1)
    (older : ∀ l, (s.lambda l).scope.index < k.index) : s.Split k (s.newScope .empty).2 where
  __ := s.unseen_self (Nat.le_of_eq top) older
  inside := by simp [top]
  size := by simp
  places i other := by
    rw [size_scopes_newScope]
    exact ScopeId.index_past_lt (by simp [top])
  scope i other := by
    have differs : i.index ≠ k.index := fun same => other (ScopeId.ext same)
    have old : (k.past i).index ≠ s.scopes.size := by
      rw [ScopeId.index_past]
      split <;> omega
    rw [scope_newScope, if_neg old]
    exact (unseen_self (Nat.le_of_eq top) older).scope i other
  parted name := by
    simp [scope_newScope, top, ScopeId.next]

theorem Machine.split_opened {stack : List ScopeId} (entered : m.stack = k :: stack)
    (top : m.store.scopes.size = k.index + 1)
    (older : ∀ l, (m.store.lambda l).scope.index < k.index)
    (low : ∀ i ∈ stack, i.index < k.index) : m.Split k m.opened := by
  refine ⟨Store.split_newScope top older, ?_⟩
  have locals : m.locals = k.next := congrArg ScopeId.mk top
  change m.locals :: m.stack = _
  rw [entered, List.flatMap_cons, ScopeId.flatMap_parts low, locals]
  simp [ScopeId.parts]

section Calls

variable (sound : m.Sound) (valid : l.index < m.store.lambdas.size)

include sound valid

/-- Every lambda has a scope that is older than the next one to be made. -/
theorem Machine.Sound.older (j : LambdaId) : (m.store.lambda j).scope.index < m.locals.index := by
  by_cases inside : j.index < m.store.lambdas.size
  · exact sound.store.owned j inside
  · rw [m.store.lambda_of_le (Nat.le_of_not_lt inside)]
    exact Nat.zero_lt_of_lt (sound.store.owned l valid)

theorem Machine.Sound.split_called : (m.called l args).Split m.locals (m.called l args).opened := by
  apply Machine.split_opened rfl
  · exact Store.size_scopes_newScope _ _
  · exact sound.older valid
  · exact List.forall_mem_cons.mpr ⟨sound.store.owned l valid, sound.stack⟩

/-- The body of the call, run in place and run as a form. -/
theorem body_alongside {body rest : Value} (block : m.store.afterHead? "block" body = some rest)
    (depth : Nat) :
    (Evaluation.runBody (eval depth) body (m.called l args)).Alongside
      (fun _ m' n' => m'.store.Unseen m.locals n'.store)
      (eval (depth + 1) body (m.called l args)) := by
  have split : (m.called l args).Split m.locals (m.called l args).opened := sound.split_called valid
  obtain ⟨c, rfl, head, rfl⟩ := Store.exists_of_afterHead? block
  have inPlace : Evaluation.runBody (eval depth) (.cons c) (m.called l args) =
      (Eval.items (m.store.cdr c) >>= Evaluation.evalStatements (eval depth))
        (m.called l args) := by
    have after : (m.called l args).store.afterHead? "block" (.cons c) =
      some (m.store.cdr c) := block
    unfold Evaluation.runBody
    rw [Eval.read_bind, after]
  have asForm : eval (depth + 1) (.cons c) (m.called l args) =
      (Eval.items (m.store.cdr c) >>= Evaluation.evalBlock (eval depth)) (m.called l args) :=
    eval_blockForm head
  have reads := Eval.reads_items (m.store.cdr c) (m.called l args)
  rw [inPlace, asForm]
  change (Eval.bind (Eval.items _) _ _).Alongside _ (Eval.bind (Eval.items _) _ _)
  unfold Eval.bind
  cases listed : Eval.items (m.store.cdr c) (m.called l args) with
  | unfinished => exact .unfinished
  | fault f n =>
    cases reads n (by rw [listed]; rfl)
    exact .ended (.error f) (Store.unseen_self (Nat.le_of_eq (Store.size_scopes_newScope _ _))
      (sound.older valid))
  | value vs n =>
    cases reads n (by rw [listed]; rfl)
    have evaluated := Eval.compositional_splits.evaluation depth
    have ran := Eval.compositional_splits.statements evaluated vs _ _ _ split
    dsimp only
    rw [Evaluation.evalBlock_outcome]
    exact ran.alongside _ _

/-- The two calls. -/
theorem call_alongside {rest : Value}
    (block : m.store.afterHead? "block" (m.store.lambda l).body = some rest) (depth : Nat) :
    (Evaluation.call (eval depth) l args m).Alongside (Machine.LeftRenamed m.locals)
      (Evaluation.callBy (eval (depth + 1)) l args m) := by
  by_cases arity : (m.store.lambda l).params.length = args.length
  · rw [Evaluation.call_outcome arity, Evaluation.callBy_outcome arity eval_stack]
    refine Region.alongside_conclude ?_ (sound.older valid l) m.stack
    exact body_alongside sound valid block depth
  · rw [Evaluation.call_eq_callBy, Evaluation.callBy_of_arity_ne arity,
      Evaluation.callBy_of_arity_ne arity]
    have same := Store.unseen_self (k := m.locals) (Nat.le_succ _) (sound.older valid)
    exact .ended (.error _) ⟨rfl, same.toRenamed, fun _ => same.free⟩

omit sound valid in
/-- A body that is evaluated no level deep has no result. -/
theorem formCallEnds_succ (ends : Evaluation.callBy (eval 0) l args m = Eval.ofExcept result n) :
    Evaluation.callBy (eval 1) l args m = Eval.ofExcept result n := by
  by_cases arity : (m.store.lambda l).params.length = args.length
  · rw [Evaluation.callBy_outcome arity eval_stack] at ends
    cases result <;> cases ends
  · rwa [Evaluation.callBy_of_arity_ne arity] at ends ⊢

/-- Whether the body of a call is run in place or as a form is seen by a returned lambda at most.
The call comes to the same result, if to any, and leaves the same behind, but for the scope of its
arguments and the places of later scopes. -/
theorem block_body_runs_in_place {rest : Value}
    (block : m.store.afterHead? "block" (m.store.lambda l).body = some rest) :
    (∀ result n, Evaluation.CallEnds m l args result n →
      ∃ n', Evaluation.FormCallEnds m l args result n' ∧
        Machine.LeftRenamed m.locals result n n') ∧
    (∀ result n', Evaluation.FormCallEnds m l args result n' →
      ∃ n, Evaluation.CallEnds m l args result n ∧ Machine.LeftRenamed m.locals result n n') ∧
    ((∀ depth, Evaluation.call (eval depth) l args m = .unfinished) ↔
      ∀ depth, Evaluation.callBy (eval depth) l args m = .unfinished) := by
  have forth : ∀ result n, Evaluation.CallEnds m l args result n →
      ∃ n', Evaluation.FormCallEnds m l args result n' ∧
        Machine.LeftRenamed m.locals result n n' := by
    rintro result n ⟨depth, ends⟩
    obtain ⟨n', ends, left⟩ := (call_alongside sound valid block depth).first ends
    exact ⟨n', ⟨depth + 1, ends⟩, left⟩
  have back : ∀ result n', Evaluation.FormCallEnds m l args result n' →
      ∃ n, Evaluation.CallEnds m l args result n ∧
        Machine.LeftRenamed m.locals result n n' := by
    rintro result n' ⟨depth, ends⟩
    obtain ⟨depth, ends⟩ : ∃ depth,
        Evaluation.callBy (eval (depth + 1)) l args m = Eval.ofExcept result n' := by
      cases depth with
      | zero => exact ⟨0, formCallEnds_succ ends⟩
      | succ depth => exact ⟨depth, ends⟩
    obtain ⟨n, ends, left⟩ := (call_alongside sound valid block depth).second ends
    exact ⟨n, ⟨depth, ends⟩, left⟩
  refine ⟨forth, back, ?_⟩
  rw [Outcome.forall_unfinished_iff, Outcome.forall_unfinished_iff]
  constructor
  · intro never result n' ends
    obtain ⟨n, ends, _⟩ := back result n' ends
    exact never result n ends
  · intro never result n ends
    obtain ⟨n', ends, _⟩ := forth result n ends
    exact never result n' ends

end Calls

/-- A body that assigns to its parameter and then defines a name like it. -/
def shadowingText : String := "(def f (lambda (x) (block (set x (+ x 1)) (def x 5) x)))"

set_option maxRecDepth 4000 in
/-- Evaluated as a form, the body shadows its parameter; run in place, it overwrites it. Both calls
come to the same value. -/
theorem block_body_runs_in_place_of_parameter : ∃ m n n' v, Session.Reached m ∧
    (m.store.afterHead? "block" (m.store.lambda ⟨0⟩).body).isSome = true ∧
    v.equal (.int 5) = true ∧ Evaluation.FormCallEnds m ⟨0⟩ [.int 1] (.ok v) n' ∧
    ((n'.store.scope m.locals).get? "x").any (·.equal (.int 2)) = true ∧
    Evaluation.CallEnds m ⟨0⟩ [.int 1] (.ok v) n ∧
    Machine.LeftRenamed m.locals (.ok v) n n' := by
  obtain ⟨m, left, facts⟩ := (Option.any_eq_true _ _).mp (by decide +kernel :
    (Session.run 9 shadowingText Machine.initial).machine?.any (fun m => decide (
      0 < m.store.lambdas.size ∧
      (m.store.afterHead? "block" (m.store.lambda ⟨0⟩).body).isSome = true ∧
      (Evaluation.callBy (eval 9) ⟨0⟩ [.int 1] m).value?.any (·.equal (.int 5)) = true ∧
      (Evaluation.callBy (eval 9) ⟨0⟩ [.int 1] m).machine?.any (fun n =>
        ((n.store.scope m.locals).get? "x").any (·.equal (.int 2))) = true)) = true)
  obtain ⟨valid, block, value, shadowed⟩ := of_decide_eq_true facts
  have reached : Session.Reached m := .run .initial 9 _ left
  obtain ⟨rest, after⟩ := Option.isSome_iff_exists.mp block
  obtain ⟨v, found, five⟩ := (Option.any_eq_true _ _).mp value
  obtain ⟨n', ends⟩ := Outcome.exists_of_value? found
  rw [ends] at shadowed
  have formEnds : Evaluation.FormCallEnds m ⟨0⟩ [.int 1] (.ok v) n' := ⟨9, ends⟩
  obtain ⟨n, callEnds, renamed⟩ : ∃ n, Evaluation.CallEnds m ⟨0⟩ [.int 1] (.ok v) n ∧
      Machine.LeftRenamed m.locals (.ok v) n n' :=
    (block_body_runs_in_place reached.sound valid after).2.1 (.ok v) n' formEnds
  exact ⟨m, n, n', v, reached, block, five, formEnds, shadowed, callEnds, renamed⟩

end CellLisp
