import CellLisp.Proofs.WriteBack

/-!
# Blocks and calls as a whole

A block and a call have the outcome of what runs inside of them, with the stack as it was and the
store settled. So what is known of statements and of bodies carries over to blocks and to calls.
-/

namespace CellLisp

open Evaluation

variable {m n : Machine} {depth : Nat}

/-- Statements lead from machine to machine as each of them does. -/
theorem Evaluation.evalStatements_relates {R : Machine → Machine → Prop}
    (refl : ∀ m, R m m) (trans : ∀ {m n k}, R m n → R n k → R m k)
    (each : ∀ {v m n}, (eval depth v m).machine? = some n → R m n) {vs : List Value}
    (ends : (evalStatements (eval depth) vs m).machine? = some n) : R m n := by
  induction vs generalizing m with
  | nil =>
    cases ends
    exact refl n
  | cons v vs ih =>
    cases vs with
    | nil => exact each ends
    | cons w vs =>
      rcases Eval.machine?_bind ends with ⟨f, failed⟩ | ⟨_, k, evaluated, rest⟩
      · exact each (by rw [failed]; rfl)
      · exact trans (each (by rw [evaluated]; rfl)) (ih rest)

theorem Evaluation.evalStatements_stack {vs : List Value}
    (ends : (evalStatements (eval depth) vs m).machine? = some n) : n.stack = m.stack :=
  evalStatements_relates (R := fun m n => n.stack = m.stack) (fun _ => rfl)
    (fun first second => second.trans first) eval_stack ends

namespace Region

variable {r : Region} {rest : List ScopeId}

@[simp] theorem scope_settle_scopes (r : Region) (result : Except Fault Value) (s : Store)
    (i : ScopeId) : (r.settle result s).scope i = s.scope i := by
  cases r with
  | block inner => rfl
  | call callee locals owned =>
    cases result with
    | error f => rfl
    | ok v => cases v <;> rfl

/-- The outcome of a region, from that of what ran in it. -/
def conclude (r : Region) (rest : List ScopeId) : Outcome Value → Outcome Value
  | .value v m => .value v ⟨r.settle (.ok v) m.store, rest⟩
  | .fault f m => .fault f ⟨r.settle (.error f) m.store, rest⟩
  | .unfinished => .unfinished

theorem machine?_conclude {o : Outcome Value} (ends : (r.conclude rest o).machine? = some n) :
    ∃ result left, o.machine? = some left ∧ n = ⟨r.settle result left.store, rest⟩ := by
  cases o with
  | value v left => exact ⟨.ok v, left, rfl, (Option.some.inj ends).symm⟩
  | fault f left => exact ⟨.error f, left, rfl, (Option.some.inj ends).symm⟩
  | unfinished => cases ends

theorem conclude_eq_ofExcept_iff {o : Outcome Value} {result : Except Fault Value} :
    r.conclude rest o = Eval.ofExcept result n ↔
      ∃ left, o = Eval.ofExcept result left ∧ n = ⟨r.settle result left.store, rest⟩ := by
  cases result with
  | ok v =>
    cases o with
    | value w left =>
      constructor
      · intro same
        cases same
        exact ⟨left, rfl, rfl⟩
      · rintro ⟨_, same, rfl⟩
        cases same
        rfl
    | fault | unfinished => exact ⟨nofun, fun ⟨_, same, _⟩ => nomatch same⟩
  | error f =>
    cases o with
    | fault g left =>
      constructor
      · intro same
        cases same
        exact ⟨left, rfl, rfl⟩
      · rintro ⟨_, same, rfl⟩
        cases same
        rfl
    | value | unfinished => exact ⟨nofun, fun ⟨_, same, _⟩ => nomatch same⟩

theorem attempt_leave {x : Eval Value} (stack : m.stack = r.scopes ++ rest)
    (balanced : ∀ left, (x m).machine? = some left → left.stack = m.stack) :
    (Eval.attempt x >>= r.leave) m = r.conclude rest (x m) := by
  change Eval.bind (Eval.attempt x) r.leave m = _
  unfold Eval.bind Eval.attempt
  cases outcome : x m with
  | unfinished => rfl
  | value v left =>
    have above := balanced left (by rw [outcome]; rfl)
    exact Process.leave_eq (above.trans stack)
  | fault f left =>
    have above := balanced left (by rw [outcome]; rfl)
    exact Process.leave_eq (above.trans stack)

end Region

/-- The machine on which the statements of a block run. -/
def Machine.opened (m : Machine) : Machine := ⟨(m.store.newScope .empty).2, m.locals :: m.stack⟩

theorem Evaluation.evalBlock_outcome (statements : List Value) :
    evalBlock (eval depth) statements m = (Region.block m.locals).conclude m.stack
      (evalStatements (eval depth) statements m.opened) := by
  rw [evalBlock_eq]
  exact Region.attempt_leave (m := m.opened) rfl fun _ => evalStatements_stack

/-- A call is refused if it gives too few or too many arguments. -/
theorem Evaluation.callBy_of_arity_ne {l : LambdaId} {args : List Value}
    (arity : (m.store.lambda l).params.length ≠ args.length) (run : Value → Eval Value) :
    callBy run l args m =
      .fault (arityFault ("lambda " ++ parameterText (m.store.lambda l).params)
        (m.store.lambda l).params.length args.length) m := by
  unfold callBy
  rw [Eval.read_bind, if_pos arity]
  rfl

theorem Evaluation.callBy_outcome {l : LambdaId} {args : List Value} {run : Value → Eval Value}
    (arity : (m.store.lambda l).params.length = args.length)
    (balanced : ∀ {body m n}, (run body m).machine? = some n → n.stack = m.stack) :
    callBy run l args m = (m.region l).conclude m.stack
      (run (m.store.lambda l).body (m.called l args)) := by
  rw [callBy_eq]
  change Eval.bind (Region.openCall l args) _ m = _
  unfold Eval.bind
  rw [Region.openCall_eq arity]
  exact Region.attempt_leave rfl fun _ => balanced

theorem Evaluation.call_outcome {l : LambdaId} {args : List Value}
    (arity : (m.store.lambda l).params.length = args.length) :
    call (eval depth) l args m = (m.region l).conclude m.stack
      (runBody (eval depth) (m.store.lambda l).body (m.called l args)) :=
  callBy_outcome arity runBody_stack

/-- A form with the head `block` is the block of its items. -/
theorem eval_blockForm {c : CellId} (head : m.store.car c = .string "block") :
    eval (depth + 1) (.cons c) m =
      (Eval.items (m.store.cdr c) >>= evalBlock (eval depth)) m := by
  change apply _ (m.store.car c) (m.store.cdr c) m = _
  rw [head]
  rfl

/-- No depth is enough if none leads to a result. -/
theorem Outcome.forall_unfinished_iff {x : Nat → Outcome Value} :
    (∀ depth, x depth = .unfinished) ↔
      ∀ result n, ¬∃ depth, x depth = Eval.ofExcept result n := by
  constructor
  · rintro never result n ⟨depth, ends⟩
    rw [never depth] at ends
    cases result <;> cases ends
  · intro never depth
    cases ends : x depth with
    | value v n => exact absurd ⟨depth, ends⟩ (never (.ok v) n)
    | fault f n => exact absurd ⟨depth, ends⟩ (never (.error f) n)
    | unfinished => rfl

end CellLisp
