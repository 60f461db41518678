import CellLisp.Proofs.Arithmetic
import CellLisp.Proofs.Atomicity
import CellLisp.Proofs.Outcome

/-!
# The evaluator raises no fault of its own

A keyword has its rule and a builtin is found by its name, because both are asked for only where the
name is known. A builtin is entered only with as many arguments as it admits, so none of those that
it looks at is missing. What is left is the stack: a scope is taken off only where one was put on.
So an evaluation that starts with a scope to work in leaves the stack as it was and raises no fault
of the evaluator itself, whatever the value and whatever is in the store.
-/

namespace CellLisp

variable {m n : Machine}

/-- The outcome has the stack that it should have, and it is no fault of the evaluator itself. -/
inductive Outcome.Orderly {α : Type} (stack : List ScopeId) : Outcome α → Prop
  | value (a : α) {m : Machine} (same : m.stack = stack) : Orderly stack (.value a m)
  | fault {f : Fault} {m : Machine} (same : m.stack = stack) (other : ¬f.Internal) :
    Orderly stack (.fault f m)
  | unfinished : Orderly stack .unfinished

namespace Eval

variable {α β : Type}

/-- What reads values and makes cells needs no scope to work in. -/
theorem Simple.orderly {x : Eval α} (simple : x.Simple) (m : Machine) : (x m).Orderly m.stack := by
  have same := simple.onCells (m := m) rfl fun _ => rfl
  generalize x m = outcome at same ⊢
  cases same with
  | value a cells => exact .value a rfl
  | fault ofProgram cells => exact .fault rfl ofProgram.not_internal
  | unfinished => exact .unfinished

/-- With a scope to work in, the computation leaves the stack as it was and raises no fault of the
evaluator itself. -/
def Orderly (x : Eval α) : Prop := ∀ m, m.stack ≠ [] → (x m).Orderly m.stack

theorem Orderly.bind {x : Eval α} {f : α → Eval β} (first : x.Orderly)
    (second : ∀ a, (f a).Orderly) : (x >>= f).Orderly := by
  intro m entered
  change (Eval.bind x f m).Orderly m.stack
  unfold Eval.bind
  have before := first m entered
  generalize x m = outcome at before
  cases before with
  | @value a k same =>
    rw [← same]
    exact second a k (by rwa [same])
  | fault same other => exact .fault same other
  | unfinished => exact .unfinished

theorem orderly_lookup (name : String) : (lookup name).Orderly := by
  intro m _
  unfold lookup
  cases m.lookup? name with
  | some v => exact .value v rfl
  | none => exact .fault rfl id

theorem orderly_assign (name : String) (v : Value) : (assign name v).Orderly := by
  intro m _
  unfold assign Machine.assign?
  cases m.binder? name with
  | some i => exact .value () rfl
  | none => exact .fault rfl id

theorem orderly_define (name : String) (v : Value) : (define name v).Orderly := by
  intro m entered
  obtain ⟨i, rest, stack⟩ := List.exists_cons_of_ne_nil entered
  unfold define Machine.define?
  rw [stack]
  exact .value () rfl

end Eval

theorem Region.orderly_conclude (r : Region) {stack above : List ScopeId} {o : Outcome Value}
    (orderly : o.Orderly above) : (r.conclude stack o).Orderly stack := by
  cases orderly with
  | value v _ => exact .value v rfl
  | fault _ other => exact .fault rfl other
  | unfinished => exact .unfinished

theorem Eval.compositional_orderly : Compositional @Orderly where
  simple simple m _ := simple.orderly m
  bind first second := first.bind second
  lookup := orderly_lookup
  assign := orderly_assign
  define := orderly_define
  newLambda names body := fun m _ => .value _ rfl
  block depth statements inner := by
    intro m _
    rw [Evaluation.evalBlock_outcome]
    exact Region.orderly_conclude _ (inner m.opened (List.cons_ne_nil _ _))
  call depth l args inner := by
    intro m _
    by_cases arity : (m.store.lambda l).params.length = args.length
    · rw [Evaluation.call_outcome arity]
      exact Region.orderly_conclude _ (inner _ (m.called l args) (List.cons_ne_nil _ _))
    · rw [Evaluation.call_eq_callBy, Evaluation.callBy_of_arity_ne arity]
      exact .fault rfl id

theorem Outcome.Orderly.not_internal {α : Type} {o : Outcome α} {f : Fault} {stack : List ScopeId}
    (orderly : o.Orderly stack) (raised : o = .fault f n) : ¬f.Internal := by
  rw [raised] at orderly
  cases orderly with
  | fault _ other => exact other

namespace Session

variable {depth : Nat}

theorem orderly_ofExcept {α : Type} {result : Except Fault α}
    (other : ∀ f, result = .error f → ¬f.Internal) : (Eval.ofExcept result).Orderly := by
  cases result with
  | ok a => exact fun _ _ => .value a rfl
  | error f => exact fun _ _ => .fault rfl (other f rfl)

theorem orderly_readForm (n : Node) : (readForm n).Orderly := by
  have read : ∀ f, (Datum.ofNode false n).mapError Fault.syntactic = .error f → ¬f.Internal := by
    cases Datum.ofNode false n with
    | ok d => nofun
    | error g =>
      rintro _ ⟨⟩
      exact id
  exact (orderly_ofExcept read).bind fun d => fun _ _ => .value _ rfl

theorem orderly_runForms (last : Option Value) (ns : List Node) :
    (runForms depth last ns).Orderly := by
  induction ns generalizing last with
  | nil => exact fun _ _ => .value last rfl
  | cons n ns ih =>
    exact (orderly_readForm n).bind fun form =>
      (Eval.compositional_orderly.evaluation depth form).bind fun v => ih (some v)

theorem orderly_run (depth : Nat) (source : String) : (run depth source).Orderly := by
  have read : ∀ f, Source.nodes source = .error f → ¬f.Internal := by
    intro f refused
    rcases Source.nodes_eq source with ⟨g, lexical⟩ | ⟨ts, same⟩
    · cases lexical.symm.trans refused
      exact id
    · rw [same] at refused
      cases parsed : Node.ofTokens ts with
      | ok ns =>
        rw [parsed] at refused
        cases refused
      | error g =>
        rw [parsed] at refused
        cases refused
        exact id
  exact (orderly_ofExcept read).bind fun ns => orderly_runForms none ns

/-- The machines that a host can come to, which runs texts and evaluates values. It may have made
cells and lambdas for the values in any way it likes. -/
inductive Visited : Machine → Prop
  | initial : Visited Machine.initial
  | run {m n : Machine} (before : Visited m) (depth : Nat) (source : String)
    (left : (run depth source m).machine? = some n) : Visited n
  | eval {m n : Machine} (before : Visited m) (depth : Nat) (v : Value)
    (left : (eval depth v m).machine? = some n) : Visited n
  | host {m : Machine} (before : Visited m) (s : Store) : Visited ⟨s, m.stack⟩

theorem Visited.stack (visited : Visited m) : m.stack = [globalScope] := by
  induction visited with
  | initial => rfl
  | run before depth source left ih => rw [run_stack left, ih]
  | eval before depth v left ih => rw [eval_stack left, ih]
  | host before s ih => exact ih

theorem Visited.entered (visited : Visited m) : m.stack ≠ [] := by
  rw [visited.stack]
  exact List.cons_ne_nil _ _

end Session

/-- No fault of the evaluator itself comes of an evaluation or a run, or of a builtin with as many
arguments as it admits; and no step of integer arithmetic that lacks a check needs one. -/
theorem no_internal_fault :
    (∀ m, Session.Visited m →
      (∀ depth v f n, eval depth v m = .fault f n → ¬f.Internal) ∧
      ∀ depth source f n, Session.run depth source m = .fault f n → ¬f.Internal) ∧
    (∀ (b : Builtin) (args : List Value), b.arity.admits args.length = true →
      ∀ m f n, b.rule args m = .fault f n → ¬f.Internal) ∧
    (∀ a b q, Checked.div a b = some q → Checked.rem a b = some (a % b) ∧
      (a % b ≠ 0 → Checked.crosses a b = true → Checked.sub q 1 = some (q - 1))) ∧
    ∀ a b, b ≠ 0 → b ≠ -1 → Checked.rem a b = some (a % b) ∧
      (a % b ≠ 0 → Checked.crosses (a % b) b = true →
        Checked.add (a % b) b = some (a % b + b)) := by
  refine ⟨fun m visited => ⟨fun depth v f n => ?_, fun depth source f n => ?_⟩,
    fun b args enough m f n => ?_, Checked.unchecked_steps⟩
  · exact (Eval.compositional_orderly.evaluation depth v m visited.entered).not_internal
  · exact (Session.orderly_run depth source m visited.entered).not_internal
  · exact ((Builtin.simple_rule b enough).orderly m).not_internal

/-- A first machine whose host made the improper list `(f . 1)`. -/
def improperCall : Machine :=
  ⟨(Machine.initial.store.cons (.string "f") (.int 1)).2, Machine.initial.stack⟩

theorem no_internal_fault_in_improper_call :
    (∃ n, eval 2 (.cons ⟨0⟩) improperCall = .fault (.evaluation .malformedList) n ∧
      ¬(Fault.evaluation .malformedList).Internal) ∧
    (∃ n, Session.run 9 "(car 1)" improperCall =
        .fault (.builtin (.type "car" .cell .number)) n ∧
      ¬(Fault.builtin (.type "car" .cell .number)).Internal) ∧
    (∃ n, Builtin.car.rule [.nil] improperCall = .fault (.builtin (.type "car" .cell .nil)) n ∧
      ¬(Fault.builtin (.type "car" .cell .nil)).Internal) ∧
    Checked.div (-7) 2 = some (-3) ∧ Checked.rem (-7) 2 = some (-1) ∧
    Checked.sub (-3) 1 = some (-4) ∧ Checked.rem 7 (-2) = some 1 ∧
    Checked.add 1 (-2) = some (-1) := by
  obtain ⟨visited, rules, divides, remains⟩ := no_internal_fault
  have start : Session.Visited improperCall := .host .initial _
  obtain ⟨n, evaluated⟩ := Outcome.exists_of_fault? (by decide +kernel :
    (eval 2 (.cons ⟨0⟩) improperCall).fault? = some (.evaluation .malformedList))
  obtain ⟨k, ran⟩ := Outcome.exists_of_fault? (by decide +kernel :
    (Session.run 9 "(car 1)" improperCall).fault? = some (.builtin (.type "car" .cell .number)))
  obtain ⟨l, raised⟩ := Outcome.exists_of_fault? (by decide +kernel :
    (Builtin.car.rule [.nil] improperCall).fault? = some (.builtin (.type "car" .cell .nil)))
  have quotient : Checked.div (-7) 2 = some (-3) := by decide
  obtain ⟨rem, sub⟩ := divides (-7) 2 (-3) quotient
  obtain ⟨remNegative, add⟩ := remains 7 (-2) (by decide) (by decide)
  exact ⟨⟨n, evaluated, (visited _ start).1 2 _ _ n evaluated⟩,
    ⟨k, ran, (visited _ start).2 9 _ _ k ran⟩,
    ⟨l, raised, rules .car [.nil] (by decide) _ _ l raised⟩,
    quotient, rem, sub (by decide) (by decide), remNegative, add (by decide) (by decide)⟩

end CellLisp
