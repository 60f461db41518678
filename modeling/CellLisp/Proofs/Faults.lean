import CellLisp.Proofs.Compositional
import CellLisp.Proofs.Plain
import CellLisp.Proofs.Process.Simulation

/-!
# Evaluation raises no fault of a text

A text is refused for its characters or its parentheses and quote marks before any of it is
evaluated. What evaluation itself raises are faults of other kinds, whatever it evaluates.
-/

namespace CellLisp

namespace Eval

variable {α β : Type}

/-- The computation raises no fault of a text. -/
def Untextual (x : Eval α) : Prop := ∀ m f n, x m = .fault f n → ¬f.Textual

theorem untextual_pure (a : α) : Untextual (pure a : Eval α) := nofun

theorem untextual_fail {f : Fault} (other : ¬f.Textual) : Untextual (fail f : Eval α) := by
  intro m g n raised
  cases raised
  exact other

theorem untextual_read (f : Store → α) : Untextual (read f) := nofun

theorem untextual_update (f : Store → α × Store) : Untextual (update f) := nofun

theorem Untextual.bind {x : Eval α} {f : α → Eval β} (first : Untextual x)
    (second : ∀ a, Untextual (f a)) : Untextual (x >>= f) := by
  intro m e n raised
  change Eval.bind x f m = .fault e n at raised
  unfold Eval.bind at raised
  cases outcome : x m with
  | value a k =>
    rw [outcome] at raised
    exact second a k e n raised
  | fault g k =>
    rw [outcome] at raised
    cases raised
    exact first m e n outcome
  | unfinished =>
    rw [outcome] at raised
    cases raised

/-- What is done in any case may raise the fault that was met before. -/
theorem Untextual.attempt_bind {x : Eval α} {f : Except Fault α → Eval β} (first : Untextual x)
    (second : ∀ result, CellLisp.Untextual result → Untextual (f result)) :
    Untextual (attempt x >>= f) := by
  intro m e n raised
  change Eval.bind (attempt x) f m = .fault e n at raised
  unfold Eval.bind attempt at raised
  cases outcome : x m with
  | value a k =>
    rw [outcome] at raised
    exact second _ (untextual_ok a) k e n raised
  | fault g k =>
    rw [outcome] at raised
    exact second _ (untextual_error (first m g k outcome)) k e n raised
  | unfinished =>
    rw [outcome] at raised
    cases raised

theorem untextual_lookup (name : String) : Untextual (lookup name) := by
  intro m f n raised
  unfold lookup at raised
  split at raised <;> cases raised
  exact id

theorem untextual_assign (name : String) (v : Value) : Untextual (assign name v) := by
  intro m f n raised
  unfold assign at raised
  split at raised <;> cases raised
  exact id

theorem Simple.untextual {x : Eval α} (simple : x.Simple) : x.Untextual := by
  intro m f n raised
  have same := simple.onCells (m := m) rfl fun _ => rfl
  rw [raised] at same
  cases same with
  | fault ofProgram _ => exact ofProgram.not_textual

/-- Single operations raise no such fault, and so their sequences do not. -/
theorem Plain.untextual {x : Eval α} (plain : x.Plain) : x.Untextual := by
  induction plain with
  | simple simple => exact simple.untextual
  | fail other => exact untextual_fail other
  | bind first second ihFirst ihSecond => exact ihFirst.bind ihSecond
  | pop =>
    intro m f n raised
    unfold Eval.pop at raised
    split at raised <;> cases raised
    exact id
  | define name v =>
    intro m f n raised
    unfold Eval.define at raised
    split at raised <;> cases raised
    exact id
  | lambda => exact untextual_read _
  | newLambda | setLambdaScope | newScope => exact untextual_update _
  | push => exact nofun

end Eval

theorem Eval.compositional_untextual : Compositional @Untextual where
  simple simple := simple.untextual
  bind first second := first.bind second
  lookup := untextual_lookup
  assign := untextual_assign
  define name v := (Plain.define name v).untextual
  newLambda names body := (Evaluation.plain_newLambda names body).untextual
  block depth statements inner := by
    rw [Evaluation.evalBlock_eq]
    exact Region.plain_openBlock.untextual.bind fun r =>
      inner.attempt_bind fun _ same => (r.plain_leave same).untextual
  call depth l args inner := by
    rw [Evaluation.call_eq]
    exact (Region.plain_openCall l args).untextual.bind fun e =>
      (inner e.1).attempt_bind fun _ same => (e.2.plain_leave same).untextual

/-- Whatever is evaluated, no fault of a text comes of it. -/
theorem untextual_eval (depth : Nat) (v : Value) : (eval depth v).Untextual :=
  Eval.compositional_untextual.evaluation depth v

end CellLisp
