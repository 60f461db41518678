import CellLisp.Proofs.Simple

/-!
# Computations made of single operations

What a step of a process carries out is made of computations on cells, of reading lambdas, of making
lambdas and scopes, and of moving the stack: it evaluates nothing. Apart from two kinds of step it
does not look a name up or assign to it either, and no fault that it ends with is one of a text. So
whatever holds of the single operations and goes through sequences holds of all of these
computations.
-/

namespace CellLisp

variable {α : Type}

/-- If this is a fault, then it is not one of a text. -/
def Untextual (result : Except Fault α) : Prop := ∀ f, result = .error f → ¬f.Textual

theorem untextual_ok (a : α) : Untextual (.ok a : Except Fault α) := nofun

theorem untextual_error {f : Fault} (other : ¬f.Textual) :
    Untextual (.error f : Except Fault α) := by
  intro g same
  cases same
  exact other

namespace Eval

/-- The computation is a sequence of single operations. -/
inductive Plain : {α : Type} → Eval α → Prop
  | simple {α : Type} {x : Eval α} (simple : x.Simple) : Plain x
  | fail {α : Type} {f : Fault} (other : ¬f.Textual) : Plain (fail f : Eval α)
  | lambda (l : LambdaId) : Plain (read (·.lambda l))
  | newLambda (f : Lambda) : Plain (update (·.newLambda f))
  | setLambdaScope (l : LambdaId) (i : ScopeId) : Plain (modify (·.setLambdaScope l i))
  | newScope (content : Scope) : Plain (update (·.newScope content))
  | push (i : ScopeId) : Plain (push i)
  | pop : Plain pop
  | define (name : String) (v : Value) : Plain (define name v)
  | bind {α β : Type} {x : Eval α} {f : α → Eval β} (first : Plain x) (second : ∀ a, Plain (f a)) :
    Plain (x >>= f)

theorem plain_pure (a : α) : Plain (pure a : Eval α) := .simple (.pure a)

theorem plain_ofExcept {result : Except Fault α} (untextual : Untextual result) :
    Plain (ofExcept result) := by
  cases result with
  | ok a => exact plain_pure a
  | error f => exact .fail (untextual f rfl)

end Eval

open Eval

theorem Builtin.call_of_unknown {name : String} (unknown : name ∉ names) (args : List Value) :
    call name args = Eval.fail (.internal (.noBuiltin name)) := by
  have unnamed : Builtin.named? name = none := by
    rw [Option.eq_none_iff_forall_ne_some]
    intro b found
    exact unknown (mem_names_iff.mpr ⟨b, found⟩)
  unfold call
  rw [unnamed]

namespace Evaluation

theorem plain_newLambda (names : List String) (body : Value) : (newLambda names body).Plain :=
  (Plain.newScope _).bind fun _ => (Plain.newLambda _).bind fun _ => plain_pure _

theorem plain_adopt (v : Value) (i : ScopeId) : (adopt v i).Plain := by
  cases v with
  | lambda l => exact .setLambdaScope l i
  | number | string | boolean | nil | cons => exact plain_pure _

end Evaluation

namespace Region

open Eval

theorem plain_openBlock : openBlock.Plain :=
  (Plain.newScope _).bind fun inner => (Plain.push inner).bind fun _ => plain_pure _

theorem plain_openCall (l : LambdaId) (args : List Value) : (openCall l args).Plain := by
  apply (Plain.lambda l).bind
  intro f
  split
  · exact .fail id
  · exact (Plain.newScope _).bind fun locals => (Plain.push _).bind fun _ =>
      (Plain.push locals).bind fun _ => plain_pure _

/-- Leaving a region passes on the result that it is left with. -/
theorem plain_leave (r : Region) {result : Except Fault Value} (untextual : Untextual result) :
    (r.leave result).Plain := by
  have final := plain_ofExcept untextual
  cases r with
  | block inner => exact Plain.pop.bind fun _ => final
  | call callee locals owned =>
    exact Plain.pop.bind fun used => Plain.pop.bind fun owned => final.bind fun v =>
      (Evaluation.plain_adopt v used).bind fun _ =>
        (Plain.setLambdaScope callee owned).bind fun _ => plain_pure v

end Region

end CellLisp
