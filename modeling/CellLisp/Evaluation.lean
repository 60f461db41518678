import CellLisp.Builtin.Rules
import CellLisp.Evaluation.Form

/-!
Evaluation of values as code. Numbers, booleans and lambdas stand for themselves, a string for
what it is bound to, and a cell is a form: a head applied to the list after it.

One level of evaluation is a function of `rec`, which evaluates what lies inside. Iterating it
gives evaluation to any depth of nesting.
-/

namespace CellLisp

namespace Evaluation

variable (rec : Value → Eval Value)

/-- Applies a head to the list of its arguments. A keyword comes first, then a builtin; both go by
the name of the head, whatever it is bound to. -/
def apply (head rest : Value) : Eval Value := do
  let args ← Eval.items rest
  match head.name? with
  | some name =>
    if name ∈ Keyword.names then keywordForm rec name args
    else
      let values ← evalEach rec args
      if name ∈ Builtin.names then Builtin.call name values else callHead rec head values
  | none =>
    let values ← evalEach rec args
    callHead rec head values

/-- One level of evaluation. -/
def step (v : Value) : Eval Value :=
  match v with
  | .number _ | .boolean _ | .lambda _ => return v
  | .string name => Eval.lookup name
  | .nil => Eval.fail (.evaluation .emptyApplication)
  | .cons c => do
    let head ← Eval.read (·.car c)
    let rest ← Eval.read (·.cdr c)
    apply rec head rest

end Evaluation

/-- Evaluation that is unfinished where it would nest more than `depth` levels. -/
def eval : Nat → Value → Eval Value
  | 0, _ => Eval.unfinished
  | depth + 1, v => Evaluation.step (eval depth) v

end CellLisp
