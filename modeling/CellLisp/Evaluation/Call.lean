import CellLisp.Eval

/-!
Calls of lambdas. Everything here is a function of `rec`, which evaluates what lies inside.
-/

namespace CellLisp.Evaluation

variable (rec : Value → Eval Value)

/-- Evaluates values from left to right. -/
def evalEach : List Value → Eval (List Value)
  | [] => return []
  | v :: vs => do
    let w ← rec v
    return w :: (← evalEach vs)

/-- Evaluates statements in the scope that is innermost, for the value of the last. -/
def evalStatements : List Value → Eval Value
  | [] => Eval.fail (.evaluation .emptyBlock)
  | [v] => rec v
  | v :: vs => do
    let _ ← rec v
    evalStatements vs

def arityFault (form : String) (expected got : Nat) : Fault :=
  .evaluation (.arity form expected got)

/-- The body of a call. The statements of a block run in the scope of the arguments itself, so that
what they define is local to the call. -/
def runBody (body : Value) : Eval Value := do
  match ← Eval.read (·.afterHead? "block" body) with
  | some statements => evalStatements rec (← Eval.items statements)
  | none => rec body

/-- Gives a scope to a value that is a lambda. -/
def adopt (v : Value) (i : ScopeId) : Eval Unit :=
  match v with
  | .lambda l => Eval.modify (·.setLambdaScope l i)
  | _ => return ()

/-- Calls a lambda. Its own scope is entered, and inside it a new scope that binds the parameters.
Both are left again in any case. If the body ends with a value, a lambda that is returned takes the
scope of the arguments, and then the one that was called takes back its own. -/
def call (l : LambdaId) (args : List Value) : Eval Value := do
  let f ← Eval.read (·.lambda l)
  if f.params.length ≠ args.length then
    Eval.fail (arityFault ("lambda " ++ parameterText f.params) f.params.length args.length)
  else
    let locals ← Eval.update (·.newScope (Scope.ofArguments f.params args))
    Eval.push f.scope
    Eval.push locals
    let result ← Eval.attempt (runBody rec f.body)
    let used ← Eval.pop
    let owned ← Eval.pop
    let v ← Eval.ofExcept result
    adopt v used
    Eval.modify (·.setLambdaScope l owned)
    return v

/-- Applies what a head evaluates to. -/
def callHead (head : Value) (args : List Value) : Eval Value := do
  match ← rec head with
  | .lambda l => call rec l args
  | v => Eval.fail (.evaluation (.notCallable (← Eval.shown v)))

end CellLisp.Evaluation
