import CellLisp.Evaluation.Call
import CellLisp.Keyword

/-!
The forms that keywords make. They see their arguments unevaluated, and evaluate what they need by
`rec`.
-/

namespace CellLisp.Evaluation

variable (rec : Value → Eval Value)

def malformed (form : String) (why : Malformation) : Fault :=
  .evaluation (.malformedArguments form why)

def evalBlock (statements : List Value) : Eval Value := do
  let inner ← Eval.update (·.newScope .empty)
  Eval.push inner
  let result ← Eval.attempt (evalStatements rec statements)
  let _ ← Eval.pop
  Eval.ofExcept result

def evalIf (condition yes no : Value) : Eval Value := do
  match ← rec condition with
  | .boolean true => rec yes
  | .boolean false => rec no
  | v => Eval.fail (.evaluation (.nonBooleanCondition (← Eval.shown v)))

def parameterNames : List Value → Eval (List String)
  | [] => return []
  | .string s :: vs => return s :: (← parameterNames vs)
  | v :: _ => do Eval.fail (malformed "lambda" (.parameterNotName (← Eval.shown v)))

def parameters (v : Value) : Eval (List String) := do
  match ← Eval.read (·.chain v) with
  | .proper vs => parameterNames vs
  | .improper => Eval.fail (malformed "lambda" (.parametersNotList (← Eval.shown v)))
  | .endless => Eval.unfinished

/-- A new lambda with an empty scope. -/
def makeLambda (params body : Value) : Eval Value := do
  let names ← parameters params
  let scope ← Eval.update (·.newScope .empty)
  let l ← Eval.update (·.newLambda ⟨names, body, scope⟩)
  return .lambda l

/-- Evaluates an expression and gives its value to a name. -/
def evalBinding (form : String) (bind : String → Value → Eval Unit) (target expr : Value) :
    Eval Value := do
  match target with
  | .string name =>
    let v ← rec expr
    bind name v
    return v
  | v => Eval.fail (malformed form (.notName (← Eval.shown v)))

/-- The `X` of a value `(quote X)`. -/
def quotation? (v : Value) : Eval (Option Value) := do
  match ← Eval.read (·.afterHead? "quote" v) with
  | some rest =>
    match ← Eval.read (·.chain rest) with
    | .proper [x] => return some x
    | .proper _ | .improper => return none
    | .endless => Eval.unfinished
  | none => return none

def evalQuoted (argument : Value) : Eval Value := do
  match ← quotation? argument with
  | some code => rec code
  | none => Eval.fail (.evaluation (.malformedEval (← Eval.shown argument)))

/-- The form of a keyword, given its arguments as they stand. -/
def keywordForm (keyword : String) (args : List Value) : Eval Value :=
  let arity (expected : Nat) : Eval Value := Eval.fail (arityFault keyword expected args.length)
  match Keyword.named? keyword with
  | some .quote =>
    match args with
    | [x] => return x
    | _ => arity 1
  | some .block => evalBlock rec args
  | some .conditional =>
    match args with
    | [condition, yes, no] => evalIf rec condition yes no
    | _ => arity 3
  | some .list => do
    let values ← evalEach rec args
    Eval.update (·.list values)
  | some .lambda =>
    match args with
    | [params, body] => makeLambda params body
    | _ => arity 2
  | some .assign =>
    match args with
    | [target, expr] => evalBinding rec keyword Eval.assign target expr
    | _ => arity 2
  | some .define =>
    match args with
    | [target, expr] => evalBinding rec keyword Eval.define target expr
    | _ => arity 2
  | some .eval =>
    match args with
    | [argument] => evalQuoted rec argument
    | _ => arity 1
  | none => Eval.fail (.internal (.noRule keyword))

end CellLisp.Evaluation
