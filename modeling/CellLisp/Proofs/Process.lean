import CellLisp.Evaluation
import Mathlib.Logic.Relation

/-!
# Evaluation as a process

An evaluation taken point by point: what is done now, what waits for its result, and the machine.
The process passes through the same points whether the evaluation ends with a value, ends with a
fault or never ends, so what holds at every point inside an evaluation is a statement about it.
-/

namespace CellLisp

/-- What the values of arguments are for, once all of them are there. -/
inductive Use where
  | list
  | builtin (name : String)
  | call (head : Value)

/-- A block or a call that was entered and is not left yet, with the scopes that it put on the
stack. A call owns none of them: `owned` is the scope that its lambda had when the call began. -/
inductive Region where
  | block (inner : ScopeId)
  | call (callee : LambdaId) (locals owned : ScopeId)
  deriving DecidableEq, Repr

/-- What waits for a result. -/
inductive Frame where
  | argument (use : Use) (ready rest : List Value)
  | callee (args : List Value)
  | statement (rest : List Value)
  | branch (yes no : Value)
  | assignment (name : String)
  | definition (name : String)
  | region (r : Region)

/-- What is done now. -/
inductive Focus where
  | code (v : Value)
  | supplied (use : Use) (values : List Value)
  | call (callee : LambdaId) (args : List Value)
  | body (v : Value)
  | done (result : Except Fault Value)

structure Process where
  focus : Focus
  frames : List Frame
  machine : Machine

namespace Region

open Evaluation

def openBlock : Eval Region := do
  let inner ← Eval.update (·.newScope .empty)
  Eval.push inner
  return block inner

/-- Enters a call, for the body that is to run. -/
def openCall (l : LambdaId) (args : List Value) : Eval (Value × Region) := do
  let f ← Eval.read (·.lambda l)
  if f.params.length ≠ args.length then
    Eval.fail (arityFault ("lambda " ++ parameterText f.params) f.params.length args.length)
  else
    let locals ← Eval.update (·.newScope (Scope.ofArguments f.params args))
    Eval.push f.scope
    Eval.push locals
    return (f.body, call l locals f.scope)

/-- Leaves a region with the result of what ran in it. -/
def leave : Region → Except Fault Value → Eval Value
  | block _, result => do
    let _ ← Eval.pop
    Eval.ofExcept result
  | call callee _ _, result => do
    let used ← Eval.pop
    let owned ← Eval.pop
    let v ← Eval.ofExcept result
    adopt v used
    Eval.modify (·.setLambdaScope callee owned)
    return v

end Region

namespace Process

open Evaluation

variable {α : Type} (frames : List Frame)

def goOn (focus : Focus) : Machine → Option Process := fun m => some ⟨focus, frames, m⟩

/-- Ends what is done now with a value. -/
def yield (v : Value) : Machine → Option Process := goOn frames (.done (.ok v))

/-- Carries out a computation that evaluates nothing. If it never ends, there is no next point. -/
def perform (x : Eval α) (k : α → Machine → Option Process) : Machine → Option Process := fun m =>
  match x m with
  | .value a m => k a m
  | .fault f m => some ⟨.done (.error f), frames, m⟩
  | .unfinished => none

/-- Refuses a value, which the fault shows. -/
def reject (v : Value) (cause : String → Fault) : Eval α := do Eval.fail (cause (← Eval.shown v))

def supply (use : Use) (ready : List Value) : List Value → Machine → Option Process
  | [] => goOn frames (.supplied use ready)
  | v :: rest => goOn (.argument use ready rest :: frames) (.code v)

def sequence : List Value → Machine → Option Process
  | [] => perform frames (Eval.fail (.evaluation .emptyBlock)) (yield frames)
  | [v] => goOn frames (.code v)
  | v :: rest => goOn (.statement rest :: frames) (.code v)

def choose (yes no : Value) : Value → Machine → Option Process
  | .boolean true => goOn frames (.code yes)
  | .boolean false => goOn frames (.code no)
  | v =>
    perform frames (reject v fun text => .evaluation (.nonBooleanCondition text)) (yield frames)

def binding (form : String) (frame : String → Frame) (target expr : Value) :
    Machine → Option Process :=
  match target with
  | .string name => goOn (frame name :: frames) (.code expr)
  | v => perform frames (reject v fun text => malformed form (.notName text)) (yield frames)

/-- The code in the argument of an `eval` form. -/
def quotedCode (argument : Value) : Eval Value := do
  match ← quotation? argument with
  | some code => return code
  | none => reject argument fun text => .evaluation (.malformedEval text)

def keywordForm (keyword : String) (args : List Value) : Machine → Option Process :=
  let arity (expected : Nat) : Machine → Option Process :=
    perform frames (Eval.fail (arityFault keyword expected args.length)) (yield frames)
  match Keyword.named? keyword with
  | some .quote =>
    match args with
    | [x] => yield frames x
    | _ => arity 1
  | some .block => perform frames Region.openBlock fun r => sequence (.region r :: frames) args
  | some .conditional =>
    match args with
    | [condition, yes, no] => goOn (.branch yes no :: frames) (.code condition)
    | _ => arity 3
  | some .list => supply frames .list [] args
  | some .lambda =>
    match args with
    | [params, body] => perform frames (makeLambda params body) (yield frames)
    | _ => arity 2
  | some .assign =>
    match args with
    | [target, expr] => binding frames keyword .assignment target expr
    | _ => arity 2
  | some .define =>
    match args with
    | [target, expr] => binding frames keyword .definition target expr
    | _ => arity 2
  | some .eval =>
    match args with
    | [argument] => perform frames (quotedCode argument) fun code => goOn frames (.code code)
    | _ => arity 1
  | none => perform frames (Eval.fail (.internal (.noRule keyword))) (yield frames)

def form (head : Value) (args : List Value) : Machine → Option Process :=
  match head.name? with
  | some name =>
    if name ∈ Keyword.names then keywordForm frames name args
    else if name ∈ Builtin.names then supply frames (.builtin name) [] args
    else supply frames (.call head) [] args
  | none => supply frames (.call head) [] args

def evaluate : Value → Machine → Option Process
  | .cons c => fun m => perform frames (Eval.items (m.store.cdr c)) (form frames (m.store.car c)) m
  | .string name => perform frames (Eval.lookup name) (yield frames)
  | .nil => perform frames (Eval.fail (.evaluation .emptyApplication)) (yield frames)
  | v => yield frames v

def useValues : Use → List Value → Machine → Option Process
  | .list, values => perform frames (Eval.update (·.list values)) (yield frames)
  | .builtin name, values => perform frames (Builtin.call name values) (yield frames)
  | .call head, values => goOn (.callee values :: frames) (.code head)

/-- Applies what a head evaluated to. -/
def applyTo (args : List Value) : Value → Machine → Option Process
  | .lambda l => goOn frames (.call l args)
  | v => perform frames (reject v fun text => .evaluation (.notCallable text)) (yield frames)

def runBody (body : Value) : Machine → Option Process := fun m =>
  match m.store.afterHead? "block" body with
  | some statements => perform frames (Eval.items statements) (sequence frames) m
  | none => goOn frames (.code body) m

/-- Hands a result to the frame that waits for it. -/
def resume : Frame → Except Fault Value → Machine → Option Process
  | .region r, result => perform frames (r.leave result) (yield frames)
  | .argument use ready rest, .ok v => supply frames use (ready ++ [v]) rest
  | .callee args, .ok v => applyTo frames args v
  | .statement rest, .ok _ => sequence frames rest
  | .branch yes no, .ok v => choose frames yes no v
  | .assignment name, .ok v => perform frames (do Eval.assign name v; return v) (yield frames)
  | .definition name, .ok v => perform frames (do Eval.define name v; return v) (yield frames)
  | _, .error f => goOn frames (.done (.error f))

/-- The next point, if there is one. -/
def next (p : Process) : Option Process :=
  match p.focus with
  | .code v => evaluate p.frames v p.machine
  | .supplied use values => useValues p.frames use values p.machine
  | .call l args =>
    perform p.frames (Region.openCall l args)
      (fun e => goOn (.region e.2 :: p.frames) (.body e.1)) p.machine
  | .body v => runBody p.frames v p.machine
  | .done result =>
    match p.frames with
    | [] => none
    | frame :: frames => resume frames frame result p.machine

theorem of_perform {frames : List Frame} {x : Eval α} {k : α → Machine → Option Process}
    {m : Machine} {q : Process} (found : perform frames x k m = some q) :
    (∃ a n, x m = .value a n ∧ k a n = some q) ∨
      ∃ f n, x m = .fault f n ∧ q = ⟨.done (.error f), frames, n⟩ := by
  unfold perform at found
  cases outcome : x m with
  | value a n =>
    rw [outcome] at found
    exact .inl ⟨a, n, rfl, found⟩
  | fault f n =>
    rw [outcome] at found
    cases found
    exact .inr ⟨f, n, rfl, rfl⟩
  | unfinished =>
    rw [outcome] at found
    cases found

/-- The point after so many steps, if the process goes on for that long. -/
def after : Nat → Process → Option Process
  | 0, p => some p
  | n + 1, p => p.next.bind (after n)

/-- One process is a later point of another, or the same. -/
def Leads : Process → Process → Prop := Relation.ReflTransGen fun p q => p.next = some q

variable {p q t : Process}

theorem leads_of_after {n : Nat} (found : after n p = some q) : Leads p q := by
  induction n generalizing p with
  | zero =>
    cases found
    exact .refl
  | succ n ih =>
    obtain ⟨p', step, later⟩ := Option.bind_eq_some_iff.mp found
    exact .head step (ih later)

theorem after_add (k n : Nat) (p : Process) : after (k + n) p = (after k p).bind (after n) := by
  induction k generalizing p with
  | zero => rw [Nat.zero_add]; rfl
  | succ k ih =>
    rw [Nat.succ_add, after, after, Option.bind_assoc]
    exact congrArg (Option.bind p.next) (funext ih)

theorem Leads.exists_after (leads : Leads p q) : ∃ n, after n p = some q := by
  induction leads with
  | refl => exact ⟨0, rfl⟩
  | tail _ step ih =>
    obtain ⟨n, found⟩ := ih
    refine ⟨n + 1, ?_⟩
    rw [after_add, found, Option.bind_some, after, step]
    rfl

/-- There is one run from each point, so of two points on it one leads to the other. -/
theorem Leads.compare (first : Leads p q) (second : Leads p t) : Leads q t ∨ Leads t q :=
  first.total_of_right_unique
    (fun _ _ _ next other => Option.some.inj (next.symm.trans other)) second

/-- Every point of a run that ends leads to its end. -/
theorem Leads.onward (first : Leads p q) (whole : Leads p t) (ended : t.next = none) :
    Leads q t := by
  rcases first.compare whole with onward | back
  · exact onward
  · rcases back.cases_head with rfl | ⟨t', step, _⟩
    · exact .refl
    · rw [ended] at step
      cases step

theorem Leads.unique (first : Leads p q) (second : Leads p t) (ended : q.next = none)
    (halted : t.next = none) : q = t := by
  rcases (first.onward second halted).cases_head with same | ⟨q', step, _⟩
  · exact same
  · rw [ended] at step
    cases step

end Process

end CellLisp
