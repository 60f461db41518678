import CellLisp.Evaluation
import CellLisp.Proofs.Simple

/-!
# Properties of evaluation by composition

Evaluation is put together from computations that read values and make cells, from uses of the
scopes, from blocks and from calls. A property of computations that all of these have, given that
what runs inside of a block or a call has it, and that goes through sequences, is a property of
every evaluation, to any depth and of any value.
-/

namespace CellLisp

open Eval Evaluation

/-- The property goes through everything that evaluation is put together from. -/
structure Compositional (Q : ∀ {α : Type}, Eval α → Prop) : Prop where
  simple : ∀ {α : Type} {x : Eval α}, x.Simple → Q x
  bind : ∀ {α β : Type} {x : Eval α} {f : α → Eval β}, Q x → (∀ a, Q (f a)) → Q (x >>= f)
  lookup : ∀ name, Q (lookup name)
  assign : ∀ name v, Q (assign name v)
  define : ∀ name v, Q (define name v)
  newLambda : ∀ names body, Q (newLambda names body)
  block : ∀ depth statements, Q (evalStatements (eval depth) statements) →
    Q (evalBlock (eval depth) statements)
  call : ∀ depth l args, (∀ body, Q (runBody (eval depth) body)) → Q (call (eval depth) l args)

namespace Compositional

variable {Q : ∀ {α : Type}, Eval α → Prop} (compositional : Compositional Q) {depth : Nat}
  (inner : ∀ v, Q (eval depth v))

include compositional

theorem reject {α : Type} (v : Value) {cause : String → Fault}
    (each : ∀ text, (cause text).OfProgram) : Q (Process.reject v cause : Eval α) :=
  compositional.simple (simple_reject v each)

theorem closure (params body : Value) : Q (makeLambda params body) :=
  compositional.bind (compositional.simple (simple_parameters params)) fun names =>
    compositional.newLambda names body

/-! One level of evaluation, if what it evaluates inside has the property. -/

include inner

theorem forEach (vs : List Value) : Q (evalEach (eval depth) vs) := by
  induction vs with
  | nil => exact compositional.simple (.pure _)
  | cons v vs ih =>
    exact compositional.bind (inner v) fun _ => compositional.bind ih fun _ =>
      compositional.simple (.pure _)

theorem statements (vs : List Value) : Q (evalStatements (eval depth) vs) := by
  induction vs with
  | nil => exact compositional.simple (.fail trivial)
  | cons v vs ih =>
    cases vs with
    | nil => exact inner v
    | cons w vs => exact compositional.bind (inner v) fun _ => ih

theorem body (code : Value) : Q (runBody (eval depth) code) := by
  apply compositional.bind (compositional.simple (.afterHead? "block" code))
  intro after
  cases after with
  | none => exact inner code
  | some rest =>
    exact compositional.bind (compositional.simple (simple_items rest)) fun vs =>
      compositional.statements inner vs

theorem head (code : Value) (args : List Value) : Q (callHead (eval depth) code args) := by
  apply compositional.bind (inner code)
  intro v
  cases v with
  | lambda l => exact compositional.call depth l args (compositional.body inner)
  | number | string | boolean | nil | cons => exact compositional.reject _ fun _ => trivial

theorem conditional (condition yes no : Value) : Q (evalIf (eval depth) condition yes no) := by
  apply compositional.bind (inner condition)
  intro v
  cases v with
  | boolean b =>
    cases b with
    | true => exact inner yes
    | false => exact inner no
  | number | string | nil | cons | lambda => exact compositional.reject _ fun _ => trivial

theorem binding (form : String) {bind : String → Value → Eval Unit}
    (binds : ∀ name v, Q (bind name v)) (target expr : Value) :
    Q (evalBinding (eval depth) form bind target expr) := by
  cases target with
  | string name =>
    exact compositional.bind (inner expr) fun v => compositional.bind (binds name v) fun _ =>
      compositional.simple (.pure v)
  | number | boolean | nil | cons | lambda => exact compositional.reject _ fun _ => trivial

theorem quoted (argument : Value) : Q (evalQuoted (eval depth) argument) := by
  apply compositional.bind (compositional.simple (simple_quotation? argument))
  intro code
  cases code with
  | some code => exact inner code
  | none => exact compositional.reject argument fun _ => trivial

theorem keyword {name : String} (known : name ∈ Keyword.names) (args : List Value) :
    Q (keywordForm (eval depth) name args) := by
  have arity : ∀ expected, Q (fail (arityFault name expected args.length) : Eval Value) :=
    fun _ => compositional.simple (.fail trivial)
  obtain ⟨k, found⟩ := Keyword.mem_names_iff.mp known
  unfold keywordForm
  rw [found]
  cases k with
  | quote =>
    rcases args with _ | ⟨x, _ | ⟨_, _⟩⟩
    · exact arity 1
    · exact compositional.simple (.pure x)
    · exact arity 1
  | block => exact compositional.block depth args (compositional.statements inner args)
  | conditional =>
    rcases args with _ | ⟨condition, _ | ⟨yes, _ | ⟨no, _ | ⟨_, _⟩⟩⟩⟩
    · exact arity 3
    · exact arity 3
    · exact arity 3
    · exact compositional.conditional inner condition yes no
    · exact arity 3
  | list =>
    exact compositional.bind (compositional.forEach inner args) fun values =>
      compositional.simple (.list values)
  | lambda =>
    rcases args with _ | ⟨params, _ | ⟨code, _ | ⟨_, _⟩⟩⟩
    · exact arity 2
    · exact arity 2
    · exact compositional.closure params code
    · exact arity 2
  | assign =>
    rcases args with _ | ⟨target, _ | ⟨expr, _ | ⟨_, _⟩⟩⟩
    · exact arity 2
    · exact arity 2
    · exact compositional.binding inner name compositional.assign target expr
    · exact arity 2
  | define =>
    rcases args with _ | ⟨target, _ | ⟨expr, _ | ⟨_, _⟩⟩⟩
    · exact arity 2
    · exact arity 2
    · exact compositional.binding inner name compositional.define target expr
    · exact arity 2
  | eval =>
    rcases args with _ | ⟨argument, _ | ⟨_, _⟩⟩
    · exact arity 1
    · exact compositional.quoted inner argument
    · exact arity 1

theorem application (head rest : Value) : Q (apply (eval depth) head rest) := by
  apply compositional.bind (compositional.simple (simple_items rest))
  intro args
  have called : Q (evalEach (eval depth) args >>= callHead (eval depth) head) :=
    compositional.bind (compositional.forEach inner args) (compositional.head inner head)
  cases head.name? with
  | none => exact called
  | some name =>
    dsimp only
    split
    · next known => exact compositional.keyword inner known args
    · split
      · next known =>
        exact compositional.bind (compositional.forEach inner args) fun values =>
          compositional.simple (Builtin.simple_call known values)
      · exact called

theorem level (v : Value) : Q (step (eval depth) v) := by
  cases v with
  | number | boolean | lambda => exact compositional.simple (.pure _)
  | string name => exact compositional.lookup name
  | nil => exact compositional.simple (.fail trivial)
  | cons c =>
    exact compositional.bind (compositional.simple (.car c)) fun head =>
      compositional.bind (compositional.simple (.cdr c)) fun rest =>
        compositional.application inner head rest

omit inner

/-- What goes through everything that evaluation is put together from holds of evaluation. -/
theorem evaluation (depth : Nat) (v : Value) : Q (eval depth v) := by
  induction depth generalizing v with
  | zero => exact compositional.simple .unfinished
  | succ depth ih => exact compositional.level ih v

end Compositional

end CellLisp
