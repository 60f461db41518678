import CellLisp.Proofs.Sound

/-!
# Disciplines

A discipline says which values programs may compute with and which they may run as code. Reading a
store that keeps to it gives such values again, and changing the store with such values keeps it.
All that evaluation does is made of these reads and changes, so an evaluation that begins within a
discipline stays within it.
-/

namespace CellLisp

/-- What a value is within code: in the singular an item, in the plural the rest of a list of such
items. Forms are evaluated; operands are the arguments of an `eval`; data are the arguments of a
`quote` that is not an operand, and all that programs compute with. -/
inductive Position where
  | form
  | forms
  | operand
  | operands
  | datum
  | data
  deriving DecidableEq, Repr

namespace Position

/-- What the car of a cell is. -/
def item : Position → Position
  | form | operand | forms => form
  | operands => operand
  | datum | data => datum

/-- What the cdr of a cell is, behind this car. -/
def rest : Position → Value → Position
  | form, head =>
    if head.name? = some "quote" then data
    else if head.name? = some "eval" then operands else forms
  | operand, head =>
    if head.name? = some "quote" then forms
    else if head.name? = some "eval" then operands else forms
  | r, _ => r

/-- The position is that of a list whose items are all of the same position. -/
def IsRest (r : Position) : Prop := ∀ head, r.rest head = r

theorem isRest_rest_form (head : Value) : (form.rest head).IsRest := by
  rw [rest]
  split
  · exact fun _ => rfl
  · split <;> exact fun _ => rfl

end Position

theorem Value.eq_string_of_name? {v : Value} {name : String} (named : v.name? = some name) :
    v = .string name := by
  cases v with
  | string s => rw [Option.some.inj named]
  | number | boolean | nil | cons | lambda => cases named

/-- An atom is no place of a store, and no name either. -/
def Value.Atomic : Value → Prop
  | string _ | cons _ | lambda _ => False
  | _ => True

structure Discipline where
  /-- Cells that exist may be changed. -/
  changing : Prop
  store : Store → Prop
  allows : Store → Position → Value → Prop
  scope : Store → ScopeId → Prop
  later : Store → Store → Prop
  refl (s : Store) : later s s
  trans {s t u : Store} : later s t → later t u → later s u
  allows_later {s t : Store} {r : Position} {v : Value} : later s t → allows s r v → allows t r v
  scope_later {s t : Store} {i : ScopeId} : later s t → scope s i → scope t i
  atom {s : Store} {v : Value} : v.Atomic → allows s .datum v
  lambda {s : Store} {l : LambdaId} : allows s .form (.lambda l) → allows s .datum (.lambda l)
  car {s : Store} {r : Position} {c : CellId} : store s → allows s r (.cons c) →
    allows s r.item (s.car c)
  cdr {s : Store} {r : Position} {c : CellId} : store s → allows s r (.cons c) →
    allows s (r.rest (s.car c)) (s.cdr c)
  bound {s : Store} {i : ScopeId} {name : String} {v : Value} : store s →
    (s.scope i).get? name = some v → allows s .datum v
  body {s : Store} (l : LambdaId) : store s → allows s .form (s.lambda l).body
  owned {s : Store} {l : LambdaId} : store s → allows s .datum (.lambda l) →
    scope s (s.lambda l).scope
  cons {s : Store} {a d : Value} : store s → allows s .datum a → allows s .datum d →
    store (s.cons a d).2 ∧ later s (s.cons a d).2 ∧ allows (s.cons a d).2 .datum (s.cons a d).1
  setCar {s : Store} {c : CellId} {v : Value} : changing → store s → allows s .datum (.cons c) →
    allows s .datum v → store (s.setCar c v) ∧ later s (s.setCar c v)
  setCdr {s : Store} {c : CellId} {v : Value} : changing → store s → allows s .datum (.cons c) →
    allows s .datum v → store (s.setCdr c v) ∧ later s (s.setCdr c v)
  bind {s : Store} (i : ScopeId) (name : String) {v : Value} : store s → allows s .datum v →
    store (s.bind i name v) ∧ later s (s.bind i name v)
  newScope {s : Store} {content : Scope} : store s →
    (∀ name v, content.get? name = some v → allows s .datum v) → store (s.newScope content).2 ∧
      later s (s.newScope content).2 ∧ scope (s.newScope content).2 (s.newScope content).1
  newLambda {s : Store} {f : Lambda} : store s → allows s .form f.body → scope s f.scope →
    store (s.newLambda f).2 ∧ later s (s.newLambda f).2 ∧
      allows (s.newLambda f).2 .datum (.lambda (s.newLambda f).1)
  setLambdaScope {s : Store} (l : LambdaId) {i : ScopeId} : store s → scope s i →
    store (s.setLambdaScope l i) ∧ later s (s.setLambdaScope l i)

namespace Discipline

variable {D : Discipline} {s : Store} {v : Value} {vs : List Value} {r : Position}

theorem list (kept : D.store s) (each : ∀ v ∈ vs, D.allows s .datum v) :
    D.store (s.list vs).2 ∧ D.later s (s.list vs).2 ∧
      D.allows (s.list vs).2 .datum (s.list vs).1 := by
  induction vs with
  | nil => exact ⟨kept, D.refl s, D.atom trivial⟩
  | cons v vs ih =>
    obtain ⟨first, others⟩ := List.forall_mem_cons.mp each
    obtain ⟨tail, later, known⟩ := ih others
    obtain ⟨whole, last, made⟩ := D.cons tail (D.allows_later later first) known
    exact ⟨whole, D.trans later last, made⟩

/-- A walk along a rest yields items of the one position. -/
theorem chainWithin (kept : D.store s) (isRest : r.IsRest) {limit : Nat} (known : D.allows s r v)
    (walked : s.chainWithin limit v = .proper vs) : ∀ w ∈ vs, D.allows s r.item w := by
  refine s.forall_mem_of_chainWithin (D.allows s r) (fun c => D.car kept) (fun c known => ?_) known
    walked
  have behind := D.cdr kept known
  rwa [isRest] at behind

theorem afterHead? {name : String} {rest : Value} (kept : D.store s) (known : D.allows s r v)
    (found : s.afterHead? name v = some rest) : D.allows s (r.rest (.string name)) rest := by
  cases v with
  | cons c =>
    simp only [Store.afterHead?, Option.ite_none_right_eq_some, Option.some.injEq] at found
    obtain ⟨named, rfl⟩ := found
    have behind := D.cdr kept known
    cases head : s.car c with
    | string text =>
      rw [head] at named behind
      cases named
      exact behind
    | number | boolean | nil | cons | lambda =>
      rw [head] at named
      cases named
  | number | string | boolean | nil | lambda => cases found

/-- The machine keeps to the discipline. -/
structure On (D : Discipline) (m : Machine) : Prop where
  store : D.store m.store
  stack : ∀ i ∈ m.stack, D.scope m.store i

end Discipline

end CellLisp
