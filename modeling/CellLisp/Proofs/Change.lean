import CellLisp.Evaluation
import CellLisp.Proofs.Store

/-!
# What a computation does to the machine

Computations that evaluate nothing either only read the machine or change it in one of a few ways.
None of them moves the stack or gives a scope to a lambda that exists.
-/

namespace CellLisp

def Outcome.value? {α : Type} : Outcome α → Option α
  | .value a _ => some a
  | .fault _ _ => none
  | .unfinished => none

def Outcome.machine? {α : Type} : Outcome α → Option Machine
  | .value _ m => some m
  | .fault _ m => some m
  | .unfinished => none

def Outcome.fault? {α : Type} : Outcome α → Option Fault
  | .fault f _ => some f
  | _ => none

theorem Outcome.exists_of_value? {α : Type} {o : Outcome α} {a : α} (ends : o.value? = some a) :
    ∃ m, o = .value a m := by
  cases o with
  | value b m =>
    cases ends
    exact ⟨m, rfl⟩
  | fault f m => cases ends
  | unfinished => cases ends

theorem Outcome.exists_of_fault? {α : Type} {o : Outcome α} {f : Fault} (ends : o.fault? = some f) :
    ∃ m, o = .fault f m := by
  cases o with
  | fault g m =>
    cases ends
    exact ⟨m, rfl⟩
  | value a m => cases ends
  | unfinished => cases ends

/-- One change of a machine outside of blocks and calls. -/
inductive Machine.Change (m : Machine) : Machine → Prop
  | none : m.Change m
  | cons (a d : Value) : m.Change ⟨(m.store.cons a d).2, m.stack⟩
  | list (vs : List Value) : m.Change ⟨(m.store.list vs).2, m.stack⟩
  | setCar (c : CellId) (v : Value) : m.Change ⟨m.store.setCar c v, m.stack⟩
  | setCdr (c : CellId) (v : Value) : m.Change ⟨m.store.setCdr c v, m.stack⟩
  | assign (i : ScopeId) (name : String) (v : Value) (bound : m.binder? name = some i) :
      m.Change ⟨m.store.bind i name v, m.stack⟩
  | define (i : ScopeId) (name : String) (v : Value) (innermost : m.stack.head? = some i) :
      m.Change ⟨m.store.bind i name v, m.stack⟩
  | place (d : Datum) : m.Change ⟨(m.store.place d).2, m.stack⟩
  | lambda (params : List String) (body : Value) :
      m.Change ⟨((m.store.newScope .empty).2.newLambda
        ⟨params, body, ⟨m.store.scopes.size⟩⟩).2, m.stack⟩

theorem Machine.Change.stack {m n : Machine} (change : m.Change n) : n.stack = m.stack := by
  cases change <;> rfl

namespace Eval

variable {α β : Type}

def Reads (x : Eval α) : Prop := ∀ m n, (x m).machine? = some n → n = m

def Changes (x : Eval α) : Prop := ∀ m n, (x m).machine? = some n → m.Change n

theorem read_bind (f : Store → α) (k : α → Eval β) (m : Machine) :
    (read f >>= k) m = k (f m.store) m := rfl

theorem machine?_bind {x : Eval α} {f : α → Eval β} {m n : Machine}
    (ends : ((x >>= f) m).machine? = some n) :
    (∃ e, x m = .fault e n) ∨ ∃ a m', x m = .value a m' ∧ (f a m').machine? = some n := by
  change (Eval.bind x f m).machine? = some n at ends
  unfold Eval.bind at ends
  cases outcome : x m with
  | value a m' => exact .inr ⟨a, m', rfl, by simpa only [outcome] using ends⟩
  | fault e m' =>
    rw [outcome] at ends
    cases ends
    exact .inl ⟨e, rfl⟩
  | unfinished =>
    rw [outcome] at ends
    cases ends

theorem bind_of_value {x : Eval α} {f : α → Eval β} {a : α} {m n : Machine}
    (ends : x m = .value a n) : (x >>= f) m = f a n := by
  change Eval.bind x f m = _
  rw [Eval.bind, ends]

theorem bind_of_fault {x : Eval α} {f : α → Eval β} {e : Fault} {m n : Machine}
    (ends : x m = .fault e n) : (x >>= f) m = .fault e n := by
  change Eval.bind x f m = _
  rw [Eval.bind, ends]

theorem value_of_bind {x : Eval α} {f : α → Eval β} {b : β} {m n : Machine}
    (ends : (x >>= f) m = .value b n) : ∃ a m', x m = .value a m' ∧ f a m' = .value b n := by
  change Eval.bind x f m = .value b n at ends
  unfold Eval.bind at ends
  cases outcome : x m with
  | value a m' =>
    rw [outcome] at ends
    exact ⟨a, m', rfl, ends⟩
  | fault e m' =>
    rw [outcome] at ends
    cases ends
  | unfinished =>
    rw [outcome] at ends
    cases ends

theorem of_attempt {x : Eval α} {result : Except Fault α} {m n : Machine}
    (ends : attempt x m = .value result n) :
    (∃ a, result = .ok a ∧ x m = .value a n) ∨ ∃ e, result = .error e ∧ x m = .fault e n := by
  unfold attempt at ends
  cases outcome : x m with
  | value a m' =>
    rw [outcome] at ends
    cases ends
    exact .inl ⟨a, rfl, rfl⟩
  | fault e m' =>
    rw [outcome] at ends
    cases ends
    exact .inr ⟨e, rfl, rfl⟩
  | unfinished =>
    rw [outcome] at ends
    cases ends

/-! Computations that only read. -/

theorem reads_pure (a : α) : Reads (pure a : Eval α) := fun _ _ ends => (Option.some.inj ends).symm

theorem reads_fail (f : Fault) : Reads (fail f : Eval α) :=
  fun _ _ ends => (Option.some.inj ends).symm

theorem reads_read (f : Store → α) : Reads (read f) :=
  fun _ _ ends => (Option.some.inj ends).symm

theorem reads_unfinished : Reads (unfinished : Eval α) := nofun

theorem reads_ofExcept (result : Except Fault α) : Reads (ofExcept result) := by
  cases result with
  | ok a => exact reads_pure a
  | error f => exact reads_fail f

theorem Reads.bind {x : Eval α} {f : α → Eval β} (first : Reads x) (second : ∀ a, Reads (f a)) :
    Reads (x >>= f) := by
  intro m n ends
  rcases machine?_bind ends with ⟨e, failed⟩ | ⟨a, m', found, late⟩
  · exact first m n (by rw [failed]; rfl)
  · rw [second a m' n late]
    exact first m m' (by rw [found]; rfl)

theorem reads_shown (v : Value) : Reads (shown v) := reads_read _

theorem reads_items (v : Value) : Reads (items v) := by
  apply (reads_read _).bind
  intro chain
  cases chain with
  | proper vs => exact reads_pure vs
  | improper => exact reads_fail _
  | endless => exact reads_unfinished

theorem reads_lookup (name : String) : Reads (lookup name) := by
  intro m n ends
  unfold lookup at ends
  cases found : m.lookup? name <;> rw [found] at ends <;> exact (Option.some.inj ends).symm

/-! Computations that change the machine once. -/

theorem Reads.changes {x : Eval α} (reads : Reads x) : Changes x := by
  intro m n ends
  rw [reads m n ends]
  exact .none

theorem Reads.bind_changes {x : Eval α} {f : α → Eval β} (first : Reads x)
    (second : ∀ a, Changes (f a)) : Changes (x >>= f) := by
  intro m n ends
  rcases machine?_bind ends with ⟨e, failed⟩ | ⟨a, m', found, late⟩
  · exact first.changes m n (by rw [failed]; rfl)
  · have same : m' = m := first m m' (by rw [found]; rfl)
    rw [same] at late
    exact second a m n late

theorem Changes.bind_reads {x : Eval α} {f : α → Eval β} (first : Changes x)
    (second : ∀ a, Reads (f a)) : Changes (x >>= f) := by
  intro m n ends
  rcases machine?_bind ends with ⟨e, failed⟩ | ⟨a, m', found, late⟩
  · exact first m n (by rw [failed]; rfl)
  · rw [second a m' n late]
    exact first m m' (by rw [found]; rfl)

theorem changes_list (vs : List Value) : Changes (update (·.list vs)) := by
  intro m n ends
  cases ends
  exact .list vs

theorem changes_assign (name : String) (v : Value) : Changes (assign name v) := by
  intro m n ends
  unfold assign Machine.assign? at ends
  cases bound : m.binder? name with
  | none =>
    rw [bound] at ends
    cases ends
    exact .none
  | some i =>
    rw [bound] at ends
    cases ends
    exact .assign i name v bound

theorem changes_define (name : String) (v : Value) : Changes (define name v) := by
  intro m n ends
  unfold define Machine.define? at ends
  cases innermost : m.stack.head? with
  | none =>
    rw [innermost] at ends
    cases ends
    exact .none
  | some i =>
    rw [innermost] at ends
    cases ends
    exact .define i name v innermost

end Eval

namespace Evaluation

open Eval

theorem reads_parameterNames (vs : List Value) : Reads (parameterNames vs) := by
  induction vs with
  | nil => exact reads_pure _
  | cons v vs ih =>
    cases v with
    | string s => exact ih.bind fun names => reads_pure _
    | number | boolean | nil | cons | lambda => exact (reads_shown _).bind fun _ => reads_fail _

theorem reads_parameters (v : Value) : Reads (parameters v) := by
  apply (reads_read _).bind
  intro chain
  cases chain with
  | proper vs => exact reads_parameterNames vs
  | improper => exact (reads_shown v).bind fun _ => reads_fail _
  | endless => exact reads_unfinished

theorem changes_makeLambda (params body : Value) : Changes (makeLambda params body) := by
  apply (reads_parameters params).bind_changes
  intro names m n ends
  cases ends
  exact .lambda names body

theorem reads_quotation? (v : Value) : Reads (quotation? v) := by
  apply (reads_read _).bind
  intro after
  cases after with
  | none => exact reads_pure _
  | some rest =>
    apply (reads_read _).bind
    intro chain
    cases chain with
    | improper => exact reads_pure _
    | endless => exact reads_unfinished
    | proper vs => rcases vs with _ | ⟨x, _ | ⟨_, _⟩⟩ <;> exact reads_pure _

end Evaluation

namespace Builtin

open Eval

theorem changes_one (name : String) {rule : Value → Eval Value}
    (changes : ∀ x, Changes (rule x)) (args : List Value) : Changes (one name rule args) := by
  cases args with
  | nil => exact (reads_fail _).changes
  | cons x _ => exact changes x

theorem changes_two (name : String) {rule : Value → Value → Eval Value}
    (changes : ∀ x y, Changes (rule x y)) (args : List Value) : Changes (two name rule args) := by
  rcases args with _ | ⟨x, _ | ⟨y, _⟩⟩
  · exact (reads_fail _).changes
  · exact (reads_fail _).changes
  · exact changes x y

theorem changes_pureTwo (name : String) (rule : Value → Value → Except Fault Value)
    (args : List Value) : Changes (pureTwo name rule args) :=
  changes_two name (fun x y => (reads_ofExcept (rule x y)).changes) args

theorem reads_asItems (name : String) (v : Value) : Reads (asItems name v) := by
  cases v with
  | nil => exact reads_items _
  | cons c => exact reads_items _
  | number | string | boolean | lambda => exact reads_fail _

theorem reads_joined (name : String) (vs : List Value) : Reads (joined name vs) := by
  induction vs with
  | nil => exact reads_pure _
  | cons v vs ih =>
    exact (reads_asItems name v).bind fun items => ih.bind fun rest => reads_pure _

theorem changes_rule (b : Builtin) (args : List Value) : Changes (b.rule args) := by
  cases b with
  | add | mul => exact (reads_ofExcept _).changes
  | sub | div | floorDiv | floorMod | pow | less | greater | lessOrEqual | greaterOrEqual | bitXor
  | bitAnd | bitOr => exact changes_pureTwo _ _ args
  | abs => exact changes_one _ (fun x => (reads_ofExcept _).changes) args
  | equal | and | or => exact (reads_pure _).changes
  | notEqual => exact changes_two _ (fun x y => (reads_pure _).changes) args
  | not => exact changes_one _ (fun x => (reads_pure _).changes) args
  | cons =>
    refine changes_two _ (fun x y m n ends => ?_) args
    cases ends
    exact .cons x y
  | car | cdr =>
    exact changes_one _ (fun x => ((reads_ofExcept _).bind fun c => reads_read _).changes) args
  | setCar =>
    refine changes_two _ (fun x y => (reads_ofExcept _).bind_changes fun c m n ends => ?_) args
    cases ends
    exact .setCar c y
  | setCdr =>
    refine changes_two _ (fun x y => (reads_ofExcept _).bind_changes fun c m n ends => ?_) args
    cases ends
    exact .setCdr c y
  | concat => exact (reads_joined _ args).bind_changes fun items => changes_list items
  | length =>
    exact changes_one _ (fun x => ((reads_asItems _ x).bind fun items =>
      reads_ofExcept _).changes) args
  | list => exact changes_list args

theorem changes_call (name : String) (args : List Value) : Changes (call name args) := by
  unfold call
  cases named? name with
  | none => exact (reads_fail _).changes
  | some b =>
    dsimp only
    split
    · exact changes_rule b args
    · exact (reads_fail _).changes

end Builtin

end CellLisp
