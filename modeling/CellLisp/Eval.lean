import CellLisp.Machine
import CellLisp.Store.Chain
import CellLisp.Store.Sketch

/-!
Computations on the machine. A computation ends with a value or with a fault, and either way with
the machine as it then is; or it is unfinished, because it nests deeper than it was allowed to or
because it walks an endless chain.
-/

namespace CellLisp

inductive Outcome (α : Type) where
  | value (a : α) (m : Machine)
  | fault (f : Fault) (m : Machine)
  | unfinished

def Eval (α : Type) : Type := Machine → Outcome α

namespace Eval

variable {α β : Type}

@[inline] def pure (a : α) : Eval α := fun m => .value a m

@[inline] def bind (x : Eval α) (f : α → Eval β) : Eval β := fun m =>
  match x m with
  | .value a m => f a m
  | .fault e m => .fault e m
  | .unfinished => .unfinished

instance : Monad Eval where
  pure := Eval.pure
  bind := Eval.bind

@[inline] def fail (f : Fault) : Eval α := fun m => .fault f m

def unfinished : Eval α := fun _ => .unfinished

@[inline] def ofExcept : Except Fault α → Eval α
  | .ok a => pure a
  | .error f => fail f

/-- Turns a fault into a value, so that what has to be done in any case can be done. -/
@[inline] def attempt (x : Eval α) : Eval (Except Fault α) := fun m =>
  match x m with
  | .value a m => .value (.ok a) m
  | .fault f m => .value (.error f) m
  | .unfinished => .unfinished

/-- Reads something off the store. -/
@[inline] def read (f : Store → α) : Eval α := fun m => .value (f m.store) m

/-- Changes the store. -/
@[inline] def update (f : Store → α × Store) : Eval α := fun m =>
  let (a, s) := f m.store
  .value a ⟨s, m.stack⟩

@[inline] def modify (f : Store → Store) : Eval Unit := update fun s => ((), f s)

/-- The items of a list. -/
def items (v : Value) : Eval (List Value) := do
  match ← read (·.chain v) with
  | .proper vs => return vs
  | .improper => fail (.evaluation .malformedList)
  | .endless => unfinished

def shown (v : Value) : Eval String := read (·.shown v)

def push (i : ScopeId) : Eval Unit := fun m => .value () ⟨m.store, i :: m.stack⟩

def pop : Eval ScopeId := fun m =>
  match m.stack with
  | [] => .fault (.internal .noScope) m
  | i :: rest => .value i ⟨m.store, rest⟩

def lookup (name : String) : Eval Value := fun m =>
  match m.lookup? name with
  | some v => .value v m
  | none => .fault (.evaluation (.unbound name)) m

def assign (name : String) (v : Value) : Eval Unit := fun m =>
  match m.assign? name v with
  | some m => .value () m
  | none => .fault (.evaluation (.unbound name)) m

def define (name : String) (v : Value) : Eval Unit := fun m =>
  match m.define? name v with
  | some m => .value () m
  | none => .fault (.internal .noScope) m

end Eval

end CellLisp
