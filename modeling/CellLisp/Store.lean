import CellLisp.Datum
import CellLisp.Scope

/-!
The store: all cells, lambdas and scopes ever made, each at the place that its identity names. An
identity that the store never gave out reads as an empty cell, lambda or scope.
-/

namespace CellLisp

structure Cell where
  car : Value
  cdr : Value

/-- A lambda keeps its parameters and body for ever; its scope is replaced by calls. -/
structure Lambda where
  params : List String
  body : Value
  scope : ScopeId

structure Store where
  cells : Array Cell
  lambdas : Array Lambda
  scopes : Array Scope

namespace Store

def empty : Store := ⟨#[], #[], #[]⟩

def cell (s : Store) (c : CellId) : Cell := s.cells.getD c.index ⟨.nil, .nil⟩

def lambda (s : Store) (l : LambdaId) : Lambda := s.lambdas.getD l.index ⟨[], .nil, ⟨0⟩⟩

def scope (s : Store) (i : ScopeId) : Scope := s.scopes.getD i.index .empty

def car (s : Store) (c : CellId) : Value := (s.cell c).car

def cdr (s : Store) (c : CellId) : Value := (s.cell c).cdr

def setCar (s : Store) (c : CellId) (v : Value) : Store :=
  { s with cells := s.cells.modify c.index fun cell => { cell with car := v } }

def setCdr (s : Store) (c : CellId) (v : Value) : Store :=
  { s with cells := s.cells.modify c.index fun cell => { cell with cdr := v } }

def setLambdaScope (s : Store) (l : LambdaId) (i : ScopeId) : Store :=
  { s with lambdas := s.lambdas.modify l.index fun f => { f with scope := i } }

/-- Binds a name in one scope, whether or not it was bound there. -/
def bind (s : Store) (i : ScopeId) (name : String) (v : Value) : Store :=
  { s with scopes := s.scopes.modify i.index fun scope => scope.insert name v }

def newCell (s : Store) (c : Cell) : CellId × Store :=
  (⟨s.cells.size⟩, { s with cells := s.cells.push c })

def newLambda (s : Store) (f : Lambda) : LambdaId × Store :=
  (⟨s.lambdas.size⟩, { s with lambdas := s.lambdas.push f })

def newScope (s : Store) (scope : Scope) : ScopeId × Store :=
  (⟨s.scopes.size⟩, { s with scopes := s.scopes.push scope })

def cons (s : Store) (a d : Value) : Value × Store :=
  let (c, s) := s.newCell ⟨a, d⟩
  (.cons c, s)

/-- A new proper list; its last cell is made first. -/
def list (s : Store) : List Value → Value × Store
  | [] => (.nil, s)
  | v :: vs =>
    let (tail, s) := s.list vs
    s.cons v tail

/-- A datum as a value, with a new cell for each of its pairs. -/
def place (s : Store) : Datum → Value × Store
  | .number n => (.number n, s)
  | .string t => (.string t, s)
  | .boolean b => (.boolean b, s)
  | .nil => (.nil, s)
  | .pair a d =>
    let (car, s) := s.place a
    let (cdr, s) := s.place d
    s.cons car cdr

end Store

end CellLisp
