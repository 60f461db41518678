import CellLisp.Store

/-!
Lists are chains of cells. A chain is walked from car to car; it is proper if it ends in nil,
improper if it ends in anything else, and endless if it comes back to itself. A walk over more
cells than the store holds has met one twice.
-/

namespace CellLisp

inductive Chain where
  | proper (items : List Value)
  | improper
  | endless

def Chain.cons (v : Value) : Chain → Chain
  | proper items => proper (v :: items)
  | improper => improper
  | endless => endless

namespace Store

/-- Walks over at most so many cells. -/
def chainWithin (s : Store) : Nat → Value → Chain
  | _, .nil => .proper []
  | 0, .cons _ => .endless
  | limit + 1, .cons c => (s.chainWithin limit (s.cdr c)).cons (s.car c)
  | _, _ => .improper

def chain (s : Store) (v : Value) : Chain := s.chainWithin s.cells.size v

/-- What follows the head of a value whose head is this name. -/
def afterHead? (s : Store) (name : String) : Value → Option Value
  | .cons c => if (s.car c).name? = some name then some (s.cdr c) else none
  | _ => none

/-- One step of a walk: what it yields, and where it stands then. A walk is over once it has met
nil, and also once it has met the wrong end of an improper chain. -/
def next (s : Store) : Option Value → Option (Except EvaluationFault Value) × Option Value
  | none | some .nil => (none, none)
  | some (.cons c) => (some (.ok (s.car c)), some (s.cdr c))
  | some _ => (some (.error .malformedList), none)

end Store

end CellLisp
