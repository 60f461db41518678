import CellLisp.Fault

/-!
Values. Atoms stand for themselves; cells and lambdas are known by their place in the store.
-/

namespace CellLisp

structure CellId where
  index : Nat
  deriving DecidableEq, Repr

structure LambdaId where
  index : Nat
  deriving DecidableEq, Repr

structure ScopeId where
  index : Nat
  deriving DecidableEq, Repr

inductive Value where
  | number (n : Number)
  | string (s : String)
  | boolean (b : Bool)
  | nil
  | cons (c : CellId)
  | lambda (l : LambdaId)

namespace Value

def int (n : Int64) : Value := number (.int n)

def kind : Value → Kind
  | number _ => .number
  | string _ => .string
  | boolean _ => .boolean
  | nil => .nil
  | cons _ => .cons
  | lambda _ => .lambda

def name? : Value → Option String
  | string s => some s
  | _ => none

/-- Zero, the empty string, `false` and nil are not truthy. -/
def truth : Value → Bool
  | number n => !n.isZero
  | string s => !s.isEmpty
  | boolean b => b
  | nil => false
  | cons _ | lambda _ => true

/-- Atoms are equal by value, cells and lambdas by identity. -/
def equal : Value → Value → Bool
  | number a, number b => a.equal b
  | string a, string b => a == b
  | boolean a, boolean b => a == b
  | nil, nil => true
  | cons a, cons b => a == b
  | lambda a, lambda b => a == b
  | _, _ => false

end Value

end CellLisp
