import CellLisp.Store
import CellLisp.Text.Quoted

/-!
The structure of a value spelled out, every cell and lambda body included. A value that contains
itself has no such text: its spelling would pass more cells and lambdas than there are.
-/

namespace CellLisp

def Number.inspected : Number → String
  | int n => "Int(" ++ toString n.toInt ++ ")"
  | float x => "Float(" ++ layout.float x ++ ")"

namespace Store

/-- Enters at most so many cells and lambdas inside one another. -/
def inspectWithin (s : Store) : Nat → Value → Option String
  | _, .number n => some ("Number(" ++ n.inspected ++ ")")
  | _, .string t => some ("String(" ++ Text.quoted t ++ ")")
  | _, .boolean b => some (if b then "Boolean(true)" else "Boolean(false)")
  | _, .nil => some "Nil"
  | 0, _ => none
  | limit + 1, .cons c => do
    let car ← s.inspectWithin limit (s.car c)
    let cdr ← s.inspectWithin limit (s.cdr c)
    return "Cons(Cons(" ++ car ++ ", " ++ cdr ++ "))"
  | limit + 1, .lambda l => do
    let f := s.lambda l
    let body ← s.inspectWithin limit f.body
    return "Lambda(Lambda \x7b params: [" ++ ", ".intercalate (f.params.map Text.quoted)
      ++ "], body: " ++ body ++ ", .. \x7d)"

def inspect? (s : Store) (v : Value) : Option String :=
  s.inspectWithin (s.cells.size + s.lambdas.size) v

end Store

end CellLisp
