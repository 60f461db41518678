import CellLisp.Datum
import CellLisp.Fault
import CellLisp.Node

/-!
From a node to the datum it stands for. A group is a list, a number a number, `true` and `false`
are booleans, and any other name or operator is a string.

An `if` of three items gets an empty block as its fourth, except where it is data: inside a quoted
form and inside the parameters of a lambda nothing is added.
-/

namespace CellLisp.Datum

def ofToken : Token → Except SyntaxFault Datum
  | .number n => .ok (number n)
  | .name s =>
    if s = "true" then .ok (boolean true)
    else if s = "false" then .ok (boolean false)
    else .ok (string s)
  | .operator s => .ok (string s)
  | .mark m => .error (.unexpectedMark m)

def headName? : List Node → Option String
  | .leaf (.name s) :: _ => some s
  | _ => none

/-- A group with this head holds data at this position. -/
def holdsData (head : Option String) (position : Nat) : Bool :=
  (head == some "quote" && 0 < position) || (head == some "lambda" && position == 1)

def completeIf (head : Option String) (items : List Datum) : List Datum :=
  if head == some "if" && items.length == 3 then items ++ [list [string "block"]] else items

mutual

/-- The flag is set for data. -/
def ofNode (literal : Bool) : Node → Except SyntaxFault Datum
  | .leaf t => ofToken t
  | .group children => do
    let head := headName? children
    let items ← ofChildren literal head 0 children
    return list (if literal then items else completeIf head items)

/-- The children of a group from a position on. -/
def ofChildren (literal : Bool) (head : Option String) (position : Nat) :
    List Node → Except SyntaxFault (List Datum)
  | [] => .ok []
  | n :: ns => do
    let item ← ofNode (literal || holdsData head position) n
    return item :: (← ofChildren literal head (position + 1) ns)

end

end CellLisp.Datum
