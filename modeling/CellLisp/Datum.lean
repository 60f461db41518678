import CellLisp.Number

/-!
Data as program text can write it: atoms, the empty list and pairs.
-/

namespace CellLisp

inductive Datum where
  | number (n : Number)
  | string (s : String)
  | boolean (b : Bool)
  | nil
  | pair (car cdr : Datum)

namespace Datum

def list : List Datum → Datum
  | [] => nil
  | d :: ds => pair d (list ds)

end Datum

end CellLisp
