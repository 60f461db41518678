import CellLisp.Node.Nesting

/-!
The two sugars, as they stand directly in a group. A group with separators is a block of its other
nodes: `(a ; b)` is `(block a b)`. A quote mark quotes the node after it: `'x` is `(quote x)`, and
`''x` is `(quote (quote x))`.
-/

namespace CellLisp.Node

def asBlock (children : List Node) : List Node :=
  if children.any isSeparator then name "block" :: children.filter (!·.isSeparator) else children

def quoteTimes : Nat → Node → Node
  | 0, n => n
  | depth + 1, n => group [name "quote", quoteTimes depth n]

/-- `depth` quote marks wait for the next node. -/
def applyQuotes (depth : Nat) : List Node → Except SyntaxFault (List Node)
  | [] => if depth = 0 then .ok [] else .error .danglingQuote
  | n :: ns =>
    if n.isQuote then applyQuotes (depth + 1) ns
    else do return quoteTimes depth n :: (← applyQuotes 0 ns)

/-- Undoes the sugar that stands directly in a group. -/
def unsugar (children : List Node) : Except SyntaxFault (List Node) :=
  applyQuotes 0 (asBlock children)

end CellLisp.Node
