import CellLisp.Node.Weight

/-!
Sugar undone in every group. A group is unsugared first and entered afterwards, so the groups that
this made are entered too; what is entered weighs less than the group around it.
-/

namespace CellLisp.Node

/-- Undoes the sugar of every group among the nodes, at every depth. -/
def expandEach : List Node → Except SyntaxFault (List Node)
  | [] => .ok []
  | leaf t :: ns => do return leaf t :: (← expandEach ns)
  | group children :: ns =>
    match _unsugared : unsugar children with
    | .error f => .error f
    | .ok unsugared => do
      let inner ← expandEach unsugared
      return group inner :: (← expandEach ns)
termination_by ns => weightOf ns
decreasing_by
  · exact weightOf_lt_cons _ _
  · exact Nat.lt_of_le_of_lt (weightOf_unsugar _unsugared) (weightOf_lt_group _ _)
  · exact weightOf_lt_cons _ _

def expandGroup (children : List Node) : Except SyntaxFault (List Node) := do
  expandEach (← unsugar children)

/-- One node for each form of a text, or a single block if separators stand outside every group. -/
def ofTokens (ts : List Token) : Except SyntaxFault (List Node) := do
  let root ← matchParens ts
  let forms ← expandGroup root
  return if root.any isSeparator then [group forms] else forms

end CellLisp.Node
