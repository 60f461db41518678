import CellLisp.Fault
import CellLisp.Node

/-!
From tokens to groups: every left parenthesis opens a group, and the right one that answers it
closes the group.
-/

namespace CellLisp.Node

/-- Goes on inside open groups. `current` holds the nodes read so far in the innermost one and
`outer` those of the groups around it, each list with its last node first. -/
def matchWithin (current : List Node) (outer : List (List Node)) :
    List Token → Except SyntaxFault (List Node)
  | [] => if outer.isEmpty then .ok current.reverse else .error .unbalancedParens
  | t :: ts =>
    match t with
    | .mark .leftParen => matchWithin [] (current :: outer) ts
    | .mark .rightParen =>
      match outer with
      | [] => .error .unbalancedParens
      | parent :: outer => matchWithin (group current.reverse :: parent) outer ts
    | t => matchWithin (leaf t :: current) outer ts

def matchParens (ts : List Token) : Except SyntaxFault (List Node) := matchWithin [] [] ts

end CellLisp.Node
