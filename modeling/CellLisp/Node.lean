import CellLisp.Token

/-!
Token trees: a node is a token or a group of nodes in parentheses.
-/

namespace CellLisp

inductive Node where
  | leaf (t : Token)
  | group (children : List Node)

namespace Node

def name (s : String) : Node := leaf (.name s)

def isMark (m : Mark) : Node → Bool
  | leaf (.mark k) => k == m
  | _ => false

def isSeparator (n : Node) : Bool := n.isMark .separator

def isQuote (n : Node) : Bool := n.isMark .quote

mutual

/-- The tokens of a node, with the parentheses of its groups. -/
def tokens : Node → List Token
  | leaf t => [t]
  | group children => .mark .leftParen :: tokensOf children ++ [.mark .rightParen]

def tokensOf : List Node → List Token
  | [] => []
  | n :: ns => n.tokens ++ tokensOf ns

end

end Node

end CellLisp
