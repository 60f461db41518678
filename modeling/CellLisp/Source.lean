import CellLisp.Comment
import CellLisp.Node.Expansion
import CellLisp.Token.Lexer

/-!
Program text, up to the nodes that its forms are read from.
-/

namespace CellLisp.Source

/-- The nodes of a text without comments. -/
def plainNodes (text : List Char) : Except Fault (List Node) := do
  let tokens ← (Token.ofText text).mapError Fault.lexical
  (Node.ofTokens tokens).mapError Fault.syntactic

def nodes (source : String) : Except Fault (List Node) := plainNodes (Comment.strip source.toList)

end CellLisp.Source
