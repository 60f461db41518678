import CellLisp.Datum.Reader
import CellLisp.Evaluation
import CellLisp.Source

/-!
Running program texts on a machine. A text is taken apart as a whole before anything is evaluated;
then its forms are read and evaluated one by one.
-/

namespace CellLisp

namespace Session

/-- Reads a node as a form, in new cells. -/
def readForm (n : Node) : Eval Value := do
  let d ← Eval.ofExcept ((Datum.ofNode false n).mapError Fault.syntactic)
  Eval.update (·.place d)

/-- Evaluates forms in order, for the value of the last one or else for the value given. -/
def runForms (depth : Nat) (last : Option Value) : List Node → Eval (Option Value)
  | [] => return last
  | n :: ns => do
    let form ← readForm n
    let v ← eval depth form
    runForms depth (some v) ns

/-- Runs a text, for the value of its last form if it has one. -/
def run (depth : Nat) (source : String) : Eval (Option Value) := do
  let nodes ← Eval.ofExcept (Source.nodes source)
  runForms depth none nodes

/-- A new machine on which startup definitions have been run. -/
def started (depth : Nat) (source : String) : Outcome (Option Value) :=
  run depth source Machine.initial

end Session

end CellLisp
