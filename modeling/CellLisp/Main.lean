import CellLisp.Shell

/-!
The program: it reads what the shell asks for, and prints what the shell answers.
-/

namespace CellLisp.Main

/-- How deep evaluations may nest. -/
def depth : Nat := 100000

def cause : IO.Error → String
  | .noFileOrDirectory .. => "No such file or directory (os error 2)"
  | .permissionDenied .. => "Permission denied (os error 13)"
  | e => toString e

/-- Reads the files that the options name, each once. -/
def reader (o : Options) : IO Shell.Reader := do
  let paths := o.builtins.toList ++ o.file.toList
  let texts ← paths.mapM fun (path : String) => do
    let text ← (IO.FS.readFile path).toBaseIO
    return (path, text.mapError cause)
  return fun path => (texts.lookup path).getD (.error path)

partial def runLines (input : IO.FS.Stream) (m : Machine) : IO Unit := do
  let text ← input.getLine
  unless text.isEmpty do
    let mut m := m
    for line in Comment.lines text.toList do
      let (printed, next) := Shell.runLine depth m line
      IO.print printed
      m := next
    runLines input m

def report (r : Shell.Report) : IO UInt32 := do
  IO.print r.output
  IO.eprint r.complaint
  return r.exit

end CellLisp.Main

open CellLisp in
def main (arguments : List String) : IO UInt32 := do
  match CommandLine.parse arguments with
  | .ok (.session o) =>
    let read ← Main.reader o
    match o.file, Shell.start Main.depth read o with
    | none, .ok m =>
      Main.runLines (← IO.getStdin) m
      return 0
    | _, _ => Main.report (Shell.execute Main.depth read arguments "")
  | _ => Main.report (Shell.execute Main.depth .error arguments "")
