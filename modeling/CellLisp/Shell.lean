import CellLisp.CommandLine
import CellLisp.Session
import CellLisp.Prelude

/-!
The program around the interpreter: it loads startup definitions, then runs one file, or else each
line of its input on its own.
-/

namespace CellLisp.Shell

/-- Why the program ends without its result. The cause of a failed reading is the system's text. -/
inductive Failure where
  | reading (path cause : String)
  | startup (f : Fault)
  | program (f : Fault)
  | unfinished
  deriving DecidableEq, Repr

def Failure.message : Failure → String
  | reading path cause => "Failed to read program at " ++ path ++ "\n\nCaused by:\n    " ++ cause
  | startup f => "Failed to load startup definitions\n\nCaused by:\n    " ++ f.message
  | program f => f.message
  | unfinished => "evaluation nests too deeply"

/-- What the program leaves: its exit code, and its texts on the two output streams. -/
structure Report where
  exit : UInt32
  output : String
  complaint : String
  deriving DecidableEq, Repr

def Failure.report (f : Failure) : Report := ⟨1, "", "Error: " ++ f.message ++ "\n"⟩

/-- A file's text, or why it cannot be read. -/
abbrev Reader := String → Except String String

def load (read : Reader) (path : String) : Except Failure String :=
  (read path).mapError (.reading path)

def startupSource (read : Reader) (o : Options) : Except Failure String :=
  if o.noPrelude then .ok ""
  else match o.builtins with
    | some path => load read path
    | none => .ok Prelude.source

def start (depth : Nat) (read : Reader) (o : Options) : Except Failure Machine := do
  match Session.started depth (← startupSource read o) with
  | .value _ m => return m
  | .fault f _ => .error (.startup f)
  | .unfinished => .error .unfinished

def valueLine (m : Machine) : Option Value → String
  | some v => m.store.shown v ++ "\n"
  | none => ""

/-- Runs a whole program, for the text of its last value. -/
def runProgram (depth : Nat) (m : Machine) (source : String) : Except Failure String :=
  match Session.run depth source m with
  | .value v m => .ok (valueLine m v)
  | .fault f _ => .error (.program f)
  | .unfinished => .error .unfinished

def isBlank (line : List Char) : Bool := line.all Unicode.isWhiteSpace

/-- Runs one line of input, for what is printed and the machine that the next line runs on. -/
def runLine (depth : Nat) (m : Machine) (line : List Char) : String × Machine :=
  if isBlank line then ("", m)
  else match Session.run depth (String.ofList line) m with
    | .value v m => (valueLine m v, m)
    | .fault f m => ("error: " ++ f.message ++ "\n", m)
    | .unfinished => ("error: " ++ Failure.unfinished.message ++ "\n", m)

def transcript (depth : Nat) (m : Machine) : List (List Char) → List String
  | [] => []
  | line :: rest =>
    let (printed, m) := runLine depth m line
    printed :: transcript depth m rest

def outcome (depth : Nat) (read : Reader) (o : Options) (input : String) :
    Except Failure String := do
  let m ← start depth read o
  match o.file with
  | some path => runProgram depth m (← load read path)
  | none => return String.join (transcript depth m (Comment.lines input.toList))

def execute (depth : Nat) (read : Reader) (arguments : List String) (input : String) : Report :=
  match CommandLine.parse arguments with
  | .error f => ⟨2, "", "error: " ++ f.message ++ "\n"⟩
  | .ok .version => ⟨0, CommandLine.versionText, ""⟩
  | .ok .help => ⟨0, CommandLine.helpText, ""⟩
  | .ok (.session o) =>
    match outcome depth read o input with
    | .ok output => ⟨0, output, ""⟩
    | .error f => f.report

end CellLisp.Shell
