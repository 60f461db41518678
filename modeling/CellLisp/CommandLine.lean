/-!
The command line. Arguments are taken from left to right, and the first one that is wrong, or that
asks for the version or for help, decides. `--` makes all later arguments positional.
-/

namespace CellLisp

structure Options where
  file : Option String
  builtins : Option String
  noPrelude : Bool
  deriving DecidableEq, Repr

namespace CommandLine

inductive Request where
  | session (o : Options)
  | version
  | help
  deriving DecidableEq, Repr

inductive UsageFault where
  | unexpected (argument : String)
  | missingValue (option : String)
  | repeated (option : String)
  | conflict
  deriving DecidableEq, Repr

def UsageFault.message : UsageFault → String
  | unexpected argument => "unexpected argument '" ++ argument ++ "' found"
  | missingValue option => "a value is required for '" ++ option ++ "' but none was supplied"
  | repeated option => "the argument '" ++ option ++ "' cannot be used multiple times"
  | conflict => "the argument '--builtins <FILE>' cannot be used with '--no-prelude'"

def setFile (o : Options) (path : String) : Except UsageFault Options :=
  if o.file.isSome then .error (.unexpected path)
  else if path.isEmpty then .error (.missingValue "[FILE]")
  else .ok { o with file := some path }

def setBuiltins (o : Options) (path : String) : Except UsageFault Options :=
  if path.isEmpty then .error (.missingValue "--builtins <FILE>")
  else if o.builtins.isSome then .error (.repeated "--builtins <FILE>")
  else .ok { o with builtins := some path }

/-- Letters after one dash. A letter that asks for the version or for help decides. -/
def shortFlags (argument : String) : List Char → Except UsageFault (Option Request)
  | [] => .ok none
  | 'v' :: cs => shortFlags argument cs
  | 'V' :: _ => .ok (some .version)
  | 'h' :: _ => .ok (some .help)
  | _ => .error (.unexpected argument)

/-- A lone dash is a value, everything else with a dash in front is not. -/
def isFlag (argument : String) : Bool := argument.startsWith "-" && argument != "-"

def positional (o : Options) : List String → Except UsageFault Options
  | [] => .ok o
  | path :: rest => do positional (← setFile o path) rest

def complete (o : Options) : Except UsageFault Request :=
  if o.noPrelude && o.builtins.isSome then .error .conflict else .ok (.session o)

/-- The text after `--builtins=`. -/
def builtinsValue? (argument : String) : Option String :=
  if argument.startsWith "--builtins=" then some (String.ofList (argument.toList.drop 11)) else none

def parseFrom (o : Options) : List String → Except UsageFault Request
  | [] => complete o
  | ["--builtins"] => .error (.missingValue "--builtins <FILE>")
  | "--builtins" :: path :: rest =>
    if isFlag path then .error (.missingValue "--builtins <FILE>")
    else do parseFrom (← setBuiltins o path) rest
  | argument :: rest =>
    match builtinsValue? argument with
    | some path => do parseFrom (← setBuiltins o path) rest
    | none =>
      if argument = "--" then do complete (← positional o rest)
      else if argument = "--no-prelude" then
        if o.noPrelude then .error (.repeated argument)
        else parseFrom { o with noPrelude := true } rest
      else if argument = "--verbose" then parseFrom o rest
      else if argument = "--version" then .ok .version
      else if argument = "--help" then .ok .help
      else if argument.startsWith "--" then .error (.unexpected argument)
      else if isFlag argument then
        match shortFlags argument (argument.toList.drop 1) with
        | .error f => .error f
        | .ok (some request) => .ok request
        | .ok none => parseFrom o rest
      else do parseFrom (← setFile o argument) rest

def parse (arguments : List String) : Except UsageFault Request :=
  parseFrom ⟨none, none, false⟩ arguments

def versionText : String := "conslisp 0.1.0\n"

def helpText : String :=
  String.intercalate "\n" [
    "A small Lisp whose programs are made of the same cons cells they compute with",
    "",
    "Usage: conslisp [OPTIONS] [FILE]",
    "",
    "Arguments:",
    "  [FILE]  Program to run instead of starting the REPL",
    "",
    "Options:",
    "      --builtins <FILE>  Startup definitions to load instead of the bundled prelude",
    "      --no-prelude       Start with an empty global scope",
    "  -v, --verbose...       Log more detail (repeat for more)",
    "  -h, --help             Print help",
    "  -V, --version          Print version"] ++ "\n"

end CommandLine

end CellLisp
