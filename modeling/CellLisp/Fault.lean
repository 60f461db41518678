import CellLisp.Token

/-!
What can go wrong, by cause, with the text that reports it.
-/

namespace CellLisp

/-- Offsets count characters of the text given to the lexer. -/
inductive LexicalFault where
  | invalidToken (text : String) (offset : Nat)
  | unexpectedCharacter (c : Char) (offset : Nat)
  deriving DecidableEq, Repr

def LexicalFault.message : LexicalFault → String
  | invalidToken text offset =>
    "invalid token \"" ++ text ++ "\" at character " ++ toString offset
  | unexpectedCharacter c offset =>
    "unexpected character '" ++ String.singleton c ++ "' at character " ++ toString offset

inductive SyntaxFault where
  | unbalancedParens
  | danglingQuote
  | unexpectedMark (m : Mark)
  deriving DecidableEq, Repr

def SyntaxFault.message : SyntaxFault → String
  | unbalancedParens => "unbalanced parentheses"
  | danglingQuote => "a quote mark must be followed by an expression"
  | unexpectedMark m => "unexpected token " ++ m.text

/-- Why the arguments of a form are malformed. Values are given as they are printed. -/
inductive Malformation where
  | notName (shown : String)
  | parametersNotList (shown : String)
  | parameterNotName (shown : String)
  deriving DecidableEq, Repr

def Malformation.message : Malformation → String
  | notName shown => shown ++ " is not a name"
  | parametersNotList shown => "parameters must be a list, not " ++ shown
  | parameterNotName shown => "parameter " ++ shown ++ " is not a name"

/-- Values in these causes are given as they are printed. -/
inductive EvaluationFault where
  | unbound (name : String)
  | arity (form : String) (expected got : Nat)
  | nonBooleanCondition (shown : String)
  | malformedArguments (form : String) (why : Malformation)
  | malformedEval (shown : String)
  | notCallable (shown : String)
  | emptyApplication
  | emptyBlock
  | malformedList
  deriving DecidableEq, Repr

def EvaluationFault.message : EvaluationFault → String
  | unbound name => "variable \"" ++ name ++ "\" is not bound in any scope"
  | arity form expected got =>
    form ++ " takes " ++ toString expected ++ " argument(s) but got " ++ toString got
  | nonBooleanCondition shown => "condition evaluated to " ++ shown ++ ", which is not a boolean"
  | malformedArguments form why => "malformed arguments to " ++ form ++ ": " ++ why.message
  | malformedEval shown => "argument to eval must be of the form (quote X), not " ++ shown
  | notCallable shown => shown ++ " is not a lambda and can't be called"
  | emptyApplication => "can't evaluate an empty application ()"
  | emptyBlock => "a block needs at least one expression"
  | malformedList => "malformed list: chain does not end in ()"

/-- How many arguments a builtin takes. -/
inductive Arity where
  | exactly (n : Nat)
  | atLeast (n : Nat)
  | any
  deriving DecidableEq, Repr

def Arity.admits : Arity → Nat → Bool
  | exactly n, count => count == n
  | atLeast n, count => n ≤ count
  | any, _ => true

def Arity.text : Arity → String
  | exactly n => toString n
  | atLeast n => "at least " ++ toString n
  | any => "any number of"

/-- The kind of a value, as the language names it. -/
inductive Kind where
  | number
  | string
  | boolean
  | nil
  | cons
  | lambda
  deriving DecidableEq, Repr

def Kind.text : Kind → String
  | number => "number"
  | string => "string"
  | boolean => "boolean"
  | nil => "nil"
  | cons => "cons"
  | lambda => "lambda"

/-- What a builtin wants in an argument. -/
inductive Expectation where
  | number
  | integer
  | cell
  | list
  | comparable
  deriving DecidableEq, Repr

def Expectation.text : Expectation → String
  | number => "a number"
  | integer => "an integer"
  | cell => "a cons cell"
  | list => "a list"
  | comparable => "two numbers or two strings"

inductive BuiltinFault where
  | arity (name : String) (expected : Arity) (got : Nat)
  | type (name : String) (expected : Expectation) (got : Kind)
  | divisionByZero (name : String)
  | overflow (name : String)
  deriving DecidableEq, Repr

def BuiltinFault.message : BuiltinFault → String
  | arity name expected got =>
    name ++ " takes " ++ expected.text ++ " argument(s) but got " ++ toString got
  | type name expected got => name ++ " expects " ++ expected.text ++ ", not " ++ got.text
  | divisionByZero name => name ++ ": division by zero"
  | overflow name => name ++ ": integer overflow"

/-- Faults of the evaluator itself, which no program can cause. -/
inductive InternalFault where
  | noScope
  | noBuiltin (name : String)
  | noRule (keyword : String)
  | missingArgument (name : String)
  deriving DecidableEq, Repr

def InternalFault.message : InternalFault → String
  | noScope => "Something went wrong internally; popped a scope from an empty environment."
  | noBuiltin name => "no builtin named \"" ++ name ++ "\""
  | noRule keyword =>
    "Something went wrong internally; no evaluation rule for the keyword " ++ keyword ++ "."
  | missingArgument name => "Something went wrong internally; " ++ name ++ " lacks an argument."

inductive Fault where
  | lexical (f : LexicalFault)
  | syntactic (f : SyntaxFault)
  | evaluation (f : EvaluationFault)
  | builtin (f : BuiltinFault)
  | internal (f : InternalFault)
  deriving DecidableEq, Repr

def Fault.message : Fault → String
  | lexical f => f.message
  | syntactic f => f.message
  | evaluation f => f.message
  | builtin f => f.message
  | internal f => f.message

end CellLisp
