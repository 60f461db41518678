import CellLisp.Builtin
import CellLisp.Eval
import CellLisp.Number.Arithmetic

/-!
What each builtin does with its arguments, which are values by then. The arity comes first, then
the types of the arguments from left to right, then the operation.
-/

namespace CellLisp.Builtin

def mistyped (name : String) (expected : Expectation) (got : Value) : Fault :=
  .builtin (.type name expected got.kind)

def asNumber (name : String) : Value → Except Fault Number
  | .number n => .ok n
  | v => .error (mistyped name .number v)

def asInteger (name : String) : Value → Except Fault Int64
  | .number (.int n) => .ok n
  | v => .error (mistyped name .integer v)

def asCell (name : String) : Value → Except Fault CellId
  | .cons c => .ok c
  | v => .error (mistyped name .cell v)

/-- The items of an argument that must be a list. -/
def asItems (name : String) (v : Value) : Eval (List Value) :=
  match v with
  | .nil | .cons _ => Eval.items v
  | v => Eval.fail (mistyped name .list v)

def checked (name : String) : Option Number → Except Fault Value
  | some n => .ok (.number n)
  | none => .error (.builtin (.overflow name))

/-- Combines numbers from left to right. Each argument is looked at only when its turn comes. -/
def fold (name : String) (op : Number → Number → Option Number) (total : Number) :
    List Value → Except Fault Value
  | [] => .ok (.number total)
  | v :: vs => do
    let n ← asNumber name v
    match op total n with
    | some total => fold name op total vs
    | none => .error (.builtin (.overflow name))

def onNumbers (name : String) (op : Number → Number → Option Number) (x y : Value) :
    Except Fault Value := do
  let a ← asNumber name x
  let b ← asNumber name y
  checked name (op a b)

/-- An operation that has no result for a zero divisor. -/
def onDivisor (name : String) (op : Number → Number → Option Number) :
    Value → Value → Except Fault Value := fun x y => do
  let a ← asNumber name x
  let b ← asNumber name y
  if b.isZero then .error (.builtin (.divisionByZero name)) else checked name (op a b)

def magnitude (name : String) (x : Value) : Except Fault Value := do
  checked name (← asNumber name x).abs

def allEqual : List Value → Bool
  | [] => true
  | v :: vs => vs.all v.equal

/-- Numbers are ordered with numbers, and strings with strings by code points. -/
def order? (name : String) : Value → Value → Except Fault (Option Ordering)
  | .number a, .number b => .ok (a.order? b)
  | .string a, .string b => .ok (some (compare a b))
  | .number _, v => .error (mistyped name .comparable v)
  | v, _ => .error (mistyped name .comparable v)

/-- Values without an order satisfy no comparison. -/
def comparison (name : String) (accepts : Ordering → Bool) (x y : Value) : Except Fault Value := do
  return .boolean ((← order? name x y).any accepts)

def onIntegers (name : String) (op : Int64 → Int64 → Int64) (x y : Value) : Except Fault Value := do
  let a ← asInteger name x
  let b ← asInteger name y
  return .int (op a b)

/-- The elements of several lists, one list after the other. -/
def joined (name : String) : List Value → Eval (List Value)
  | [] => return []
  | v :: vs => do
    let items ← asItems name v
    return items ++ (← joined name vs)

def lengthOf (name : String) (v : Value) : Eval Value := do
  let items ← asItems name v
  Eval.ofExcept (checked name ((Checked.ofInt? items.length).map .int))

def one (name : String) (rule : Value → Eval Value) : List Value → Eval Value
  | x :: _ => rule x
  | _ => Eval.fail (.internal (.missingArgument name))

def two (name : String) (rule : Value → Value → Eval Value) : List Value → Eval Value
  | x :: y :: _ => rule x y
  | _ => Eval.fail (.internal (.missingArgument name))

/-- A rule for two arguments that neither reads nor changes the store. -/
def pureTwo (name : String) (rule : Value → Value → Except Fault Value) : List Value → Eval Value :=
  two name fun x y => Eval.ofExcept (rule x y)

def rule (b : Builtin) (args : List Value) : Eval Value :=
  match b with
  | add => Eval.ofExcept (fold b.name Number.add (.int 0) args)
  | mul => Eval.ofExcept (fold b.name Number.mul (.int 1) args)
  | sub => pureTwo b.name (onNumbers b.name Number.sub) args
  | div => pureTwo b.name (onDivisor b.name fun x y => some (x.div y)) args
  | floorDiv => pureTwo b.name (onDivisor b.name Number.floorDiv) args
  | floorMod => pureTwo b.name (onDivisor b.name Number.floorMod) args
  | pow => pureTwo b.name (onNumbers b.name Number.pow) args
  | abs => one b.name (fun x => Eval.ofExcept (magnitude b.name x)) args
  | equal => return .boolean (allEqual args)
  | notEqual => two b.name (fun x y => return .boolean (!x.equal y)) args
  | and => return .boolean (args.all Value.truth)
  | or => return .boolean (args.any Value.truth)
  | not => one b.name (fun x => return .boolean (!x.truth)) args
  | less => pureTwo b.name (comparison b.name Ordering.isLT) args
  | greater => pureTwo b.name (comparison b.name Ordering.isGT) args
  | lessOrEqual => pureTwo b.name (comparison b.name Ordering.isLE) args
  | greaterOrEqual => pureTwo b.name (comparison b.name Ordering.isGE) args
  | bitXor => pureTwo b.name (onIntegers b.name (· ^^^ ·)) args
  | bitAnd => pureTwo b.name (onIntegers b.name (· &&& ·)) args
  | bitOr => pureTwo b.name (onIntegers b.name (· ||| ·)) args
  | cons => two b.name (fun x y => Eval.update fun s => s.cons x y) args
  | car => one b.name (fun x => do
      let c ← Eval.ofExcept (asCell b.name x)
      Eval.read (·.car c)) args
  | cdr => one b.name (fun x => do
      let c ← Eval.ofExcept (asCell b.name x)
      Eval.read (·.cdr c)) args
  | setCar => two b.name (fun x y => do
      let c ← Eval.ofExcept (asCell b.name x)
      Eval.modify (·.setCar c y)
      return x) args
  | setCdr => two b.name (fun x y => do
      let c ← Eval.ofExcept (asCell b.name x)
      Eval.modify (·.setCdr c y)
      return x) args
  | concat => do
    let items ← joined b.name args
    Eval.update fun s => s.list items
  | length => one b.name (lengthOf b.name) args
  | list => Eval.update fun s => s.list args

/-- Calls the builtin of this name. -/
def call (name : String) (args : List Value) : Eval Value :=
  match named? name with
  | none => Eval.fail (.internal (.noBuiltin name))
  | some b =>
    if b.arity.admits args.length then b.rule args
    else Eval.fail (.builtin (.arity name b.arity args.length))

end CellLisp.Builtin
