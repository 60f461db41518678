import CellLisp.Fault

/-!
The builtin procedures, by name, and how many arguments each takes.
-/

namespace CellLisp

inductive Builtin where
  | add
  | sub
  | div
  | floorDiv
  | mul
  | floorMod
  | pow
  | abs
  | equal
  | notEqual
  | and
  | or
  | not
  | less
  | greater
  | lessOrEqual
  | greaterOrEqual
  | bitXor
  | bitAnd
  | bitOr
  | cons
  | car
  | cdr
  | setCar
  | setCdr
  | concat
  | length
  | list
  deriving DecidableEq, Repr

namespace Builtin

def name : Builtin → String
  | add => "+"
  | sub => "-"
  | div => "/"
  | floorDiv => "//"
  | mul => "*"
  | floorMod => "%"
  | pow => "**"
  | abs => "abs"
  | equal => "="
  | notEqual => "!="
  | and => "&&"
  | or => "||"
  | not => "!"
  | less => "<"
  | greater => ">"
  | lessOrEqual => "<="
  | greaterOrEqual => ">="
  | bitXor => "^"
  | bitAnd => "&"
  | bitOr => "|"
  | cons => "cons"
  | car => "car"
  | cdr => "cdr"
  | setCar => "set_car"
  | setCdr => "set_cdr"
  | concat => "concat"
  | length => "length"
  | list => "list"

def arity : Builtin → Arity
  | add | mul | concat | list => .any
  | abs | not | car | cdr | length => .exactly 1
  | equal | and | or => .atLeast 2
  | _ => .exactly 2

def all : List Builtin :=
  [add, sub, div, floorDiv, mul, floorMod, pow, abs, equal, notEqual, and, or, not, less, greater,
   lessOrEqual, greaterOrEqual, bitXor, bitAnd, bitOr, cons, car, cdr, setCar, setCdr, concat,
   length, list]

def named? (s : String) : Option Builtin := all.find? (·.name == s)

def names : List String := all.map name

theorem mem_names_iff {s : String} : s ∈ names ↔ ∃ b, named? s = some b := by
  simp only [names, List.mem_map, named?]
  constructor
  · rintro ⟨b, mem, rfl⟩
    exact Option.isSome_iff_exists.mp (List.find?_isSome.mpr ⟨b, mem, by simp⟩)
  · rintro ⟨b, found⟩
    exact ⟨b, List.mem_of_find?_eq_some found, by simpa using List.find?_some found⟩

end Builtin

end CellLisp
