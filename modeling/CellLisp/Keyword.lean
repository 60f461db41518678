/-!
The keywords: names that, at the head of a form, receive the arguments of the form unevaluated.
-/

namespace CellLisp

inductive Keyword where
  | quote
  | block
  | conditional
  | list
  | lambda
  | assign
  | define
  | eval
  deriving DecidableEq, Repr

namespace Keyword

def name : Keyword → String
  | quote => "quote"
  | block => "block"
  | conditional => "if"
  | list => "list"
  | lambda => "lambda"
  | assign => "set"
  | define => "def"
  | eval => "eval"

def all : List Keyword := [quote, block, conditional, list, lambda, assign, define, eval]

def named? (s : String) : Option Keyword := all.find? (·.name == s)

def names : List String := all.map name

theorem mem_names_iff {s : String} : s ∈ names ↔ ∃ k, named? s = some k := by
  simp only [names, List.mem_map, named?]
  constructor
  · rintro ⟨k, mem, rfl⟩
    exact Option.isSome_iff_exists.mp (List.find?_isSome.mpr ⟨k, mem, by simp⟩)
  · rintro ⟨k, found⟩
    exact ⟨k, List.mem_of_find?_eq_some found, by simpa using List.find?_some found⟩

end Keyword

end CellLisp
