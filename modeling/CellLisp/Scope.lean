import CellLisp.Value

/-!
Scopes: a value for each of finitely many names.
-/

namespace CellLisp

structure Scope where
  bindings : List (String × Value)

namespace Scope

def empty : Scope := ⟨[]⟩

def find (name : String) : List (String × Value) → Option Value
  | [] => none
  | (n, v) :: rest => if n = name then some v else find name rest

def replace (name : String) (v : Value) : List (String × Value) → List (String × Value)
  | [] => [(name, v)]
  | (n, w) :: rest => if n = name then (n, v) :: rest else (n, w) :: replace name v rest

def get? (s : Scope) (name : String) : Option Value := find name s.bindings

def insert (s : Scope) (name : String) (v : Value) : Scope := ⟨replace name v s.bindings⟩

def binds (s : Scope) (name : String) : Bool := (s.get? name).isSome

@[simp] theorem get?_empty (name : String) : empty.get? name = none := rfl

theorem find_replace (name other : String) (v : Value) (bs : List (String × Value)) :
    find other (replace name v bs) = if name = other then some v else find other bs := by
  induction bs with
  | nil => rfl
  | cons b bs ih =>
    simp only [replace]
    split <;> simp only [find, ih] <;> grind

@[simp] theorem get?_insert (s : Scope) (name other : String) (v : Value) :
    (s.insert name v).get? other = if name = other then some v else s.get? other :=
  find_replace name other v s.bindings

/-- Binds parameters to arguments from left to right; the last of two equal parameters counts. -/
def ofArguments (params : List String) (args : List Value) : Scope :=
  (params.zip args).foldl (fun s b => s.insert b.1 b.2) empty

end Scope

end CellLisp
