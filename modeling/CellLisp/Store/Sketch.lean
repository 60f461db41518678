import CellLisp.Store

/-!
The printed form of a value. The value is unfolded to a finite tree, in which a cell that is met
again inside itself is only marked, and the tree is laid out as text.
-/

namespace CellLisp

inductive Sketch where
  | leaf (text : String)
  | nil
  | pair (car cdr : Sketch)
  | again
  deriving DecidableEq, Repr

namespace Sketch

mutual

def chars : Sketch → List Char
  | leaf text => text.toList
  | nil => ['(', ')']
  | pair a d => '(' :: a.chars ++ d.tailChars
  | again => ['.', '.', '.']

/-- The rest of a list after an element, with the parenthesis that closes it. -/
def tailChars : Sketch → List Char
  | nil => [')']
  | pair a d => ' ' :: a.chars ++ d.tailChars
  | again => [' ', '.', '.', '.', ')']
  | leaf text => ' ' :: '.' :: ' ' :: text.toList ++ [')']

end

def text (t : Sketch) : String := String.ofList t.chars

end Sketch

def parameterText (params : List String) : String := "(" ++ " ".intercalate params ++ ")"

namespace Store

/-- How many cells of the store are not open. -/
def closedCells (s : Store) (opened : List CellId) : Nat :=
  (List.range s.cells.size).countP fun i => ⟨i⟩ ∉ opened

theorem closedCells_lt {s : Store} {opened : List CellId} {c : CellId} (fresh : c ∉ opened)
    (inside : c.index < s.cells.size) : s.closedCells (c :: opened) < s.closedCells opened := by
  have mem : c.index ∈ List.range s.cells.size := List.mem_range.mpr inside
  unfold closedCells
  generalize List.range s.cells.size = indices at mem
  induction indices with
  | nil => cases mem
  | cons i is ih =>
    have le : is.countP (fun i => ⟨i⟩ ∉ c :: opened) ≤ is.countP (fun i => ⟨i⟩ ∉ opened) :=
      List.countP_mono_left fun i _ h => by simp_all
    simp only [List.countP_cons]
    by_cases eq : c.index = i
    · subst eq
      simp only [List.mem_cons, true_or, not_true, decide_false, fresh, not_false_eq_true,
        decide_true]
      simp
      simp at le
      omega
    · have lt := ih (by simpa [eq] using mem)
      have : (⟨i⟩ : CellId) ≠ c := fun h => eq (by rw [← h])
      simp only [List.mem_cons, this, false_or]
      simp only [List.mem_cons] at lt
      omega

/-- The finite tree of a value inside open cells. -/
def sketchWithin (s : Store) (opened : List CellId) : Value → Sketch
  | .number n => .leaf n.text
  | .string t => .leaf t
  | .boolean b => .leaf (if b then "true" else "false")
  | .nil => .nil
  | .lambda l => .leaf ("<lambda " ++ parameterText (s.lambda l).params ++ ">")
  | .cons c =>
    if _fresh : c ∉ opened then
      if _inside : c.index < s.cells.size then
        .pair (s.sketchWithin (c :: opened) (s.car c)) (s.sketchWithin (c :: opened) (s.cdr c))
      else .pair .nil .nil
    else .again
termination_by s.closedCells opened
decreasing_by all_goals exact closedCells_lt _fresh _inside

def sketch (s : Store) (v : Value) : Sketch := s.sketchWithin [] v

def shown (s : Store) (v : Value) : String := (s.sketch v).text

end Store

end CellLisp
