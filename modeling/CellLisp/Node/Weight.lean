import CellLisp.Node.Sugar

/-!
The weight of a node. A quote mark weighs as much as what takes its place, and a block no more than
its separators, so undoing the sugar of a group adds no weight.
-/

namespace CellLisp.Node

mutual

def weight : Node → Nat
  | leaf t => if (leaf t).isQuote then 2 else 1
  | group children => weightOf children + 1

def weightOf : List Node → Nat
  | [] => 0
  | n :: ns => n.weight + weightOf ns

end

theorem weight_pos (n : Node) : 0 < n.weight := by
  cases n <;> simp only [weight]
  · split <;> decide
  · omega

theorem weightOf_lt_cons (n : Node) (ns : List Node) : weightOf ns < weightOf (n :: ns) := by
  have := weight_pos n
  simp only [weightOf]
  omega

theorem weightOf_lt_group (children ns : List Node) :
    weightOf children < weightOf (group children :: ns) := by
  simp only [weightOf, weight]
  omega

theorem weight_of_isQuote {n : Node} (h : n.isQuote = true) : n.weight = 2 := by
  cases n with
  | leaf t => simp [weight, h]
  | group => simp [isQuote, isMark] at h

theorem weight_quoteTimes (depth : Nat) (n : Node) :
    (quoteTimes depth n).weight = 2 * depth + n.weight := by
  induction depth with
  | zero => simp [quoteTimes]
  | succ depth ih =>
    simp only [quoteTimes, weight, weightOf, name, isQuote, isMark, ih]
    simp
    omega

theorem weightOf_applyQuotes {depth : Nat} {ns out : List Node}
    (h : applyQuotes depth ns = .ok out) : weightOf out = 2 * depth + weightOf ns := by
  induction ns generalizing depth out with
  | nil =>
    simp only [applyQuotes] at h
    split at h
    · cases h
      simp_all [weightOf]
    · cases h
  | cons n ns ih =>
    simp only [applyQuotes] at h
    split at h
    next quote =>
      rw [ih h, weightOf, weight_of_isQuote quote]
      omega
    next =>
      cases rest : applyQuotes 0 ns with
      | error f => simp [rest, bind, Except.bind] at h
      | ok more =>
        simp only [rest, bind, Except.bind, pure, Except.pure, Except.ok.injEq] at h
        subst h
        rw [weightOf, weightOf, weight_quoteTimes, ih rest]
        omega

theorem weightOf_filter_separators (ns : List Node) :
    weightOf (ns.filter (!·.isSeparator)) ≤ weightOf ns := by
  induction ns with
  | nil => exact Nat.le_refl _
  | cons n ns ih =>
    rw [List.filter_cons]
    split <;> simp only [weightOf] <;> omega

theorem weightOf_filter_lt {ns : List Node} (h : ns.any isSeparator = true) :
    weightOf (ns.filter (!·.isSeparator)) < weightOf ns := by
  induction ns with
  | nil => simp at h
  | cons n ns ih =>
    rw [List.filter_cons]
    have le := weightOf_filter_separators ns
    have pos := weight_pos n
    split
    next keep =>
      have := ih (by simp_all)
      simp only [weightOf]
      omega
    next => simp only [weightOf]; omega

theorem weightOf_asBlock (ns : List Node) : weightOf (asBlock ns) ≤ weightOf ns := by
  unfold asBlock
  split
  next h =>
    have := weightOf_filter_lt h
    simp only [weightOf, name, weight, isQuote, isMark]
    simp
    omega
  next => exact Nat.le_refl _

theorem weightOf_unsugar {ns out : List Node} (h : unsugar ns = .ok out) :
    weightOf out ≤ weightOf ns := by
  have := weightOf_applyQuotes h
  have := weightOf_asBlock ns
  omega

end CellLisp.Node
