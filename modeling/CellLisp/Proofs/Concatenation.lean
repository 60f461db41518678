import Mathlib.Algebra.GroupWithZero.Nat
import CellLisp.Proofs.Untouched

/-!
# Lists are joined in new cells

Joining lists walks along each of them, from the first one on, and then makes a new list of what it
passed. So the result shares no cell with any of them, whether they share cells among themselves or
are one list several times, and the last one is no exception. An argument that is no proper list
stops the walk before anything is made, and those behind it are not looked at.
-/

namespace CellLisp

open Builtin

variable {s : Store} {m n : Machine} {name : String} {v : Value} {args items : List Value}

namespace Store

/-- Nil, or a cell whose chain ends in nil. -/
def Proper (s : Store) (v : Value) : Prop := ∃ items, s.Trail v items .nil

theorem proper_of_trails {lists : List (List Value)}
    (trails : List.Forall₂ (s.Trail · · .nil) args lists) : ∀ v ∈ args, s.Proper v := by
  induction trails with
  | nil => exact List.forall_mem_nil _
  | cons trail _ ih => exact List.forall_mem_cons.mpr ⟨⟨_, trail⟩, ih⟩

theorem Listed.fresh {low : Nat} {cs : List CellId} (listed : s.Listed low v items)
    (spine : s.Spine v cs) : ∀ c ∈ cs, low ≤ c.index := by
  induction listed generalizing cs with
  | nil =>
    cases spine
    exact List.forall_mem_nil _
  | @cons c items fresh inside rest ih =>
    cases spine with
    | stop atom => exact absurd rfl (atom c)
    | cons behind => exact List.forall_mem_cons.mpr ⟨fresh, ih behind⟩

end Store

namespace Builtin

/-- What is reported of a value that is no proper list. -/
def listFault (name : String) : Value → Fault
  | .nil | .cons _ => .evaluation .malformedList
  | v => mistyped name .list v

theorem asItems_eq (walked : m.store.chain v = .proper items) :
    asItems name v m = .value items m := by
  cases v with
  | nil | cons => exact Eval.items_eq walked
  | number | string | boolean | lambda => simp [Store.chain, Store.chainWithin] at walked

theorem asItems_eq_fault (sound : m.store.Sound) (known : v.KnownTo m.store)
    (finite : ¬m.store.Endless v) (improper : ¬m.store.Proper v) :
    asItems name v m = .fault (listFault name v) m := by
  cases v with
  | nil => exact absurd ⟨[], Store.trail_nil⟩ improper
  | cons c =>
    obtain ⟨items, e, trail⟩ := Classical.not_not.mp (mt Store.endless_iff.mpr finite)
    refine (sound.walked_items known).improper items e trail ?_
    rintro rfl
    exact improper ⟨items, trail⟩
  | number | string | boolean | lambda => rfl

/-- All the arguments are walked, or the first one that is no proper list is refused. -/
theorem joined_cases (sound : m.store.Sound) (known : ∀ v ∈ args, v.KnownTo m.store)
    (finite : ∀ v ∈ args, ¬m.store.Endless v) (name : String) :
    (∃ lists, List.Forall₂ (m.store.Trail · · .nil) args lists ∧
      joined name args m = .value lists.flatten m) ∨
    ∃ before v behind, args = before ++ v :: behind ∧ (∀ u ∈ before, m.store.Proper u) ∧
      ¬m.store.Proper v ∧ joined name args m = .fault (listFault name v) m := by
  induction args with
  | nil => exact .inl ⟨[], .nil, rfl⟩
  | cons v vs ih =>
    obtain ⟨knownHere, knownThere⟩ := List.forall_mem_cons.mp known
    obtain ⟨finiteHere, finiteThere⟩ := List.forall_mem_cons.mp finite
    by_cases proper : m.store.Proper v
    · obtain ⟨items, trail⟩ := proper
      have walked : asItems name v m = .value items m :=
        asItems_eq ((sound.walked_chain knownHere).proper items trail)
      have goesOn : joined name (v :: vs) m =
          (do return items ++ (← joined name vs) : Eval _) m := Eval.bind_of_value walked
      rw [goesOn]
      obtain ⟨lists, trails, rest⟩ | ⟨before, w, behind, rfl, good, bad, refused⟩ :=
        ih knownThere finiteThere
      · exact .inl ⟨items :: lists, .cons trail trails, Eval.bind_of_value rest⟩
      · exact .inr ⟨v :: before, w, behind, rfl, List.forall_mem_cons.mpr ⟨⟨items, trail⟩, good⟩,
          bad, Eval.bind_of_fault refused⟩
    · have refused : asItems name v m = .fault (listFault name v) m :=
        asItems_eq_fault sound knownHere finiteHere proper
      exact .inr ⟨[], v, vs, rfl, List.forall_mem_nil _, proper, Eval.bind_of_fault refused⟩

/-- The builtin that counts gives a number exactly if this is the number of items. -/
theorem length_eq_iff {total : Int64} (walked : m.store.chain v = .proper items) :
    call "length" [v] m = .value (.int total) m ↔ total.toInt = items.length := by
  have counts : call "length" [v] m =
      Eval.ofExcept (checked "length" ((Checked.ofInt? items.length).map .int)) m :=
    Eval.bind_of_value (asItems_eq walked)
  rw [counts, ← Checked.ofInt?_eq_some_iff]
  cases Checked.ofInt? items.length with
  | none => exact ⟨nofun, nofun⟩
  | some k =>
    change Outcome.value (Value.int k) m = .value (.int total) m ↔ _
    constructor
    · rintro ⟨⟩
      rfl
    · rintro ⟨⟩
      rfl

end Builtin

/-- The value is a new list of the items of some lists, one list after the other. None of its cells
was there before, and everything that was there stands as it was. -/
structure Appended (m n : Machine) (args : List Value) (lists : List (List Value)) (v : Value) :
    Prop where
  listed : n.store.Listed m.store.cells.size v lists.flatten
  apart : ∀ u ∈ args, ∀ cs ds, n.store.Spine v cs → n.store.Spine u ds → cs.Disjoint ds
  length : ∀ total : Int64, Builtin.call "length" [v] n = .value (.int total) n ↔
    total.toInt = (lists.map List.length).sum
  untouched : m.Untouched n

theorem appended_list (sound : m.store.Sound) (known : ∀ v ∈ args, v.KnownTo m.store)
    (lists : List (List Value)) :
    Appended m ⟨(m.store.list lists.flatten).2, m.stack⟩ args lists
      (m.store.list lists.flatten).1 := by
  have listed := m.store.listed_list lists.flatten
  have untouched := m.store.untouched_list lists.flatten
  refine ⟨listed, fun u mem cs ds spine other c new old => ?_, fun total => ?_, untouched, rfl⟩
  · have inside := other.inside sound untouched.toExtends (known u mem) c old
    exact Nat.not_le_of_lt inside (listed.fresh spine c new)
  · rw [length_eq_iff listed.chain, List.length_flatten]

/-- Joining takes proper lists and nothing else, and makes a new list of their items in new cells.
Else it reports the first argument that is no proper list, and changes nothing. -/
theorem concat_joins_in_new_cells (sound : m.store.Sound) (known : ∀ v ∈ args, v.KnownTo m.store)
    (finite : ∀ v ∈ args, ¬m.store.Endless v) :
    ((∃ v n, Builtin.call "concat" args m = .value v n) ↔ ∀ v ∈ args, m.store.Proper v) ∧
    (∀ v n, Builtin.call "concat" args m = .value v n → ∃ lists,
      List.Forall₂ (m.store.Trail · · .nil) args lists ∧ Appended m n args lists v) ∧
    ((¬∀ v ∈ args, m.store.Proper v) → ∃ before v behind, args = before ++ v :: behind ∧
      (∀ u ∈ before, m.store.Proper u) ∧ ¬m.store.Proper v ∧
      Builtin.call "concat" args m = .fault (listFault "concat" v) m) := by
  rcases joined_cases sound known finite "concat" with
    ⟨lists, trails, walked⟩ | ⟨before, v, behind, rfl, good, bad, refused⟩
  · have ends : Builtin.call "concat" args m =
        .value (m.store.list lists.flatten).1 ⟨(m.store.list lists.flatten).2, m.stack⟩ :=
      Eval.bind_of_value walked
    have proper := Store.proper_of_trails trails
    refine ⟨⟨fun _ => proper, fun _ => ⟨_, _, ends⟩⟩, fun v n same => ?_, absurd proper⟩
    rw [ends] at same
    cases same
    exact ⟨lists, trails, appended_list sound known lists⟩
  · have ends : Builtin.call "concat" (before ++ v :: behind) m = .fault (listFault "concat" v) m :=
      Eval.bind_of_fault refused
    have improper : ¬∀ u ∈ before ++ v :: behind, m.store.Proper u := fun all =>
      bad (all v (by simp))
    rw [ends]
    refine ⟨⟨nofun, fun all => absurd all improper⟩, nofun, fun _ => ?_⟩
    exact ⟨before, v, behind, rfl, good, bad, rfl⟩

/-- Three cells: the lists `(1)` and `(2 1)`, which share one, and the improper `(3 . 4)`. -/
def sharing : Machine :=
  ⟨((oneItem.store.cons (.int 2) (.cons ⟨0⟩)).2.cons (.int 3) (.int 4)).2, oneItem.stack⟩

theorem sound_sharing : sharing.store.Sound := by
  have one : (Value.cons ⟨0⟩).KnownTo oneItem.store := Nat.zero_lt_one
  have two := sound_oneItem.cons (a := .int 2) trivial one
  exact two.cons (a := .int 3) (d := .int 4) trivial trivial

theorem concat_joins_in_new_cells_beside_sharing :
    let args : List Value := [.cons ⟨1⟩, .cons ⟨0⟩, .nil, .cons ⟨1⟩]
    sharing.store.Sound ∧ (∀ v ∈ args, v.KnownTo sharing.store) ∧
      (∀ v ∈ args, ¬sharing.store.Endless v) ∧
      ∃ n lists, Builtin.call "concat" args sharing = .value (.cons ⟨7⟩) n ∧
        List.Forall₂ (sharing.store.Trail · · .nil) args lists ∧
        Appended sharing n args lists (.cons ⟨7⟩) ∧
        n.store.chain (.cons ⟨7⟩) = .proper [.int 2, .int 1, .int 1, .int 2, .int 1] ∧
        Builtin.call "concat" [.cons ⟨1⟩, .cons ⟨2⟩, .int 7] sharing =
          .fault (.evaluation .malformedList) sharing := by
  intro args
  have one : sharing.store.Trail (.cons ⟨0⟩) [.int 1] .nil := .cons Store.trail_nil
  have two : sharing.store.Trail (.cons ⟨1⟩) [.int 2, .int 1] .nil := .cons one
  have none : sharing.store.Trail .nil [] .nil := Store.trail_nil
  have known : ∀ v ∈ args, v.KnownTo sharing.store := by
    have size : sharing.store.cells.size = 3 := rfl
    simp [args, Value.KnownTo, size]
  have finite : ∀ v ∈ args, ¬sharing.store.Endless v := by
    simp [args, two.not_endless, one.not_endless, none.not_endless]
  obtain ⟨_, gives, _⟩ := concat_joins_in_new_cells sound_sharing known finite
  obtain ⟨lists, trails, appended⟩ := gives (.cons ⟨7⟩) _ rfl
  exact ⟨sound_sharing, known, finite, _, lists, rfl, trails, appended, rfl, rfl⟩

end CellLisp
