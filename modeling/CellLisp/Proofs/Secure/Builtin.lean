import CellLisp.Proofs.Secure

/-!
# Builtins keep to a discipline

The results of builtins are atoms, items of their arguments or new cells.
-/

namespace CellLisp

/-! Rules that compute with atoms end with an atom. -/

namespace Builtin

/-- The builtin changes a cell that exists. -/
def Mutates (b : Builtin) : Prop := b = setCar ∨ b = setCdr

theorem name_of_named? {s : String} {b : Builtin} (found : named? s = some b) : b.name = s := by
  have same := List.find?_some found
  exact eq_of_beq same

variable {name : String} {v : Value}

theorem atomic_checked {n : Option Number} (ends : checked name n = .ok v) : v.Atomic := by
  cases n <;> cases ends
  trivial

theorem exists_of_bind_ok {α β : Type} {x : Except Fault α} {f : α → Except Fault β} {b : β}
    (ends : x >>= f = .ok b) : ∃ a, f a = .ok b := by
  cases x with
  | ok a => exact ⟨a, ends⟩
  | error e => cases ends

theorem atomic_fold {op : Number → Number → Option Number} {total : Number} {vs : List Value}
    (ends : fold name op total vs = .ok v) : v.Atomic := by
  induction vs generalizing total with
  | nil =>
    cases ends
    trivial
  | cons w vs ih =>
    obtain ⟨n, ends⟩ := exists_of_bind_ok ends
    cases combined : op total n with
    | none =>
      rw [combined] at ends
      cases ends
    | some next =>
      rw [combined] at ends
      exact ih ends

theorem atomic_onNumbers {op : Number → Number → Option Number} {x y : Value}
    (ends : onNumbers name op x y = .ok v) : v.Atomic := by
  obtain ⟨a, ends⟩ := exists_of_bind_ok ends
  obtain ⟨b, ends⟩ := exists_of_bind_ok ends
  exact atomic_checked ends

theorem atomic_onDivisor {op : Number → Number → Option Number} {x y : Value}
    (ends : onDivisor name op x y = .ok v) : v.Atomic := by
  obtain ⟨a, ends⟩ := exists_of_bind_ok ends
  obtain ⟨b, ends⟩ := exists_of_bind_ok ends
  by_cases zero : b.isZero
  · rw [if_pos zero] at ends
    cases ends
  · rw [if_neg zero] at ends
    exact atomic_checked ends

theorem atomic_magnitude {x : Value} (ends : magnitude name x = .ok v) : v.Atomic := by
  obtain ⟨n, ends⟩ := exists_of_bind_ok ends
  exact atomic_checked ends

theorem atomic_comparison {accepts : Ordering → Bool} {x y : Value}
    (ends : comparison name accepts x y = .ok v) : v.Atomic := by
  obtain ⟨order, ends⟩ := exists_of_bind_ok ends
  cases ends
  trivial

theorem atomic_onIntegers {op : Int64 → Int64 → Int64} {x y : Value}
    (ends : onIntegers name op x y = .ok v) : v.Atomic := by
  obtain ⟨a, ends⟩ := exists_of_bind_ok ends
  obtain ⟨b, ends⟩ := exists_of_bind_ok ends
  cases ends
  trivial

end Builtin

namespace Discipline

open Builtin

variable {D : Discipline} {m : Machine} (kept : D.On m)

include kept

theorem secures_asItems (name : String) {v : Value} (known : D.allows m.store .datum v) :
    D.Secures (asItems name v) m fun vs s => ∀ w ∈ vs, D.allows s .datum w := by
  have isRest : Position.IsRest .datum := fun _ => rfl
  cases v with
  | nil => exact secures_items kept isRest known
  | cons c => exact secures_items kept isRest known
  | number | string | boolean | lambda => exact secures_fail kept _

theorem secures_joined (name : String) {vs : List Value}
    (known : ∀ v ∈ vs, D.allows m.store .datum v) :
    D.Secures (joined name vs) m fun ws s => ∀ w ∈ ws, D.allows s .datum w := by
  induction vs generalizing m with
  | nil => exact secures_pure kept nofun
  | cons v vs ih =>
    obtain ⟨first, rest⟩ := List.forall_mem_cons.mp known
    apply (secures_asItems kept name first).bind
    intro items n keptN since here
    have remaining := ih keptN fun w mem => D.allows_later since (rest w mem)
    apply remaining.bind
    intro others k keptK sinceN there
    apply secures_pure keptK
    intro w mem
    rcases List.mem_append.mp mem with left | right
    · exact D.allows_later sinceN (here w left)
    · exact there w right

theorem secures_atom {result : Except Fault Value} (atomic : ∀ v, result = .ok v → v.Atomic) :
    D.Secures (Eval.ofExcept result) m fun v s => D.allows s .datum v :=
  secures_ofExcept kept fun v ends => D.atom (atomic v ends)

theorem secures_one (name : String) {rule : Value → Eval Value} {args : List Value}
    (secures : ∀ x ∈ args, D.Secures (rule x) m fun v s => D.allows s .datum v) :
    D.Secures (one name rule args) m fun v s => D.allows s .datum v := by
  cases args with
  | nil => exact secures_fail kept _
  | cons x _ => exact secures x List.mem_cons_self

theorem secures_two (name : String) {rule : Value → Value → Eval Value} {args : List Value}
    (secures : ∀ x ∈ args, ∀ y ∈ args, D.Secures (rule x y) m fun v s => D.allows s .datum v) :
    D.Secures (two name rule args) m fun v s => D.allows s .datum v := by
  rcases args with _ | ⟨x, _ | ⟨y, _⟩⟩
  · exact secures_fail kept _
  · exact secures_fail kept _
  · exact secures x List.mem_cons_self y (List.mem_cons_of_mem x List.mem_cons_self)

theorem secures_pureTwo (name : String) {rule : Value → Value → Except Fault Value}
    (args : List Value) (atomic : ∀ x y v, rule x y = .ok v → v.Atomic) :
    D.Secures (pureTwo name rule args) m fun v s => D.allows s .datum v :=
  secures_two kept name fun x _ y _ => secures_atom kept (atomic x y)

theorem secures_onCell (name : String) {k : CellId → Eval Value} (x : Value)
    (secures : ∀ c, x = .cons c → D.Secures (k c) m fun v s => D.allows s .datum v) :
    D.Secures (Eval.ofExcept (asCell name x) >>= k) m fun v s => D.allows s .datum v := by
  cases x with
  | cons c => exact secures c rfl
  | number | string | boolean | nil | lambda => exact secures_fail kept _

theorem secures_rule (b : Builtin) (mutates : b.Mutates → D.changing) {args : List Value}
    (known : ∀ v ∈ args, D.allows m.store .datum v) :
    D.Secures (b.rule args) m fun v s => D.allows s .datum v := by
  have boolean (b : Bool) : D.allows m.store .datum (.boolean b) := D.atom trivial
  cases b with
  | add | mul => exact secures_atom kept fun _ => atomic_fold
  | sub | pow => exact secures_pureTwo kept _ args fun _ _ _ => atomic_onNumbers
  | div | floorDiv | floorMod => exact secures_pureTwo kept _ args fun _ _ _ => atomic_onDivisor
  | less | greater | lessOrEqual | greaterOrEqual =>
    exact secures_pureTwo kept _ args fun _ _ _ => atomic_comparison
  | bitXor | bitAnd | bitOr => exact secures_pureTwo kept _ args fun _ _ _ => atomic_onIntegers
  | abs => exact secures_one kept _ fun x _ => secures_atom kept fun _ => atomic_magnitude
  | equal | and | or => exact secures_pure kept (boolean _)
  | notEqual => exact secures_two kept _ fun x _ y _ => secures_pure kept (boolean _)
  | not => exact secures_one kept _ fun x _ => secures_pure kept (boolean _)
  | cons =>
    apply secures_two kept _
    intro x memX y memY
    obtain ⟨after, later, made⟩ := D.cons kept.store (known x memX) (known y memY)
    exact secures_update kept after later made
  | car =>
    refine secures_one kept _ fun x mem => secures_onCell kept _ x fun c same => ?_
    exact secures_read kept _ (D.car (r := .datum) kept.store (same ▸ known x mem))
  | cdr =>
    refine secures_one kept _ fun x mem => secures_onCell kept _ x fun c same => ?_
    exact secures_read kept _ (D.cdr (r := .datum) kept.store (same ▸ known x mem))
  | setCar =>
    refine secures_two kept _ fun x memX y memY => secures_onCell kept _ x fun c same => ?_
    have changing := mutates (.inl rfl)
    obtain ⟨after, later⟩ :=
      D.setCar changing kept.store (same ▸ known x memX) (known y memY)
    have set : D.Secures (Eval.modify (·.setCar c y)) m fun _ _ => True :=
      secures_update kept after later trivial
    exact set.bind fun _ n keptN since _ => secures_pure keptN (D.allows_later since (known x memX))
  | setCdr =>
    refine secures_two kept _ fun x memX y memY => secures_onCell kept _ x fun c same => ?_
    have changing := mutates (.inr rfl)
    obtain ⟨after, later⟩ :=
      D.setCdr changing kept.store (same ▸ known x memX) (known y memY)
    have set : D.Secures (Eval.modify (·.setCdr c y)) m fun _ _ => True :=
      secures_update kept after later trivial
    exact set.bind fun _ n keptN since _ => secures_pure keptN (D.allows_later since (known x memX))
  | concat =>
    exact (secures_joined kept _ known).bind fun items n keptN _ here => secures_list keptN here
  | length =>
    apply secures_one kept _
    intro x mem
    exact (secures_asItems kept _ (known x mem)).bind fun items n keptN _ _ =>
      secures_atom keptN fun _ => atomic_checked
  | list => exact secures_list kept known

theorem secures_call (name : String)
    (mutates : ∀ b : Builtin, b.name = name → b.Mutates → D.changing) {args : List Value}
    (known : ∀ v ∈ args, D.allows m.store .datum v) :
    D.Secures (call name args) m fun v s => D.allows s .datum v := by
  unfold call
  cases named : named? name with
  | none => exact secures_fail kept _
  | some b =>
    dsimp only
    split
    · exact secures_rule kept b (mutates b (name_of_named? named)) known
    · exact secures_fail kept _

end Discipline

end CellLisp
