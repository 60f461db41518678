import CellLisp.Proofs.Discipline
import CellLisp.Proofs.Process.Move

/-!
# Computations that keep to a discipline

Each computation that evaluates nothing leads from a machine that keeps to the discipline to one
that does, however it ends, as long as the values that it is given are allowed. The values that it
ends with are allowed too.
-/

namespace CellLisp

namespace Discipline

open Eval

variable {D : Discipline} {α β : Type} {m : Machine}

theorem On.later {n : Machine} (kept : D.On m) (store : D.store n.store)
    (later : D.later m.store n.store) (same : n.stack = m.stack) : D.On n where
  store := store
  stack i mem := D.scope_later later (kept.stack i (same ▸ mem))

/-- From this machine on, the computation comes to a machine that keeps to the discipline, and any
value that it ends with is good. -/
def Secures (D : Discipline) (x : Eval α) (m : Machine) (good : α → Store → Prop) : Prop :=
  match x m with
  | .value a n => D.On n ∧ D.later m.store n.store ∧ good a n.store
  | .fault _ n => D.On n ∧ D.later m.store n.store
  | .unfinished => True

theorem Secures.bind {x : Eval α} {f : α → Eval β} {good : α → Store → Prop}
    {fine : β → Store → Prop} (first : D.Secures x m good)
    (second : ∀ a n, D.On n → D.later m.store n.store → good a n.store → D.Secures (f a) n fine) :
    D.Secures (x >>= f) m fine := by
  change D.Secures (Eval.bind x f) m fine
  unfold Secures Eval.bind
  unfold Secures at first
  cases outcome : x m with
  | unfinished => trivial
  | fault e n =>
    rw [outcome] at first
    exact first
  | value a n =>
    rw [outcome] at first
    obtain ⟨kept, since, known⟩ := first
    have later := second a n kept since known
    unfold Secures at later
    dsimp only
    cases final : f a n with
    | unfinished => trivial
    | fault e k =>
      rw [final] at later
      exact ⟨later.1, D.trans since later.2⟩
    | value b k =>
      rw [final] at later
      exact ⟨later.1, D.trans since later.2.1, later.2.2⟩

theorem secures_unfinished {good : α → Store → Prop} : D.Secures (unfinished : Eval α) m good :=
  trivial

variable (kept : D.On m)

include kept

theorem secures_of_reads {x : Eval α} (reads : x.Reads) {good : α → Store → Prop}
    (known : ∀ a, x m = .value a m → good a m.store) : D.Secures x m good := by
  have same := reads m
  unfold Secures
  cases outcome : x m with
  | unfinished => trivial
  | fault e n =>
    rw [outcome] at same
    cases same n rfl
    exact ⟨kept, D.refl _⟩
  | value a n =>
    rw [outcome] at same
    cases same n rfl
    exact ⟨kept, D.refl _, known a outcome⟩

theorem secures_pure {good : α → Store → Prop} {a : α} (known : good a m.store) :
    D.Secures (Eval.pure a) m good := ⟨kept, D.refl _, known⟩

theorem secures_fail (f : Fault) {good : α → Store → Prop} :
    D.Secures (fail f : Eval α) m good := ⟨kept, D.refl _⟩

theorem secures_read (f : Store → α) {good : α → Store → Prop} (known : good (f m.store) m.store) :
    D.Secures (read f) m good := ⟨kept, D.refl _, known⟩

theorem secures_ofExcept {good : α → Store → Prop} {result : Except Fault α}
    (known : ∀ a, result = .ok a → good a m.store) : D.Secures (ofExcept result) m good := by
  cases result with
  | ok a => exact secures_pure kept (known a rfl)
  | error f => exact secures_fail kept f

theorem secures_update {f : Store → α × Store} {good : α → Store → Prop}
    (after : D.store (f m.store).2) (later : D.later m.store (f m.store).2)
    (known : good (f m.store).1 (f m.store).2) : D.Secures (update f) m good :=
  ⟨kept.later after later rfl, later, known⟩

theorem secures_items {r : Position} (isRest : r.IsRest) {v : Value}
    (known : D.allows m.store r v) :
    D.Secures (items v) m fun vs s => ∀ w ∈ vs, D.allows s r.item w := by
  refine Secures.bind (secures_read kept _ rfl : D.Secures _ _ fun c s => c = s.chain v) ?_
  rintro chain n keptN since rfl
  cases walked : n.store.chain v with
  | proper vs =>
    exact secures_pure keptN
      (D.chainWithin keptN.store isRest (D.allows_later since known) walked)
  | improper => exact secures_fail keptN _
  | endless => exact secures_unfinished

theorem secures_lookup (name : String) :
    D.Secures (lookup name) m fun v s => D.allows s .datum v := by
  apply secures_of_reads kept (reads_lookup name)
  intro v outcome
  unfold lookup at outcome
  cases found : m.lookup? name with
  | none =>
    rw [found] at outcome
    cases outcome
  | some w =>
    rw [found] at outcome
    cases outcome
    obtain ⟨i, _, bound⟩ := Option.bind_eq_some_iff.mp found
    exact D.bound kept.store bound

theorem secures_assign (name : String) {v : Value} (known : D.allows m.store .datum v) :
    D.Secures (assign name v) m fun _ _ => True := by
  unfold Secures assign Machine.assign?
  cases m.binder? name with
  | none => exact ⟨kept, D.refl _⟩
  | some i =>
    obtain ⟨store, later⟩ := D.bind i name kept.store known
    exact ⟨kept.later store later rfl, later, trivial⟩

theorem secures_define (name : String) {v : Value} (known : D.allows m.store .datum v) :
    D.Secures (define name v) m fun _ _ => True := by
  unfold Secures define Machine.define?
  cases m.stack.head? with
  | none => exact ⟨kept, D.refl _⟩
  | some i =>
    obtain ⟨store, later⟩ := D.bind i name kept.store known
    exact ⟨kept.later store later rfl, later, trivial⟩

theorem secures_list {vs : List Value} (known : ∀ v ∈ vs, D.allows m.store .datum v) :
    D.Secures (update (·.list vs)) m fun v s => D.allows s .datum v := by
  obtain ⟨after, later, made⟩ := D.list kept.store known
  exact secures_update kept after later made

theorem secures_push {i : ScopeId} (inside : D.scope m.store i) :
    D.Secures (push i) m fun _ _ => True := by
  refine ⟨⟨kept.store, fun j mem => ?_⟩, D.refl _, trivial⟩
  rcases List.mem_cons.mp mem with rfl | below
  · exact inside
  · exact kept.stack j below

theorem secures_pop : D.Secures pop m fun i s => D.scope s i := by
  rcases m with ⟨store, _ | ⟨i, rest⟩⟩
  · exact ⟨kept, D.refl _⟩
  · exact ⟨⟨kept.store, fun j mem => kept.stack j (List.mem_cons_of_mem i mem)⟩, D.refl _,
      kept.stack i List.mem_cons_self⟩

theorem secures_newScope (content : Scope)
    (known : ∀ name v, content.get? name = some v → D.allows m.store .datum v) :
    D.Secures (update (·.newScope content)) m fun i s => D.scope s i := by
  obtain ⟨after, later, made⟩ := D.newScope kept.store known
  exact secures_update kept after later made

theorem secures_setLambdaScope (l : LambdaId) {i : ScopeId} (inside : D.scope m.store i) :
    D.Secures (modify (·.setLambdaScope l i)) m fun _ _ => True := by
  obtain ⟨after, later⟩ := D.setLambdaScope l kept.store inside
  exact secures_update kept after later trivial

open Evaluation

theorem secures_makeLambda (params : Value) {body : Value} (known : D.allows m.store .form body) :
    D.Secures (makeLambda params body) m fun v s => D.allows s .datum v := by
  have named : D.Secures (parameters params) m fun _ _ => True :=
    secures_of_reads kept (reads_parameters params) fun _ _ => trivial
  apply named.bind
  intro names n keptN since _
  apply (secures_newScope keptN .empty nofun).bind
  intro scope k keptK sinceN inside
  have code := D.allows_later (D.trans since sinceN) known
  have made : D.Secures (update (·.newLambda ⟨names, body, scope⟩)) k
      fun l s => D.allows s .datum (.lambda l) := by
    obtain ⟨after, later, made⟩ := D.newLambda (f := ⟨names, body, scope⟩) keptK.store code inside
    exact secures_update keptK after later made
  exact made.bind fun l _ keptL _ known => secures_pure keptL known

theorem secures_quotation? {v : Value} (known : D.allows m.store .operand v) :
    D.Secures (quotation? v) m fun code s => ∀ w, code = some w → D.allows s .form w := by
  apply secures_of_reads kept (reads_quotation? v)
  intro code outcome w found
  subst found
  unfold quotation? at outcome
  rw [read_bind] at outcome
  cases after : m.store.afterHead? "quote" v with
  | none =>
    rw [after] at outcome
    cases outcome
  | some rest =>
    rw [after] at outcome
    dsimp only at outcome
    rw [read_bind] at outcome
    cases walked : m.store.chain rest with
    | improper =>
      rw [walked] at outcome
      cases outcome
    | endless =>
      rw [walked] at outcome
      cases outcome
    | proper vs =>
      rw [walked] at outcome
      rcases vs with _ | ⟨x, _ | ⟨_, _⟩⟩ <;> cases outcome
      have behind : D.allows m.store .forms rest := D.afterHead? kept.store known after
      exact D.chainWithin kept.store (fun _ => rfl) behind walked _ List.mem_cons_self

theorem secures_quotedCode {v : Value} (known : D.allows m.store .operand v) :
    D.Secures (Process.quotedCode v) m fun code s => D.allows s .form code := by
  apply (secures_quotation? kept known).bind
  intro code n keptN _ known
  cases code with
  | some code => exact secures_pure keptN (known code rfl)
  | none => exact ⟨keptN, D.refl _⟩

theorem secures_openBlock : D.Secures Region.openBlock m fun _ _ => True := by
  apply (secures_newScope kept .empty nofun).bind
  intro i n keptN _ inside
  exact (secures_push keptN inside).bind fun _ k keptK _ _ => secures_pure keptK trivial

theorem secures_openCall {l : LambdaId} (valid : D.allows m.store .datum (.lambda l))
    {args : List Value} (known : ∀ v ∈ args, D.allows m.store .datum v) :
    D.Secures (Region.openCall l args) m fun e s => D.allows s .form e.1 := by
  have found : D.Secures (Eval.read (·.lambda l)) m fun f s => f = s.lambda l :=
    secures_read kept _ rfl
  apply found.bind
  intro f n keptN since same
  by_cases arity : f.params.length = args.length
  · rw [if_neg fun different => different arity]
    have bound : ∀ name v, (Scope.ofArguments f.params args).get? name = some v →
        D.allows n.store .datum v := fun name v bound =>
      D.allows_later since (known v (Scope.mem_of_get?_ofArguments bound))
    apply (secures_newScope keptN _ bound).bind
    intro locals k keptK sinceN inside
    have owned : D.scope k.store f.scope := by
      subst same
      exact D.scope_later sinceN (D.owned keptN.store (D.allows_later since valid))
    have body : D.allows k.store .form f.body := by
      subst same
      exact D.allows_later sinceN (D.body l keptN.store)
    apply (secures_push keptK owned).bind
    intro _ k₁ kept₁ since₁ _
    apply (secures_push kept₁ (D.scope_later since₁ inside)).bind
    intro _ k₂ kept₂ since₂ _
    exact secures_pure kept₂ (D.allows_later (D.trans since₁ since₂) body)
  · rw [if_pos arity]
    exact secures_fail keptN _

theorem secures_adopt (v : Value) {i : ScopeId} (inside : D.scope m.store i) :
    D.Secures (adopt v i) m fun _ _ => True := by
  cases v with
  | lambda l => exact secures_setLambdaScope kept l inside
  | number | string | boolean | nil | cons => exact secures_pure kept trivial

theorem secures_leave (r : Region) {result : Except Fault Value}
    (known : ∀ v, result = .ok v → D.allows m.store .datum v) :
    D.Secures (r.leave result) m fun v s => D.allows s .datum v := by
  cases r with
  | block inner =>
    apply (secures_pop kept).bind
    intro _ n keptN since _
    exact secures_ofExcept keptN fun v ends => D.allows_later since (known v ends)
  | call callee locals owned =>
    apply (secures_pop kept).bind
    intro used n keptN since inside
    apply (secures_pop keptN).bind
    intro own k keptK sinceN ownInside
    have ends : D.Secures (Eval.ofExcept result) k fun v s => D.allows s .datum v :=
      secures_ofExcept keptK fun v ends => D.allows_later (D.trans since sinceN) (known v ends)
    apply ends.bind
    intro v k₁ kept₁ since₁ valueKnown
    have usedInside := D.scope_later (D.trans sinceN since₁) inside
    apply (secures_adopt kept₁ v usedInside).bind
    intro _ k₂ kept₂ since₂ _
    have backInside := D.scope_later (D.trans since₁ since₂) ownInside
    exact (secures_setLambdaScope kept₂ callee backInside).bind fun _ k₃ kept₃ since₃ _ =>
      secures_pure kept₃ (D.allows_later (D.trans since₂ since₃) valueKnown)

end Discipline

end CellLisp
