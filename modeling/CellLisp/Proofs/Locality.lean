import CellLisp.Proofs.Outcome

/-!
# Definitions are local

A name is bound anew by a definition only, and in the scope that is innermost there; assignment
finds the name bound. Inside of a block or a call the innermost scope is the one that was made for
it. So of the scopes that exist an evaluation gives names at most to the one that is innermost when
it begins, and a block or a call gives names to none.
-/

namespace CellLisp

theorem Machine.binds_of_binder? {m : Machine} {name : String} {i : ScopeId}
    (found : m.binder? name = some i) : (m.store.scope i).binds name = true := by
  have holds := List.find?_some found
  exact holds

theorem Store.binds_bind_of_binds {s : Store} {i : ScopeId} {name : String}
    (bound : (s.scope i).binds name = true) (v : Value) (j : ScopeId) :
    ((s.bind i name v).scope j).binds = (s.scope j).binds := by
  rw [scope_bind]
  split
  · next same =>
    funext other
    rw [Scope.binds_insert]
    by_cases equal : name = other
    · rw [← equal, ← same.1, bound, Bool.or_true]
    · simp [equal]
  · rfl

theorem Machine.Change.binds_eq {m n : Machine} (change : m.Change n) {i : ScopeId}
    (old : i.index < m.store.scopes.size) (outer : m.stack.head? ≠ some i) :
    (n.store.scope i).binds = (m.store.scope i).binds := by
  cases change with
  | none | cons | setCar | setCdr => rfl
  | list vs => rw [Store.scope_congr (Store.list_scopes _ _)]
  | place d => rw [Store.scope_congr (Store.place_scopes _ _)]
  | assign j name v bound => exact Store.binds_bind_of_binds (binds_of_binder? bound) v i
  | define j name v innermost =>
    have other : j ≠ i := fun same => outer (by rw [innermost, same])
    rw [Store.scope_bind, if_neg fun same => other same.1]
  | lambda params body =>
    change ((m.store.newScope .empty).2.scope i).binds = _
    rw [Store.scope_newScope, if_neg (Nat.ne_of_lt old)]

namespace Process

variable {p q : Process}

theorem Move.binds_eq (move : Move p q) {i : ScopeId}
    (old : i.index < p.machine.store.scopes.size) (outer : p.machine.stack.head? ≠ some i) :
    (q.machine.store.scope i).binds = (p.machine.store.scope i).binds := by
  cases move with
  | change regions change => exact change.binds_eq old outer
  | enter r content opens regions fresh store stack =>
    rw [store, Store.scope_newScope, if_neg (Nat.ne_of_lt old)]
  | leave r result before after frames store stack => rw [store, Region.scope_settle_scopes]

/-- The innermost scope is the own scope of a region, or nothing is entered. -/
theorem Balanced.head?_ne {base : List ScopeId} {since : Nat} (balanced : p.Balanced base)
    (dated : p.Dated since) {i : ScopeId} (old : i.index < since) (outer : base.head? ≠ some i) :
    p.machine.stack.head? ≠ some i := by
  rw [show p.machine.stack = _ from balanced]
  cases entered : p.regions with
  | nil => exact outer
  | cons r regions =>
    have recent := (dated.recent r (by rw [entered]; exact List.mem_cons_self)).1
    intro innermost
    have own : r.own = i := by
      cases r <;> exact Option.some.inj innermost
    rw [own] at recent
    exact Nat.not_lt_of_le recent old

end Process

theorem Session.Course.binds_eq {p q : Process} {base : List ScopeId} {since : Nat}
    (course : Course p q) (balanced : p.Balanced base) (dated : p.Dated since)
    (begun : since ≤ p.machine.store.scopes.size) {i : ScopeId} (old : i.index < since)
    (outer : base.head? ≠ some i) :
    (q.machine.store.scope i).binds = (p.machine.store.scope i).binds := by
  induction course with
  | refl => rfl
  | tail before turn ih =>
    have balancedThere := Course.balanced before balanced
    have datedThere := Course.dated before balanced dated begun
    have grown := (Course.grows before balanced).scopes
    rw [← ih]
    apply (turn.move balancedThere).binds_eq
    · exact Nat.lt_of_lt_of_le old (Nat.le_trans begun grown)
    · exact balancedThere.head?_ne datedThere old outer

/-- The stack is the same, nothing is taken away from the scopes, and of those that existed only the
innermost may have got names. -/
structure Machine.Keeps (m n : Machine) : Prop where
  stack : n.stack = m.stack
  grows : m.store.Grows n.store
  outer : ∀ i, i.index < m.store.scopes.size → m.stack.head? ≠ some i →
    (n.store.scope i).binds = (m.store.scope i).binds

variable {m n k : Machine} {depth : Nat}

theorem Machine.Keeps.refl (m : Machine) : m.Keeps m := ⟨rfl, .refl _, fun _ _ _ => rfl⟩

theorem Machine.Keeps.trans (first : m.Keeps n) (second : n.Keeps k) : m.Keeps k where
  stack := second.stack.trans first.stack
  grows := first.grows.trans second.grows
  outer i old outer := by
    have older := Nat.lt_of_lt_of_le old first.grows.scopes
    rw [second.outer i older (by rwa [first.stack]), first.outer i old outer]

theorem Process.Leads.keeps {focus : Focus} {result : Except Fault Value}
    (leads : Leads ⟨focus, [], m⟩ ⟨.done result, [], n⟩) : m.Keeps n := by
  have balanced : Balanced m.stack ⟨focus, [], m⟩ := rfl
  have course := Session.course_of_leads leads
  refine ⟨balanced.leads leads, leads.grows balanced, fun i old outer => ?_⟩
  exact course.binds_eq balanced ⟨.nil, nofun⟩ (Nat.le_refl _) old outer

theorem eval_keeps {v : Value} (ends : (eval depth v m).machine? = some n) : m.Keeps n := by
  obtain ⟨result, leads⟩ := (Process.eval_follows depth v [] m).leads ends
  exact leads.keeps

namespace Evaluation

theorem runBody_keeps {body : Value} (ends : (runBody (eval depth) body m).machine? = some n) :
    m.Keeps n := by
  obtain ⟨result, leads⟩ := (Process.body_follows depth body m).leads ends
  exact leads.keeps

theorem evalStatements_keeps {vs : List Value}
    (ends : (evalStatements (eval depth) vs m).machine? = some n) : m.Keeps n :=
  evalStatements_relates .refl .trans eval_keeps ends

end Evaluation

/-- What runs above a new scope gives no names to the scopes from before. -/
theorem Machine.Keeps.above {content : Scope} {below : List ScopeId}
    (keeps : Keeps ⟨(m.store.newScope content).2, m.locals :: below⟩ n) {i : ScopeId}
    (old : i.index < m.store.scopes.size) :
    (n.store.scope i).binds = (m.store.scope i).binds := by
  have other : m.locals ≠ i := fun same => Nat.lt_irrefl _ (same ▸ old)
  rw [keeps.outer i]
  · change ((m.store.newScope content).2.scope i).binds = _
    rw [Store.scope_newScope, if_neg (Nat.ne_of_lt old)]
  · change i.index < (m.store.newScope content).2.scopes.size
    rw [Store.size_scopes_newScope]
    exact Nat.lt_succ_of_lt old
  · exact fun same => other (Option.some.inj same)

namespace Evaluation

theorem evalBlock_binds_eq {vs : List Value}
    (ends : (evalBlock (eval depth) vs m).machine? = some n) {i : ScopeId}
    (old : i.index < m.store.scopes.size) :
    (n.store.scope i).binds = (m.store.scope i).binds := by
  rw [evalBlock_outcome] at ends
  obtain ⟨result, left, ran, rfl⟩ := Region.machine?_conclude ends
  exact (evalStatements_keeps ran).above old

theorem call_binds_eq {l : LambdaId} {args : List Value}
    (ends : (call (eval depth) l args m).machine? = some n) {i : ScopeId}
    (old : i.index < m.store.scopes.size) :
    (n.store.scope i).binds = (m.store.scope i).binds := by
  by_cases arity : (m.store.lambda l).params.length = args.length
  · rw [call_outcome arity] at ends
    obtain ⟨result, left, ran, rfl⟩ := Region.machine?_conclude ends
    rw [Region.scope_settle_scopes]
    exact (runBody_keeps ran).above old
  · rw [call_eq] at ends
    have failed := Region.openCall_eq_fault arity
    rcases Eval.machine?_bind ends with ⟨g, refused⟩ | ⟨e, k, opened, _⟩
    · rw [failed] at refused
      cases refused
      rfl
    · rw [failed] at opened
      cases opened

end Evaluation

/-- A form with the head `block` is a block of its arguments, or its arguments are no list. -/
theorem eval_block {c : CellId} (head : m.store.car c = .string "block")
    (ends : (eval depth (.cons c) m).machine? = some n) :
    n = m ∨ ∃ below vs, (Evaluation.evalBlock (eval below) vs m).machine? = some n := by
  cases depth with
  | zero => cases ends
  | succ depth =>
    rw [eval_blockForm head] at ends
    have reads := Eval.reads_items (m.store.cdr c) m
    rcases Eval.machine?_bind ends with ⟨f, failed⟩ | ⟨vs, k, listed, rest⟩
    · exact .inl (reads n (by rw [failed]; rfl))
    · cases reads k (by rw [listed]; rfl)
      exact .inr ⟨depth, vs, rest⟩

/-- Of the scopes that exist, an evaluation gives names to the innermost one alone, and it takes
names away from none. A block and a call give names to none. -/
theorem definitions_are_local :
    (∀ depth v m n, (eval depth v m).machine? = some n →
      (∀ i, i.index < m.store.scopes.size → m.stack.head? ≠ some i →
        (n.store.scope i).binds = (m.store.scope i).binds) ∧
      ∀ i name, (m.store.scope i).binds name = true → (n.store.scope i).binds name = true) ∧
    (∀ depth c m n, m.store.car c = .string "block" →
      (eval depth (.cons c) m).machine? = some n → ∀ i, i.index < m.store.scopes.size →
        (n.store.scope i).binds = (m.store.scope i).binds) ∧
    ∀ depth l args m n, (Evaluation.call (eval depth) l args m).machine? = some n →
      ∀ i, i.index < m.store.scopes.size →
        (n.store.scope i).binds = (m.store.scope i).binds := by
  refine ⟨fun depth v m n ends => ?_, fun depth c m n head ends i old => ?_,
    fun depth l args m n ends i old => Evaluation.call_binds_eq ends old⟩
  · have keeps := eval_keeps ends
    exact ⟨keeps.outer, keeps.grows.binds⟩
  · rcases eval_block head ends with rfl | ⟨below, vs, ran⟩
    · rfl
    · exact Evaluation.evalBlock_binds_eq ran old

/-- The last form is the code of a block that defines a name and calls a lambda that does so too. -/
def nestedDefinitions : String :=
  "(def x 1) (def f (lambda (a) (block (def y a) (set x y)))) '(block (def z 2) (f z))"

set_option maxRecDepth 4000 in
theorem definitions_are_local_in_called_block : ∃ m n k, Session.Reached m ∧
    m.stack.head? ≠ some ⟨1⟩ ∧
    m.store.car ⟨26⟩ = .string "block" ∧ (eval 9 (.cons ⟨26⟩) m).machine? = some n ∧
    (Evaluation.call (eval 9) ⟨0⟩ [.int 7] m).machine? = some k ∧
    (n.store.scope ⟨1⟩).binds = (m.store.scope ⟨1⟩).binds ∧
    (n.store.scope Session.globalScope).binds = (m.store.scope Session.globalScope).binds ∧
    (n.store.scope Session.globalScope).binds "x" = true ∧
    (k.store.scope Session.globalScope).binds = (m.store.scope Session.globalScope).binds := by
  obtain ⟨m, left, facts⟩ := (Option.any_eq_true _ _).mp (by decide +kernel :
    (Session.run 9 nestedDefinitions Machine.initial).machine?.any (fun m => decide (
      1 < m.store.scopes.size ∧ m.stack.head? ≠ some ⟨1⟩ ∧
      (m.store.scope Session.globalScope).binds "x" = true ∧
      (m.store.car ⟨26⟩).name? = some "block" ∧
      (eval 9 (.cons ⟨26⟩) m).machine?.isSome = true ∧
      (Evaluation.call (eval 9) ⟨0⟩ [.int 7] m).machine?.isSome = true)) = true)
  obtain ⟨inside, notInnermost, bound, head, blockEnds, callEnds⟩ := of_decide_eq_true facts
  have block := Value.eq_string_of_name? head
  obtain ⟨n, blockLeft⟩ := Option.isSome_iff_exists.mp blockEnds
  obtain ⟨k, callLeft⟩ := Option.isSome_iff_exists.mp callEnds
  obtain ⟨evaluation, blocks, calls⟩ := definitions_are_local
  have global : Session.globalScope.index < m.store.scopes.size := Nat.lt_of_succ_lt inside
  obtain ⟨outer, kept⟩ := evaluation 9 _ m n blockLeft
  exact ⟨m, n, k, .run .initial 9 _ left, notInnermost, block, blockLeft, callLeft,
    outer ⟨1⟩ inside notInnermost, blocks 9 _ m n block blockLeft _ global, kept _ "x" bound,
    calls 9 _ _ m k callLeft _ global⟩

end CellLisp
