import CellLisp.Proofs.Locality
import CellLisp.Proofs.Process.Likeness
import CellLisp.Proofs.Relocation

/-!
# A call behind a detour

A lambda may be called directly or by a call that its caller makes in turn. Then the scopes of that
call stand between its own scopes and those of the caller. The two calls are in step as long as the
scopes in between bind nothing that is looked up through them. They do not come to bind further
names: a definition goes to the innermost scope, which the call has made itself, and an assignment
to a scope that binds the name already.
-/

namespace CellLisp

/-- A call, and how it is made behind a detour: what stands in between, which names may be bound
there, and the store as it begins. -/
structure Detour where
  move : ScopeId → ScopeId
  call : Region
  between : List ScopeId
  caller : List ScopeId
  names : List String
  start : Nat
  store : Store
  fixed : ∀ i ∈ caller, move i = i
  apart : ∀ i ∈ between, ∀ j : ScopeId, start ≤ j.index → move j ≠ i
  made : start ≤ call.own.index

variable {rs : List Region} {m n : Machine} {name : String} {v : Value}

section Relocated

variable {move : ScopeId → ScopeId} (relocated : m.store.Relocated move n.store)

include relocated

theorem Machine.locals_relocated : n.locals = move m.locals := relocated.next.symm

theorem Machine.region_relocated (l : LambdaId) : n.region l = (m.region l).relocate move := by
  rw [Machine.region, Machine.region, relocated.lambda, Machine.locals_relocated relocated]
  rfl

end Relocated

namespace Detour

variable {D : Detour}

/-- The scopes of the call and of the regions in it. -/
def top (D : Detour) (rs : List Region) : List ScopeId := (rs ++ [D.call]).flatMap Region.scopes

theorem top_cons (r : Region) (rs : List Region) : D.top (r :: rs) = r.scopes ++ D.top rs := rfl

/-- Inside of the call, made directly on the first machine and behind the detour on the second. -/
structure Alike (D : Detour) (rs : List Region) (m n : Machine) : Prop where
  store : m.store.Relocated D.move n.store
  grown : D.start ≤ m.store.scopes.size
  regions : ∀ r ∈ rs, D.start ≤ r.own.index
  stack : m.stack = D.top rs ++ D.caller
  detour : n.stack = (D.top rs).map D.move ++ D.between ++ D.caller
  binds : ∀ i ∈ D.between, ∀ name, (n.store.scope i).binds name = true → name ∈ D.names
  kept : ∀ i, i.index < D.store.scopes.size → (∀ j, D.move j ≠ i) →
    n.store.scope i = D.store.scope i

/-- A scope of the call binds the name, or nothing in between does. -/
def Settles (D : Detour) (rs : List Region) (m : Machine) (name : String) : Prop :=
  name ∈ D.names → ∃ i ∈ D.top rs, (m.store.scope i).binds name = true

theorem exists_top (regions : ∀ r ∈ rs, D.start ≤ r.own.index) :
    ∃ i rest, D.top rs = i :: rest ∧ D.start ≤ i.index := by
  have scopes (r : Region) : ∃ rest, r.scopes = r.own :: rest := by
    cases r <;> exact ⟨_, rfl⟩
  cases rs with
  | nil =>
    obtain ⟨rest, same⟩ := scopes D.call
    refine ⟨D.call.own, rest ++ [], ?_, D.made⟩
    rw [top, List.nil_append, List.flatMap_cons, same]
    rfl
  | cons r rs =>
    obtain ⟨rest, same⟩ := scopes r
    refine ⟨r.own, rest ++ D.top rs, ?_, regions r List.mem_cons_self⟩
    rw [top_cons, same]
    rfl

namespace Alike

/-! Names. -/

theorem binder?_eq (alike : D.Alike rs m n) (settles : D.Settles rs m name) :
    n.binder? name = (m.binder? name).map D.move := by
  have same (i : ScopeId) :
      (n.store.scope (D.move i)).binds name = (m.store.scope i).binds name := by
    rw [alike.store.scope]
  have inside (l : List ScopeId) : (l.map D.move).find? (fun i => (n.store.scope i).binds name) =
      (l.find? fun i => (m.store.scope i).binds name).map D.move := by
    rw [List.find?_map]
    simp only [Function.comp_def, same]
  have caller : D.caller.map D.move = D.caller :=
    (List.map_congr_left D.fixed).trans (List.map_id _)
  unfold Machine.binder?
  rw [alike.stack, alike.detour, List.append_assoc, List.find?_append, List.find?_append,
    List.find?_append, inside]
  have outer := inside D.caller
  rw [caller] at outer
  rw [outer]
  cases found : (D.top rs).find? fun i => (m.store.scope i).binds name with
  | some i => rfl
  | none =>
    have free : name ∉ D.names := by
      intro named
      obtain ⟨i, mem, bound⟩ := settles named
      exact absurd bound (by simpa using List.find?_eq_none.mp found i mem)
    have between : D.between.find? (fun i => (n.store.scope i).binds name) = none :=
      List.find?_eq_none.mpr fun i mem bound => free (alike.binds i mem name bound)
    rw [between]
    rfl

theorem like_lookup (alike : D.Alike rs m n) (settles : D.Settles rs m name) :
    (Eval.lookup name m).Like (D.Alike rs) (Eval.lookup name n) := by
  have same : n.lookup? name = m.lookup? name := by
    unfold Machine.lookup?
    rw [alike.binder?_eq settles]
    cases m.binder? name with
    | none => rfl
    | some i => exact congrArg (Scope.get? · name) (alike.store.scope i)
  unfold Eval.lookup
  rw [same]
  cases m.lookup? name with
  | none => exact .fault _ alike
  | some w => exact .value w alike

theorem bind (alike : D.Alike rs m n) {i : ScopeId}
    (settled : D.move i ∈ D.between → name ∈ D.names) :
    D.Alike rs ⟨m.store.bind i name v, m.stack⟩ ⟨n.store.bind (D.move i) name v, n.stack⟩ where
  __ := alike
  store := alike.store.bind i name v
  grown := by simpa using alike.grown
  binds j mem other bound := by
    rw [Store.scope_bind] at bound
    split at bound
    · next here =>
      rw [Scope.binds_insert, Bool.or_eq_true, decide_eq_true_eq] at bound
      rcases bound with rfl | bound
      · exact settled (here.1 ▸ mem)
      · exact alike.binds j mem other bound
    · exact alike.binds j mem other bound
  kept j inside only := by
    rw [Store.scope_bind, if_neg fun here => only i here.1]
    exact alike.kept j inside only

theorem like_assign (alike : D.Alike rs m n) (settles : D.Settles rs m name) (v : Value) :
    (Eval.assign name v m).Like (D.Alike rs) (Eval.assign name v n) := by
  unfold Eval.assign Machine.assign?
  rw [alike.binder?_eq settles]
  cases found : m.binder? name with
  | none => exact .fault _ alike
  | some i =>
    refine .value () (alike.bind fun mem => ?_)
    have bound := Machine.binds_of_binder? found
    rw [← alike.store.scope] at bound
    exact alike.binds _ mem name bound

theorem like_define (alike : D.Alike rs m n) (name : String) (v : Value) :
    (Eval.define name v m).Like (D.Alike rs) (Eval.define name v n) := by
  obtain ⟨i, rest, top, made⟩ := D.exists_top alike.regions
  have innermost : m.stack.head? = some i := by
    rw [alike.stack, top]
    rfl
  have there : n.stack.head? = some (D.move i) := by
    rw [alike.detour, top]
    rfl
  unfold Eval.define Machine.define?
  rw [innermost, there]
  exact .value () (alike.bind fun mem => absurd rfl (D.apart _ mem i made))

/-! What evaluation does otherwise. -/

theorem withCells (alike : D.Alike rs m n) (cells : Array Cell) :
    D.Alike rs (m.withCells cells) (n.withCells cells) where
  __ := alike
  store := alike.store.withCells cells

theorem newScope (alike : D.Alike rs m n) (content : Scope) :
    D.Alike rs ⟨(m.store.newScope content).2, m.stack⟩ ⟨(n.store.newScope content).2, n.stack⟩ where
  __ := alike
  store := alike.store.newScope content
  grown := by
    rw [Store.size_scopes_newScope]
    exact Nat.le_succ_of_le alike.grown
  binds i mem name bound := by
    rw [Store.scope_newScope] at bound
    split at bound
    · next new =>
      have place : D.move m.locals = i := alike.store.next.trans (congrArg ScopeId.mk new.symm)
      exact absurd place (D.apart i mem _ alike.grown)
    · exact alike.binds i mem name bound
  kept i inside only := by
    have other : i.index ≠ n.store.scopes.size := fun new =>
      only m.locals (alike.store.next.trans (congrArg ScopeId.mk new.symm))
    rw [Store.scope_newScope, if_neg other]
    exact alike.kept i inside only

/-- Entering a region for which a scope is made. -/
theorem enter (alike : D.Alike rs m n) {r : Region} (own : r.own = m.locals) (content : Scope) :
    D.Alike (r :: rs) ⟨(m.store.newScope content).2, r.scopes ++ m.stack⟩
      ⟨(n.store.newScope content).2, (r.relocate D.move).scopes ++ n.stack⟩ where
  __ := alike.newScope content
  regions := by
    refine List.forall_mem_cons.mpr ⟨?_, alike.regions⟩
    rw [own]
    exact alike.grown
  stack := by
    rw [alike.stack, top_cons, List.append_assoc]
  detour := by
    rw [alike.detour, Region.scopes_relocate, top_cons, List.map_append]
    simp only [List.append_assoc]

theorem like_newLambda (alike : D.Alike rs m n) (names : List String) (body : Value) :
    Outcome.Like (D.Alike rs) (Evaluation.newLambda names body m)
      (Evaluation.newLambda names body n) := by
  have made := alike.newScope .empty
  have stores := made.store.newLambda ⟨names, body, m.locals⟩
  have same : n.store.lambdas.size = m.store.lambdas.size := alike.store.lambdas
  change Outcome.Like (D.Alike rs) (.value (Value.lambda ⟨m.store.lambdas.size⟩) ⟨_, m.stack⟩)
    (.value (Value.lambda ⟨n.store.lambdas.size⟩) ⟨_, n.stack⟩)
  rw [same]
  refine .value _ { made with store := ?_ }
  rwa [Lambda.relocate, ← Machine.locals_relocated alike.store] at stores

theorem opened (alike : D.Alike rs m n) :
    D.Alike (.block m.locals :: rs) m.opened n.opened := by
  have entered := alike.enter (r := .block m.locals) rfl .empty
  rwa [Region.relocate, ← Machine.locals_relocated alike.store] at entered

theorem called (alike : D.Alike rs m n) (l : LambdaId) (args : List Value) :
    D.Alike (m.region l :: rs) (m.called l args) (n.called l args) := by
  have params : (n.store.lambda l).params = (m.store.lambda l).params := by
    rw [alike.store.lambda]
    rfl
  have entered := alike.enter (r := m.region l) rfl (.ofArguments (m.store.lambda l).params args)
  rw [← Machine.region_relocated alike.store] at entered
  unfold Machine.called
  rw [params]
  exact entered

theorem like_leave {r : Region} (alike : D.Alike (r :: rs) m n) (result : Except Fault Value) :
    (r.leave result m).Like (D.Alike rs) ((r.relocate D.move).leave result n) := by
  have above : m.stack = r.scopes ++ (D.top rs ++ D.caller) := by
    rw [alike.stack, top_cons, List.append_assoc]
  have aboveThere : n.stack = (r.relocate D.move).scopes ++
      ((D.top rs).map D.move ++ D.between ++ D.caller) := by
    rw [alike.detour, Region.scopes_relocate, top_cons, List.map_append]
    simp only [List.append_assoc]
  have left : D.Alike rs ⟨r.settle result m.store, D.top rs ++ D.caller⟩
      ⟨(r.relocate D.move).settle result n.store,
        (D.top rs).map D.move ++ D.between ++ D.caller⟩ :=
    { store := alike.store.settle r result
      grown := Nat.le_trans alike.grown (r.grows_settle result m.store).scopes
      regions := fun s mem => alike.regions s (List.mem_cons_of_mem r mem)
      stack := rfl
      detour := rfl
      binds := by simpa using alike.binds
      kept := by simpa using alike.kept }
  rw [Process.leave_eq above, Process.leave_eq aboveThere]
  cases result with
  | ok v => exact .value v left
  | error f => exact .fault f left

end Alike

/-- Inside of the call, whether it is made directly or behind the detour. -/
def likeness (D : Detour) : Likeness where
  region := Region.relocate D.move
  alike := D.Alike
  cells alike := alike.store.cells
  params alike l := by
    rw [alike.store.lambda]
    rfl
  body alike l := by
    rw [alike.store.lambda]
    rfl
  withCells alike := alike.withCells
  newLambda names body alike := alike.like_newLambda names body
  define name v alike := alike.like_define name v
  opened alike := ⟨congrArg Region.block (Machine.locals_relocated alike.store).symm, alike.opened⟩
  called l args alike := ⟨(Machine.region_relocated alike.store l).symm, alike.called l args⟩
  leave r result alike := alike.like_leave result

end Detour

/-- Where the body of the call looks one of these names up or assigns to it, a scope above those of
the caller binds the name. -/
def Machine.UsesOwn (m : Machine) (names : List String) (l : LambdaId) (args : List Value) : Prop :=
  ∀ p name, Process.Leads ⟨.body (m.store.lambda l).body, [], m.called l args⟩ p → p.Seeks name →
    name ∈ names → ∃ above, p.machine.stack = above ++ m.stack ∧
      ∃ i ∈ above, (p.machine.store.scope i).binds name = true

variable {move : ScopeId → ScopeId} {between : List ScopeId} {names : List String} {m' : Machine}
  {l : LambdaId} {args : List Value}

/-- The second machine has the scopes of the first one, and above them others that bind none but
these names. -/
structure Machine.Detoured (m : Machine) (move : ScopeId → ScopeId) (between : List ScopeId)
    (names : List String) (n : Machine) : Prop where
  store : m.store.Relocated move n.store
  fixed : ∀ i ∈ m.stack, move i = i
  stack : n.stack = between ++ m.stack
  inside : ∀ i ∈ between, i.index < n.store.scopes.size
  binds : ∀ i ∈ between, ∀ name, (n.store.scope i).binds name = true → name ∈ names

theorem Machine.detoured_self (m : Machine) : m.Detoured id [] names m where
  store := m.store.relocated_self
  fixed _ _ := rfl
  stack := rfl
  inside := List.forall_mem_nil _
  binds := List.forall_mem_nil _

namespace Machine.Detoured

variable (detoured : m.Detoured move between names n)

include detoured

theorem params_eq (l : LambdaId) : (n.store.lambda l).params = (m.store.lambda l).params := by
  rw [detoured.store.lambda]
  rfl

theorem body_eq (l : LambdaId) : (n.store.lambda l).body = (m.store.lambda l).body := by
  rw [detoured.store.lambda]
  rfl

/-- A call of the lambda on the two machines. -/
def call (l : LambdaId) : Detour where
  move := move
  call := m.region l
  between := between
  caller := m.stack
  names := names
  start := m.store.scopes.size
  store := n.store
  fixed := detoured.fixed
  apart i mem _ new same :=
    Nat.not_lt_of_le (detoured.store.move_of_le new) (same ▸ detoured.inside i mem)
  made := Nat.le_refl _

theorem alike_called (l : LambdaId) (args : List Value) :
    (detoured.call l).Alike [] (m.called l args) (n.called l args) where
  store := by
    unfold Machine.called
    rw [detoured.params_eq]
    exact detoured.store.newScope _
  grown := (m.untouched_called l args).scopes
  regions := List.forall_mem_nil _
  stack := rfl
  detour := by
    change (n.region l).scopes ++ n.stack = _
    rw [region_relocated detoured.store, Region.scopes_relocate, detoured.stack]
    rfl
  binds i mem name bound := by
    rw [(n.untouched_called l args).scope i (detoured.inside i mem)] at bound
    exact detoured.binds i mem name bound
  kept i old _ := (n.untouched_called l args).scope i old

end Machine.Detoured

theorem Evaluation.CallEnds.arity (called : CallEnds m l args (.ok v) n) :
    (m.store.lambda l).params.length = args.length := by
  by_contra differs
  cases ((callEnds_iff_of_refused (Region.openCall_eq_fault differs)).mp called).1

/-- A call that leaves everything untouched does the same behind a detour, where nothing that stands
in between is seen by it. -/
theorem Evaluation.CallEnds.behind (called : CallEnds m l args (.ok v) m')
    (untouched : m.store.Untouched m'.store) (own : m.UsesOwn names l args)
    (detoured : m.Detoured move between names n) :
    ∃ n', CallEnds n l args (.ok v) n' ∧ n.store.Untouched n'.store ∧
      m'.Detoured move between names n' := by
  have arity := called.arity
  obtain ⟨left, ran, rfl⟩ := (callEnds_iff arity).mp called
  let begin : Process := ⟨.body (m.store.lambda l).body, [], m.called l args⟩
  let likeness := (detoured.call l).likeness
  obtain ⟨⟨_, _, there⟩, second, _, sameFocus, sameFrames, alike⟩ := ran.lockstep
    (q := ⟨.body (m.store.lambda l).body, [], n.called l args⟩)
    (R := fun p q => Process.Leads begin p ∧ likeness.Matches p q)
    ⟨.refl, rfl, rfl, detoured.alike_called l args⟩
    fun ⟨leads, same⟩ => by
      have alike := same.machine
      have step := same.next fun name seeks => by
        have settles : (detoured.call l).Settles _ _ name := fun named => by
          obtain ⟨above, split, i, mem, bound⟩ := own _ name leads seeks named
          rw [List.append_cancel_right (alike.stack.symm.trans split)]
          exact ⟨i, mem, bound⟩
        exact ⟨alike.like_lookup settles, alike.like_assign settles⟩
      exact Process.rel_imp step fun _ _ taken _ same => ⟨leads.tail taken, same⟩
  cases sameFocus
  cases sameFrames
  rw [← detoured.body_eq] at second
  have ends := (callEnds_iff (by rwa [detoured.params_eq])).mpr ⟨there, second, rfl⟩
  have settled : ((m.region l).settle (.ok v) left.store).Relocated move
      ((n.region l).settle (.ok v) there.store) := by
    rw [Machine.region_relocated detoured.store]
    exact alike.store.settle _ _
  have kept : n.store.Untouched ((n.region l).settle (.ok v) there.store) := by
    refine detoured.store.untouched settled untouched fun i old only => ?_
    rw [Region.scope_settle_scopes]
    exact alike.kept i old only
  refine ⟨_, ends, kept, settled, detoured.fixed, detoured.stack, fun i mem => ?_,
    fun i mem name bound => ?_⟩
  · exact Nat.lt_of_lt_of_le (detoured.inside i mem) kept.scopes
  · rw [kept.scope i (detoured.inside i mem)] at bound
    exact detoured.binds i mem name bound

end CellLisp
