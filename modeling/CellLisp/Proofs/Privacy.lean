import CellLisp.Proofs.Outcome
import CellLisp.Proofs.Process.Lockstep

/-!
# What a closure owns is private to it

Names are looked up along the stack, so the body of a lambda sees the variables of whoever calls it.
But the parameters and the names in the scope of the lambda are bound above all that the caller put
on the stack, and what runs inside of the call comes on top of them. A scope of the caller that no
lambda has is never entered again. So a caller's variables of these names have no part in the call:
whatever they are, and whether or not they are there, it ends in the same way and leaves them alone.
-/

namespace CellLisp

variable {m n k : Machine} {p q : Process} {l : LambdaId} {args : List Value}

namespace Machine

/-- A scope that is entered but belongs to no lambda. -/
structure IsCallers (m : Machine) (i : ScopeId) : Prop where
  entered : i ∈ m.stack
  free : ∀ k, k.index < m.store.lambdas.size → (m.store.lambda k).scope ≠ i

/-- A name that a call of the lambda binds or that its scope does. -/
def Owns (m : Machine) (l : LambdaId) (name : String) : Prop :=
  name ∈ (m.store.lambda l).params ∨ (m.store.scope (m.store.lambda l).scope).binds name = true

/-- A variable of the caller with a name that the lambda owns. -/
def Covers (m : Machine) (l : LambdaId) (i : ScopeId) (name : String) : Prop :=
  m.IsCallers i ∧ m.Owns l name

end Machine

/-! What is never entered. -/

theorem Region.free_settle {apart : ScopeId → Prop} {s : Store} (r : Region)
    (result : Except Fault Value) (entered : ∀ i ∈ r.scopes, ¬apart i)
    (lambdas : ∀ k, k.index < s.lambdas.size → ¬apart (s.lambda k).scope) :
    ∀ k, k.index < (r.settle result s).lambdas.size →
      ¬apart ((r.settle result s).lambda k).scope := by
  cases r with
  | block inner => exact lambdas
  | call callee locals owned =>
    cases result with
    | error f => exact lambdas
    | ok v =>
      intro k valid
      have before : k.index < s.lambdas.size := by
        rwa [Region.settle, Store.size_lambdas_setLambdaScope, Store.lambdas_adopt] at valid
      simp only [Region.scopes, List.forall_mem_cons] at entered
      obtain ⟨apartLocals, apartOwned, _⟩ := entered
      rw [Region.scope_settle before]
      split
      · exact apartOwned
      · split
        · exact apartLocals
        · exact lambdas k before

namespace Process

/-- No region is in one of these scopes, and no lambda has one. -/
structure Spares (apart : ScopeId → Prop) (p : Process) : Prop where
  regions : ∀ r ∈ p.regions, ∀ i ∈ r.scopes, ¬apart i
  lambdas : ∀ k, k.index < p.machine.store.lambdas.size → ¬apart (p.machine.store.lambda k).scope

theorem Spares.move {apart : ScopeId → Prop} (spares : p.Spares apart) (sound : p.Sound)
    (old : ∀ i, apart i → i.index < p.machine.store.scopes.size) (move : Move p q) :
    q.Spares apart := by
  have fresh : ¬apart ⟨p.machine.store.scopes.size⟩ := fun held => Nat.lt_irrefl _ (old _ held)
  cases move with
  | change regions change =>
    refine ⟨by rw [regions]; exact spares.regions, fun k valid => ?_⟩
    rcases change.lambdas_eq with same | ⟨f, scope, made⟩
    · rw [same] at valid
      rw [Store.lambda_congr same]
      exact spares.lambdas k valid
    · rw [made, Store.size_lambdas_newLambda] at valid
      rw [made, Store.lambda_newLambda]
      split
      · rwa [scope]
      · next other => exact spares.lambdas k (Nat.lt_of_le_of_ne (Nat.le_of_lt_succ valid) other)
  | enter r content opens regions own store stack =>
    refine ⟨?_, by rw [store]; exact spares.lambdas⟩
    rw [regions]
    refine List.forall_mem_cons.mpr ⟨?_, spares.regions⟩
    cases r with
    | block inner =>
      intro i mem
      cases List.mem_singleton.mp mem
      rwa [show inner = _ from own]
    | call callee locals owned =>
      obtain ⟨args, focus, _, held, _⟩ := opens
      have known := sound.focus
      rw [focus] at known
      simp only [Region.scopes, List.forall_mem_cons]
      refine ⟨?_, ?_, nofun⟩
      · rwa [show locals = _ from own]
      · rw [held]
        exact spares.lambdas callee known.1
  | leave r result before after frames store stack =>
    have regions := spares.regions
    rw [regions_of_frames frames] at regions
    obtain ⟨left, others⟩ := List.forall_mem_cons.mp regions
    refine ⟨others, ?_⟩
    rw [store]
    exact Region.free_settle r result left spares.lambdas

theorem Spares.leads {apart : ScopeId → Prop} {base : List ScopeId} (spares : p.Spares apart)
    (sound : p.Sound) (balanced : p.Balanced base)
    (old : ∀ i, apart i → i.index < p.machine.store.scopes.size) (leads : Leads p q) :
    q.Spares apart := by
  induction leads with
  | refl => exact spares
  | tail before step ih =>
    have grown := (Leads.grows before balanced).scopes
    refine ih.move (sound.leads before) (fun i held => Nat.lt_of_lt_of_le (old i held) grown) ?_
    exact (balanced.leads before).move step

/-! The body of a call. -/

variable (sound : m.Sound) (valid : l.index < m.store.lambdas.size)
  (arity : (m.store.lambda l).params.length = args.length)

include sound valid arity

/-- What the call and its lambda have on the stack binds all that the lambda owns. -/
theorem binds_of_owns {name : String} (owns : m.Owns l name)
    (reached : Leads ⟨.body (m.store.lambda l).body, [], m.called l args⟩ p) :
    ∃ j ∈ [m.locals, (m.store.lambda l).scope], (p.machine.store.scope j).binds name = true := by
  have balanced : Balanced (m.called l args).stack
    ⟨.body (m.store.lambda l).body, [], m.called l args⟩ := rfl
  have grows := reached.grows balanced
  rcases owns with param | bound
  · refine ⟨m.locals, List.mem_cons_self, grows.binds _ name ?_⟩
    change ((m.store.newScope _).2.scope ⟨m.store.scopes.size⟩).binds name = true
    rw [Store.scope_newScope, if_pos rfl]
    exact Scope.binds_ofArguments arity param
  · refine ⟨_, List.mem_cons_of_mem _ List.mem_cons_self, grows.binds _ name ?_⟩
    change ((m.store.newScope _).2.scope _).binds name = true
    rw [Store.scope_newScope, if_neg (Nat.ne_of_lt (sound.store.owned l valid))]
    exact bound

theorem guarded_body (known : ∀ v ∈ args, v.KnownTo m.store) :
    Guarded (m.Covers l) ⟨.body (m.store.lambda l).body, [], m.called l args⟩ := by
  have entered : ∀ i, m.IsCallers i → i.index < m.store.scopes.size :=
    fun i callers => sound.stack i callers.entered
  have old : ∀ i, m.IsCallers i → i.index < (m.called l args).store.scopes.size := by
    intro i callers
    change i.index < (m.store.newScope _).2.scopes.size
    rw [Store.size_scopes_newScope]
    exact Nat.lt_succ_of_lt (entered i callers)
  have start : Balanced (m.called l args).stack
    ⟨.body (m.store.lambda l).body, [], m.called l args⟩ := rfl
  refine ⟨start, fun i name covered => old i covered.1, fun p reached i name covered => ?_⟩
  have balanced := start.leads reached
  have untouched : Spares m.IsCallers ⟨.body (m.store.lambda l).body, [], m.called l args⟩ :=
    ⟨nofun, fun k inside held => held.free k inside rfl⟩
  have spares := untouched.leads (sound_body sound valid known arity) start old reached
  obtain ⟨j, mem, bound⟩ := binds_of_owns sound valid arity covered.2 reached
  refine ⟨p.regions.flatMap Region.scopes ++ [m.locals, (m.store.lambda l).scope], m.stack, ?_,
    ⟨j, List.mem_append_right _ mem, bound⟩, fun j mem held => ?_⟩
  · rw [show p.machine.stack = _ from balanced]
    simp [Machine.called]
  · simp only [List.mem_append, List.mem_flatMap, List.mem_cons, List.not_mem_nil, or_false] at mem
    rcases mem with ⟨r, among, inside⟩ | rfl | rfl
    · exact spares.regions r among j inside held.1
    · exact Nat.lt_irrefl _ (entered _ held.1)
    · exact held.1.free l valid rfl

end Process

/-! The call. -/

theorem Store.Alike.settle {hidden : ScopeId → String → Prop} {s t : Store}
    (alike : s.Alike hidden t) (r : Region) (result : Except Fault Value) :
    (r.settle result s).Alike hidden (r.settle result t) := by
  cases r with
  | block inner => exact alike
  | call callee locals owned =>
    cases result with
    | error f => exact alike
    | ok v =>
      cases v with
      | lambda l => exact (alike.setLambdaScope l locals).setLambdaScope callee owned
      | number | string | boolean | nil | cons => exact alike.setLambdaScope callee owned

/-- Called on this machine, the lambda comes to this result, to whatever depth that takes. -/
def Evaluation.CallEnds (m : Machine) (l : LambdaId) (args : List Value)
    (result : Except Fault Value) (n : Machine) : Prop :=
  ∃ depth, call (eval depth) l args m = Eval.ofExcept result n

theorem Evaluation.callEnds_iff {result : Except Fault Value}
    (arity : (m.store.lambda l).params.length = args.length) :
    CallEnds m l args result n ↔ ∃ left,
      Process.Leads ⟨.body (m.store.lambda l).body, [], m.called l args⟩ ⟨.done result, [], left⟩ ∧
        n = ⟨(m.region l).settle result left.store, m.stack⟩ := by
  simp only [CallEnds, call_outcome arity, Region.conclude_eq_ofExcept_iff,
    ← Process.exists_body_eq_iff]
  constructor
  · rintro ⟨depth, left, ran, same⟩
    exact ⟨left, ⟨depth, ran⟩, same⟩
  · rintro ⟨left, ⟨depth, ran⟩, same⟩
    exact ⟨depth, left, ran, same⟩

theorem Evaluation.call_eq_fault {f : Fault} (refused : Region.openCall l args m = .fault f m)
    (rec : Value → Eval Value) : call rec l args m = .fault f m := by
  rw [call_eq]
  change Eval.bind (Region.openCall l args) _ m = _
  unfold Eval.bind
  rw [refused]

theorem Evaluation.callEnds_iff_of_refused {result : Except Fault Value} {f : Fault}
    (refused : Region.openCall l args m = .fault f m) :
    CallEnds m l args result n ↔ result = .error f ∧ n = m := by
  simp only [CallEnds, call_eq_fault refused]
  constructor
  · rintro ⟨_, same⟩
    cases result with
    | ok v => cases same
    | error g =>
      cases same
      exact ⟨rfl, rfl⟩
  · rintro ⟨rfl, rfl⟩
    exact ⟨0, rfl⟩

theorem Evaluation.forall_unfinished_iff :
    (∀ depth, call (eval depth) l args m = .unfinished) ↔
      ∀ result n, ¬CallEnds m l args result n := Outcome.forall_unfinished_iff

namespace Machine

variable {hidden : ScopeId → String → Prop}

/-- Two runs leave machines that are alike, and what is hidden as it was. -/
structure LeftAlike (hidden : ScopeId → String → Prop) (m n m' n' : Machine) : Prop where
  alike : m'.Alike hidden n'
  first : m.HoldsOnto hidden m'
  second : n.HoldsOnto hidden n'

theorem LeftAlike.symm {m' n' : Machine} (left : LeftAlike hidden m n m' n') :
    LeftAlike hidden n m n' m' := ⟨left.alike.symm, left.second, left.first⟩

theorem holdsOnto_called (old : ∀ i name, hidden i name → i.index < m.store.scopes.size) :
    m.HoldsOnto hidden (m.called l args) := by
  intro i name held
  change ((m.store.newScope _).2.scope i).get? name = _
  rw [Store.scope_newScope, if_neg (Nat.ne_of_lt (old i name held))]

theorem HoldsOnto.settled (holds : m.HoldsOnto hidden n) (r : Region)
    (result : Except Fault Value) (stack : List ScopeId) :
    m.HoldsOnto hidden ⟨r.settle result n.store, stack⟩ := by
  intro i name held
  rw [Region.scope_settle_scopes]
  exact holds i name held

end Machine

theorem Process.Linked.leftAlike {hidden : ScopeId → String → Prop} {m' n' : Machine} {body : Value}
    {result : Except Fault Value} (alike : m.Alike hidden n)
    (old : ∀ i name, hidden i name → i.index < m.store.scopes.size)
    (linked : Linked hidden ⟨.body body, [], m.called l args⟩ ⟨.body body, [], n.called l args⟩
      ⟨.done result, [], m'⟩ ⟨.done result, [], n'⟩) :
    Machine.LeftAlike hidden m n ⟨(m.region l).settle result m'.store, m.stack⟩
      ⟨(n.region l).settle result n'.store, n.stack⟩ := by
  refine ⟨⟨?_, alike.stack⟩, ?_, ?_⟩
  · rw [alike.region]
    exact linked.alike.machine.store.settle _ result
  · exact ((Machine.holdsOnto_called old).trans linked.firstHolds).settled _ result _
  · have oldSecond : ∀ i name, hidden i name → i.index < n.store.scopes.size := by
      rwa [alike.store.places]
    exact ((Machine.holdsOnto_called oldSecond).trans linked.secondHolds).settled _ result _

namespace Evaluation

open Machine

/-- Each result of the call on one machine is one on the other, and what they leave is alike. -/
def CallFollows (hidden : ScopeId → String → Prop) (l : LambdaId) (args : List Value)
    (m n : Machine) : Prop :=
  ∀ result m', CallEnds m l args result m' →
    ∃ n', CallEnds n l args result n' ∧ LeftAlike hidden m n m' n'

theorem CallFollows.unfinished {hidden : ScopeId → String → Prop}
    (follows : CallFollows hidden l args m n)
    (never : ∀ depth, call (eval depth) l args n = .unfinished) (depth : Nat) :
    call (eval depth) l args m = .unfinished := by
  rw [forall_unfinished_iff] at never
  refine forall_unfinished_iff.mpr (fun result m' ends => ?_) depth
  obtain ⟨n', ended, _⟩ := follows result m' ends
  exact never result n' ended

variable (alike : m.Alike (m.Covers l) n)

include alike

theorem callFollows_of_arity (sound : m.Sound) (valid : l.index < m.store.lambdas.size)
    (known : ∀ v ∈ args, v.KnownTo m.store)
    (arity : (m.store.lambda l).params.length = args.length) :
    CallFollows (m.Covers l) l args m n ∧ CallFollows (m.Covers l) l args n m := by
  have lambda := alike.store.lambda l
  have aritySecond : (n.store.lambda l).params.length = args.length := by rwa [lambda]
  have old : ∀ i name, m.Covers l i name → i.index < m.store.scopes.size :=
    fun i name covered => sound.stack i covered.1.entered
  have bodies : Process.Alike (m.Covers l) ⟨.body (m.store.lambda l).body, [], m.called l args⟩
    ⟨.body (m.store.lambda l).body, [], n.called l args⟩ := ⟨rfl, rfl, alike.called l args⟩
  obtain ⟨forth, back⟩ := (Process.guarded_body sound valid arity known).linked bodies
  constructor
  · intro result _ ends
    obtain ⟨m', ran, rfl⟩ := (callEnds_iff arity).mp ends
    obtain ⟨⟨_, _, n'⟩, linked⟩ := forth ran
    obtain ⟨rfl, rfl, _⟩ := linked.alike
    refine ⟨_, (callEnds_iff aritySecond).mpr ⟨n', ?_, rfl⟩, linked.leftAlike alike old⟩
    rw [lambda]
    exact linked.second
  · intro result _ ends
    obtain ⟨n', ran, rfl⟩ := (callEnds_iff aritySecond).mp ends
    rw [lambda] at ran
    obtain ⟨⟨_, _, m'⟩, linked⟩ := back ran
    obtain ⟨focus, frames, _⟩ := linked.alike
    cases focus
    cases frames
    exact ⟨_, (callEnds_iff arity).mpr ⟨m', linked.first, rfl⟩, (linked.leftAlike alike old).symm⟩

theorem callFollows_of_refused (arity : (m.store.lambda l).params.length ≠ args.length) :
    CallFollows (m.Covers l) l args m n ∧ CallFollows (m.Covers l) l args n m := by
  have lambda := alike.store.lambda l
  have aritySecond : (n.store.lambda l).params.length ≠ args.length := by rwa [lambda]
  have refused := Region.openCall_eq_fault arity
  have refusedSecond := Region.openCall_eq_fault aritySecond
  rw [lambda] at refusedSecond
  have left : LeftAlike (m.Covers l) m n m n := ⟨alike, fun _ _ _ => rfl, fun _ _ _ => rfl⟩
  simp only [CallFollows, callEnds_iff_of_refused refused, callEnds_iff_of_refused refusedSecond]
  constructor
  · rintro _ _ ⟨rfl, rfl⟩
    exact ⟨n, ⟨rfl, rfl⟩, left⟩
  · rintro _ _ ⟨rfl, rfl⟩
    exact ⟨m, ⟨rfl, rfl⟩, left.symm⟩

end Evaluation

/-- A call comes to the same result, if to any, whatever the caller's variables are that have names
of the lambda, and it leaves them as they are. -/
theorem closures_are_private (sound : m.Sound) (valid : l.index < m.store.lambdas.size)
    (known : ∀ v ∈ args, v.KnownTo m.store) (alike : m.Alike (m.Covers l) n) :
    Evaluation.CallFollows (m.Covers l) l args m n ∧
    Evaluation.CallFollows (m.Covers l) l args n m ∧
    ((∀ depth, Evaluation.call (eval depth) l args m = .unfinished) ↔
      ∀ depth, Evaluation.call (eval depth) l args n = .unfinished) := by
  have both : Evaluation.CallFollows (m.Covers l) l args m n ∧
      Evaluation.CallFollows (m.Covers l) l args n m := by
    by_cases arity : (m.store.lambda l).params.length = args.length
    · exact Evaluation.callFollows_of_arity alike sound valid known arity
    · exact Evaluation.callFollows_of_refused alike arity
  obtain ⟨forth, back⟩ := both
  exact ⟨forth, back, back.unfinished, forth.unfinished⟩

/-- A closure that counts in a variable of its own. -/
def counterText : String :=
  "(def make (lambda (count) (lambda () (set count (+ count 1))))) (def tick (make 0))"

set_option maxRecDepth 4000 in
/-- The counter counts on where the caller has a variable of the same name, and leaves it alone. -/
theorem closures_are_private_counter : ∃ m n v m' n', Session.Reached m ∧
    n = ⟨m.store.bind Session.globalScope "count" (.int 100), m.stack⟩ ∧
    m.Alike (m.Covers ⟨1⟩) n ∧ v.equal (.int 1) = true ∧
    Evaluation.CallEnds m ⟨1⟩ [] (.ok v) m' ∧ Evaluation.CallEnds n ⟨1⟩ [] (.ok v) n' ∧
    (m'.store.scope Session.globalScope).get? "count" = none ∧
    (n'.store.scope Session.globalScope).get? "count" = some (.int 100) := by
  obtain ⟨m, left, facts⟩ := (Option.any_eq_true _ _).mp (by decide +kernel :
    (Session.run 9 counterText Machine.initial).machine?.any (fun m => decide (
      1 < m.store.lambdas.size ∧
      (∀ k < m.store.lambdas.size, (m.store.lambda ⟨k⟩).scope ≠ Session.globalScope) ∧
      (m.store.scope (m.store.lambda ⟨1⟩).scope).binds "count" = true ∧
      (m.store.scope Session.globalScope).binds "count" = false ∧
      ((Evaluation.call (eval 9) ⟨1⟩ [] m).value?.any (·.equal (.int 1))) = true)) = true)
  obtain ⟨valid, free, owned, absent, counted⟩ := of_decide_eq_true facts
  have reached : Session.Reached m := .run .initial 9 _ left
  obtain ⟨v, ended, one⟩ := (Option.any_eq_true _ _).mp counted
  have covered : m.Covers ⟨1⟩ Session.globalScope "count" := by
    refine ⟨⟨?_, fun k => free k.index⟩, .inr owned⟩
    rw [reached.stack]
    exact List.mem_singleton_self _
  have alike := m.alike_bind covered (.int 100)
  obtain ⟨m', ended⟩ := Outcome.exists_of_value? ended
  obtain ⟨forth, _⟩ := closures_are_private reached.sound valid (List.forall_mem_nil _) alike
  have callEnds : Evaluation.CallEnds m ⟨1⟩ [] (.ok v) m' := ⟨9, ended⟩
  obtain ⟨n', callEndsSecond, both⟩ := forth (.ok v) m' callEnds
  have inside := reached.sound.stack _ covered.1.entered
  refine ⟨m, _, v, m', n', reached, rfl, alike, one, callEnds, callEndsSecond, ?_, ?_⟩
  · rw [both.first _ _ covered]
    simpa [Scope.binds] using absent
  · rw [both.second _ _ covered, Store.scope_bind, if_pos ⟨rfl, inside⟩, Scope.get?_insert,
      if_pos rfl]

end CellLisp
