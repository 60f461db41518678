import CellLisp.Proofs.WriteBack

/-!
# What a failing call leaves behind

A call that faults is left at once: nothing is written back, and the called lambda keeps the scope
that it has where the fault arises. That is not always the scope that it had when the call began. A
call inside the body that returns the lambda gives it another one, and only a call of the lambda
that ends with a value puts back what was there before.
-/

namespace CellLisp

/-- The lambda that a region is a call of. -/
def Region.callee? : Region → Option LambdaId
  | block _ => none
  | call callee _ _ => some callee

namespace Process

/-- A fault arises here. -/
def Fails (e : Fault) (p : Process) : Prop :=
  (∀ f, p.focus ≠ .done (.error f)) ∧ ∃ frames m, p.next = some ⟨.done (.error e), frames, m⟩

/-- A call of another lambda ends here with the lambda `l`, which will take its arguments. -/
def HandsOver (l : LambdaId) (p : Process) : Prop :=
  p.focus = .done (.ok (.lambda l)) ∧ ∃ callee locals owned frames, callee ≠ l ∧
    p.frames = .region (.call callee locals owned) :: frames

variable {p q t : Process} {base : List ScopeId} {e : Fault} {m : Machine}

/-! A fault is passed on and changes nothing more. -/

theorem Balanced.next_of_fault (balanced : p.Balanced base) (focus : p.focus = .done (.error e))
    (step : p.next = some q) :
    q.focus = .done (.error e) ∧ q.machine.store = p.machine.store := by
  rcases p with ⟨_, frames, m⟩
  subst focus
  cases frames with
  | nil => cases step
  | cons frame frames =>
    cases frame with
    | region r =>
      obtain ⟨rest, _, left⟩ := balanced.next_region
      cases left.symm.trans step
      refine ⟨rfl, ?_⟩
      cases r <;> rfl
    | argument | callee | statement | branch | assignment | definition =>
      cases step
      exact ⟨rfl, rfl⟩

theorem Balanced.leads_of_fault (balanced : p.Balanced base) (focus : p.focus = .done (.error e))
    (leads : Leads p q) : q.focus = .done (.error e) ∧ q.machine.store = p.machine.store := by
  induction leads with
  | refl => exact ⟨focus, rfl⟩
  | tail before step ih =>
    have there : Balanced base _ := balanced.leads before
    obtain ⟨focusNext, same⟩ := there.next_of_fault ih.1 step
    exact ⟨focusNext, same.trans ih.2⟩

/-- A run that ends with a fault has a point where the fault arises. -/
theorem exists_fails {final : Machine} (balanced : p.Balanced base)
    (begins : ∀ f, p.focus ≠ .done (.error f))
    (leads : Leads p ⟨.done (.error e), [], final⟩) :
    ∃ q, Leads p q ∧ q.Fails e ∧ ∃ t, q.next = some t ∧ t.focus = .done (.error e) ∧
      final.store = t.machine.store := by
  induction leads using Relation.ReflTransGen.head_induction_on with
  | refl => exact absurd rfl (begins e)
  | head step rest ih =>
    next a b =>
    have there : Balanced base b := balanced.next (balanced.move step)
    by_cases fault : ∃ f, b.focus = .done (.error f)
    · obtain ⟨f, focus⟩ := fault
      obtain ⟨same, store⟩ := there.leads_of_fault focus rest
      cases same
      refine ⟨a, .refl, ⟨begins, b.frames, b.machine, ?_⟩, b, step, focus, store⟩
      rw [step, ← focus]
    · obtain ⟨q, reached, found⟩ := ih there fun f focus => fault ⟨f, focus⟩
      exact ⟨q, .head step reached, found⟩

/-- A region that was left is never entered again. -/
theorem Balanced.absent (balanced : p.Balanced base) {r : Region} (absent : r ∉ p.regions)
    (old : r.own.index < p.machine.store.scopes.size) (leads : Leads p q) : r ∉ q.regions := by
  induction leads with
  | refl => exact absent
  | tail before step ih =>
    have there : Balanced base _ := balanced.leads before
    have reached : Leads p _ := before
    have grown := (reached.grows balanced).scopes
    cases there.move step with
    | change regions change => rwa [regions]
    | enter r' content opens regions fresh store stack =>
      rw [regions]
      intro mem
      rcases List.mem_cons.mp mem with same | mem
      · rw [same, fresh] at old
        exact Nat.lt_irrefl _ (Nat.lt_of_lt_of_le old grown)
      · exact ih mem
    | leave r' result focus after frames store stack =>
      rw [regions_of_frames frames] at ih
      intro mem
      exact ih (List.mem_cons_of_mem r' mem)

end Process

section Prospect

variable (l : LambdaId) (failing : List Region)

/-- The scope that a region gives back to the lambda `l` in the end, if it is a call of `l` and does
not fail. -/
def Region.restores? : Region → Option ScopeId
  | block _ => none
  | call callee locals owned =>
    if callee = l ∧ call callee locals owned ∉ failing then some owned else none

/-- The scope that `l` has once all regions are left, if it has this one now. -/
def Region.settled (now : ScopeId) (regions : List Region) : ScopeId :=
  regions.foldl (fun c r => (r.restores? l failing).getD c) now

/-- The scope that `l` is going to have if nothing but leaving the regions is still to come. -/
def Process.prospect (p : Process) : ScopeId :=
  Region.settled l failing (p.machine.store.lambda l).scope p.regions

end Prospect

namespace Region

variable {l : LambdaId} {failing : List Region}

theorem isSome_restores? {r : Region} :
    (r.restores? l failing).isSome ↔ r.callee? = some l ∧ r ∉ failing := by
  cases r with
  | block inner => simp [restores?, callee?]
  | call callee locals owned => simp [restores?, callee?]

theorem settled_eq_now {now : ScopeId} {regions : List Region}
    (none : ∀ r ∈ regions, r.restores? l failing = none) : settled l failing now regions = now := by
  induction regions with
  | nil => rfl
  | cons r regions ih =>
    obtain ⟨here, there⟩ := List.forall_mem_cons.mp none
    rw [settled, List.foldl_cons, here]
    exact ih there

/-- If a region gives a scope back, it does not matter what the scope is now. -/
theorem settled_congr {regions : List Region} (now other : ScopeId)
    (restored : ∃ r ∈ regions, (r.restores? l failing).isSome) :
    settled l failing now regions = settled l failing other regions := by
  induction regions generalizing now other with
  | nil =>
    obtain ⟨r, mem, _⟩ := restored
    cases mem
  | cons r regions ih =>
    rw [settled, settled, List.foldl_cons, List.foldl_cons]
    cases here : r.restores? l failing with
    | some owned => rfl
    | none =>
      obtain ⟨r', mem, restores⟩ := restored
      rcases List.mem_cons.mp mem with rfl | mem
      · rw [here] at restores
        cases restores
      · exact ih _ _ ⟨r', mem, restores⟩

end Region

namespace Process

variable {l : LambdaId} {failing : List Region} {p q t : Process}

/-- One step changes the prospect only where `l` is handed over while no call of it is going to put
back its scope. Then it is the scope of the arguments. -/
theorem prospect_move (valid : l.index < p.machine.store.lambdas.size) (move : Move p t)
    (succeeds : ∀ f, t.focus ≠ .done (.error f))
    (closed : ∀ r, p.frames = .region r :: t.frames → r ∉ failing) :
    t.prospect l failing = p.prospect l failing ∨
      p.HandsOver l ∧ (∀ r ∈ p.regions, r.restores? l failing = none) ∧
        ∃ r ∈ p.regions, t.prospect l failing = r.own := by
  unfold prospect
  cases move with
  | change regions change => exact .inl (by rw [regions, change.lambda_eq valid])
  | enter r content opens regions fresh store stack =>
    have same : t.machine.store.lambda l = p.machine.store.lambda l := by rw [store]; rfl
    left
    rw [regions, same, Region.settled, List.foldl_cons]
    cases r with
    | block inner => rfl
    | call callee locals owned =>
      obtain ⟨args, focus, arity, rfl, _⟩ := opens
      -- A call of `l` gives back what `l` has when the call begins.
      have given : ((Region.call callee locals (p.machine.store.lambda callee).scope).restores? l
          failing).getD (p.machine.store.lambda l).scope = (p.machine.store.lambda l).scope := by
        rw [Region.restores?]
        split
        · next calls => rw [calls.1, Option.getD_some]
        · rfl
      rw [given]
      rfl
  | leave r result before after frames store stack =>
    rw [regions_of_frames frames]
    cases r with
    | block inner => exact .inl (by rw [store]; rfl)
    | call callee locals owned =>
      cases result with
      | error f => exact absurd after (succeeds f)
      | ok v =>
        rw [store, Region.scope_settle valid]
        by_cases called : l = callee
        · -- What is put back now is what the prospect counted on.
          subst called
          left
          rw [if_pos rfl, Region.settled, Region.settled, List.foldl_cons, Region.restores?,
            if_pos ⟨rfl, closed _ frames⟩, Option.getD_some]
        · have other : (Region.call callee locals owned).restores? l failing = none :=
            if_neg fun calls => called calls.1.symm
          have skip (now : ScopeId) :
              Region.settled l failing now (.call callee locals owned :: t.regions) =
                Region.settled l failing now t.regions := by
            rw [Region.settled, List.foldl_cons, other]
            rfl
          rw [if_neg called, skip]
          by_cases returned : v.lambda? = some l
          · rw [if_pos returned]
            by_cases restored : ∃ r ∈ t.regions, (r.restores? l failing).isSome
            · exact .inl (Region.settled_congr _ _ restored)
            · have none : ∀ r ∈ t.regions, r.restores? l failing = none := fun r mem =>
                Option.not_isSome_iff_eq_none.mp fun restores => restored ⟨r, mem, restores⟩
              have hands : p.HandsOver l := by
                rw [Value.lambda?_eq_some.mp returned] at before
                exact ⟨before, callee, locals, owned, _, fun same => called same.symm, frames⟩
              refine .inr ⟨hands, List.forall_mem_cons.mpr ⟨other, none⟩, _, List.mem_cons_self, ?_⟩
              rw [Region.settled_eq_now none]
              rfl
          · rw [if_neg returned]
            exact .inl rfl

/-- What is known at each point of a call of `l` that began when the store had so many scopes. -/
structure Underway (base : List ScopeId) (since : Nat) (l : LambdaId) (p : Process) : Prop where
  balanced : p.Balanced base
  dated : p.Dated since
  begun : since ≤ p.machine.store.scopes.size
  valid : l.index < p.machine.store.lambdas.size

variable {base : List ScopeId} {since : Nat}

namespace Underway

theorem next (underway : p.Underway base since l) (step : p.next = some t) :
    t.Underway base since l := by
  obtain ⟨balanced, dated, begun, valid⟩ := underway
  have move := balanced.move step
  exact ⟨balanced.next move, dated.move begun move, Nat.le_trans begun move.grows.scopes,
    Nat.lt_of_lt_of_le valid move.grows.lambdas⟩

theorem leads (underway : p.Underway base since l) (leads : Leads p q) :
    q.Underway base since l := by
  induction leads with
  | refl => exact underway
  | tail _ step ih => exact ih.next step

theorem prospect_next (underway : p.Underway base since l) (step : p.next = some t)
    (leads : Leads t q) (succeeds : ∀ f, q.focus ≠ .done (.error f)) :
    t.prospect l q.regions = p.prospect l q.regions ∨
      p.HandsOver l ∧ (∀ r ∈ p.regions, r.restores? l q.regions = none) ∧
        ∃ r ∈ p.regions, t.prospect l q.regions = r.own := by
  obtain ⟨balanced, dated, begun, valid⟩ := underway
  have move := balanced.move step
  apply prospect_move valid move
  · intro f focus
    exact succeeds f ((balanced.next move).leads_of_fault focus leads).1
  · intro r frames
    have regions := regions_of_frames frames
    have younger := dated.younger
    rw [regions, List.pairwise_cons] at younger
    have left : r ∉ t.regions := fun mem => Nat.lt_irrefl _ (younger.1 r mem)
    refine (balanced.next move).absent left (Nat.lt_of_lt_of_le ?_ move.grows.scopes) leads
    exact (dated.recent r (by rw [regions]; exact List.mem_cons_self)).2

/-- If each time that `l` is handed over a call of it will put back its scope, the prospect stays
the same up to the point where the fault arises. -/
theorem prospect_eq (underway : p.Underway base since l) (leads : Leads p q)
    (succeeds : ∀ f, q.focus ≠ .done (.error f))
    (restored : ∀ t, Leads p t → t.HandsOver l →
      ∃ r ∈ t.regions, (r.restores? l q.regions).isSome) :
    q.prospect l q.regions = p.prospect l q.regions := by
  induction leads using Relation.ReflTransGen.head_induction_on with
  | refl => rfl
  | head step rest ih =>
    rw [ih (underway.next step) fun t later => restored t (.head step later)]
    rcases underway.prospect_next step rest succeeds with same | ⟨hands, none, _⟩
    · exact same
    · obtain ⟨r, mem, restores⟩ := restored _ .refl hands
      rw [none r mem] at restores
      cases restores

/-- A prospect that is not from before the call never becomes one that is. -/
theorem prospect_recent (underway : p.Underway base since l) (leads : Leads p q)
    (succeeds : ∀ f, q.focus ≠ .done (.error f))
    (recent : since ≤ (p.prospect l q.regions).index) :
    since ≤ (q.prospect l q.regions).index := by
  induction leads using Relation.ReflTransGen.head_induction_on with
  | refl => exact recent
  | head step rest ih =>
    apply ih (underway.next step)
    rcases underway.prospect_next step rest succeeds with same | ⟨_, _, r, mem, taken⟩
    · rwa [same]
    · rw [taken]
      exact (underway.dated.recent r mem).1

end Underway

theorem prospect_self (q : Process) :
    q.prospect l q.regions = (q.machine.store.lambda l).scope := by
  apply Region.settled_eq_now
  intro r mem
  apply Option.not_isSome_iff_eq_none.mp
  intro restores
  exact (Region.isSome_restores?.mp restores).2 mem

/-- Where `l` is handed over and nothing puts back its scope, the prospect becomes the scope of the
arguments. -/
theorem HandsOver.next (hands : p.HandsOver l) (underway : p.Underway base since l)
    (none : ∀ r ∈ p.regions, r.restores? l failing = none) :
    ∃ t, p.next = some t ∧ t.focus = .done (.ok (.lambda l)) ∧
      since ≤ (t.prospect l failing).index := by
  obtain ⟨focus, callee, locals, owned, frames, other, waiting⟩ := hands
  obtain ⟨balanced, dated, begun, valid⟩ := underway
  rcases p with ⟨_, _, m⟩
  subst focus waiting
  obtain ⟨rest, _, step⟩ := balanced.next_region
  refine ⟨_, step, rfl, ?_⟩
  have above : ∀ r ∈ regionsOf frames, r.restores? l failing = .none :=
    (List.forall_mem_cons.mp none).2
  have taken :
      (((Region.call callee locals owned).settle (.ok (.lambda l)) m.store).lambda l).scope =
        locals := by
    rw [Region.scope_settle valid, if_neg fun same => other same.symm]
    exact if_pos rfl
  change since ≤ (Region.settled l failing _ (regionsOf frames)).index
  rw [Region.settled_eq_now above, taken]
  exact (dated.recent (.call callee locals owned) List.mem_cons_self).1

end Process

variable {m n : Machine} {l : LambdaId} {args : List Value}

/-- A call that faults keeps the scope of the called lambda exactly if each time that the lambda was
returned by another call before the fault arose, this happened inside of a further call of the
lambda that was over by then. -/
theorem failed_call_keeps_scope_iff {depth : Nat} {e : Fault} (sound : m.Sound)
    (valid : l.index < m.store.lambdas.size)
    (ends : Evaluation.call (eval depth) l args m = .fault e n) :
    ∃ q, Process.Leads ⟨.call l args, [], m⟩ q ∧ q.Fails e ∧
      (n.store.lambda l).scope = (q.machine.store.lambda l).scope ∧
      ((n.store.lambda l).scope = (m.store.lambda l).scope ↔
        ∀ p, Process.Leads ⟨.call l args, [], m⟩ p → p.HandsOver l →
          ∃ r ∈ p.regions, r.callee? = some l ∧ r ∉ q.regions) := by
  have run := Process.call_follows depth l args m
  rw [ends] at run
  have start : Process.Underway m.stack m.store.scopes.size l ⟨.call l args, [], m⟩ :=
    ⟨rfl, ⟨.nil, nofun⟩, Nat.le_refl _, valid⟩
  obtain ⟨q, reached, fails, t, step, focus, store⟩ :=
    Process.exists_fails start.balanced nofun run.leads_fault
  have there := start.leads reached
  -- The step on which the fault arises gives no lambda a scope.
  have kept : (n.store.lambda l).scope = (q.machine.store.lambda l).scope := by
    rw [store]
    cases there.balanced.move step with
    | change regions change => rw [change.lambda_eq there.valid]
    | enter r content opens regions fresh store stack => rw [store]; rfl
    | leave r result before after frames store stack =>
      rw [focus] at after
      cases after
      exact absurd before (fails.1 e)
  refine ⟨q, reached, fails, kept, ?_⟩
  rw [kept, ← Process.prospect_self]
  constructor
  · -- Otherwise the lambda ends up with a scope that is younger than the call.
    intro same p visited hands
    apply Classical.byContradiction
    intro lost
    have none : ∀ r ∈ p.regions, r.restores? l q.regions = none := fun r mem =>
      Option.not_isSome_iff_eq_none.mp fun restores =>
        lost ⟨r, mem, Region.isSome_restores?.mp restores⟩
    have underway := start.leads visited
    obtain ⟨p', next, passes, recent⟩ := hands.next underway none
    have onward : Process.Leads p' q := by
      rcases visited.compare reached with ahead | behind
      · rcases ahead.cases_head with rfl | ⟨p'', step', later⟩
        · cases next.symm.trans step
          rw [focus] at passes
          cases passes
        · cases next.symm.trans step'
          exact later
      · rcases behind.cases_head with rfl | ⟨t', step', later⟩
        · cases next.symm.trans step
          rw [focus] at passes
          cases passes
        · cases step.symm.trans step'
          have faulty := ((there.next step).balanced.leads_of_fault focus later).1
          rw [hands.1] at faulty
          cases faulty
    have final := (underway.next next).prospect_recent onward fails.1 recent
    rw [same] at final
    exact Nat.not_le_of_lt (sound.store.owned l valid) final
  · intro restored
    refine (start.prospect_eq reached fails.1 fun p visited hands => ?_).trans rfl
    obtain ⟨r, mem, calls⟩ := restored p visited hands
    exact ⟨r, mem, Region.isSome_restores?.mpr calls⟩

/-- While this lambda runs for `true`, it is handed over in a call of itself for `false`, and only
then a fault arises. -/
def restoredText : String :=
  "(def f (lambda (x) (if x (block (f false) (nope)) ((lambda (y) (block f)) 1))))"

set_option maxRecDepth 4000 in
theorem failed_call_keeps_scope_after_inner_call : ∃ m n q, Session.Reached m ∧
    Evaluation.call (eval 9) ⟨0⟩ [.boolean true] m = .fault (.evaluation (.unbound "nope")) n ∧
    Process.Leads ⟨.call ⟨0⟩ [.boolean true], [], m⟩ q ∧ q.Fails (.evaluation (.unbound "nope")) ∧
    (n.store.lambda ⟨0⟩).scope = (m.store.lambda ⟨0⟩).scope ∧
    ∀ p, Process.Leads ⟨.call ⟨0⟩ [.boolean true], [], m⟩ p → p.HandsOver ⟨0⟩ →
      ∃ r ∈ p.regions, r.callee? = some ⟨0⟩ ∧ r ∉ q.regions := by
  obtain ⟨m, left, facts⟩ := (Option.any_eq_true _ _).mp (by decide +kernel :
    (Session.run 9 restoredText Machine.initial).machine?.any (fun m => decide (
      0 < m.store.lambdas.size ∧
      (Evaluation.call (eval 9) ⟨0⟩ [.boolean true] m).fault? =
        some (.evaluation (.unbound "nope")) ∧
      (Evaluation.call (eval 9) ⟨0⟩ [.boolean true] m).machine?.any (fun n =>
        decide ((n.store.lambda ⟨0⟩).scope = (m.store.lambda ⟨0⟩).scope)) = true)) = true)
  obtain ⟨valid, faults, kept⟩ := of_decide_eq_true facts
  obtain ⟨n, ends⟩ := Outcome.exists_of_fault? faults
  rw [ends] at kept
  have same := of_decide_eq_true kept
  have reached : Session.Reached m := .run .initial 9 _ left
  obtain ⟨q, leads, fails, _, condition⟩ := failed_call_keeps_scope_iff reached.sound valid ends
  exact ⟨m, n, q, reached, ends, leads, fails, same, condition.mp same⟩

/-- While this lambda runs, it is handed over by a call of another one. -/
def lostText : String := "(def f (lambda (x) (block ((lambda (y) f) 1) (nope))))"

set_option maxRecDepth 4000 in
/-- Without a further call of the lambda its scope is lost, and what it sees afterwards are the
arguments of the call that handed it over. -/
theorem failed_call_can_lose_scope : ∃ m n, Session.Reached m ∧ 0 < m.store.lambdas.size ∧
    Evaluation.call (eval 9) ⟨0⟩ [.int 0] m = .fault (.evaluation (.unbound "nope")) n ∧
    (n.store.lambda ⟨0⟩).scope ≠ (m.store.lambda ⟨0⟩).scope ∧
    (m.store.scope (m.store.lambda ⟨0⟩).scope).binds "y" = false ∧
    (n.store.scope (n.store.lambda ⟨0⟩).scope).binds "y" = true := by
  obtain ⟨m, left, facts⟩ := (Option.any_eq_true _ _).mp (by decide +kernel :
    (Session.run 9 lostText Machine.initial).machine?.any (fun m => decide (
      0 < m.store.lambdas.size ∧ (m.store.scope (m.store.lambda ⟨0⟩).scope).binds "y" = false ∧
      (Evaluation.call (eval 9) ⟨0⟩ [.int 0] m).fault? = some (.evaluation (.unbound "nope")) ∧
      (Evaluation.call (eval 9) ⟨0⟩ [.int 0] m).machine?.any (fun n => decide (
        (n.store.lambda ⟨0⟩).scope ≠ (m.store.lambda ⟨0⟩).scope ∧
        (n.store.scope (n.store.lambda ⟨0⟩).scope).binds "y" = true)) = true)) = true)
  obtain ⟨valid, before, faults, after⟩ := of_decide_eq_true facts
  obtain ⟨n, ends⟩ := Outcome.exists_of_fault? faults
  rw [ends] at after
  obtain ⟨different, bound⟩ := of_decide_eq_true after
  exact ⟨m, n, .run .initial 9 _ left, valid, ends, different, before, bound⟩

end CellLisp
