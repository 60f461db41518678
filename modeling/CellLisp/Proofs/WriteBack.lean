import CellLisp.Proofs.Balance
import CellLisp.Proofs.Growth

/-!
# What a call writes back

A call that ends with a value gives two lambdas a scope: the one that it returns takes the arguments
of the call, and then the one that was called takes back the scope that it had. What the body did to
either of them in the meantime does not matter.
-/

namespace CellLisp

theorem Scope.binds_ofArguments {params : List String} {args : List Value} {name : String}
    (arity : params.length = args.length) (mem : name ∈ params) :
    (ofArguments params args).binds name = true := by
  suffices general : ∀ (pairs : List (String × Value)) (s : Scope),
      s.binds name = true ∨ (∃ b ∈ pairs, b.1 = name) →
        (pairs.foldl (fun s b => s.insert b.1 b.2) s).binds name = true by
    refine general _ _ (.inr ?_)
    rw [← List.map_fst_zip (Nat.le_of_eq arity)] at mem
    exact List.mem_map.mp mem
  intro pairs
  induction pairs with
  | nil =>
    rintro s (bound | ⟨b, mem, _⟩)
    · exact bound
    · cases mem
  | cons b pairs ih =>
    intro s held
    apply ih _
    rw [binds_insert]
    rcases held with bound | ⟨c, mem, same⟩
    · exact .inl (by rw [bound, Bool.or_true])
    · rcases List.mem_cons.mp mem with rfl | later
      · exact .inl (by simp [same])
      · exact .inr ⟨c, later, same⟩

/-- The scope that a call takes for its arguments if it begins on this machine. -/
def Machine.locals (m : Machine) : ScopeId := ⟨m.store.scopes.size⟩

/-- The machine on which the body of a call runs. -/
def Machine.called (m : Machine) (l : LambdaId) (args : List Value) : Machine :=
  ⟨(m.store.newScope (Scope.ofArguments (m.store.lambda l).params args)).2,
    m.locals :: (m.store.lambda l).scope :: m.stack⟩

/-- The region of a call that begins on this machine. -/
def Machine.region (m : Machine) (l : LambdaId) : Region :=
  .call l m.locals (m.store.lambda l).scope

variable {m n : Machine} {l : LambdaId} {args : List Value}

theorem Region.openCall_eq (arity : (m.store.lambda l).params.length = args.length) :
    openCall l args m = .value ((m.store.lambda l).body, m.region l) (m.called l args) := by
  unfold openCall
  rw [Eval.read_bind, if_neg fun different => different arity]
  rfl

theorem Region.openCall_eq_fault (arity : (m.store.lambda l).params.length ≠ args.length) :
    openCall l args m =
      .fault (Evaluation.arityFault ("lambda " ++ parameterText (m.store.lambda l).params)
        (m.store.lambda l).params.length args.length) m := by
  unfold openCall
  rw [Eval.read_bind, if_pos arity]
  rfl

theorem Evaluation.call_value {depth : Nat} {v : Value}
    (ends : call (eval depth) l args m = .value v n) :
    (m.store.lambda l).params.length = args.length ∧ ∃ left,
      runBody (eval depth) (m.store.lambda l).body (m.called l args) = .value v left ∧
      n = ⟨(m.region l).settle (.ok v) left.store, m.stack⟩ := by
  rw [call_eq] at ends
  obtain ⟨e, entered, opened, ends⟩ := Eval.value_of_bind ends
  by_cases arity : (m.store.lambda l).params.length = args.length
  · rw [Region.openCall_eq arity] at opened
    cases opened
    refine ⟨arity, ?_⟩
    obtain ⟨result, left, ran, ends⟩ := Eval.value_of_bind ends
    rcases Eval.of_attempt ran with ⟨w, rfl, body⟩ | ⟨f, rfl, body⟩
    · have stack := runBody_stack (by rw [body]; rfl : _ = some left)
      rw [Process.leave_eq stack] at ends
      cases ends
      exact ⟨left, body, rfl⟩
    · have stack := runBody_stack (by rw [body]; rfl : _ = some left)
      rw [Process.leave_eq stack] at ends
      cases ends
  · rw [Region.openCall_eq_fault arity] at opened
    cases opened

namespace Process

variable {p q : Process}

/-- The name that a definition gives a value to at this point. -/
def defines? (p : Process) : Option String :=
  match p.focus, p.frames with
  | .done (.ok _), .definition name :: _ => some name
  | _, _ => none

theorem of_defines? {name : String} (defines : p.defines? = some name) :
    ∃ w frames, p = ⟨.done (.ok w), .definition name :: frames, p.machine⟩ := by
  unfold defines? at defines
  split at defines
  · next w other rest focus frames =>
    cases defines
    exact ⟨w, rest, by rw [← focus, ← frames]⟩
  · cases defines

theorem next_definition {w : Value} {name : String} {frames : List Frame} {i : ScopeId}
    (innermost : m.stack.head? = some i) :
    next ⟨.done (.ok w), .definition name :: frames, m⟩ =
      some ⟨.done (.ok w), frames, ⟨m.store.bind i name w, m.stack⟩⟩ := by
  have defined : Eval.define name w m = .value () ⟨m.store.bind i name w, m.stack⟩ := by
    unfold Eval.define Machine.define?
    rw [innermost]
    rfl
  change perform frames (Eval.bind (Eval.define name w) fun _ => pure w) (yield frames) m = _
  unfold perform Eval.bind
  rw [defined]
  rfl

/-- A process that begins with a call is sound where the machine is and knows what the call has. -/
theorem sound_call (sound : m.Sound) (valid : l.index < m.store.lambdas.size)
    (known : ∀ v ∈ args, v.KnownTo m.store) : Sound ⟨.call l args, [], m⟩ :=
  ⟨⟨sound, nofun⟩, valid, known⟩

theorem sound_body (sound : m.Sound) (valid : l.index < m.store.lambdas.size)
    (known : ∀ v ∈ args, v.KnownTo m.store)
    (arity : (m.store.lambda l).params.length = args.length) :
    Sound ⟨.body (m.store.lambda l).body, [], m.called l args⟩ := by
  have step : next ⟨.call l args, [], m⟩ =
      some ⟨.body (m.store.lambda l).body, [.region (m.region l)], m.called l args⟩ := by
    change perform [] (Region.openCall l args) _ m = _
    unfold perform
    rw [Region.openCall_eq arity]
    rfl
  obtain ⟨grounded, focus⟩ := (sound_call sound valid known).next step
  exact ⟨grounded.tail, focus⟩

/-- A name that is defined in the scope of the arguments is bound there for the rest of the body. -/
theorem binds_of_definition {body result : Value} {name : String} {below : List ScopeId}
    {left : Machine} {locals : ScopeId} (sound : Sound ⟨.body body, [], m⟩)
    (stack : m.stack = locals :: below)
    (ran : Leads ⟨.body body, [], m⟩ ⟨.done (.ok result), [], left⟩)
    (reached : Leads ⟨.body body, [], m⟩ p) (defines : p.defines? = some name)
    (outermost : p.regions = []) :
    (left.store.scope locals).binds name = true := by
  have balanced : Balanced m.stack ⟨.body body, [], m⟩ := rfl
  have there := balanced.leads reached
  have soundThere := sound.leads reached
  have onward := reached.onward ran rfl
  have innermost : p.machine.stack.head? = some locals := by
    rw [show p.machine.stack = _ from there, outermost, stack]
    rfl
  have inside : locals.index < p.machine.store.scopes.size :=
    soundThere.grounded.machine.stack locals (List.mem_of_head? innermost)
  obtain ⟨w, frames, shape⟩ := of_defines? defines
  -- The definition is not the end of the run, and what follows it takes no name away.
  rcases onward.cases_head with same | ⟨q, step, later⟩
  · rw [same] at shape
    cases shape
  · have balancedNext := there.next (there.move step)
    have after : Leads q ⟨.done (.ok result), [], left⟩ := later
    apply (after.grows balancedNext).binds locals name
    rw [shape, next_definition innermost] at step
    cases step
    rw [Store.scope_bind, if_pos ⟨rfl, inside⟩, Scope.binds_insert]
    simp

end Process

/-- After a call that ends with a value the called lambda has the scope that it had when the call
began. Another lambda that the call returns has the scope that was made for the arguments, which is
as the body left it: it binds the parameters and the names that the body defined in it. -/
theorem call_value_writes_back {depth : Nat} {v : Value} (sound : m.Sound)
    (valid : l.index < m.store.lambdas.size) (known : ∀ w ∈ args, w.KnownTo m.store)
    (ends : Evaluation.call (eval depth) l args m = .value v n) :
    (n.store.lambda l).scope = (m.store.lambda l).scope ∧
    ∀ r, v = .lambda r → r ≠ l →
      (n.store.lambda r).scope = m.locals ∧
      (∃ left, Evaluation.runBody (eval depth) (m.store.lambda l).body (m.called l args) =
          .value v left ∧ n.store.scope m.locals = left.store.scope m.locals) ∧
      (∀ name ∈ (m.store.lambda l).params, (n.store.scope m.locals).binds name = true) ∧
      ∀ p name, Process.Leads ⟨.body (m.store.lambda l).body, [], m.called l args⟩ p →
        p.defines? = some name → p.regions = [] → (n.store.scope m.locals).binds name = true := by
  obtain ⟨arity, left, ran, rfl⟩ := Evaluation.call_value ends
  have bodySound := Process.sound_body sound valid known arity
  have bodyBalanced : Process.Balanced (m.called l args).stack
      ⟨.body (m.store.lambda l).body, [], m.called l args⟩ := rfl
  have run := Process.body_follows depth (m.store.lambda l).body (m.called l args)
  rw [ran] at run
  have grows := run.leads_value.grows bodyBalanced
  have validLeft : l.index < left.store.lambdas.size := Nat.lt_of_lt_of_le valid grows.lambdas
  constructor
  · rw [Machine.region, Region.scope_settle validLeft, if_pos rfl]
  · rintro r rfl different
    have known : (Value.lambda r).KnownTo left.store :=
      (bodySound.leads run.leads_value).focus _ rfl
    refine ⟨?_, ⟨left, ran, rfl⟩, fun name mem => ?_,
      fun p name reached defines outermost => ?_⟩
    · rw [Machine.region, Region.scope_settle known, if_neg different, Value.lambda?, if_pos rfl]
    · apply grows.binds _ name
      change ((m.store.newScope _).2.scope _).binds name = true
      rw [Store.scope_newScope, Machine.locals, if_pos rfl]
      exact Scope.binds_ofArguments arity mem
    · change (left.store.scope _).binds name = true
      exact Process.binds_of_definition bodySound rfl run.leads_value reached defines outermost

/-- A call that defines a name and returns a lambda which refers to it. -/
def makerText : String := "(def make (lambda (x) (block (def y x) (lambda () y))))"

set_option maxRecDepth 4000 in
theorem call_of_maker_writes_back : ∃ m n, Session.Reached m ∧
    Evaluation.call (eval 9) ⟨0⟩ [.int 5] m = .value (.lambda ⟨1⟩) n ∧
    (n.store.lambda ⟨0⟩).scope = (m.store.lambda ⟨0⟩).scope ∧
    (n.store.lambda ⟨1⟩).scope = m.locals ∧ (n.store.scope m.locals).binds "x" = true ∧
    (n.store.scope m.locals).binds "y" = true := by
  obtain ⟨m, left, facts⟩ := (Option.any_eq_true _ _).mp (by decide +kernel :
    (Session.run 9 makerText Machine.initial).machine?.any (fun m => decide (
      0 < m.store.lambdas.size ∧ "x" ∈ (m.store.lambda ⟨0⟩).params ∧
      (Evaluation.call (eval 9) ⟨0⟩ [.int 5] m).value?.bind Value.lambda? = some ⟨1⟩ ∧
      (Process.after 3 ⟨.body (m.store.lambda ⟨0⟩).body, [], m.called ⟨0⟩ [.int 5]⟩).any
        (fun p => decide (p.defines? = some "y" ∧ p.regions = [])) = true)) = true)
  obtain ⟨valid, param, returns, definition⟩ := of_decide_eq_true facts
  obtain ⟨n, ends⟩ := Outcome.exists_of_lambda? returns
  obtain ⟨p, reached, found⟩ := (Option.any_eq_true _ _).mp definition
  obtain ⟨defines, outermost⟩ := of_decide_eq_true found
  have start : Session.Reached m := .run .initial 9 _ left
  have known : ∀ w ∈ [Value.int 5], w.KnownTo m.store := by
    intro w mem
    rw [List.mem_singleton.mp mem]
    trivial
  obtain ⟨own, returned⟩ := call_value_writes_back start.sound valid known ends
  obtain ⟨adopted, _, params, defined⟩ := returned ⟨1⟩ rfl (by decide)
  exact ⟨m, n, start, ends, own, adopted, params "x" param,
    defined p "y" (Process.leads_of_after reached) defines outermost⟩

end CellLisp
