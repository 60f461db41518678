import CellLisp.Proofs.Detour
import CellLisp.Proofs.InPlace
import CellLisp.Proofs.ListFunctions

/-!
# What a callback sees

A callback that is called by a map runs on a stack on which the scopes of the map lie, one pair for
each item so far. Of these the scopes for its arguments bind the two parameters of the map and
nothing else, and the scope of the map itself binds nothing. So unless the callback uses a variable
of its caller that has the name of a parameter of the map, it runs as it would if the caller applied
it to the items itself.
-/

namespace CellLisp

open Evaluation Prelude

variable {m n k d d' : Machine} {lib : Function → LambdaId} {g : LambdaId} {names : List String}
  {list : Value} {args xs vs : List Value} {move : ScopeId → ScopeId} {between : List ScopeId}

/-- The lambda is applied to one item after the other. Each call leaves everything untouched, and
uses no variable of the caller that has one of these names. -/
inductive Evaluation.Calls (names : List String) (g : LambdaId) :
    Machine → List Value → List Value → Machine → Prop
  | nil {m : Machine} : Calls names g m [] [] m
  | cons {m k n : Machine} {x v : Value} {xs vs : List Value} (called : CallEnds m g [x] (.ok v) k)
    (untouched : m.store.Untouched k.store) (own : m.UsesOwn names g [x])
    (rest : Calls names g k xs vs n) : Calls names g m (x :: xs) (v :: vs) n

theorem Scope.mem_of_binds_ofArguments {params : List String} {name : String}
    (bound : (ofArguments params args).binds name = true) : name ∈ params := by
  by_contra other
  rw [binds, get?_ofArguments other] at bound
  cases bound

/-- Inside of a startup function, its own scopes bind nothing but its parameters. -/
theorem Machine.InForce.mem_params {f : Function} {i : ScopeId} {name : String}
    (force : m.InForce lib f) (own : i = m.locals ∨ i = (m.store.lambda (lib f)).scope)
    (bound : ((m.within lib f args list).store.scope i).binds name = true) : name ∈ f.params := by
  have defines := force.self.defines
  rcases own with rfl | rfl
  · have made : (m.called (lib f) args).store.scope m.locals =
        .ofArguments (m.store.lambda (lib f)).params args := by
      unfold Machine.called
      exact (Store.scope_newScope _ _ _).trans (if_pos rfl)
    have tested := (Machine.untouched_tested (m.called (lib f) args) lib list).store
    have inside : m.locals.index < (m.called (lib f) args).store.scopes.size := by
      simp [Machine.called, Machine.locals]
    unfold Machine.within at bound
    rw [tested.scope _ inside, made, defines.written.params] at bound
    exact Scope.mem_of_binds_ofArguments bound
  · rw [(m.untouched_within lib f args list).scope _ defines.written.owned, Scope.binds,
      defines.empty] at bound
    cases bound

/-- Inside of a startup function, the detour is longer by the scopes of the function. -/
theorem Machine.Detoured.exists_within {f : Function}
    (detoured : d.Detoured move between f.params k) (sound : d.Sound) (force : k.InForce lib f)
    (arity : f.params.length = args.length) (known : ∀ v ∈ args, v.KnownTo k.store)
    (mem : list ∈ args) (valid : g.index < d.store.lambdas.size) :
    ∃ moved, d.Detoured moved (k.locals :: (k.store.lambda (lib f)).scope :: between) f.params
      (k.within lib f args list) := by
  have begun := k.untouched_within lib f args list
  have stack : (k.within lib f args list).stack =
      k.locals :: (k.store.lambda (lib f)).scope :: between ++ d.stack :=
    congrArg (k.locals :: (k.store.lambda (lib f)).scope :: ·) detoured.stack
  obtain ⟨moved, store, same⟩ := detoured.store.exists_extend (sound.older valid) begun rfl rfl
  refine ⟨moved, store, fun i outer => ?_, stack, fun i inner => ?_, ?_⟩
  · exact (same i (sound.stack i outer)).trans (detoured.fixed i outer)
  · refine (force.within arity known mem).sound.stack i ?_
    rw [stack]
    exact List.mem_append_left _ inner
  · simp only [List.forall_mem_cons]
    refine ⟨fun _ => force.mem_params (.inl rfl), fun _ => force.mem_params (.inr rfl),
      fun i mem name bound => ?_⟩
    rw [begun.scope i (detoured.inside i mem)] at bound
    exact detoured.binds i mem name bound

/-- A map makes the calls that its caller may make itself. -/
theorem Evaluation.Calls.exists_maps (calls : Calls Function.map.params g d xs vs d')
    (sound : d.Sound) (force : k.InForce lib .map) (listed : k.store.Listed 0 list xs)
    (valid : g.index < k.store.lambdas.size)
    (detoured : d.Detoured move between Function.map.params k) :
    ∃ s move, Maps lib g k list vs s ∧ d'.store.Relocated move s := by
  -- With each item the map goes one call deeper, so the detour is another one then.
  induction calls generalizing k list move between with
  | @nil d =>
    cases listed
    have args : ∀ v ∈ [Value.lambda g, .nil], v.KnownTo k.store := by
      simpa using ⟨valid, trivial⟩
    have validHere : g.index < d.store.lambdas.size := by rwa [← detoured.store.lambdas]
    have mem : Value.nil ∈ [Value.lambda g, .nil] := by simp
    obtain ⟨moved, inside⟩ := detoured.exists_within sound force rfl args mem validHere
    exact ⟨_, moved, .nil, inside.store⟩
  | @cons d d₁ d' x v xs vs called untouched own rest ih =>
    cases listed with
    | @cons c _ _ cell listed =>
    have args : ∀ v ∈ [Value.lambda g, .cons c], v.KnownTo k.store := by
      simpa using ⟨valid, cell⟩
    have validHere : g.index < d.store.lambdas.size := by rwa [← detoured.store.lambdas]
    have mem : Value.cons c ∈ [Value.lambda g, .cons c] := by simp
    obtain ⟨_, inside⟩ := detoured.exists_within sound force rfl args mem validHere
    obtain ⟨_, calledThere, untouchedThere, after⟩ := called.behind untouched own inside
    have behind := force.behind rfl args mem valid (by simpa using force.sound.store.car c)
      calledThere untouchedThere
    have item : (k.store.car c).KnownTo d.store := by
      rw [Store.car_congr detoured.store.cells c]
      exact sound.store.car c
    have soundAfter := (called.sound sound validHere (by simpa using item)).1
    obtain ⟨s, moved, maps, relocated⟩ := ih soundAfter behind.force
      (listed.extends behind.untouched.toExtends)
      (Nat.lt_of_lt_of_le valid behind.untouched.lambdas) after
    exact ⟨s, moved, .cons calledThere untouchedThere maps, relocated⟩

namespace Process

variable {p q : Process}

/-- From here on only these names are looked up or assigned to. -/
def SeeksOnly (names : List String) (p : Process) : Prop :=
  ∀ q name, Leads p q → q.Seeks name → name ∈ names

theorem SeeksOnly.of_next (later : SeeksOnly names q) (step : p.next = some q)
    (here : ∀ name, p.Seeks name → name ∈ names) : SeeksOnly names p := by
  intro t name leads seeks
  rcases leads.cases_head with rfl | ⟨_, taken, onward⟩
  · exact here name seeks
  · cases step.symm.trans taken
    exact later t name onward seeks

theorem SeeksOnly.of_ended (ended : p.next = none) (here : ∀ name, p.Seeks name → name ∈ names) :
    SeeksOnly names p := by
  intro t name leads seeks
  rcases leads.cases_head with rfl | ⟨_, taken, _⟩
  · exact here name seeks
  · cases ended.symm.trans taken

theorem next_name {name : String} {v : Value} {frames : List Frame}
    (found : m.lookup? name = some v) :
    next ⟨.code (.string name), frames, m⟩ = some ⟨.done (.ok v), frames, m⟩ := by
  change perform frames (Eval.lookup name) (yield frames) m = _
  unfold perform Eval.lookup
  rw [found]
  rfl

end Process

theorem Machine.usesOwn_of_seeksOnly {allowed : List String}
    (only : Process.SeeksOnly allowed ⟨.body (m.store.lambda g).body, [], m.called g args⟩)
    (apart : ∀ name ∈ allowed, name ∉ names) : m.UsesOwn names g args :=
  fun p name leads seeks named => absurd named (apart name (only p name leads seeks))

theorem Value.eq_true_of_equal {v : Value} (same : v.equal (.boolean true) = true) :
    v = .boolean true := by
  cases v with
  | boolean b => rw [eq_of_beq same]
  | number | string | nil | cons | lambda => cases same

namespace Prelude

variable {depth : Nat} {last : Option Value} {frames : List Frame}

/-- A map is hygienic for a callback that uses no variable of its caller that has the name of a
parameter of the map. If the caller can apply the callback to one item after the other, and this
leaves everything untouched, then the map gives a new list of the same values. -/
theorem map_is_hygienic (started : Session.started depth source = .value last m)
    (applied : Applied m .map [.lambda g, list] frames n)
    (listed : n.store.chain list = .proper xs) (calls : Calls Function.map.params g n xs vs d) :
    ∃ r k move s, Computes .map [.lambda g, list] frames n list xs r k ∧
      k.store.chain r = .proper vs ∧ d.store.Relocated move s ∧ s.list vs = (r, k.store) := by
  obtain ⟨force, known, listed⟩ := applied.ready started (by simp) listed
  have valid : g.index < n.store.lambdas.size := known (.lambda g) (by simp)
  obtain ⟨s, moved, maps, relocated⟩ :=
    calls.exists_maps force.sound force listed valid n.detoured_self
  obtain ⟨untouched, ends⟩ := maps.callEnds force valid (known list (by simp))
  exact ⟨_, _, moved, s, computes_of_callEnds force listed (untouched.trans (s.untouched_list vs))
    ends, (s.listed_list vs).chain, relocated, rfl⟩

/-! A callback with a variable of its caller: where that is a boolean, it gives its argument. -/

def switched (name : String) : Datum :=
  .form "if" [.string name, .string "x", .string "x"]

variable {name : String} {b : Bool}

theorem seeksOnly_switched {code v : Value} (holds : m.store.Holds code (switched name))
    (bound : m.lookup? name = some (.boolean b)) (item : m.lookup? "x" = some v) :
    Process.SeeksOnly [name, "x"] ⟨.body code, [], m⟩ := by
  obtain ⟨_, each, step⟩ := Process.exists_next_form holds []
  cases each with
  | cons first others =>
  cases others with
  | cons second others =>
  cases others with
  | cons third others =>
  cases others
  cases first
  cases second
  cases third
  have ended : Process.SeeksOnly [name, "x"] ⟨.done (.ok v), [], m⟩ := .of_ended rfl nofun
  have last : Process.SeeksOnly [name, "x"] ⟨.code (.string "x"), [], m⟩ :=
    ended.of_next (Process.next_name item) (by rintro _ ⟨⟩; simp)
  have chosen : Process.next
      ⟨.done (.ok (.boolean b)), [.branch (.string "x") (.string "x")], m⟩ =
        some ⟨.code (.string "x"), [], m⟩ := by
    cases b <;> rfl
  have decided := last.of_next chosen nofun
  have first := decided.of_next (Process.next_name bound) (by rintro _ ⟨⟩; simp)
  have form := first.of_next step fun _ seeks => by
    cases seeks
    cases holds
  exact form.of_next (Process.next_body holds (by decide)) nofun

/-- Applied to one item after the other, the callback gives them. -/
theorem exists_calls (sound : m.Sound) (written : m.store.Written g ["x"] (switched name))
    (empty : (m.store.scope (m.store.lambda g).scope).get? name = none)
    (bound : m.lookup? name = some (.boolean b)) (other : name ≠ "x") (free : name ∉ names)
    (apart : "x" ∉ names) (items : ∀ x ∈ xs, x.lambda? = none ∧ x.KnownTo m.store) :
    ∃ d, Calls names g m xs xs d := by
  induction xs generalizing m with
  | nil => exact ⟨m, .nil⟩
  | cons x xs ih =>
    obtain ⟨⟨noLambda, known⟩, others⟩ := List.forall_mem_cons.mp items
    have begun := m.untouched_called g [x]
    have found : (m.called g [x]).lookup? name = some (.boolean b) := by
      rw [Machine.lookup?_called written.owned sound.stack, written.params,
        Scope.get?_ofArguments (by simpa using other), empty]
      exact bound
    have own : (m.called g [x]).lookup? "x" = some x := written.lookup?_param sound.stack rfl
    have gives : Gives (m.called g [x]) (switched name) x (m.called g [x]) := by
      refine gives_if (gives_name found) (.refl _) ?_
      cases b <;> exact gives_name own
    have called := callEnds_of_gives written rfl (by decide) gives (.refl _) noLambda
    have only := seeksOnly_switched (written.body.extends begun.toExtends) found own
    have uses : m.UsesOwn names g [x] :=
      Machine.usesOwn_of_seeksOnly only (by simpa using ⟨free, apart⟩)
    let k : Machine := ⟨(m.called g [x]).store, m.stack⟩
    have untouched : m.Untouched k := ⟨begun, rfl⟩
    have emptyStill : (k.store.scope (k.store.lambda g).scope).get? name = none := by
      rw [begun.lambda g written.valid, begun.scope _ written.owned]
      exact empty
    obtain ⟨d, rest⟩ := ih (m := k) (called.sound sound written.valid (by simpa using known)).1
      (written.untouched begun) emptyStill ((untouched.lookup? sound name).trans bound)
      fun v mem => ⟨(others v mem).1, (others v mem).2.mono begun.within⟩
    exact ⟨d, .cons called begun uses rest⟩

/-- The values are such a callback, whose variable is true for the caller, and a list of three. -/
def takesSwitched (name : String) : List Value → Machine → Bool
  | [.lambda g, list], n =>
    n.store.isWritten g ["x"] (switched name) &&
      ((n.store.scope (n.store.lambda g).scope).get? name).isNone &&
      (n.lookup? name).any (·.equal (.boolean true)) &&
      match n.store.chain list with
      | .proper xs => xs.length == 3 && xs.all (·.lambda?.isNone)
      | _ => false
  | _, _ => false

theorem exists_calls_of_takesSwitched {head : Value} {args : List Value}
    (sound : Process.Sound ⟨.supplied (.call head) args, frames, n⟩)
    (takes : takesSwitched name args n = true) (other : name ≠ "x") (free : name ∉ names)
    (apart : "x" ∉ names) :
    ∃ g list xs d, args = [.lambda g, list] ∧ n.store.chain list = .proper xs ∧ xs.length = 3 ∧
      Calls names g n xs xs d := by
  unfold takesSwitched at takes
  split at takes
  · next g list =>
    simp only [Bool.and_eq_true, Option.isNone_iff_eq_none] at takes
    obtain ⟨⟨⟨written, empty⟩, bound⟩, items⟩ := takes
    obtain ⟨v, found, same⟩ := (Option.any_eq_true _ _).mp bound
    obtain ⟨_, known⟩ : g.index < n.store.lambdas.size ∧ list.KnownTo n.store := by
      simpa [Value.KnownTo] using sound.focus.2
    split at items
    · next xs walked =>
      simp only [Bool.and_eq_true, beq_iff_eq, List.all_eq_true, Option.isNone_iff_eq_none] at items
      have machine := sound.grounded.machine
      have each := (Eval.sound_of_items machine known (Eval.items_eq walked)).2
      obtain ⟨d, calls⟩ := exists_calls machine (Store.written_of_isWritten written) empty
        (found.trans (congrArg some (Value.eq_true_of_equal same))) other free apart
        fun x mem => ⟨items.2 x mem, each x mem⟩
      exact ⟨g, list, xs, d, rfl, walked, items.1, calls⟩
    · cases items
  · cases takes

/-- A map of the callback over a list of three. -/
def mapping (name : String) : Node :=
  application "map" ["x"] (.group [.name "if", .name name, .name "x", .name "x"]) [threeItems]

set_option maxRecDepth 4000 in
theorem brings_mapping : brings "(def y true)" (mapping "y") 5
    (applies .map (takesSwitched "y")) (Session.started 9 source) = true :=
  Session.started_of_chars rfl (by decide +kernel)

/-- The callback uses a variable that the caller has defined. -/
theorem map_is_hygienic_for_variable_of_caller : ∃ last m n g list xs d,
    Session.started 9 source = .value last m ∧ Applied m .map [.lambda g, list] [] n ∧
    n.store.chain list = .proper xs ∧ xs.length = 3 ∧ Calls Function.map.params g n xs xs d ∧
    ∃ r k move s, Computes .map [.lambda g, list] [] n list xs r k ∧
      k.store.chain r = .proper xs ∧ d.store.Relocated move s ∧ s.list xs = (r, k.store) := by
  obtain ⟨last, m, args, n, started, applied, takes⟩ := exists_applied brings_mapping
  have free : "y" ∉ Function.map.params := by decide
  have apart : "x" ∉ Function.map.params := by decide
  obtain ⟨g, list, xs, d, rfl, listed, length, calls⟩ :=
    exists_calls_of_takesSwitched (applied.inForce started).2 takes (by decide) free apart
  exact ⟨last, m, n, g, list, xs, d, started, applied, listed, length, calls,
    map_is_hygienic started applied listed calls⟩

/-- After the startup definitions and this text, a form is to map a callback over a list. The caller
can apply the callback to the items, but evaluating the form ends with a fault. -/
def FailsToMap (text : String) (node : Node) : Prop :=
  ∃ last m form p g list n xs vs d f e, Session.started 9 source = .value last m ∧
    Brought m text node form p ⟨.supplied (.call (.string "map")) [.lambda g, list], [], n⟩ ∧
    n.store.chain list = .proper xs ∧ Calls [] g n xs vs d ∧ Ends p form (.error f) e

/-- Decides this for a callback with a variable of this name. -/
def fails (name : String) (form : Value) (p : Machine) : Process → Bool
  | ⟨.supplied (.call (.string "map")) args, [], n⟩ =>
    takesSwitched name args n && (eval 30 form p).fault?.isSome
  | _ => false

theorem failsToMap_of_brings {text : String} {node : Node} {steps : Nat}
    (passed : brings text node steps (fails name) (Session.started 9 source) = true)
    (other : name ≠ "x") : FailsToMap text node := by
  obtain ⟨last, m, form, p, q, started, brought, tested⟩ := exists_brought passed
  unfold fails at tested
  split at tested
  · next args n =>
    obtain ⟨takes, faulty⟩ := Bool.and_eq_true_iff.mp tested
    obtain ⟨g, list, xs, d, rfl, listed, _, calls⟩ := exists_calls_of_takesSwitched
      (brought.sound started) takes other List.not_mem_nil List.not_mem_nil
    obtain ⟨f, fault⟩ := Option.isSome_iff_exists.mp faulty
    obtain ⟨e, ends⟩ := Outcome.exists_of_fault? fault
    exact ⟨last, m, form, p, g, list, n, xs, xs, d, f, e, started, brought, listed, calls, 30, ends⟩
  · cases tested

/-- The variable of the callback, and a text after which it cannot be mapped: the variable has the
name of a parameter of the map, a name is bound anew that the map uses, or a lambda that the map
uses has been returned by a call and so has got the scope of that call. -/
def disturbances : List (String × String) :=
  [("f", "(def f true)"),
   ("l", "(def l true)"),
   ("y", "(def y true) (def nil 0)"),
   ("y", "(def y true) (def null 0)"),
   ("y", "(def y true) (def map 0)"),
   ("y", "(def y true) ((lambda (nil) null) 0)"),
   ("y", "(def y true) ((lambda (y) map) 0)")]

def allFail (outcome : Outcome (Option Value)) : Bool :=
  disturbances.all fun t => t.1 != "x" && brings t.2 (mapping t.1) 5 (fails t.1) outcome

set_option maxRecDepth 4000 in
theorem allFail_started : allFail (Session.started 9 source) = true :=
  Session.started_of_chars rfl (by decide +kernel)

theorem failsToMap_disturbed {t : String × String} (mem : t ∈ disturbances) :
    FailsToMap t.2 (mapping t.1) := by
  obtain ⟨other, passed⟩ := Bool.and_eq_true_iff.mp (List.all_eq_true.mp allFail_started t mem)
  exact failsToMap_of_brings passed (by simpa using other)

theorem map_can_fail_where_callback_works :
    FailsToMap "(def f true)" (mapping "f") ∧
    FailsToMap "(def l true)" (mapping "l") ∧
    FailsToMap "(def y true) (def nil 0)" (mapping "y") ∧
    FailsToMap "(def y true) (def null 0)" (mapping "y") ∧
    FailsToMap "(def y true) (def map 0)" (mapping "y") ∧
    FailsToMap "(def y true) ((lambda (nil) null) 0)" (mapping "y") ∧
    FailsToMap "(def y true) ((lambda (y) map) 0)" (mapping "y") := by
  have all : ∀ t ∈ disturbances, FailsToMap t.2 (mapping t.1) := fun _ => failsToMap_disturbed
  simpa only [disturbances, List.forall_mem_cons, List.not_mem_nil, false_implies, implies_true,
    and_true] using all

end Prelude

end CellLisp
