import CellLisp.Prelude
import CellLisp.Proofs.Constancy
import CellLisp.Proofs.Giving
import CellLisp.Proofs.Joining

/-!
# The startup definitions

A session may start with definitions of its own. After them `nil` is the empty list and the other
names are lambdas whose bodies are known and whose own scopes bind nothing. Nothing in these bodies
is quoted, so all of their cells are code and stay as they are whatever the session does. The names
may be bound to something else later, and what a call defines may get into the scopes. Where neither
has happened, the definitions are in force.
-/

namespace CellLisp

variable {s t : Store} {v : Value} {d : Datum} {r : Position} {m n : Machine}

namespace Datum

/-- No name in it is one after which code is read as data. -/
def Unquoting : Datum → Prop
  | string name => name ≠ "quote" ∧ name ≠ "eval"
  | pair a d => a.Unquoting ∧ d.Unquoting
  | _ => True

end Datum

namespace Store

theorem Holds.name?_ne (holds : s.Holds v d) (unquoting : d.Unquoting) :
    v.name? ≠ some "quote" ∧ v.name? ≠ some "eval" := by
  cases holds with
  | string text =>
    exact ⟨fun same => unquoting.1 (Option.some.inj same),
      fun same => unquoting.2 (Option.some.inj same)⟩
  | number | boolean | nil | cons => exact ⟨nofun, nofun⟩

/-- What spells code without quotes does so as long as its cells of code are the same. -/
theorem Holds.of_sameCode (holds : s.Holds v d) (unquoting : d.Unquoting)
    (code : r = .form ∨ r = .forms) (same : ∀ c, s.CodeCell r v c → t.cell c = s.cell c)
    (sound : t.Sound) (known : v.KnownTo t) : t.Holds v d := by
  induction holds generalizing r with
  | number n => exact .number n
  | string text => exact .string text
  | boolean b => exact .boolean b
  | nil => exact .nil
  | @cons c a d inside car cdr ihCar ihCdr =>
    have here := same c (.here (by rcases code with rfl | rfl <;> simp))
    have sameCar : t.car c = s.car c := congrArg Cell.car here
    have sameCdr : t.cdr c = s.cdr c := congrArg Cell.cdr here
    have knownCar := sound.car c
    have knownCdr := sound.cdr c
    rw [sameCar] at knownCar
    rw [sameCdr] at knownCdr
    have item : r.item = .form := by rcases code with rfl | rfl <;> rfl
    have rest : r.rest (s.car c) = .forms := by
      rcases code with rfl | rfl
      · rw [Position.rest, if_neg (car.name?_ne unquoting.1).1, if_neg (car.name?_ne unquoting.1).2]
      · rfl
    refine .cons known ?_ ?_
    · rw [sameCar]
      exact ihCar unquoting.1 (.inl item) (fun e inside => same e (.car inside)) knownCar
    · rw [sameCdr]
      exact ihCdr unquoting.2 (.inr rest) (fun e inside => same e (.cdr inside)) knownCdr

/-- Decides whether a value spells a datum without numbers. -/
def spells (s : Store) : Value → Datum → Bool
  | .string a, .string b => a == b
  | .nil, .nil => true
  | .cons c, .pair a d =>
    decide (c.index < s.cells.size) && s.spells (s.car c) a && s.spells (s.cdr c) d
  | _, _ => false

theorem holds_of_spells (spelled : s.spells v d = true) : s.Holds v d := by
  fun_induction s.spells v d with
  | case1 a b =>
    cases eq_of_beq spelled
    exact .string a
  | case2 => exact .nil
  | case3 c a d ihCar ihCdr =>
    simp only [Bool.and_eq_true, decide_eq_true_eq] at spelled
    obtain ⟨⟨inside, car⟩, cdr⟩ := spelled
    exact .cons inside (ihCar car) (ihCdr cdr)
  | case4 => cases spelled

end Store

namespace Prelude

/-- The lambdas that the startup definitions define. -/
inductive Function where
  | null
  | map
  | filter
  | reduce

namespace Function

open Datum

def name : Function → String
  | null => "null"
  | map => "map"
  | filter => "filter"
  | reduce => "reduce"

def params : Function → List String
  | null => ["l"]
  | map => ["f", "l"]
  | filter => ["p", "l"]
  | reduce => ["f", "acc", "l"]

def body : Function → Datum
  | null => form "=" [string "l", string "nil"]
  | map =>
    form "if" [form "null" [string "l"],
      form "list" [],
      form "cons" [form "f" [form "car" [string "l"]],
        form "map" [string "f", form "cdr" [string "l"]]]]
  | filter =>
    form "if" [form "null" [string "l"],
      form "list" [],
      form "if" [form "p" [form "car" [string "l"]],
        form "cons" [form "car" [string "l"],
          form "filter" [string "p", form "cdr" [string "l"]]],
        form "filter" [string "p", form "cdr" [string "l"]]]]
  | reduce =>
    form "if" [form "null" [string "l"],
      string "acc",
      form "reduce" [string "f", form "f" [string "acc", form "car" [string "l"]],
        form "cdr" [string "l"]]]

def all : List Function := [null, map, filter, reduce]

theorem mem_all (f : Function) : f ∈ all := by cases f <;> simp [all]

theorem unquoting_body (f : Function) : f.body.Unquoting := by
  cases f <;> simp [body, form, list, Unquoting]

/-- The lambda that the definition makes in a new session. -/
def lambda : Function → LambdaId
  | null => ⟨0⟩
  | map => ⟨1⟩
  | filter => ⟨2⟩
  | reduce => ⟨3⟩

end Function

end Prelude

open Prelude

/-- The lambda is this function, and its own scope binds nothing. -/
structure Store.Defines (s : Store) (f : Function) (l : LambdaId) : Prop where
  written : s.Written l f.params f.body
  empty : ∀ name, (s.scope (s.lambda l).scope).get? name = none

theorem Store.Defines.untouched {f : Function} {l : LambdaId} (defines : s.Defines f l)
    (untouched : s.Untouched t) : t.Defines f l where
  written := defines.written.untouched untouched
  empty := by
    rw [untouched.lambda l defines.written.valid, untouched.scope _ defines.written.owned]
    exact defines.empty

/-- The name of the function is bound to a lambda that is this function. -/
structure Machine.Provides (m : Machine) (f : Function) (l : LambdaId) : Prop where
  bound : m.lookup? f.name = some (.lambda l)
  defines : m.store.Defines f l

/-- The names that the function uses, its own one among them, mean what they did at first. -/
structure Machine.InForce (m : Machine) (lib : Function → LambdaId) (f : Function) : Prop where
  sound : m.Sound
  nil : m.lookup? "nil" = some .nil
  test : m.Provides .null (lib .null)
  self : m.Provides f (lib f)

theorem Value.eq_nil_of_equal (same : v.equal .nil = true) : v = .nil := by
  cases v with
  | nil => rfl
  | number | string | boolean | cons | lambda => cases same

/-- Decides whether a lambda is written so, in a body without numbers. -/
def Store.isWritten (s : Store) (l : LambdaId) (params : List String) (body : Datum) : Bool :=
  decide (l.index < s.lambdas.size) && decide ((s.lambda l).params = params) &&
    s.spells (s.lambda l).body body && decide ((s.lambda l).scope.index < s.scopes.size)

theorem Store.written_of_isWritten {l : LambdaId} {params : List String} {body : Datum}
    (written : s.isWritten l params body = true) : s.Written l params body := by
  simp only [Store.isWritten, Bool.and_eq_true, decide_eq_true_eq] at written
  obtain ⟨⟨⟨valid, params⟩, body⟩, owned⟩ := written
  exact ⟨valid, params, holds_of_spells body, owned⟩

/-- Decides whether the names mean what they do in a new session. -/
def Machine.hasDefinitions (m : Machine) : Bool :=
  (m.lookup? "nil").any (·.equal .nil) && Function.all.all fun f =>
    decide ((m.lookup? f.name).bind Value.lambda? = some f.lambda) &&
    m.store.isWritten f.lambda f.params f.body &&
    (m.store.scope (m.store.lambda f.lambda).scope).bindings.isEmpty

theorem Machine.InForce.of_hasDefinitions (sound : m.Sound) (has : m.hasDefinitions = true)
    (f : Function) : m.InForce Function.lambda f := by
  simp only [hasDefinitions, Bool.and_eq_true, List.all_eq_true, decide_eq_true_eq] at has
  obtain ⟨nil, functions⟩ := has
  have provides (f : Function) : m.Provides f f.lambda := by
    obtain ⟨⟨bound, written⟩, empty⟩ := functions f f.mem_all
    refine ⟨?_, Store.written_of_isWritten written, fun name => ?_⟩
    · obtain ⟨v, found, isLambda⟩ := Option.bind_eq_some_iff.mp bound
      rw [found, Value.lambda?_eq_some.mp isLambda]
    · rw [Scope.get?, List.isEmpty_iff.mp empty]
      rfl
  refine ⟨sound, ?_, provides .null, provides f⟩
  obtain ⟨v, found, same⟩ := (Option.any_eq_true _ _).mp nil
  rw [found, Value.eq_nil_of_equal same]

namespace Session

variable {depth other : Nat}

/-- A run that ends with a value does so whatever depth is allowed. -/
theorem runForms_unique {nodes : List Node} {last v w : Option Value} {k : Machine}
    (ends : runForms depth last nodes m = .value v n)
    (again : runForms other last nodes m = .value w k) : n = k := by
  induction nodes generalizing m last with
  | nil =>
    cases ends
    cases again
    rfl
  | cons node nodes ih =>
    obtain ⟨form, placed, read, ends⟩ := Eval.value_of_bind ends
    obtain ⟨_, _, readAgain, again⟩ := Eval.value_of_bind again
    cases read.symm.trans readAgain
    obtain ⟨x, left, evaluated, ends⟩ := Eval.value_of_bind ends
    obtain ⟨y, leftAgain, evaluatedAgain, again⟩ := Eval.value_of_bind again
    obtain ⟨same, rfl⟩ : Except.ok x = Except.ok y ∧ left = leftAgain :=
      Process.eval_result_unique evaluated evaluatedAgain
    cases same
    exact ih ends again

theorem run_unique {source : String} {v w : Option Value} {k : Machine}
    (ends : run depth source m = .value v n) (again : run other source m = .value w k) :
    n = k := by
  obtain ⟨nodes, _, found, ends⟩ := Eval.value_of_bind ends
  obtain ⟨_, _, foundAgain, again⟩ := Eval.value_of_bind again
  cases found.symm.trans foundAgain
  exact runForms_unique ends again

/-- The result that an idle process has makes no difference to what it does then. -/
theorem Course.of_idle {result : Except Fault Value} {p : Process}
    (course : Course ⟨.done result, [], m⟩ p) (other : Except Fault Value) :
    p = ⟨.done result, [], m⟩ ∨ Course ⟨.done other, [], m⟩ p := by
  rcases course.cases_head with rfl | ⟨q, turn, later⟩
  · exact .inl rfl
  · refine .inr (.head ?_ later)
    cases turn with
    | step next => cases next
    | read placed => exact .read placed

/-- A long text is run from its characters, as they are given. -/
theorem started_of_chars {test : Outcome (Option Value) → Bool} {source : String} {text : List Char}
    (same : source = String.ofList text)
    (passed : test ((do
      let nodes ← Eval.ofExcept (Source.plainNodes (Comment.strip text))
      runForms 9 none nodes : Eval (Option Value)) Machine.initial) = true) :
    test (started 9 source) = true := by
  subst same
  rwa [started, run, Source.nodes, String.toList_ofList]

/-- The run has made the startup definitions. -/
def madeDefinitions : Outcome (Option Value) → Bool
  | .value _ m => m.hasDefinitions
  | _ => false

set_option maxRecDepth 4000 in
theorem madeDefinitions_started : madeDefinitions (started 9 Prelude.source) = true :=
  started_of_chars rfl (by decide +kernel)

theorem exists_started : ∃ last m, started 9 Prelude.source = .value last m ∧
    ∀ f, m.InForce Function.lambda f := by
  have made := madeDefinitions_started
  cases outcome : started 9 Prelude.source with
  | value last m =>
    rw [outcome] at made
    have reached : Reached m := .run .initial 9 Prelude.source (by
      change (started 9 Prelude.source).machine? = _
      rw [outcome]
      rfl)
    exact ⟨last, m, rfl, .of_hasDefinitions reached.sound made⟩
  | fault f m =>
    rw [outcome] at made
    cases made
  | unfinished =>
    rw [outcome] at made
    cases made

end Session

/-! Where the definitions are in force. -/

theorem Scope.get?_ofArguments {params : List String} {name : String} (other : name ∉ params)
    (args : List Value) : (ofArguments params args).get? name = none := by
  refine ofArguments_induction (P := fun s => s.get? name = none) rfl ?_
  intro s absent b mem
  have different : b.1 ≠ name := by
    rintro rfl
    exact other (List.of_mem_zip mem).1
  rw [get?_insert, if_neg different]
  exact absent

/-- In a call of a startup function, a name that is no parameter is the caller's. -/
theorem Store.Defines.lookup?_called {f : Function} {l : LambdaId} {args : List Value}
    {name : String} (defines : m.store.Defines f l) (sound : m.Sound) (other : name ∉ f.params) :
    (m.called l args).lookup? name = m.lookup? name := by
  rw [Machine.lookup?_called defines.written.owned sound.stack, defines.written.params,
    Scope.get?_ofArguments other, defines.empty]
  rfl

namespace Machine

variable {lib : Function → LambdaId} {f g : Function} {l : LambdaId} {args : List Value}

theorem Provides.untouched (provides : m.Provides f l) (untouched : m.Untouched n)
    (sound : m.Sound) : n.Provides f l :=
  ⟨(untouched.lookup? sound _).trans provides.bound, provides.defines.untouched untouched.store⟩

theorem InForce.untouched (force : m.InForce lib f) (untouched : m.Untouched n)
    (sound : n.Sound) : n.InForce lib f where
  sound := sound
  nil := (untouched.lookup? force.sound _).trans force.nil
  test := force.test.untouched untouched force.sound
  self := force.self.untouched untouched force.sound

theorem Provides.called {k : LambdaId} (provides : m.Provides f l) (defines : m.store.Defines g k)
    (sound : m.Sound) : (m.called k args).Provides f l where
  bound := (defines.lookup?_called sound (by cases f <;> cases g <;> decide)).trans provides.bound
  defines := provides.defines.untouched (m.untouched_called _ _)

/-- In a call of a startup function the names mean the same. -/
theorem InForce.called {k : LambdaId} (force : m.InForce lib f) (defines : m.store.Defines g k)
    (arity : g.params.length = args.length) (known : ∀ v ∈ args, v.KnownTo m.store) :
    (m.called k args).InForce lib f where
  sound := by
    have written := defines.written
    exact force.sound.called written.valid known (by rw [written.params, arity])
  nil := (defines.lookup?_called force.sound (by cases g <;> decide)).trans force.nil
  test := force.test.called defines force.sound
  self := force.self.called defines force.sound

end Machine

namespace Prelude

/-- In a session that had come to `m`, the name of a startup function is about to be applied to
these values. The names that the function uses are bound to the same as there, and the own scopes
of its lambdas bind nothing. -/
structure Applied (m : Machine) (f : Function) (args : List Value) (frames : List Frame)
    (n : Machine) : Prop where
  reached : ∃ result, Session.Course ⟨.done result, [], m⟩
    ⟨.supplied (.call (.string f.name)) args, frames, n⟩
  names : ∀ x ∈ ["nil", "null", f.name], n.lookup? x = m.lookup? x
  scopes : ∀ x ∈ ["null", f.name], ∀ l, m.lookup? x = some (.lambda l) →
    ∀ y, (n.store.scope (n.store.lambda l).scope).get? y = none

variable {depth : Nat} {last : Option Value} {f : Function} {args : List Value}
  {frames : List Frame}

theorem inForce_of_started (started : Session.started depth source = .value last m)
    (f : Function) : m.InForce Function.lambda f := by
  obtain ⟨_, k, again, force⟩ := Session.exists_started
  rw [Session.run_unique started again]
  exact force f

theorem Applied.inForce (started : Session.started depth source = .value last m)
    (applied : Applied m f args frames n) :
    n.InForce Function.lambda f ∧
      Process.Sound ⟨.supplied (.call (.string f.name)) args, frames, n⟩ := by
  have reached : Session.Reached m := .run .initial depth source (by
    change (Session.started depth source).machine? = _
    rw [started]
    rfl)
  obtain ⟨final, before⟩ := reached.course
  obtain ⟨result, course⟩ := applied.reached
  have course : Session.Course ⟨.done final, [], m⟩
      ⟨.supplied (.call (.string f.name)) args, frames, n⟩ :=
    (course.of_idle final).resolve_left nofun
  have sound := course.sound (before.sound Session.sound_start)
  have grows := course.grows (before.balanced Session.balanced_start)
  have provides (g : Function) (own : g.name ∈ ["null", f.name]) :
      n.Provides g g.lambda := by
    have provided := (inForce_of_started started g).self
    have written := provided.defines.written
    have valid := Nat.lt_of_lt_of_le written.valid grows.lambdas
    obtain ⟨body, same⟩ := before.sameCode course written.valid
    have store := sound.grounded.machine.store
    have known := store.body g.lambda
    have params := (grows.params _ written.valid).trans written.params
    refine ⟨?_, ⟨valid, params, ?_, store.owned _ valid⟩, ?_⟩
    · rw [applied.names g.name (List.mem_cons_of_mem _ own)]
      exact provided.bound
    · rw [body] at known ⊢
      exact written.body.of_sameCode g.unquoting_body (.inl rfl) same.cell store known
    · exact applied.scopes g.name own _ provided.bound
  refine ⟨⟨sound.grounded.machine, ?_, provides .null (by simp [Function.name]),
    provides f (by simp)⟩, sound⟩
  rw [applied.names "nil" (by simp)]
  exact (inForce_of_started started f).nil

/-- The function is applied to known values, and its list is there. -/
theorem Applied.ready {list : Value} {xs : List Value}
    (started : Session.started depth source = .value last m) (applied : Applied m f args frames n)
    (mem : list ∈ args) (listed : n.store.chain list = .proper xs) :
    n.InForce Function.lambda f ∧ (∀ v ∈ args, v.KnownTo n.store) ∧
      n.store.Listed 0 list xs := by
  obtain ⟨force, sound⟩ := applied.inForce started
  have known : ∀ v ∈ args, v.KnownTo n.store := sound.focus.2
  exact ⟨force, known, Store.listed_of_chain force.sound.store (known list mem) listed⟩

/-- Where the definitions are in force for the same lambdas, the function is applied. -/
theorem applied_of_inForce {lib : Function → LambdaId} {result : Except Fault Value}
    (course : Session.Course ⟨.done result, [], m⟩
      ⟨.supplied (.call (.string f.name)) args, frames, n⟩)
    (first : m.InForce lib f) (force : n.InForce lib f) : Applied m f args frames n := by
  refine ⟨⟨result, course⟩, ?_, ?_⟩
  · simp only [List.forall_mem_cons]
    exact ⟨force.nil.trans first.nil.symm, force.test.bound.trans first.test.bound.symm,
      force.self.bound.trans first.self.bound.symm, List.forall_mem_nil _⟩
  · have empty {g : Function} (before : m.Provides g (lib g)) (after : n.Provides g (lib g)) :
        ∀ l, m.lookup? g.name = some (.lambda l) →
          ∀ y, (n.store.scope (n.store.lambda l).scope).get? y = none := by
      intro l found
      cases found.symm.trans before.bound
      exact after.defines.empty
    simp only [List.forall_mem_cons]
    exact ⟨empty first.test force.test, empty first.self force.self, List.forall_mem_nil _⟩

/-- After a text, so many steps of a form lead to a point that passes the test. -/
def brings (text : String) (node : Node) (steps : Nat) (test : Value → Machine → Process → Bool) :
    Outcome (Option Value) → Bool
  | .value _ m =>
    match Session.run 9 text m with
    | .value _ k =>
      match Session.readForm node k with
      | .value form p => (Process.after steps ⟨.code form, [], p⟩).any (test form p)
      | _ => false
    | _ => false
  | _ => false

/-- In a session that had come to `m`, a text is run and a form is read. That comes to `p`, and
evaluating the form to `q`. -/
structure Brought (m : Machine) (text : String) (node : Node) (form : Value) (p : Machine)
    (q : Process) : Prop where
  read : ∃ k, (Session.run 9 text m).machine? = some k ∧ Session.readForm node k = .value form p
  leads : Process.Leads ⟨.code form, [], p⟩ q

theorem exists_brought {text : String} {node : Node} {steps : Nat}
    {test : Value → Machine → Process → Bool}
    (passed : brings text node steps test (Session.started 9 source) = true) :
    ∃ last m form p q, Session.started 9 source = .value last m ∧
      Brought m text node form p q ∧ test form p q = true := by
  cases started : Session.started 9 source with
  | value last m =>
    rw [started] at passed
    dsimp only [brings] at passed
    split at passed
    · next v k ran =>
      split at passed
      · next form p placed =>
        obtain ⟨q, after, tested⟩ := (Option.any_eq_true _ _).mp passed
        have left : (Session.run 9 text m).machine? = some k := by
          rw [ran]
          rfl
        exact ⟨last, m, form, p, q, rfl, ⟨⟨k, left, placed⟩, Process.leads_of_after after⟩, tested⟩
      · cases passed
    · cases passed
  | fault f m =>
    rw [started] at passed
    cases passed
  | unfinished =>
    rw [started] at passed
    cases passed

theorem Brought.course {text : String} {node : Node} {form : Value} {p : Machine} {q : Process}
    (brought : Brought m text node form p q) :
    Session.Course ⟨.done (.ok .nil), [], m⟩ q := by
  obtain ⟨k, left, placed⟩ := brought.read
  obtain ⟨final, earlier⟩ := Session.run_course (.ok .nil) left
  exact (earlier.tail (.read placed)).trans (Session.course_of_leads brought.leads)

theorem Brought.sound {text : String} {node : Node} {form : Value} {p : Machine} {q : Process}
    (started : Session.started depth source = .value last m)
    (brought : Brought m text node form p q) : q.Sound :=
  brought.course.sound
    ⟨⟨(inForce_of_started started .null).sound, nofun⟩, by rintro _ ⟨⟩; trivial⟩

/-- The function is applied to values that pass the test, where the definitions are in force. -/
def applies (f : Function) (test : List Value → Machine → Bool) (_ : Value) (_ : Machine) :
    Process → Bool
  | ⟨.supplied (.call (.string used)) args, [], n⟩ =>
    used == f.name && n.hasDefinitions && test args n
  | _ => false

theorem exists_applied {text : String} {node : Node} {steps : Nat}
    {test : List Value → Machine → Bool}
    (passed : brings text node steps (applies f test) (Session.started 9 source) = true) :
    ∃ last m args n, Session.started 9 source = .value last m ∧ Applied m f args [] n ∧
      test args n = true := by
  obtain ⟨last, m, form, p, q, started, brought, tested⟩ := exists_brought passed
  unfold applies at tested
  split at tested
  · next used args n =>
    simp only [Bool.and_eq_true, beq_iff_eq] at tested
    obtain ⟨⟨rfl, has⟩, tested⟩ := tested
    have force := Machine.InForce.of_hasDefinitions (brought.sound started).grounded.machine has f
    exact ⟨last, m, args, n, started,
      applied_of_inForce brought.course (inForce_of_started started f) force, tested⟩
  · cases tested

end Prelude

end CellLisp
