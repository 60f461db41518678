import CellLisp.Proofs.Giving
import CellLisp.Proofs.Startup

/-!
# The list functions of the startup definitions

Each of the three functions tests its list for nil and, if it is none, applies the callback to the
first item and itself to the rest. So what it comes to follows by induction on the list. The
callback is called on a machine whose stack has grown by the scopes of all the calls so far. As it
leaves alone what exists, the names of the startup definitions mean the same at every level, and
each call gives its lambda the empty scope back that it had.
-/

namespace CellLisp

open Evaluation Prelude Datum

variable {m n k : Machine} {lib : Function → LambdaId} {g : LambdaId} {f : Function} {c : CellId}
  {v list : Value} {args xs vs : List Value} {s t : Store} {name : String}

namespace Machine

/-- The machine after a value has been tested for nil. -/
def tested (m : Machine) (lib : Function → LambdaId) (v : Value) : Machine :=
  ⟨(m.called (lib .null) [v]).store, m.stack⟩

/-- The machine on which a startup function goes on after it has tested its list. -/
def within (m : Machine) (lib : Function → LambdaId) (f : Function) (args : List Value)
    (list : Value) : Machine := (m.called (lib f) args).tested lib list

theorem untouched_tested (m : Machine) (lib : Function → LambdaId) (v : Value) :
    m.Untouched (m.tested lib v) := ⟨m.untouched_called _ _, rfl⟩

theorem untouched_within (m : Machine) (lib : Function → LambdaId) (f : Function)
    (args : List Value) (list : Value) : m.store.Untouched (m.within lib f args list).store :=
  (m.untouched_called _ _).trans (untouched_tested _ lib list).store

namespace InForce

/-- A call that leaves everything untouched leaves the definitions in force. -/
theorem after (force : m.InForce lib f) (called : CallEnds m g args (.ok v) k)
    (valid : g.index < m.store.lambdas.size) (known : ∀ v ∈ args, v.KnownTo m.store)
    (untouched : m.store.Untouched k.store) : k.InForce lib f :=
  force.untouched ⟨untouched, called.stack⟩ (called.sound force.sound valid known).1

theorem lookup?_param (force : m.InForce lib f)
    (bound : (Scope.ofArguments f.params args).get? name = some v) :
    (m.called (lib f) args).lookup? name = some v :=
  force.self.defines.written.lookup?_param force.sound.stack bound

theorem tested (force : m.InForce lib f) (known : v.KnownTo m.store) :
    (m.tested lib v).InForce lib f := by
  have called : (m.called (lib .null) [v]).InForce lib f :=
    force.called force.test.defines rfl (by simpa using known)
  have untouched := m.untouched_tested lib v
  refine force.untouched untouched ⟨called.sound.store, fun i mem => ?_⟩
  exact Nat.lt_of_lt_of_le (force.sound.stack i mem) untouched.store.scopes

/-- Testing for nil. -/
theorem callEnds_null (force : m.InForce lib f) (known : v.KnownTo m.store) :
    CallEnds m (lib .null) [v] (.ok (.boolean (v.equal .nil))) (m.tested lib v) := by
  have called : (m.called (lib .null) [v]).InForce lib f :=
    force.called force.test.defines rfl (by simpa using known)
  have written := force.test.defines.written
  have item : (m.called (lib .null) [v]).lookup? "l" = some v :=
    written.lookup?_param force.sound.stack rfl
  refine callEnds_of_gives written rfl (by decide) ?_ (.refl _) rfl
  refine gives_builtin (by decide) (by decide)
    (.cons (gives_name item) (.refl _) (.cons (gives_name called.nil) (.refl _) .nil)) ?_
  change Outcome.value (Value.boolean (v.equal .nil && true)) _ = _
  rw [Bool.and_true]

theorem gives_test (force : m.InForce lib f) (known : v.KnownTo m.store)
    (item : m.lookup? "l" = some v) :
    Gives m (form "null" [string "l"]) (.boolean (v.equal .nil)) (m.tested lib v) :=
  gives_call (by decide) (.cons (gives_name item) (.refl _) .nil) force.test.bound
    (force.callEnds_null known)

section Within

variable (force : m.InForce lib f) (arity : f.params.length = args.length)
  (known : ∀ v ∈ args, v.KnownTo m.store) (mem : list ∈ args)

include force arity known mem

theorem within : (m.within lib f args list).InForce lib f :=
  (force.called force.self.defines arity known).tested
    ((known list mem).mono (m.untouched_called _ _).within)

omit mem in
theorem lookup?_within (bound : (Scope.ofArguments f.params args).get? name = some v) :
    (m.within lib f args list).lookup? name = some v :=
  ((untouched_tested _ lib list).lookup? (force.called force.self.defines arity known).sound
    name).trans
    (force.lookup?_param bound)

/-- A call of a function that tests its list first. -/
theorem callEnds_of_branch {yes no : Datum}
    (body : f.body = form "if" [form "null" [string "l"], yes, no])
    (param : (Scope.ofArguments f.params args).get? "l" = some list)
    (gives : Gives (m.within lib f args list) (if list.equal .nil then yes else no) v n)
    (untouched : (m.within lib f args list).store.Untouched n.store) (noLambda : v.lambda? = none) :
    CallEnds m (lib f) args (.ok v) ⟨n.store, m.stack⟩ := by
  have listKnown := (known list mem).mono (m.untouched_called (lib f) args).within
  have called := force.called force.self.defines arity known
  have tests := called.gives_test listKnown (force.lookup?_param param)
  have tested := (untouched_tested (m.called (lib f) args) lib list).store
  have written := force.self.defines.written
  rw [body] at written
  exact callEnds_of_gives written arity (by decide)
    (gives_if tests tested.toExtends gives) (tested.trans untouched) noLambda

end Within

/-- A call inside of a startup function, of a lambda that leaves everything untouched. What the
function was called with still is there behind it. -/
structure Behind (m : Machine) (lib : Function → LambdaId) (f : Function) (args : List Value)
    (k : Machine) : Prop where
  force : k.InForce lib f
  untouched : m.store.Untouched k.store
  param : ∀ {name v}, (Scope.ofArguments f.params args).get? name = some v → k.lookup? name = some v

theorem behind {items : List Value} (force : m.InForce lib f)
    (arity : f.params.length = args.length) (known : ∀ v ∈ args, v.KnownTo m.store)
    (mem : list ∈ args) (valid : g.index < m.store.lambdas.size)
    (item : ∀ v ∈ items, v.KnownTo m.store)
    (called : CallEnds (m.within lib f args list) g items (.ok v) k)
    (untouched : (m.within lib f args list).store.Untouched k.store) : Behind m lib f args k := by
  have begun := m.untouched_within lib f args list
  have inside := force.within arity known mem
  refine ⟨?_, begun.trans untouched, fun bound => ?_⟩
  · exact inside.after called (Nat.lt_of_lt_of_le valid begun.lambdas)
      (fun v mem => (item v mem).mono begun.within) untouched
  · exact ((Machine.Untouched.mk untouched called.stack).lookup? inside.sound _).trans
      (force.lookup?_within arity known bound)

/-- A function of a callback and a list applies itself to the rest of the list. -/
theorem gives_again (force : k.InForce lib f) (param : String) (free : ¬Reserved f.name)
    (callback : k.lookup? param = some (.lambda g)) (whole : k.lookup? "l" = some (.cons c))
    (called : CallEnds k (lib f) [.lambda g, k.store.cdr c] (.ok v) n) :
    Gives k (form f.name [string param, form "cdr" [string "l"]]) v n :=
  gives_call free (.cons (gives_name callback) (.refl _) (.cons (gives_cdr whole) (.refl _) .nil))
    force.self.bound called

end InForce

end Machine

/-! The map. -/

namespace Evaluation

/-- The calls that a map makes of its callback, up to the store behind the last one. -/
inductive Maps (lib : Function → LambdaId) (g : LambdaId) :
    Machine → Value → List Value → Store → Prop
  | nil {m : Machine} :
    Maps lib g m .nil [] (m.within lib .map [.lambda g, .nil] .nil).store
  | cons {m k : Machine} {c : CellId} {v : Value} {vs : List Value} {s : Store}
    (called : CallEnds (m.within lib .map [.lambda g, .cons c] (.cons c)) g [m.store.car c]
      (.ok v) k)
    (untouched : (m.within lib .map [.lambda g, .cons c] (.cons c)).store.Untouched k.store)
    (rest : Maps lib g k (m.store.cdr c) vs s) : Maps lib g m (.cons c) (v :: vs) s

theorem Maps.callEnds (maps : Maps lib g m list vs s) (force : m.InForce lib .map)
    (valid : g.index < m.store.lambdas.size) (known : list.KnownTo m.store) :
    m.store.Untouched s ∧
      CallEnds m (lib .map) [.lambda g, list] (.ok (s.list vs).1) ⟨(s.list vs).2, m.stack⟩ := by
  induction maps with
  | @nil m =>
    refine ⟨m.untouched_within _ _ _ _, ?_⟩
    exact force.callEnds_of_branch rfl (by simpa using ⟨valid, trivial⟩) (by simp) rfl rfl
      (gives_list .nil) (.refl _) rfl
  | @cons m k c v vs s called untouched rest ih =>
    have args : ∀ v ∈ [Value.lambda g, .cons c], v.KnownTo m.store := by
      simpa using ⟨valid, known⟩
    have behind := force.behind rfl args (by simp) valid (by simpa using force.sound.store.car c)
      called untouched
    obtain ⟨kept, mapped⟩ := ih behind.force (Nat.lt_of_lt_of_le valid behind.untouched.lambdas)
      ((force.sound.store.cdr c).mono behind.untouched.within)
    have cdr : k.store.cdr c = m.store.cdr c := congrArg Cell.cdr (behind.untouched.cell c known)
    rw [← cdr] at mapped
    let i := m.within lib .map [.lambda g, .cons c] (.cons c)
    have callback : i.lookup? "f" = some (.lambda g) := force.lookup?_within rfl args rfl
    have whole : i.lookup? "l" = some (.cons c) := force.lookup?_within rfl args rfl
    have first : Gives i (form "f" [form "car" [string "l"]]) v k :=
      gives_call (by decide) (.cons (gives_car whole) (.refl _) .nil) callback called
    have others := behind.force.gives_again "f" (by decide) (behind.param rfl) (behind.param rfl)
      mapped
    have list := kept.trans (s.untouched_list vs)
    have mapped : Gives i (form "cons" [form "f" [form "car" [string "l"]],
        form "map" [string "f", form "cdr" [string "l"]]]) (s.list (v :: vs)).1
        ⟨(s.list (v :: vs)).2, k.stack⟩ :=
      gives_builtin (by decide) (by decide)
        (.cons first untouched.toExtends (.cons others list.toExtends .nil)) rfl
    exact ⟨behind.untouched.trans kept, force.callEnds_of_branch rfl args (by simp) rfl rfl mapped
      ((untouched.trans list).trans (Store.untouched_cons _ _ _)) rfl⟩

end Evaluation

/-! Callbacks that keep to themselves. -/

namespace Store

theorem lambda?_list (s : Store) (vs : List Value) : (s.list vs).1.lambda? = none := by
  cases vs <;> rfl

/-- Wherever all of this store stands untouched, a call of the lambda with these arguments leaves
everything untouched as well, and it comes to a value that is no lambda and of which this holds. -/
def Answers (s : Store) (g : LambdaId) (args : List Value) (holds : Store → Value → Prop) : Prop :=
  ∀ n : Machine, n.Sound → s.Untouched n.store → ∃ v k, CallEnds n g args (.ok v) k ∧
    n.store.Untouched k.store ∧ v.lambda? = none ∧ holds k.store v

theorem Answers.later {holds : Store → Value → Prop} (answers : s.Answers g args holds)
    (untouched : s.Untouched t) : t.Answers g args holds :=
  fun n sound later => answers n sound (untouched.trans later)

/-- In a store of which all still stands untouched, this held of the value. -/
def Said (t : Store) (holds : Store → Value → Prop) (v : Value) : Prop :=
  ∃ s : Store, s.Untouched t ∧ holds s v

/-- Folding the items from the left, beginning with `a`, by values of which this was said. -/
inductive Folds (t : Store) (holds : Value → Value → Store → Value → Prop) :
    Value → List Value → Value → Prop
  | nil {a : Value} : Folds t holds a [] a
  | cons {a b x r : Value} {xs : List Value} (first : t.Said (holds a x) b)
    (rest : Folds t holds b xs r) : Folds t holds a (x :: xs) r

end Store

open Store

namespace Machine.InForce

/-- A map of a callback that answers for each item. -/
theorem exists_maps {holds : Value → Store → Value → Prop} (force : m.InForce lib .map)
    (listed : m.store.Listed 0 list xs) (valid : g.index < m.store.lambdas.size)
    (answers : ∀ x ∈ xs, m.store.Answers g [x] (holds x)) :
    ∃ vs s, Maps lib g m list vs s ∧ List.Forall₂ (fun x v => s.Said (holds x) v) xs vs := by
  induction xs generalizing m list with
  | nil =>
    cases listed
    exact ⟨[], _, .nil, .nil⟩
  | cons x xs ih =>
    cases listed with
    | @cons c _ _ cell rest =>
    obtain ⟨first, others⟩ := List.forall_mem_cons.mp answers
    have args : ∀ v ∈ [Value.lambda g, .cons c], v.KnownTo m.store := by
      simpa using ⟨valid, cell⟩
    let i := m.within lib .map [.lambda g, .cons c] (.cons c)
    have begun : m.store.Untouched i.store := m.untouched_within _ _ _ _
    have inside : i.InForce lib .map := force.within rfl args (by simp)
    obtain ⟨v, k, called, untouched, _, held⟩ := first i inside.sound begun
    have behind := force.behind rfl args (by simp) valid (by simpa using force.sound.store.car c)
      called untouched
    have validThere := Nat.lt_of_lt_of_le valid behind.untouched.lambdas
    obtain ⟨vs, s, maps, said⟩ := ih behind.force (rest.extends behind.untouched.toExtends)
      validThere fun x mem => (others x mem).later behind.untouched
    have kept := (maps.callEnds behind.force validThere
      ((force.sound.store.cdr c).mono behind.untouched.within)).1
    exact ⟨v :: vs, s, .cons called untouched maps, .cons ⟨k.store, kept, held⟩ said⟩

/-- A filter keeps the items for which its callback gives true. -/
theorem callEnds_filter {p : Value → Bool} (force : m.InForce lib .filter)
    (listed : m.store.Listed 0 list xs) (valid : g.index < m.store.lambdas.size)
    (answers : ∀ x ∈ xs, m.store.Answers g [x] fun _ v => v = .boolean (p x)) :
    ∃ s, m.store.Untouched s ∧ CallEnds m (lib .filter) [.lambda g, list]
      (.ok (s.list (xs.filter p)).1) ⟨(s.list (xs.filter p)).2, m.stack⟩ := by
  induction xs generalizing m list with
  | nil =>
    cases listed
    exact ⟨_, m.untouched_within _ _ _ _, force.callEnds_of_branch rfl
      (by simpa using ⟨valid, trivial⟩) (by simp) rfl rfl (gives_list .nil) (.refl _) rfl⟩
  | cons x xs ih =>
    cases listed with
    | @cons c _ _ cell rest =>
    obtain ⟨first, others⟩ := List.forall_mem_cons.mp answers
    have args : ∀ v ∈ [Value.lambda g, .cons c], v.KnownTo m.store := by
      simpa using ⟨valid, cell⟩
    let i := m.within lib .filter [.lambda g, .cons c] (.cons c)
    have begun : m.store.Untouched i.store := m.untouched_within _ _ _ _
    have inside : i.InForce lib .filter := force.within rfl args (by simp)
    obtain ⟨_, k, called, untouched, _, rfl⟩ := first i inside.sound begun
    have behind := force.behind rfl args (by simp) valid (by simpa using force.sound.store.car c)
      called untouched
    have cdr : k.store.cdr c = m.store.cdr c := congrArg Cell.cdr (behind.untouched.cell c cell)
    have car : k.store.car c = m.store.car c := congrArg Cell.car (behind.untouched.cell c cell)
    obtain ⟨s, kept, filtered⟩ := ih behind.force (rest.extends behind.untouched.toExtends)
      (Nat.lt_of_lt_of_le valid behind.untouched.lambdas)
      fun x mem => (others x mem).later behind.untouched
    rw [← cdr] at filtered
    have callback : i.lookup? "p" = some (.lambda g) := force.lookup?_within rfl args rfl
    have whole : i.lookup? "l" = some (.cons c) := force.lookup?_within rfl args rfl
    have decides : Gives i (form "p" [form "car" [string "l"]]) (.boolean (p (m.store.car c))) k :=
      gives_call (by decide) (.cons (gives_car whole) (.refl _) .nil) callback called
    have others := behind.force.gives_again "p" (by decide) (behind.param rfl) (behind.param rfl)
      filtered
    have list := kept.trans (s.untouched_list (xs.filter p))
    refine ⟨s, behind.untouched.trans kept, ?_⟩
    cases taken : p (m.store.car c) with
    | true =>
      rw [taken] at decides
      rw [List.filter_cons_of_pos taken]
      have kept : Gives k (form "cons" [form "car" [string "l"],
          form "filter" [string "p", form "cdr" [string "l"]]])
          (s.list (m.store.car c :: xs.filter p)).1
          ⟨(s.list (m.store.car c :: xs.filter p)).2, k.stack⟩ := by
        have item : Gives k (form "car" [string "l"]) (m.store.car c) k := by
          rw [← car]
          exact gives_car (behind.param rfl)
        exact gives_builtin (by decide) (by decide)
          (.cons item (.refl _) (.cons others list.toExtends .nil)) rfl
      exact force.callEnds_of_branch rfl args (by simp) rfl rfl
        (gives_if decides untouched.toExtends kept)
        ((untouched.trans list).trans (Store.untouched_cons _ _ _)) rfl
    | false =>
      rw [taken] at decides
      rw [List.filter_cons_of_neg (by simp [taken])]
      exact force.callEnds_of_branch rfl args (by simp) rfl rfl
        (gives_if decides untouched.toExtends others) (untouched.trans list)
        (Store.lambda?_list s _)

/-- A reduction folds the items from the left. -/
theorem callEnds_reduce {holds : Value → Value → Store → Value → Prop} {a : Value}
    (force : m.InForce lib .reduce) (listed : m.store.Listed 0 list xs)
    (valid : g.index < m.store.lambdas.size) (known : a.KnownTo m.store)
    (noLambda : a.lambda? = none)
    (answers : ∀ ys x zs t b, xs = ys ++ x :: zs → m.store.Untouched t → t.Folds holds a ys b →
      t.Answers g [b, x] (holds b x)) :
    ∃ s r, m.store.Untouched s ∧ s.Folds holds a xs r ∧ r.lambda? = none ∧
      CallEnds m (lib .reduce) [.lambda g, a, list] (.ok r) ⟨s, m.stack⟩ := by
  induction xs generalizing m list a with
  | nil =>
    cases listed
    have args : ∀ v ∈ [Value.lambda g, a, .nil], v.KnownTo m.store := by
      simpa using ⟨valid, known, trivial⟩
    exact ⟨_, a, m.untouched_within _ _ _ _, .nil, noLambda, force.callEnds_of_branch rfl args
      (by simp) rfl rfl (gives_name (force.lookup?_within rfl args rfl)) (.refl _) noLambda⟩
  | cons x xs ih =>
    cases listed with
    | @cons c _ _ cell rest =>
    have args : ∀ v ∈ [Value.lambda g, a, .cons c], v.KnownTo m.store := by
      simpa using ⟨valid, known, cell⟩
    let i := m.within lib .reduce [.lambda g, a, .cons c] (.cons c)
    have begun : m.store.Untouched i.store := m.untouched_within _ _ _ _
    have inside : i.InForce lib .reduce := force.within rfl args (by simp)
    have item := force.sound.store.car c
    obtain ⟨b, k, called, untouched, noLambda, held⟩ :=
      answers [] _ xs i.store a rfl begun .nil i inside.sound (.refl _)
    have behind := force.behind rfl args (by simp) valid (by simpa using ⟨known, item⟩)
      called untouched
    have cdr : k.store.cdr c = m.store.cdr c := congrArg Cell.cdr (behind.untouched.cell c cell)
    have knownThere := (called.sound inside.sound (Nat.lt_of_lt_of_le valid begun.lambdas)
      (by simpa using ⟨known.mono begun.within, item.mono begun.within⟩)).2
    obtain ⟨s, r, kept, folds, total, reduced⟩ := ih behind.force
      (rest.extends behind.untouched.toExtends)
      (Nat.lt_of_lt_of_le valid behind.untouched.lambdas) knownThere noLambda
      fun ys y zs t b split later folds => answers (_ :: ys) y zs t b (by rw [split]; rfl)
        (behind.untouched.trans later) (.cons ⟨k.store, later, held⟩ folds)
    rw [← cdr] at reduced
    have callback : i.lookup? "f" = some (.lambda g) := force.lookup?_within rfl args rfl
    have whole : i.lookup? "l" = some (.cons c) := force.lookup?_within rfl args rfl
    have before : i.lookup? "acc" = some a := force.lookup?_within rfl args rfl
    have first : Gives i (form "f" [string "acc", form "car" [string "l"]]) b k :=
      gives_call (by decide)
        (.cons (gives_name before) (.refl _) (.cons (gives_car whole) (.refl _) .nil))
        callback called
    have again : Gives i (form "reduce" [string "f", form "f" [string "acc",
        form "car" [string "l"]], form "cdr" [string "l"]]) r ⟨s, k.stack⟩ :=
      gives_call (by decide)
        (.cons (gives_name callback) (.refl _) (.cons first untouched.toExtends
          (.cons (gives_cdr (behind.param rfl)) (.refl _) .nil)))
        behind.force.self.bound reduced
    exact ⟨s, r, behind.untouched.trans kept, .cons ⟨k.store, kept, held⟩ folds, total,
      force.callEnds_of_branch rfl args (by simp) rfl rfl again (untouched.trans kept) total⟩

end Machine.InForce

namespace Prelude

/-- The application comes to the value. It leaves untouched all that there was, and so the list. -/
structure Computes (f : Function) (args : List Value) (frames : List Frame) (n : Machine)
    (list : Value) (xs : List Value) (r : Value) (k : Machine) : Prop where
  leads : Process.Leads ⟨.supplied (.call (.string f.name)) args, frames, n⟩
    ⟨.done (.ok r), frames, k⟩
  untouched : n.Untouched k
  items : k.store.chain list = .proper xs

theorem computes_of_callEnds {frames : List Frame} {r : Value} (force : n.InForce lib f)
    (listed : n.store.Listed 0 list xs) (untouched : n.store.Untouched s)
    (ends : CallEnds n (lib f) args (.ok r) ⟨s, n.stack⟩) :
    Computes f args frames n list xs r ⟨s, n.stack⟩ where
  leads := (leads_call force.self.bound args frames).trans
    (Process.comes_call_iff.mpr ends frames)
  untouched := ⟨untouched, rfl⟩
  items := (listed.extends untouched.toExtends).chain

theorem listed_result (untouched : n.store.Untouched s) (vs : List Value) :
    (s.list vs).2.Listed n.store.cells.size (s.list vs).1 vs :=
  (s.listed_list vs).mono untouched.size

variable {depth : Nat} {last : Option Value} {frames : List Frame}

/-- The startup functions are the list functions. They are applied where their names still are bound
to them, to a proper list and to a callback that leaves everything untouched. A map gives a new list
of what the callback says of each item, a filter gives a new list of those items for which it says
true, and a reduction gives the fold from the left. -/
theorem startup_functions_are_list_functions {h : List Value → Store → Value → Prop}
    (started : Session.started depth source = .value last m)
    (listed : n.store.chain list = .proper xs) :
    (Applied m .map [.lambda g, list] frames n →
      (∀ x ∈ xs, n.store.Answers g [x] (h [x])) →
      ∃ r k vs, Computes .map [.lambda g, list] frames n list xs r k ∧
        k.store.Listed n.store.cells.size r vs ∧
        List.Forall₂ (fun x v => k.store.Said (h [x]) v) xs vs) ∧
    (∀ p : Value → Bool, Applied m .filter [.lambda g, list] frames n →
      (∀ x ∈ xs, n.store.Answers g [x] fun _ v => v = .boolean (p x)) →
      ∃ r k, Computes .filter [.lambda g, list] frames n list xs r k ∧
        k.store.Listed n.store.cells.size r (xs.filter p)) ∧
    ∀ a : Value, Applied m .reduce [.lambda g, a, list] frames n → a.lambda? = none →
      (∀ ys x zs t b, xs = ys ++ x :: zs → n.store.Untouched t →
        t.Folds (fun b x => h [b, x]) a ys b → t.Answers g [b, x] (h [b, x])) →
      ∃ r k, Computes .reduce [.lambda g, a, list] frames n list xs r k ∧
        k.store.Folds (fun b x => h [b, x]) a xs r := by
  refine ⟨fun applied answers => ?_, fun p applied answers => ?_,
    fun a applied noLambda answers => ?_⟩
  · obtain ⟨force, known, listed⟩ := applied.ready started (by simp) listed
    have valid : g.index < n.store.lambdas.size := known (.lambda g) (by simp)
    obtain ⟨vs, s, maps, said⟩ := force.exists_maps listed valid answers
    obtain ⟨untouched, ends⟩ := maps.callEnds force valid (known list (by simp))
    have later := s.untouched_list vs
    refine ⟨_, _, vs, computes_of_callEnds force listed (untouched.trans later) ends,
      listed_result untouched vs, said.imp fun x v => ?_⟩
    rintro ⟨t, before, held⟩
    exact ⟨t, before.trans later, held⟩
  · obtain ⟨force, known, listed⟩ := applied.ready started (by simp) listed
    have valid : g.index < n.store.lambdas.size := known (.lambda g) (by simp)
    obtain ⟨s, untouched, ends⟩ := force.callEnds_filter listed valid answers
    exact ⟨_, _, computes_of_callEnds force listed (untouched.trans (s.untouched_list _)) ends,
      listed_result untouched _⟩
  · obtain ⟨force, known, listed⟩ := applied.ready started (by simp) listed
    have valid : g.index < n.store.lambdas.size := known (.lambda g) (by simp)
    obtain ⟨s, r, untouched, folds, _, ends⟩ :=
      force.callEnds_reduce listed valid (known a (by simp)) noLambda answers
    exact ⟨r, _, computes_of_callEnds force listed untouched ends, folds⟩

/-! Two callbacks: one makes a list of its arguments, one tests its argument for the empty list. -/

theorem gives_names {names : List String}
    (found : List.Forall₂ (fun name v => m.lookup? name = some v) names vs) :
    GivesEach m (names.map string) vs m := by
  induction found with
  | nil => exact .nil
  | cons first rest ih => exact .cons (gives_name first) (.refl _) ih

theorem answers_list {params : List String}
    (written : s.Written g params (form "list" (params.map string)))
    (bound : List.Forall₂ (fun name v => (Scope.ofArguments params args).get? name = some v)
      params args) : s.Answers g args fun t v => t.chain v = .proper args := by
  intro n sound untouched
  have written := written.untouched untouched
  have found := bound.imp fun name v => written.lookup?_param sound.stack
  have listed : (n.called g args).store.Untouched _ := Store.untouched_list _ args
  refine ⟨_, _, callEnds_of_gives written bound.length_eq (by decide)
    (gives_list (gives_names found)) listed (lambda?_list _ args),
    (n.untouched_called g args).trans listed, lambda?_list _ args, ?_⟩
  exact (Store.listed_list _ args).chain

theorem answers_empty {x : Value}
    (written : s.Written g ["x"] (form "=" [string "x", form "list" []])) :
    s.Answers g [x] fun _ v => v = .boolean (x.equal .nil) := by
  intro n sound untouched
  have written := written.untouched untouched
  have gives : Gives (n.called g [x]) (form "=" [string "x", form "list" []])
      (.boolean (x.equal .nil)) (n.called g [x]) := by
    refine gives_builtin (by decide) (by decide)
      (.cons (gives_name (written.lookup?_param sound.stack rfl)) (.refl _)
        (.cons (gives_list .nil) (.refl _) .nil)) ?_
    change Outcome.value (Value.boolean (x.equal .nil && true)) _ = _
    rw [Bool.and_true]
    rfl
  exact ⟨_, _, callEnds_of_gives written rfl (by decide) gives (.refl _) rfl,
    n.untouched_called g [x], rfl, rfl⟩

def hasItems (s : Store) (list : Value) (count : Nat) : Bool :=
  match s.chain list with
  | .proper xs => xs.length == count
  | _ => false

theorem exists_chain {count : Nat} (has : hasItems s list count = true) :
    ∃ xs, s.chain list = .proper xs ∧ xs.length = count := by
  unfold hasItems at has
  split at has
  · next xs walked => exact ⟨xs, walked, eq_of_beq has⟩
  · cases has

/-- The values are a callback that is written so and a list of three. -/
def takesList (params : List String) (body : Datum) : List Value → Machine → Bool
  | [.lambda g, list], n => n.store.isWritten g params body && hasItems n.store list 3
  | _, _ => false

/-- The values are a callback that is written so, a first value and a list of three. -/
def takesFirst (params : List String) (body : Datum) : List Value → Machine → Bool
  | [.lambda g, a, list], n =>
    n.store.isWritten g params body && a.lambda?.isNone && hasItems n.store list 3
  | _, _ => false

/-- A function, a callback and other arguments, of which the last is a list of three. -/
def application (name : String) (params : List String) (body : Node) (others : List Node) : Node :=
  .group (.name name :: .group [.name "lambda", .group (params.map .name), body] :: others)

def threeItems : Node :=
  .group [.name "quote", .group [.group [], .leaf (.number (.int 1)), .group []]]

set_option maxRecDepth 4000 in
theorem brings_map : brings "" (application "map" ["x"] (.group [.name "list", .name "x"])
    [threeItems]) 5 (applies .map (takesList ["x"] (form "list" [string "x"])))
    (Session.started 9 source) = true :=
  Session.started_of_chars rfl (by decide +kernel)

set_option maxRecDepth 4000 in
theorem brings_filter : brings "" (application "filter" ["x"]
    (.group [.name "=", .name "x", .group [.name "list"]]) [threeItems]) 5
    (applies .filter (takesList ["x"] (form "=" [string "x", form "list" []])))
    (Session.started 9 source) = true :=
  Session.started_of_chars rfl (by decide +kernel)

set_option maxRecDepth 4000 in
theorem brings_reduce : brings "" (application "reduce" ["a", "x"]
    (.group [.name "list", .name "a", .name "x"]) [.leaf (.number (.int 0)), threeItems]) 7
    (applies .reduce (takesFirst ["a", "x"] (form "list" [string "a", string "x"])))
    (Session.started 9 source) = true :=
  Session.started_of_chars rfl (by decide +kernel)

theorem startup_functions_are_list_functions_in_new_session :
    (∃ last m n g list xs, Session.started 9 source = .value last m ∧
      Applied m .map [.lambda g, list] [] n ∧ n.store.chain list = .proper xs ∧ xs.length = 3 ∧
      ∃ r k vs, Computes .map [.lambda g, list] [] n list xs r k ∧
        k.store.Listed n.store.cells.size r vs ∧
        List.Forall₂ (fun x v => k.store.Said (fun t v => t.chain v = .proper [x]) v) xs vs) ∧
    (∃ last m n g list xs, Session.started 9 source = .value last m ∧
      Applied m .filter [.lambda g, list] [] n ∧ n.store.chain list = .proper xs ∧
      xs.length = 3 ∧ ∃ r k, Computes .filter [.lambda g, list] [] n list xs r k ∧
        k.store.Listed n.store.cells.size r (xs.filter fun x => x.equal .nil)) ∧
    ∃ last m n g a list xs, Session.started 9 source = .value last m ∧
      Applied m .reduce [.lambda g, a, list] [] n ∧ n.store.chain list = .proper xs ∧
      xs.length = 3 ∧ ∃ r k, Computes .reduce [.lambda g, a, list] [] n list xs r k ∧
        k.store.Folds (fun b x t v => t.chain v = .proper [b, x]) a xs r := by
  refine ⟨?_, ?_, ?_⟩
  · obtain ⟨last, m, args, n, started, applied, tested⟩ := exists_applied brings_map
    unfold takesList at tested
    split at tested
    · next g list =>
      obtain ⟨written, has⟩ := Bool.and_eq_true_iff.mp tested
      obtain ⟨xs, listed, length⟩ := exists_chain has
      have mapped := (startup_functions_are_list_functions
        (h := fun args t v => t.chain v = .proper args) started listed).1 applied fun x _ =>
          answers_list (Store.written_of_isWritten written) (.cons rfl .nil)
      exact ⟨last, m, n, g, list, xs, started, applied, listed, length, mapped⟩
    · cases tested
  · obtain ⟨last, m, args, n, started, applied, tested⟩ := exists_applied brings_filter
    unfold takesList at tested
    split at tested
    · next g list =>
      obtain ⟨written, has⟩ := Bool.and_eq_true_iff.mp tested
      obtain ⟨xs, listed, length⟩ := exists_chain has
      have filtered := (startup_functions_are_list_functions
        (h := fun _ _ _ => True) started listed).2.1 (fun x => x.equal .nil) applied fun x _ =>
          answers_empty (Store.written_of_isWritten written)
      exact ⟨last, m, n, g, list, xs, started, applied, listed, length, filtered⟩
    · cases tested
  · obtain ⟨last, m, args, n, started, applied, tested⟩ := exists_applied brings_reduce
    unfold takesFirst at tested
    split at tested
    · next g a list =>
      simp only [Bool.and_eq_true, Option.isNone_iff_eq_none] at tested
      obtain ⟨⟨written, noLambda⟩, has⟩ := tested
      obtain ⟨xs, listed, length⟩ := exists_chain has
      have folded := (startup_functions_are_list_functions
        (h := fun args t v => t.chain v = .proper args) started listed).2.2 a applied noLambda
          fun ys x zs t b _ untouched _ =>
            answers_list ((Store.written_of_isWritten written).untouched untouched)
              (.cons rfl (.cons rfl .nil))
      exact ⟨last, m, n, g, a, list, xs, started, applied, listed, length, folded⟩
    · cases tested

end Prelude

end CellLisp
