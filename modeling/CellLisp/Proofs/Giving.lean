import CellLisp.Proofs.Printing
import CellLisp.Proofs.Reserved
import CellLisp.Proofs.Untouched

/-!
# What code gives

Code that is known by what it spells can be evaluated by rules, one for each kind of form. A rule
needs that the cells of the code stay while parts of it are evaluated. What gives a value on a
machine does so whatever waits for it, so rules are put together without regard to the frames.
-/

namespace CellLisp

/-- A name applied to arguments. -/
def Datum.form (name : String) (arguments : List Datum) : Datum := list (string name :: arguments)

open Evaluation

variable {m n k : Machine} {v : Value} {d : Datum} {ds : List Datum} {vs args : List Value}
  {l : LambdaId} {name : String} {frames : List Frame}

/-- Whatever waits for it, what is done comes to the value. -/
def Process.Comes (focus : Focus) (m : Machine) (v : Value) (n : Machine) : Prop :=
  ∀ frames, Leads ⟨focus, frames, m⟩ ⟨.done (.ok v), frames, n⟩

theorem Process.comes_of_eval {depth : Nat} {code : Value}
    (ends : eval depth code m = .value v n) : Comes (.code code) m v n := by
  intro frames
  have follows := eval_follows depth code frames m
  rw [ends] at follows
  exact follows.leads_value

theorem Process.comes_call_iff : Comes (.call l args) m v n ↔ CallEnds m l args (.ok v) n := by
  constructor
  · intro comes
    exact (exists_eq_iff fun depth => call_follows depth l args m).mpr (comes [])
  · rintro ⟨depth, ends⟩ frames
    have reached : Reaches depth (some ⟨.call l args, frames, m⟩) frames (yield frames)
        (call (eval depth) l args m) := call_reaches (eval_follows depth) l args
    rw [ends] at reached
    exact reached.leads_value

namespace Evaluation

/-- Code that spells this gives the value. -/
def Gives (m : Machine) (d : Datum) (v : Value) (n : Machine) : Prop :=
  ∀ code, m.store.Holds code d → Process.Comes (.code code) m v n

/-- One after the other, what spells these gives the values. -/
inductive GivesEach : Machine → List Datum → List Value → Machine → Prop
  | nil {m : Machine} : GivesEach m [] [] m
  | cons {m k n : Machine} {d : Datum} {ds : List Datum} {v : Value} {vs : List Value}
    (first : Gives m d v k) (kept : m.store.Extends k.store) (rest : GivesEach k ds vs n) :
    GivesEach m (d :: ds) (v :: vs) n

end Evaluation

/-! The parts of a form. -/

/-- The values spell the data, one each. -/
def Store.HoldsEach (s : Store) (vs : List Value) (ds : List Datum) : Prop :=
  List.Forall₂ s.Holds vs ds

theorem Store.HoldsEach.extends {s t : Store} (holds : s.HoldsEach vs ds) (kept : s.Extends t) :
    t.HoldsEach vs ds := List.Forall₂.imp (fun _ _ held => held.extends kept) holds

theorem Store.Holds.exists_listed {s : Store} (holds : s.Holds v (.list ds)) :
    ∃ vs, s.Listed 0 v vs ∧ s.HoldsEach vs ds := by
  induction ds generalizing v with
  | nil =>
    cases holds
    exact ⟨[], .nil, .nil⟩
  | cons d ds ih =>
    cases holds with
    | @cons c _ _ inside car cdr =>
      obtain ⟨vs, listed, each⟩ := ih cdr
      exact ⟨s.car c :: vs, .cons (Nat.zero_le _) inside listed, .cons car each⟩

theorem Store.Holds.eq_string {s : Store} (holds : s.Holds v (.string name)) :
    v = .string name := by
  cases holds
  rfl

namespace Process

/-- The step that takes a form apart. -/
theorem exists_next_form {code : Value}
    (holds : m.store.Holds code (.form name ds)) (frames : List Frame) :
    ∃ vs, m.store.HoldsEach vs ds ∧
      next ⟨.code code, frames, m⟩ = form frames (.string name) vs m := by
  cases holds with
  | @cons c _ _ inside car cdr =>
    obtain ⟨vs, listed, each⟩ := cdr.exists_listed
    refine ⟨vs, each, ?_⟩
    change perform frames (Eval.items (m.store.cdr c)) (form frames (m.store.car c)) m = _
    unfold perform
    rw [Eval.items_eq listed.chain, car.eq_string]

/-- A body that is no block is evaluated like any other form. -/
theorem next_body {body : Value} (holds : m.store.Holds body (.form name ds))
    (noBlock : name ≠ "block") :
    next ⟨.body body, frames, m⟩ = some ⟨.code body, frames, m⟩ := by
  have other : m.store.afterHead? "block" body = none := by
    cases holds with
    | @cons c _ _ inside car cdr =>
      have different : (Value.string name).name? ≠ some "block" :=
        fun same => noBlock (Option.some.inj same)
      rw [Store.afterHead?, car.eq_string, if_neg different]
  change runBody frames body m = _
  unfold runBody
  rw [other]
  rfl

/-- The values of arguments are found from left to right. -/
theorem leads_of_supply {use : Use} {codes : List Value} {p : Process}
    (gives : GivesEach m ds vs n) (holds : m.store.HoldsEach codes ds) (ready : List Value)
    (begun : supply frames use ready codes m = some p) :
    Leads p ⟨.supplied use (ready ++ vs), frames, n⟩ := by
  induction gives generalizing codes ready p with
  | nil =>
    cases holds
    cases begun
    rw [List.append_nil]
    exact .refl
  | @cons m k n d ds v vs first kept rest ih =>
    cases holds with
    | @cons code _ codes _ held others =>
      cases begun
      have found := first code held (.argument use ready codes :: frames)
      have others : k.store.HoldsEach codes ds := Store.HoldsEach.extends others kept
      obtain ⟨q, resumed⟩ : ∃ q, supply frames use (ready ++ [v]) codes k = some q := by
        cases codes <;> exact ⟨_, rfl⟩
      have onward := ih others (ready ++ [v]) resumed
      rw [List.append_assoc] at onward
      exact (found.tail resumed).trans onward

end Process

/-! A rule for each kind of form. -/

namespace Evaluation

open Process

theorem gives_name (found : m.lookup? name = some v) : Gives m (.string name) v m := by
  rintro _ ⟨⟩ frames
  have ends : eval 1 (.string name) m = .value v m := by
    change Eval.lookup name m = _
    rw [Eval.lookup, found]
  exact comes_of_eval ends frames

/-- The arguments of a form come first. -/
theorem leads_supplied {use : Use} {code : Value}
    (holds : m.store.Holds code (.form name ds)) (gives : GivesEach m ds vs n)
    (supplies : ∀ codes, form frames (.string name) codes = supply frames use [] codes) :
    Leads ⟨.code code, frames, m⟩ ⟨.supplied use vs, frames, n⟩ := by
  obtain ⟨codes, each, step⟩ := exists_next_form holds frames
  rw [supplies] at step
  obtain ⟨p, begun⟩ : ∃ p, supply frames use [] codes m = some p := by
    cases codes <;> exact ⟨_, rfl⟩
  exact .head (step.trans begun) (leads_of_supply gives each [] begun)

theorem gives_list (gives : GivesEach m ds vs n) :
    Gives m (.form "list" ds) (n.store.list vs).1 ⟨(n.store.list vs).2, n.stack⟩ := by
  intro code holds frames
  have supplied : Leads ⟨.code code, frames, m⟩ ⟨.supplied .list vs, frames, n⟩ :=
    leads_supplied holds gives fun _ => rfl
  exact supplied.tail rfl

theorem gives_builtin (builtin : name ∈ Builtin.names) (noKeyword : name ∉ Keyword.names)
    (gives : GivesEach m ds vs k) (called : Builtin.call name vs k = .value v n) :
    Gives m (.form name ds) v n := by
  intro code holds frames
  have supplies : ∀ codes, form frames (.string name) codes =
      supply frames (.builtin name) [] codes := by
    intro codes
    simp only [form, Value.name?, if_neg noKeyword, if_pos builtin]
  refine (leads_supplied holds gives supplies).tail ?_
  change perform frames (Builtin.call name vs) (yield frames) k = _
  unfold perform
  rw [called]
  rfl

/-- What a name is bound to is applied to values. -/
theorem leads_call (head : k.lookup? name = some (.lambda l)) (args : List Value)
    (frames : List Frame) :
    Leads ⟨.supplied (.call (.string name)) args, frames, k⟩ ⟨.call l args, frames, k⟩ := by
  have found : Leads ⟨.supplied (.call (.string name)) args, frames, k⟩
      ⟨.done (.ok (.lambda l)), .callee args :: frames, k⟩ :=
    .head rfl (gives_name head _ (.string name) (.callee args :: frames))
  exact found.tail rfl

theorem gives_call (free : ¬Reserved name) (gives : GivesEach m ds vs k)
    (head : k.lookup? name = some (.lambda l)) (called : CallEnds k l vs (.ok v) n) :
    Gives m (.form name ds) v n := by
  intro code holds frames
  have supplies : ∀ codes, form frames (.string name) codes =
      supply frames (.call (.string name)) [] codes := by
    intro codes
    simp only [form, Value.name?, if_neg (mt Or.inl free), if_neg (mt Or.inr free)]
  exact (leads_supplied holds gives supplies).trans
    ((leads_call head vs frames).trans (comes_call_iff.mpr called frames))

theorem gives_if {condition yes no : Datum} {b : Bool} (decides : Gives m condition (.boolean b) k)
    (kept : m.store.Extends k.store) (gives : Gives k (if b then yes else no) v n) :
    Gives m (.form "if" [condition, yes, no]) v n := by
  intro code holds frames
  obtain ⟨_, each, step⟩ := exists_next_form holds frames
  cases each with
  | @cons c _ _ _ first others =>
  cases others with
  | @cons y _ _ _ second others =>
  cases others with
  | @cons z _ _ _ third others =>
  cases others
  refine .head step ((decides c first (.branch y z :: frames)).trans ?_)
  cases b with
  | true => exact .head rfl (gives y (second.extends kept) frames)
  | false => exact .head rfl (gives z (third.extends kept) frames)

theorem gives_car {c : CellId} (found : m.lookup? name = some (.cons c)) :
    Gives m (.form "car" [.string name]) (m.store.car c) m :=
  gives_builtin (by decide) (by decide) (.cons (gives_name found) (.refl _) .nil) rfl

theorem gives_cdr {c : CellId} (found : m.lookup? name = some (.cons c)) :
    Gives m (.form "cdr" [.string name]) (m.store.cdr c) m :=
  gives_builtin (by decide) (by decide) (.cons (gives_name found) (.refl _) .nil) rfl

end Evaluation

/-! Calls. -/

/-- The store has the lambda, with these parameters and with a body that spells this. -/
structure Store.Written (s : Store) (l : LambdaId) (params : List String) (body : Datum) :
    Prop where
  valid : l.index < s.lambdas.size
  params : (s.lambda l).params = params
  body : s.Holds (s.lambda l).body body
  owned : (s.lambda l).scope.index < s.scopes.size

section Written

variable {s t : Store} {params : List String} {body : Datum}

theorem Store.Written.untouched (written : s.Written l params body) (untouched : s.Untouched t) :
    t.Written l params body := by
  have same := untouched.lambda l written.valid
  refine ⟨Nat.lt_of_lt_of_le written.valid untouched.lambdas, ?_, ?_, ?_⟩
  · rw [same]
    exact written.params
  · rw [same]
    exact written.body.extends untouched.toExtends
  · rw [same]
    exact Nat.lt_of_lt_of_le written.owned untouched.scopes

theorem Store.Written.lookup?_param (written : m.store.Written l params body)
    (inside : ∀ i ∈ m.stack, i.index < m.store.scopes.size)
    (bound : (Scope.ofArguments params args).get? name = some v) :
    (m.called l args).lookup? name = some v := by
  rw [Machine.lookup?_called written.owned inside, written.params, bound]
  rfl

/-- A call whose body leaves everything untouched does so itself, if it gives no lambda. -/
theorem Evaluation.callEnds_of_gives (written : m.store.Written l params (.form name ds))
    (arity : params.length = args.length) (noBlock : name ≠ "block")
    (gives : Gives (m.called l args) (.form name ds) v n)
    (untouched : (m.called l args).store.Untouched n.store) (noLambda : v.lambda? = none) :
    CallEnds m l args (.ok v) ⟨n.store, m.stack⟩ := by
  have begun := m.untouched_called l args
  have held := written.body.extends begun.toExtends
  have arity : (m.store.lambda l).params.length = args.length := by rw [written.params, arity]
  refine (callEnds_iff arity).mpr ⟨n, .head (Process.next_body held noBlock) (gives _ held []), ?_⟩
  rw [Region.settle_untouched (begun.trans untouched) written.valid noLambda]

end Written

end CellLisp
