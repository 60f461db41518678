import CellLisp.Proofs.Order
import CellLisp.Proofs.Printing
import CellLisp.Proofs.Process.Within

/-!
# Reserved names mean the same everywhere

A head that names a keyword or a builtin is not looked up, so what the name is bound to makes no
difference at the head of a list. Where some reserved names occur in code at the heads of lists
only, evaluating it looks up none of them and assigns to none. That holds of all the code that it
comes to, the operands of `eval` included, since without a builtin that changes cells code stays as
it is. Only the bodies of lambdas come from elsewhere. So as long as none is run, two states that
differ in what scopes bind these names to stay in step.
-/

namespace CellLisp

/-- Where a value stands within code: as an item of a list, as the head of one, or as the rest of
one behind the head or an item. Code as a whole counts as an item. -/
inductive Slot where
  | item
  | head
  | rest

/-- These names occur within data that stand there only at the heads of lists. -/
def Datum.OnlyHeads (names : String → Prop) : Slot → Datum → Prop
  | .head, string _ => True
  | .item, string name | .rest, string name => ¬names name
  | .item, pair a d | .head, pair a d => OnlyHeads names .head a ∧ OnlyHeads names .rest d
  | .rest, pair a d => OnlyHeads names .item a ∧ OnlyHeads names .rest d
  | _, number _ | _, boolean _ | _, nil => True

variable {names : String → Prop} {s t base : Store} {v whole : Value} {m n : Machine}
  {p q : Process}

namespace Store

/-- The value stands there within the code. What is an item or a head may be a list itself. -/
inductive Occurs (s : Store) (whole : Value) : Slot → Value → Prop
  | whole : Occurs s whole .item whole
  | head {slot : Slot} {c : CellId} (list : slot ≠ .rest) (occurs : Occurs s whole slot (.cons c)) :
    Occurs s whole .head (s.car c)
  | item {c : CellId} (occurs : Occurs s whole .rest (.cons c)) : Occurs s whole .item (s.car c)
  | rest {slot : Slot} {c : CellId} (occurs : Occurs s whole slot (.cons c)) :
    Occurs s whole .rest (s.cdr c)

/-- These names occur within the code only at the heads of lists. -/
def OnlyHeads (s : Store) (names : String → Prop) (whole : Value) : Prop :=
  ∀ slot name, s.Occurs whole slot (.string name) → names name → slot = .head

theorem Occurs.exists_holds {slot : Slot} {d : Datum} (occurs : s.Occurs whole slot v)
    (holds : s.Holds whole d) (only : d.OnlyHeads names .item) :
    ∃ e, s.Holds v e ∧ e.OnlyHeads names slot := by
  induction occurs with
  | whole => exact ⟨d, holds, only⟩
  | @head slot c list _ ih =>
    obtain ⟨_, held, only⟩ := ih
    cases held with
    | cons _ first _ =>
      cases slot with
      | item | head => exact ⟨_, first, only.1⟩
      | rest => exact absurd rfl list
  | item _ ih =>
    obtain ⟨_, held, only⟩ := ih
    cases held with
    | cons _ first _ => exact ⟨_, first, only.1⟩
  | @rest slot c _ ih =>
    obtain ⟨_, held, only⟩ := ih
    cases held with
    | cons _ _ behind => cases slot <;> exact ⟨_, behind, only.2⟩

/-- Of data in the store it is read off the data. -/
theorem Holds.onlyHeads {d : Datum} (holds : s.Holds whole d) (only : d.OnlyHeads names .item) :
    s.OnlyHeads names whole := by
  intro slot name occurs named
  obtain ⟨_, ⟨⟩, free⟩ := occurs.exists_holds holds only
  cases slot with
  | head => rfl
  | item | rest => exact absurd named free

theorem Occurs.known {slot : Slot} (occurs : s.Occurs whole slot v) (sound : s.Sound)
    (known : whole.KnownTo s) : v.KnownTo s := by
  cases occurs with
  | whole => exact known
  | head | item => exact sound.car _
  | rest => exact sound.cdr _

/-- What is evaluated of such code: items and heads, but for heads that are these names. -/
structure Evaluated (s : Store) (names : String → Prop) (whole v : Value) : Prop where
  occurs : ∃ slot, slot ≠ .rest ∧ s.Occurs whole slot v
  free : ∀ name, v = .string name → ¬names name

theorem OnlyHeads.evaluated (heads : s.OnlyHeads names whole) (occurs : s.Occurs whole .item v) :
    s.Evaluated names whole v := by
  refine ⟨⟨.item, by simp, occurs⟩, ?_⟩
  rintro name rfl named
  cases heads .item name occurs named

theorem OnlyHeads.closed (heads : base.OnlyHeads names whole)
    (reserved : ∀ name, names name → Reserved name) (sound : base.Sound)
    (known : whole.KnownTo base) (kept : base.Extends t) :
    t.Closed (base.Evaluated names whole) := by
  have same {slot : Slot} {c : CellId} (occurs : base.Occurs whole slot (.cons c)) :
      t.cell c = base.cell c := kept.cell c (occurs.known sound known)
  constructor
  · rintro c ⟨⟨slot, list, occurs⟩, _⟩ called
    rw [Store.car, same occurs] at called ⊢
    exact ⟨⟨.head, by simp, .head list occurs⟩, fun name is => mt (reserved name) (called name is)⟩
  · rintro c vs ⟨⟨slot, _, occurs⟩, _⟩ walked
    rw [Store.cdr, same occurs] at walked
    refine t.forall_mem_of_chainWithin (base.Occurs whole .rest) (fun c occurs => ?_)
      (fun c occurs => ?_) (.rest occurs) walked
    · rw [Store.car, same occurs]
      exact heads.evaluated (.item occurs)
    · rw [Store.cdr, same occurs]
      exact .rest occurs

end Store

/-- Evaluated on this machine, the code comes to this result, to whatever depth that takes. -/
def Evaluation.Ends (m : Machine) (form : Value) (result : Except Fault Value) (n : Machine) :
    Prop :=
  ∃ depth, eval depth form m = Eval.ofExcept result n

section Names

variable (reserved : ∀ name, names name → Reserved name) (sound : m.Sound)
  (known : whole.KnownTo m.store) (heads : m.store.OnlyHeads names whole)
  (bodies : ∀ t, Process.Leads ⟨.code whole, [], m⟩ t → ¬t.Enters)
  (quiet : ∀ t, Process.Leads ⟨.code whole, [], m⟩ t → ¬t.Mutates)

include reserved sound known heads bodies quiet

theorem Process.not_seeks_of_onlyHeads (leads : Leads ⟨.code whole, [], m⟩ p) {name : String}
    (named : names name) : ¬p.Seeks name := by
  intro seeks
  have start : Within (m.store.Evaluated names whole) ⟨.code whole, [], m⟩ :=
    ⟨heads.evaluated .whole, nofun⟩
  have within := start.leads leads fun t there => by
    have follows := there.follows ⟨⟨sound, nofun⟩, known⟩ quiet
    exact ⟨heads.closed reserved sound.store known follows.kept, bodies t there⟩
  exact (within.runs_of_seeks seeks).free name rfl named

/-- If code has some reserved names only at the heads of lists, and no body of a lambda is run and
no cell is changed as it is evaluated, then what scopes bind these names to has no part in it. -/
theorem reserved_names_keep_meaning (alike : m.Alike (fun _ => names) n)
    {result : Except Fault Value} {m' : Machine} (ends : Evaluation.Ends m whole result m') :
    ∃ n', Evaluation.Ends n whole result n' ∧ m'.Alike (fun _ => names) n' := by
  have leads := Process.exists_eval_eq_iff.mp ends
  have start : Process.Leads ⟨.code whole, [], m⟩ ⟨.code whole, [], m⟩ ∧
      Process.Alike (fun _ => names) ⟨.code whole, [], m⟩ ⟨.code whole, [], n⟩ :=
    ⟨.refl, rfl, rfl, alike⟩
  obtain ⟨⟨_, _, n'⟩, second, _, alike⟩ := leads.lockstep
    (R := fun p q => Process.Leads ⟨.code whole, [], m⟩ p ∧ p.Alike (fun _ => names) q) start
    fun ⟨there, alike⟩ => by
      have step := alike.next fun name seeks => Machine.reveals_of_seen fun _ named =>
        Process.not_seeks_of_onlyHeads reserved sound known heads bodies quiet there named seeks
      exact Process.rel_imp step fun p' q' taken _ alike => ⟨there.tail taken, alike⟩
  obtain ⟨rfl, rfl, machines⟩ := alike
  exact ⟨n', Process.exists_eval_eq_iff.mpr second, machines⟩

end Names

/-! That an evaluation runs no body and changes no cell is found out by running it. -/

/-- No body of a lambda is run now, and no cell is changed. -/
def Focus.isPlain : Focus → Bool
  | body _ => false
  | supplied (.builtin name) _ => name != Builtin.setCar.name && name != Builtin.setCdr.name
  | _ => true

/-- The process ends within so many steps, and all its points are plain. -/
def Process.endsPlainly : Nat → Process → Bool
  | 0, _ => false
  | steps + 1, p => p.focus.isPlain && p.next.all (endsPlainly steps)

theorem Process.plain_of_isPlain (plain : p.focus.isPlain = true) : ¬p.Enters ∧ ¬p.Mutates := by
  constructor
  · rintro ⟨body, focus⟩
    rw [focus] at plain
    cases plain
  · rintro ⟨_, values, focus, rfl | rfl⟩ <;>
    · rw [focus] at plain
      simp [Focus.isPlain] at plain

theorem Process.Leads.plain {steps : Nat} (leads : Leads p q)
    (plainly : p.endsPlainly steps = true) : ¬q.Enters ∧ ¬q.Mutates := by
  induction leads using Relation.ReflTransGen.head_induction_on generalizing steps with
  | refl =>
    cases steps with
    | zero => cases plainly
    | succ steps => exact plain_of_isPlain (Bool.and_eq_true_iff.mp plainly).1
  | head step _ ih =>
    cases steps with
    | zero => cases plainly
    | succ steps =>
      have onward := (Bool.and_eq_true_iff.mp plainly).2
      rw [step] at onward
      exact ih onward

/-- Names that may be bound to something else in the second state. -/
def rebound : String → Prop := (· ∈ ["car", "def", "quote"])

/-- It defines a name, looks it up and evaluates a quotation. -/
def plainForm : Datum :=
  .list [.string "block",
    .list [.string "def", .string "z", .list [.string "car", .string "y"]],
    .list [.string "eval", .list [.string "quote",
      .list [.string "+", .string "z", .list [.string "car", .string "y"]]]]]

theorem reserved_rebound {name : String} (named : rebound name) : Reserved name := by
  simp only [rebound, List.mem_cons, List.not_mem_nil, or_false] at named
  rcases named with rfl | rfl | rfl <;> decide

/-- The form comes to the same where `car` is a number. -/
theorem reserved_names_keep_meaning_in_block : ∃ m form left v m' n', Session.Reached m ∧
    m.store.place plainForm = (form, left) ∧ v.equal (.int 2) = true ∧
    Evaluation.Ends ⟨left, m.stack⟩ form (.ok v) m' ∧
    Evaluation.Ends ⟨left.bind Session.globalScope "car" (.int 100), m.stack⟩ form (.ok v) n' ∧
    m'.Alike (fun _ => rebound) n' := by
  obtain ⟨m, ran, facts⟩ := (Option.any_eq_true _ _).mp (by decide +kernel :
    (Session.run 9 "(def y '(1 2))" Machine.initial).machine?.any (fun m =>
      let placed := m.store.place plainForm
      (Process.mk (.code placed.1) [] ⟨placed.2, m.stack⟩).endsPlainly 99 &&
        (eval 9 placed.1 ⟨placed.2, m.stack⟩).value?.any (·.equal (.int 2))) = true)
  have reached : Session.Reached m := .run .initial 9 _ ran
  have holds := Store.holds_place m.store plainForm
  have within := Store.within_place m.store plainForm
  obtain ⟨store, known⟩ := reached.sound.store.place plainForm
  rcases placed : m.store.place plainForm with ⟨form, left⟩
  rw [placed] at facts holds within store known
  dsimp only at facts holds within store known
  obtain ⟨plainly, evaluated⟩ := Bool.and_eq_true_iff.mp facts
  obtain ⟨v, ended, two⟩ := (Option.any_eq_true _ _).mp evaluated
  obtain ⟨m', ended⟩ := Outcome.exists_of_value? ended
  have ends : Evaluation.Ends ⟨left, m.stack⟩ form (.ok v) m' := ⟨9, ended⟩
  have sound : Machine.Sound ⟨left, m.stack⟩ :=
    ⟨store, fun i mem => Nat.lt_of_lt_of_le (reached.sound.stack i mem) within.scopes⟩
  have heads : left.OnlyHeads rebound form := by
    apply holds.onlyHeads
    simp [plainForm, Datum.list, Datum.OnlyHeads, rebound]
  have car : rebound "car" := by simp [rebound]
  have alike : Machine.Alike (fun _ => rebound) ⟨left, m.stack⟩
      ⟨left.bind Session.globalScope "car" (.int 100), m.stack⟩ :=
    Machine.alike_bind ⟨left, m.stack⟩ car (.int 100)
  obtain ⟨n', endsSecond, after⟩ := reserved_names_keep_meaning (fun _ => reserved_rebound) sound
    known heads (fun t leads => (leads.plain plainly).1) (fun t leads => (leads.plain plainly).2)
    alike ends
  exact ⟨m, form, left, v, m', n', reached, placed, two, ends, endsSecond, after⟩

end CellLisp
