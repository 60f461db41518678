import CellLisp.Proofs.Discipline
import CellLisp.Proofs.Process.Lockstep

/-!
# What a process runs

What an evaluation comes to run are heads and items of lists that it runs, bodies of lambdas apart.
A head that is a reserved name is not run: it is not looked up. So a set of code that has with a
list the items, and the head unless that is a reserved name, is never left but to enter a body.
-/

namespace CellLisp

/-- The name of a keyword or of a builtin. -/
def Reserved (name : String) : Prop := name ∈ Keyword.names ∨ name ∈ Builtin.names

instance (name : String) : Decidable (Reserved name) := inferInstanceAs (Decidable (_ ∨ _))

variable {runs : Value → Prop} {v : Value} {m n : Machine} {p q : Process}

/-- With a list, its items are to be run, and so is its head unless that is a reserved name. -/
structure Store.Closed (s : Store) (runs : Value → Prop) : Prop where
  head {c : CellId} : runs (.cons c) → (∀ name, s.car c = .string name → ¬Reserved name) →
    runs (s.car c)
  items {c : CellId} {vs : List Value} : runs (.cons c) → s.chain (s.cdr c) = .proper vs →
    ∀ v ∈ vs, runs v

/-! What is to be run now and later on, names that are to be assigned to included. -/

def Use.Within (runs : Value → Prop) : Use → Prop
  | call head => runs head
  | _ => True

def Frame.Within (runs : Value → Prop) : Frame → Prop
  | argument use _ rest => use.Within runs ∧ ∀ v ∈ rest, runs v
  | statement rest => ∀ v ∈ rest, runs v
  | branch yes no => runs yes ∧ runs no
  | assignment name => runs (.string name)
  | _ => True

def Focus.Within (runs : Value → Prop) : Focus → Prop
  | code v => runs v
  | supplied use _ => use.Within runs
  | body _ => False
  | _ => True

/-! What is read off code. -/

theorem Eval.of_items {vs : List Value} (outcome : items v m = .value vs n) :
    m.store.chain v = .proper vs ∧ n = m := by
  unfold items at outcome
  rw [read_bind] at outcome
  cases walked : m.store.chain v with
  | proper ws =>
    rw [walked] at outcome
    cases outcome
    exact ⟨rfl, rfl⟩
  | improper | endless =>
    rw [walked] at outcome
    cases outcome

namespace Process

open Eval Evaluation

variable {α : Type} {frames : List Frame}

theorem of_quotedCode {argument quoted : Value}
    (outcome : quotedCode argument m = .value quoted n) :
    ∃ c, argument = .cons c ∧ m.store.chain (m.store.cdr c) = .proper [quoted] ∧ n = m := by
  obtain ⟨_ | code, k, asked, outcome⟩ := value_of_bind outcome
  · cases outcome
  cases outcome
  unfold quotation? at asked
  rw [read_bind] at asked
  cases argument with
  | cons c =>
    by_cases named : (m.store.car c).name? = some "quote"
    · rw [Store.afterHead?, if_pos named] at asked
      dsimp only at asked
      rw [read_bind] at asked
      cases walked : m.store.chain (m.store.cdr c) with
      | proper vs =>
        rw [walked] at asked
        rcases vs with _ | ⟨v, _ | ⟨_, _⟩⟩ <;> cases asked
        exact ⟨c, rfl, walked, rfl⟩
      | improper | endless =>
        rw [walked] at asked
        cases asked
    · rw [Store.afterHead?, if_neg named] at asked
      cases asked
  | number | string | boolean | nil | lambda => cases asked

/-- All that the process is about to run. -/
structure Within (runs : Value → Prop) (p : Process) : Prop where
  focus : p.focus.Within runs
  frames : ∀ frame ∈ p.frames, frame.Within runs

/-- The body of a lambda is about to be run. -/
def Enters (p : Process) : Prop := ∃ body, p.focus = .body body

/-- Any next point that `k` gives for this machine runs such code only. -/
def Stays (runs : Value → Prop) (k : Machine → Option Process) (m : Machine) : Prop :=
  ∀ q, k m = some q → q.Within runs

section Waiting

variable (waiting : ∀ frame ∈ frames, frame.Within runs)

include waiting

theorem stays_goOn {focus : Focus} (within : focus.Within runs) :
    Stays runs (goOn frames focus) m := by
  rintro q ⟨⟩
  exact ⟨within, waiting⟩

theorem stays_push {frame : Frame} {focus : Focus} (later : frame.Within runs)
    (within : focus.Within runs) : Stays runs (goOn (frame :: frames) focus) m :=
  stays_goOn (List.forall_mem_cons.mpr ⟨later, waiting⟩) within

theorem stays_perform {x : Eval α} {k : α → Machine → Option Process}
    (rest : ∀ a n, x m = .value a n → Stays runs (k a) n) : Stays runs (perform frames x k) m := by
  intro q found
  rcases of_perform found with ⟨a, n, outcome, later⟩ | ⟨f, n, _, rfl⟩
  · exact rest a n outcome q later
  · exact ⟨trivial, waiting⟩

theorem stays_conclude (x : Eval Value) : Stays runs (perform frames x (yield frames)) m :=
  stays_perform waiting fun _ _ _ => stays_goOn waiting trivial

/-- A fault runs nothing. -/
theorem stays_fault {k : Machine → Option Process}
    (ends : ∃ f, k m = some ⟨.done (.error f), frames, m⟩) : Stays runs k m := by
  obtain ⟨f, ends⟩ := ends
  intro q found
  rw [ends] at found
  cases found
  exact ⟨trivial, waiting⟩

theorem stays_supply {use : Use} {ready rest : List Value} (used : use.Within runs)
    (after : ∀ v ∈ rest, runs v) : Stays runs (supply frames use ready rest) m := by
  cases rest with
  | nil => exact stays_goOn waiting used
  | cons v rest =>
    obtain ⟨first, others⟩ := List.forall_mem_cons.mp after
    exact stays_push waiting ⟨used, others⟩ first

theorem stays_sequence {vs : List Value} (each : ∀ v ∈ vs, runs v) :
    Stays runs (sequence frames vs) m := by
  rcases vs with _ | ⟨v, _ | ⟨w, vs⟩⟩
  · exact stays_fault waiting ⟨_, rfl⟩
  · exact stays_goOn waiting (each v List.mem_cons_self)
  · obtain ⟨first, others⟩ := List.forall_mem_cons.mp each
    exact stays_push waiting others first

theorem stays_choose {yes no : Value} (either : runs yes ∧ runs no) (v : Value) :
    Stays runs (choose frames yes no v) m := by
  cases v with
  | boolean b =>
    cases b with
    | true => exact stays_goOn waiting either.1
    | false => exact stays_goOn waiting either.2
  | number | string | nil | cons | lambda => exact stays_fault waiting ⟨_, rfl⟩

theorem stays_binding (form : String) {frame : String → Frame} {target expr : Value}
    (each : ∀ name, runs (.string name) → (frame name).Within runs) (first : runs target)
    (second : runs expr) : Stays runs (binding frames form frame target expr) m := by
  cases target with
  | string name => exact stays_push waiting (each name first) second
  | number | boolean | nil | cons | lambda => exact stays_fault waiting ⟨_, rfl⟩

theorem stays_keywordForm (closed : m.store.Closed runs) (keyword : String) {args : List Value}
    (each : ∀ v ∈ args, runs v) : Stays runs (keywordForm frames keyword args) m := by
  unfold keywordForm
  cases Keyword.named? keyword with
  | none => exact stays_fault waiting ⟨_, rfl⟩
  | some k =>
    cases k with
    | quote =>
      rcases args with _ | ⟨x, _ | ⟨_, _⟩⟩
      · exact stays_fault waiting ⟨_, rfl⟩
      · exact stays_goOn waiting trivial
      · exact stays_fault waiting ⟨_, rfl⟩
    | block =>
      apply stays_perform waiting
      intro r n _
      have opened : ∀ frame ∈ .region r :: frames, frame.Within runs :=
        List.forall_mem_cons.mpr ⟨trivial, waiting⟩
      exact stays_sequence opened each
    | conditional =>
      rcases args with _ | ⟨condition, _ | ⟨yes, _ | ⟨no, _ | ⟨_, _⟩⟩⟩⟩
      · exact stays_fault waiting ⟨_, rfl⟩
      · exact stays_fault waiting ⟨_, rfl⟩
      · exact stays_fault waiting ⟨_, rfl⟩
      · simp only [List.forall_mem_cons] at each
        obtain ⟨decides, first, second, _⟩ := each
        exact stays_push waiting ⟨first, second⟩ decides
      · exact stays_fault waiting ⟨_, rfl⟩
    | list => exact stays_supply waiting trivial each
    | lambda =>
      rcases args with _ | ⟨params, _ | ⟨body, _ | ⟨_, _⟩⟩⟩
      · exact stays_fault waiting ⟨_, rfl⟩
      · exact stays_fault waiting ⟨_, rfl⟩
      · exact stays_conclude waiting (makeLambda params body)
      · exact stays_fault waiting ⟨_, rfl⟩
    | assign =>
      rcases args with _ | ⟨target, _ | ⟨expr, _ | ⟨_, _⟩⟩⟩
      · exact stays_fault waiting ⟨_, rfl⟩
      · exact stays_fault waiting ⟨_, rfl⟩
      · simp only [List.forall_mem_cons] at each
        exact stays_binding waiting _ (fun _ named => named) each.1 each.2.1
      · exact stays_fault waiting ⟨_, rfl⟩
    | define =>
      rcases args with _ | ⟨target, _ | ⟨expr, _ | ⟨_, _⟩⟩⟩
      · exact stays_fault waiting ⟨_, rfl⟩
      · exact stays_fault waiting ⟨_, rfl⟩
      · simp only [List.forall_mem_cons] at each
        exact stays_binding waiting _ (fun _ _ => trivial) each.1 each.2.1
      · exact stays_fault waiting ⟨_, rfl⟩
    | eval =>
      rcases args with _ | ⟨argument, _ | ⟨_, _⟩⟩
      · exact stays_fault waiting ⟨_, rfl⟩
      · apply stays_perform waiting
        intro quoted n outcome
        obtain ⟨c, rfl, walked, rfl⟩ := of_quotedCode outcome
        have inside := closed.items (each _ List.mem_cons_self) walked
        exact stays_goOn waiting (inside quoted List.mem_cons_self)
      · exact stays_fault waiting ⟨_, rfl⟩

theorem stays_form (closed : m.store.Closed runs) {head : Value} {args : List Value}
    (called : (∀ name, head = .string name → ¬Reserved name) → runs head)
    (each : ∀ v ∈ args, runs v) : Stays runs (form frames head args) m := by
  unfold form
  cases named : head.name? with
  | none =>
    refine stays_supply waiting (called ?_) each
    rintro name rfl
    cases named
  | some name =>
    have same := Value.eq_string_of_name? named
    subst same
    dsimp only
    by_cases keyword : name ∈ Keyword.names
    · rw [if_pos keyword]
      exact stays_keywordForm waiting closed name each
    · rw [if_neg keyword]
      by_cases builtin : name ∈ Builtin.names
      · rw [if_pos builtin]
        exact stays_supply waiting trivial each
      · rw [if_neg builtin]
        refine stays_supply waiting (called ?_) each
        rintro _ ⟨⟩
        exact not_or.mpr ⟨keyword, builtin⟩

theorem stays_evaluate (closed : m.store.Closed runs) (run : runs v) :
    Stays runs (evaluate frames v) m := by
  cases v with
  | cons c =>
    apply stays_perform waiting
    intro args n outcome
    obtain ⟨walked, rfl⟩ := of_items outcome
    exact stays_form waiting closed (closed.head run) (closed.items run walked)
  | string name => exact stays_conclude waiting (Eval.lookup name)
  | nil => exact stays_fault waiting ⟨_, rfl⟩
  | number | boolean | lambda => exact stays_goOn waiting trivial

theorem stays_useValues {use : Use} (used : use.Within runs) (values : List Value) :
    Stays runs (useValues frames use values) m := by
  cases use with
  | list => exact stays_conclude waiting (Eval.update (·.list values))
  | builtin name => exact stays_conclude waiting (Builtin.call name values)
  | call head => exact stays_push waiting trivial used

theorem stays_applyTo (args : List Value) (v : Value) : Stays runs (applyTo frames args v) m := by
  cases v with
  | lambda l => exact stays_goOn waiting trivial
  | number | string | boolean | nil | cons => exact stays_fault waiting ⟨_, rfl⟩

theorem stays_resume {frame : Frame} (later : frame.Within runs) (result : Except Fault Value) :
    Stays runs (resume frames frame result) m := by
  cases frame with
  | region r => exact stays_conclude waiting (r.leave result)
  | argument use ready rest =>
    cases result with
    | error f => exact stays_goOn waiting trivial
    | ok v => exact stays_supply waiting later.1 later.2
  | callee args =>
    cases result with
    | error f => exact stays_goOn waiting trivial
    | ok v => exact stays_applyTo waiting args v
  | statement rest =>
    cases result with
    | error f => exact stays_goOn waiting trivial
    | ok v => exact stays_sequence waiting later
  | branch yes no =>
    cases result with
    | error f => exact stays_goOn waiting trivial
    | ok v => exact stays_choose waiting later v
  | assignment name =>
    cases result with
    | error f => exact stays_goOn waiting trivial
    | ok v => exact stays_conclude waiting (do Eval.assign name v; return v)
  | definition name =>
    cases result with
    | error f => exact stays_goOn waiting trivial
    | ok v => exact stays_conclude waiting (do Eval.define name v; return v)

end Waiting

/-- From running such code a step goes on to running such code, unless it enters a body. -/
theorem Within.next (within : p.Within runs) (closed : p.machine.store.Closed runs)
    (step : p.next = some q) (outside : ¬q.Enters) : q.Within runs := by
  rcases p with ⟨focus, frames, m⟩
  obtain ⟨now, waiting⟩ := within
  cases focus with
  | code v => exact stays_evaluate waiting closed now q step
  | supplied use values => exact stays_useValues waiting now values q step
  | call l args =>
    rcases of_perform step with ⟨e, n, _, ⟨⟩⟩ | ⟨f, n, _, rfl⟩
    · exact absurd ⟨e.1, rfl⟩ outside
    · exact ⟨trivial, waiting⟩
  | body v => exact now.elim
  | done result =>
    cases frames with
    | nil => cases step
    | cons frame frames =>
      obtain ⟨first, others⟩ := List.forall_mem_cons.mp waiting
      exact stays_resume others first result q step

theorem Within.leads (within : p.Within runs) (leads : Leads p q)
    (each : ∀ t, Leads p t → t.machine.store.Closed runs ∧ ¬t.Enters) : q.Within runs := by
  induction leads with
  | refl => exact within
  | tail before step ih => exact ih.next (each _ before).1 step (each _ (before.tail step)).2

/-- A name that is looked up or assigned to is about to be run. -/
theorem Within.runs_of_seeks {name : String} (within : p.Within runs) (seeks : p.Seeks name) :
    runs (.string name) := by
  cases seeks with
  | lookup => exact within.focus
  | assign => exact within.frames _ List.mem_cons_self

end Process

end CellLisp
