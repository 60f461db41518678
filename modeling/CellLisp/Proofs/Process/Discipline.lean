import CellLisp.Proofs.Secure.Builtin

/-!
# Every point of an evaluation keeps to a discipline

Whatever a process holds, in its focus, in what waits and on its machine, is allowed where it
stands: what is yet to be evaluated as code, what was evaluated as data. This goes from each point
to the next.
-/

namespace CellLisp

theorem Keyword.name_of_named? {s : String} {k : Keyword} (found : named? s = some k) :
    k.name = s := by
  have same := List.find?_some found
  exact eq_of_beq same

variable {D : Discipline} {s t : Store}

def Use.Allowed (D : Discipline) (s : Store) : Use → Prop
  | list => True
  | builtin name => D.allows s .form (.string name)
  | call head => D.allows s .form head

def Frame.Allowed (D : Discipline) (s : Store) : Frame → Prop
  | argument use ready rest =>
    use.Allowed D s ∧ (∀ v ∈ ready, D.allows s .datum v) ∧ ∀ v ∈ rest, D.allows s .form v
  | callee args => ∀ v ∈ args, D.allows s .datum v
  | statement rest => ∀ v ∈ rest, D.allows s .form v
  | branch yes no => D.allows s .form yes ∧ D.allows s .form no
  | _ => True

def Focus.Allowed (D : Discipline) (s : Store) : Focus → Prop
  | code v => D.allows s .form v
  | supplied use values => use.Allowed D s ∧ ∀ v ∈ values, D.allows s .datum v
  | call l args => D.allows s .datum (.lambda l) ∧ ∀ v ∈ args, D.allows s .datum v
  | body v => D.allows s .form v
  | done result => ∀ v, result = .ok v → D.allows s .datum v

theorem Use.Allowed.later {use : Use} (allowed : use.Allowed D s) (later : D.later s t) :
    use.Allowed D t := by
  cases use with
  | list => trivial
  | builtin name => exact D.allows_later later allowed
  | call head => exact D.allows_later later allowed

theorem Frame.Allowed.later {frame : Frame} (allowed : frame.Allowed D s) (later : D.later s t) :
    frame.Allowed D t := by
  cases frame with
  | argument use ready rest =>
    obtain ⟨used, before, after⟩ := allowed
    exact ⟨used.later later, fun v mem => D.allows_later later (before v mem),
      fun v mem => D.allows_later later (after v mem)⟩
  | callee args =>
    intro v mem
    exact D.allows_later later (allowed v mem)
  | statement rest =>
    intro v mem
    exact D.allows_later later (allowed v mem)
  | branch yes no => exact ⟨D.allows_later later allowed.1, D.allows_later later allowed.2⟩
  | assignment | definition | region => trivial

/-- A builtin that changes cells is applied now. -/
def Process.Mutates (p : Process) : Prop :=
  ∃ (b : Builtin) (values : List Value), p.focus = .supplied (.builtin b.name) values ∧ b.Mutates

namespace Discipline

open Process

variable {α : Type} {frames : List Frame} {m : Machine} {p q : Process}

/-- The machine keeps to the discipline and allows what waits on it. -/
structure Grounded (D : Discipline) (frames : List Frame) (m : Machine) : Prop where
  machine : D.On m
  frames : ∀ frame ∈ frames, frame.Allowed D m.store

structure Governs (D : Discipline) (p : Process) : Prop where
  grounded : D.Grounded p.frames p.machine
  focus : p.focus.Allowed D p.machine.store

/-- Any next point that `k` gives for this machine keeps to the discipline. -/
def Safe (D : Discipline) (k : Machine → Option Process) (m : Machine) : Prop :=
  ∀ q, k m = some q → D.Governs q

namespace Grounded

theorem cons (grounded : D.Grounded frames m) (frame : Frame) (allowed : frame.Allowed D m.store) :
    D.Grounded (frame :: frames) m :=
  ⟨grounded.machine, List.forall_mem_cons.mpr ⟨allowed, grounded.frames⟩⟩

theorem tail {frame : Frame} (grounded : D.Grounded (frame :: frames) m) : D.Grounded frames m :=
  ⟨grounded.machine, (List.forall_mem_cons.mp grounded.frames).2⟩

theorem later (grounded : D.Grounded frames m) {n : Machine} (kept : D.On n)
    (since : D.later m.store n.store) : D.Grounded frames n :=
  ⟨kept, fun frame mem => (grounded.frames frame mem).later since⟩

variable (grounded : D.Grounded frames m)

include grounded

theorem goOn {focus : Focus} (allowed : focus.Allowed D m.store) :
    D.Safe (Process.goOn frames focus) m := by
  intro q found
  cases found
  exact ⟨grounded, allowed⟩

theorem yield {v : Value} (allowed : D.allows m.store .datum v) :
    D.Safe (Process.yield frames v) m := by
  apply grounded.goOn
  intro w same
  cases same
  exact allowed

theorem perform {x : Eval α} {k : α → Machine → Option Process} {good : α → Store → Prop}
    (secures : D.Secures x m good) (rest : ∀ a n, D.Grounded frames n → D.later m.store n.store →
      good a n.store → D.Safe (k a) n) : D.Safe (Process.perform frames x k) m := by
  intro q found
  unfold Secures at secures
  rcases Process.of_perform found with ⟨a, n, outcome, later⟩ | ⟨f, n, outcome, rfl⟩
  · rw [outcome] at secures
    obtain ⟨kept, since, known⟩ := secures
    exact rest a n (grounded.later kept since) since known q later
  · rw [outcome] at secures
    exact ⟨grounded.later secures.1 secures.2, nofun⟩

/-- A computation that ends with an allowed value is carried out for that value. -/
theorem conclude {x : Eval Value} (secures : D.Secures x m fun v s => D.allows s .datum v) :
    D.Safe (Process.perform frames x (Process.yield frames)) m :=
  grounded.perform secures fun _ _ later _ allowed => later.yield allowed

theorem fault {k : Machine → Option Process}
    (ends : ∃ f, k m = some ⟨.done (.error f), frames, m⟩) : D.Safe k m := by
  obtain ⟨f, ends⟩ := ends
  intro q found
  rw [ends] at found
  cases found
  exact ⟨grounded, nofun⟩

theorem supply {use : Use} {ready rest : List Value} (used : use.Allowed D m.store)
    (before : ∀ v ∈ ready, D.allows m.store .datum v)
    (after : ∀ v ∈ rest, D.allows m.store .form v) :
    D.Safe (Process.supply frames use ready rest) m := by
  cases rest with
  | nil => exact grounded.goOn ⟨used, before⟩
  | cons v rest =>
    obtain ⟨first, others⟩ := List.forall_mem_cons.mp after
    exact (grounded.cons (.argument use ready rest) ⟨used, before, others⟩).goOn first

theorem sequence {vs : List Value} (allowed : ∀ v ∈ vs, D.allows m.store .form v) :
    D.Safe (Process.sequence frames vs) m := by
  rcases vs with _ | ⟨v, _ | ⟨w, vs⟩⟩
  · exact grounded.fault ⟨_, rfl⟩
  · exact grounded.goOn (allowed v List.mem_cons_self)
  · obtain ⟨first, others⟩ := List.forall_mem_cons.mp allowed
    exact (grounded.cons (.statement (w :: vs)) others).goOn first

theorem choose {yes no : Value} (allowed : D.allows m.store .form yes ∧ D.allows m.store .form no)
    (v : Value) : D.Safe (Process.choose frames yes no v) m := by
  cases v with
  | boolean b =>
    cases b with
    | true => exact grounded.goOn allowed.1
    | false => exact grounded.goOn allowed.2
  | number | string | nil | cons | lambda => exact grounded.fault ⟨_, rfl⟩

theorem binding {form : String} {frame : String → Frame} {target expr : Value}
    (plain : ∀ name, (frame name).Allowed D m.store) (allowed : D.allows m.store .form expr) :
    D.Safe (Process.binding frames form frame target expr) m := by
  cases target with
  | string name => exact (grounded.cons (frame name) (plain name)).goOn allowed
  | number | boolean | nil | cons | lambda => exact grounded.fault ⟨_, rfl⟩

theorem quote {args : List Value} (allowed : ∀ v ∈ args, D.allows m.store .datum v) :
    D.Safe (keywordForm frames "quote" args) m := by
  rcases args with _ | ⟨x, _ | ⟨_, _⟩⟩
  · exact grounded.fault ⟨_, rfl⟩
  · exact grounded.yield (allowed x List.mem_cons_self)
  · exact grounded.fault ⟨_, rfl⟩

theorem eval {args : List Value} (allowed : ∀ v ∈ args, D.allows m.store .operand v) :
    D.Safe (keywordForm frames "eval" args) m := by
  rcases args with _ | ⟨argument, _ | ⟨_, _⟩⟩
  · exact grounded.fault ⟨_, rfl⟩
  · exact grounded.perform (secures_quotedCode grounded.machine (allowed _ List.mem_cons_self))
      fun code n later _ allowed => later.goOn allowed
  · exact grounded.fault ⟨_, rfl⟩

theorem keywordForm {keyword : String} (quote : keyword ≠ "quote") (eval : keyword ≠ "eval")
    {args : List Value} (allowed : ∀ v ∈ args, D.allows m.store .form v) :
    D.Safe (keywordForm frames keyword args) m := by
  unfold Process.keywordForm
  cases named : Keyword.named? keyword with
  | none => exact grounded.fault ⟨_, rfl⟩
  | some k =>
    have named := Keyword.name_of_named? named
    cases k with
    -- A head that puts its argument into another position is none of these.
    | quote => exact absurd named.symm quote
    | block =>
      apply grounded.perform (secures_openBlock grounded.machine)
      intro r n later since _
      have inside : ∀ v ∈ args, D.allows n.store .form v := fun v mem =>
        D.allows_later since (allowed v mem)
      exact (later.cons (.region r) trivial).sequence inside
    | conditional =>
      rcases args with _ | ⟨condition, _ | ⟨yes, _ | ⟨no, _ | ⟨_, _⟩⟩⟩⟩
      · exact grounded.fault ⟨_, rfl⟩
      · exact grounded.fault ⟨_, rfl⟩
      · exact grounded.fault ⟨_, rfl⟩
      · simp only [List.forall_mem_cons] at allowed
        obtain ⟨allowedCondition, allowedYes, allowedNo, _⟩ := allowed
        exact (grounded.cons (.branch yes no) ⟨allowedYes, allowedNo⟩).goOn allowedCondition
      · exact grounded.fault ⟨_, rfl⟩
    | list => exact grounded.supply trivial (List.forall_mem_nil _) allowed
    | lambda =>
      rcases args with _ | ⟨params, _ | ⟨body, _ | ⟨_, _⟩⟩⟩
      · exact grounded.fault ⟨_, rfl⟩
      · exact grounded.fault ⟨_, rfl⟩
      · simp only [List.forall_mem_cons] at allowed
        exact grounded.conclude (secures_makeLambda grounded.machine params allowed.2.1)
      · exact grounded.fault ⟨_, rfl⟩
    | assign =>
      rcases args with _ | ⟨target, _ | ⟨expr, _ | ⟨_, _⟩⟩⟩
      · exact grounded.fault ⟨_, rfl⟩
      · exact grounded.fault ⟨_, rfl⟩
      · simp only [List.forall_mem_cons] at allowed
        exact grounded.binding (fun _ => trivial) allowed.2.1
      · exact grounded.fault ⟨_, rfl⟩
    | define =>
      rcases args with _ | ⟨target, _ | ⟨expr, _ | ⟨_, _⟩⟩⟩
      · exact grounded.fault ⟨_, rfl⟩
      · exact grounded.fault ⟨_, rfl⟩
      · simp only [List.forall_mem_cons] at allowed
        exact grounded.binding (fun _ => trivial) allowed.2.1
      · exact grounded.fault ⟨_, rfl⟩
    | eval => exact absurd named.symm eval

/-- The arguments of a form are what its head makes of them. -/
theorem form {head : Value} (allowedHead : D.allows m.store .form head) {args : List Value}
    (allowed : ∀ v ∈ args, D.allows m.store (Position.form.rest head).item v) :
    D.Safe (form frames head args) m := by
  by_cases quote : head.name? = some "quote"
  · rw [Position.rest, if_pos quote] at allowed
    unfold Process.form
    rw [quote]
    exact grounded.quote allowed
  by_cases eval : head.name? = some "eval"
  · rw [Position.rest, if_neg quote, if_pos eval] at allowed
    unfold Process.form
    rw [eval]
    exact grounded.eval allowed
  rw [Position.rest, if_neg quote, if_neg eval] at allowed
  unfold Process.form
  cases named : head.name? with
  | none => exact grounded.supply allowedHead (List.forall_mem_nil _) allowed
  | some name =>
    dsimp only
    split
    · exact grounded.keywordForm (fun same => quote (same ▸ named))
        (fun same => eval (same ▸ named)) allowed
    · split
      · rw [Value.eq_string_of_name? named] at allowedHead
        exact grounded.supply allowedHead (List.forall_mem_nil _) allowed
      · exact grounded.supply allowedHead (List.forall_mem_nil _) allowed

theorem evaluate {v : Value} (allowed : D.allows m.store .form v) :
    D.Safe (evaluate frames v) m := by
  cases v with
  | number | boolean => exact grounded.yield (D.atom trivial)
  | lambda l => exact grounded.yield (D.lambda allowed)
  | string name => exact grounded.conclude (secures_lookup grounded.machine name)
  | nil => exact grounded.fault ⟨_, rfl⟩
  | cons c =>
    have head := D.car grounded.machine.store allowed
    have rest := D.cdr grounded.machine.store allowed
    apply grounded.perform (secures_items grounded.machine (Position.isRest_rest_form _) rest)
    intro args n later since allowedArgs
    exact later.form (D.allows_later since head) allowedArgs

theorem useValues {use : Use} {values : List Value} (used : use.Allowed D m.store)
    (mutates : ∀ b : Builtin, use = .builtin b.name → b.Mutates → D.changing)
    (allowed : ∀ v ∈ values, D.allows m.store .datum v) :
    D.Safe (useValues frames use values) m := by
  cases use with
  | list => exact grounded.conclude (secures_list grounded.machine allowed)
  | builtin name =>
    have changing : ∀ b : Builtin, b.name = name → b.Mutates → D.changing := by
      rintro b rfl
      exact mutates b rfl
    exact grounded.conclude (secures_call grounded.machine name changing allowed)
  | call head => exact (grounded.cons (.callee values) allowed).goOn used

theorem applyTo {args : List Value} {v : Value} (allowed : D.allows m.store .datum v)
    (allowedArgs : ∀ w ∈ args, D.allows m.store .datum w) :
    D.Safe (applyTo frames args v) m := by
  cases v with
  | lambda l => exact grounded.goOn ⟨allowed, allowedArgs⟩
  | number | string | boolean | nil | cons => exact grounded.fault ⟨_, rfl⟩

theorem runBody {body : Value} (allowed : D.allows m.store .form body) :
    D.Safe (runBody frames body) m := by
  intro q found
  unfold Process.runBody at found
  cases after : m.store.afterHead? "block" body with
  | none =>
    rw [after] at found
    have evaluated : D.Safe (Process.goOn frames (.code body)) m := grounded.goOn allowed
    exact evaluated q found
  | some statements =>
    rw [after] at found
    have behind : D.allows m.store .forms statements :=
      D.afterHead? grounded.machine.store allowed after
    have items := secures_items grounded.machine (fun _ => rfl) behind
    exact grounded.perform items (fun vs n later _ allowed => later.sequence allowed) q found

theorem call {l : LambdaId} {args : List Value} (allowed : D.allows m.store .datum (.lambda l))
    (allowedArgs : ∀ v ∈ args, D.allows m.store .datum v) :
    D.Safe (Process.perform frames (Region.openCall l args)
      fun e => Process.goOn (.region e.2 :: frames) (.body e.1)) m :=
  grounded.perform (secures_openCall grounded.machine allowed allowedArgs)
    fun e _ later _ allowed => (later.cons (.region e.2) trivial).goOn allowed

end Grounded

theorem Grounded.resume {frame : Frame} (grounded : D.Grounded (frame :: frames) m)
    {result : Except Fault Value} (allowed : ∀ v, result = .ok v → D.allows m.store .datum v) :
    D.Safe (resume frames frame result) m := by
  have waiting := (List.forall_mem_cons.mp grounded.frames).1
  have rest := grounded.tail
  cases result with
  | error f =>
    cases frame with
    | region r => exact rest.conclude (secures_leave rest.machine r allowed)
    | argument | callee | statement | branch | assignment | definition => exact rest.goOn nofun
  | ok v =>
    have value := allowed v rfl
    cases frame with
    | region r => exact rest.conclude (secures_leave rest.machine r allowed)
    | argument use ready after =>
      obtain ⟨used, before, others⟩ := waiting
      refine rest.supply used (fun w mem => ?_) others
      rcases List.mem_append.mp mem with left | right
      · exact before w left
      · cases List.mem_singleton.mp right
        exact value
    | callee args => exact rest.applyTo value waiting
    | statement after => exact rest.sequence waiting
    | branch yes no => exact rest.choose waiting v
    | assignment name =>
      apply rest.conclude
      apply (secures_assign rest.machine name value).bind
      intro _ n kept since _
      exact secures_pure kept (D.allows_later since value)
    | definition name =>
      apply rest.conclude
      apply (secures_define rest.machine name value).bind
      intro _ n kept since _
      exact secures_pure kept (D.allows_later since value)

/-- A discipline that allows no changes of cells holds for as long as there are none. -/
theorem Governs.next (governs : D.Governs p) (mutates : p.Mutates → D.changing)
    (step : p.next = some q) : D.Governs q := by
  rcases p with ⟨focus, frames, m⟩
  obtain ⟨grounded, allowed⟩ := governs
  cases focus with
  | code v => exact grounded.evaluate allowed q step
  | supplied use values =>
    have changing : ∀ b : Builtin, use = .builtin b.name → b.Mutates → D.changing := by
      rintro b rfl mutating
      exact mutates ⟨b, values, rfl, mutating⟩
    exact grounded.useValues allowed.1 changing allowed.2 q step
  | call l args => exact grounded.call allowed.1 allowed.2 q step
  | body v => exact grounded.runBody allowed q step
  | done result =>
    cases frames with
    | nil => cases step
    | cons frame frames => exact grounded.resume allowed q step

end Discipline

end CellLisp
