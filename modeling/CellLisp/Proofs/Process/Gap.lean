import CellLisp.Proofs.Gap.Computation
import CellLisp.Proofs.Process.Lockstep
import CellLisp.Proofs.Process.Sound

/-!
# Two processes beside a gap

Two processes at the same point, on machines that are the same but for a gap in the store, take the
same step and are the same but for the gap again, as long as the one without the gap is sound. So
each comes to a result where the other does, and to the same result up to the gap.
-/

namespace CellLisp

namespace Gap

variable (g : Gap)

def use : Use → Use
  | .call head => .call (g.value head)
  | u => u

def frame : Frame → Frame
  | .argument use ready rest => .argument (g.use use) (ready.map g.value) (rest.map g.value)
  | .callee args => .callee (args.map g.value)
  | .statement rest => .statement (rest.map g.value)
  | .branch yes no => .branch (g.value yes) (g.value no)
  | f => f

def focus : Focus → Focus
  | .code v => .code (g.value v)
  | .supplied use values => .supplied (g.use use) (values.map g.value)
  | .call l args => .call l (args.map g.value)
  | .body v => .body (g.value v)
  | .done result => .done (result.map g.value)

end Gap

namespace Process

open Eval Evaluation

variable {g : Gap} {α β : Type} {f : α → β} {frames : List Frame} {m n : Machine} {p q : Process}

/-- But for a gap in the store, the processes are at the same point. -/
structure Beside (g : Gap) (p q : Process) : Prop where
  focus : q.focus = g.focus p.focus
  frames : q.frames = p.frames.map g.frame
  machine : p.machine.Beside g q.machine

theorem beside_perform {x : Eval α} {y : Eval β} {k : α → Machine → Option Process}
    {l : β → Machine → Option Process} (outcomes : (x m).Beside g f (y n))
    (rest : ∀ a m' n', x m = .value a m' → m'.Beside g n' →
      Option.Rel (Beside g) (k a m') (l (f a) n')) :
    Option.Rel (Beside g) (perform frames x k m) (perform (frames.map g.frame) y l n) := by
  unfold perform
  generalize outcome : x m = o at outcomes
  generalize y n = u at outcomes
  cases outcomes with
  | value a beside => exact rest a _ _ outcome beside
  | fault e beside => exact .some ⟨rfl, rfl, beside⟩
  | unfinished => exact .none

theorem beside_conclude {x y : Eval Value} (outcomes : (x m).Beside g g.value (y n)) :
    Option.Rel (Beside g) (perform frames x (yield frames) m)
      (perform (frames.map g.frame) y (yield (frames.map g.frame)) n) :=
  beside_perform outcomes fun _ _ _ _ beside => .some ⟨rfl, rfl, beside⟩

variable (beside : m.Beside g n)

include beside

theorem beside_goOn (focus : Focus) : Option.Rel (Beside g) (goOn frames focus m)
    (goOn (frames.map g.frame) (g.focus focus) n) := .some ⟨rfl, rfl, beside⟩

theorem beside_fault (e : Fault) : Option.Rel (Beside g) (perform frames (fail e) (yield frames) m)
    (perform (frames.map g.frame) (fail e) (yield (frames.map g.frame)) n) :=
  beside_conclude (beside_fail beside g.value e)

theorem beside_refuse (v : Value) (cause : String → Fault) :
    Option.Rel (Beside g) (perform frames (reject v cause) (yield frames) m)
      (perform (frames.map g.frame) (reject (g.value v) cause) (yield (frames.map g.frame)) n) :=
  beside_conclude (beside_reject beside v cause g.value)

theorem beside_supply (use : Use) (ready rest : List Value) :
    Option.Rel (Beside g) (supply frames use ready rest m)
      (supply (frames.map g.frame) (g.use use) (ready.map g.value) (rest.map g.value) n) := by
  cases rest with
  | nil => exact beside_goOn beside (.supplied use ready)
  | cons v rest => exact .some ⟨rfl, rfl, beside⟩

theorem beside_sequence (vs : List Value) : Option.Rel (Beside g) (sequence frames vs m)
    (sequence (frames.map g.frame) (vs.map g.value) n) := by
  rcases vs with _ | ⟨v, _ | ⟨w, vs⟩⟩
  · exact beside_fault beside _
  · exact beside_goOn beside (.code v)
  · exact .some ⟨rfl, rfl, beside⟩

theorem beside_choose (yes no v : Value) : Option.Rel (Beside g) (choose frames yes no v m)
    (choose (frames.map g.frame) (g.value yes) (g.value no) (g.value v) n) := by
  cases v with
  | boolean b => cases b <;> exact .some ⟨rfl, rfl, beside⟩
  | number | string | nil | cons | lambda =>
    exact beside_refuse beside _ fun text => .evaluation (.nonBooleanCondition text)

theorem beside_binding (form : String) {frame : String → Frame}
    (same : ∀ name, g.frame (frame name) = frame name) (target expr : Value) :
    Option.Rel (Beside g) (binding frames form frame target expr m)
      (binding (frames.map g.frame) form frame (g.value target) (g.value expr) n) := by
  cases target with
  | string name => exact .some ⟨rfl, by rw [List.map_cons, same], beside⟩
  | number | boolean | nil | cons | lambda =>
    exact beside_refuse beside _ fun text => malformed form (.notName text)

theorem beside_applyTo (args : List Value) (v : Value) :
    Option.Rel (Beside g) (applyTo frames args v m)
      (applyTo (frames.map g.frame) (args.map g.value) (g.value v) n) := by
  cases v with
  | lambda l => exact beside_goOn beside (.call l args)
  | number | string | boolean | nil | cons =>
    exact beside_refuse beside _ fun text => .evaluation (.notCallable text)

/-- A form with a wrong number of arguments has as many of them beside the gap. -/
theorem beside_arity (keyword : String) (expected : Nat) (args : List Value) :
    Option.Rel (Beside g)
      (perform frames (fail (arityFault keyword expected args.length)) (yield frames) m)
      (perform (frames.map g.frame) (fail (arityFault keyword expected (args.map g.value).length))
        (yield (frames.map g.frame)) n) := by
  rw [List.length_map]
  exact beside_fault beside _

theorem beside_keywordForm (sound : m.Sound) (keyword : String) {args : List Value}
    (known : ∀ v ∈ args, v.KnownTo m.store) :
    Option.Rel (Beside g) (keywordForm frames keyword args m)
      (keywordForm (frames.map g.frame) keyword (args.map g.value) n) := by
  unfold keywordForm
  cases Keyword.named? keyword with
  | none => exact beside_fault beside _
  | some k =>
    cases k with
    | quote =>
      rcases args with _ | ⟨x, _ | ⟨y, rest⟩⟩
      · exact beside_fault beside _
      · exact beside_goOn beside (.done (.ok x))
      · exact beside_arity beside keyword 1 (x :: y :: rest)
    | block =>
      exact beside_perform (Region.beside_openBlock beside) fun r _ _ _ beside =>
        beside_sequence beside args
    | conditional =>
      rcases args with _ | ⟨condition, _ | ⟨yes, _ | ⟨no, _ | ⟨more, rest⟩⟩⟩⟩
      · exact beside_fault beside _
      · exact beside_fault beside _
      · exact beside_fault beside _
      · exact beside_goOn beside (.code condition)
      · exact beside_arity beside keyword 3 (condition :: yes :: no :: more :: rest)
    | list => exact beside_supply beside .list [] args
    | lambda =>
      rcases args with _ | ⟨params, _ | ⟨body, _ | ⟨more, rest⟩⟩⟩
      · exact beside_fault beside _
      · exact beside_fault beside _
      · have knownParams := known params List.mem_cons_self
        exact beside_conclude (beside_makeLambda beside sound knownParams body)
      · exact beside_arity beside keyword 2 (params :: body :: more :: rest)
    | assign =>
      rcases args with _ | ⟨target, _ | ⟨expr, _ | ⟨more, rest⟩⟩⟩
      · exact beside_fault beside _
      · exact beside_fault beside _
      · exact beside_binding beside keyword (fun _ => rfl) target expr
      · exact beside_arity beside keyword 2 (target :: expr :: more :: rest)
    | define =>
      rcases args with _ | ⟨target, _ | ⟨expr, _ | ⟨more, rest⟩⟩⟩
      · exact beside_fault beside _
      · exact beside_fault beside _
      · exact beside_binding beside keyword (fun _ => rfl) target expr
      · exact beside_arity beside keyword 2 (target :: expr :: more :: rest)
    | eval =>
      rcases args with _ | ⟨argument, _ | ⟨more, rest⟩⟩
      · exact beside_fault beside _
      · exact beside_perform (beside_quotedCode beside sound argument) fun code _ _ _ beside =>
          beside_goOn beside (.code code)
      · exact beside_arity beside keyword 1 (argument :: more :: rest)

theorem beside_form (sound : m.Sound) (head : Value) {args : List Value}
    (known : ∀ v ∈ args, v.KnownTo m.store) :
    Option.Rel (Beside g) (form frames head args m)
      (form (frames.map g.frame) (g.value head) (args.map g.value) n) := by
  unfold form
  rw [Gap.name?_value]
  cases head.name? with
  | none => exact beside_supply beside (.call head) [] args
  | some name =>
    dsimp only
    split
    · exact beside_keywordForm beside sound name known
    · split
      · exact beside_supply beside (.builtin name) [] args
      · exact beside_supply beside (.call head) [] args

theorem beside_evaluate (sound : m.Sound) (v : Value) :
    Option.Rel (Beside g) (evaluate frames v m)
      (evaluate (frames.map g.frame) (g.value v) n) := by
  cases v with
  | string name => exact beside_conclude (beside_lookup beside name)
  | nil => exact beside_fault beside _
  | number | boolean | lambda => exact .some ⟨rfl, rfl, beside⟩
  | cons c =>
    have known := sound.store.cdr c
    change Option.Rel _ _ (perform _ (Eval.items (n.store.cdr (g.cell c)))
      (form _ (n.store.car (g.cell c))) n)
    rw [beside.store.car, beside.store.cdr]
    refine beside_perform (beside_items beside sound known) fun args m' n' read beside => ?_
    obtain ⟨soundThere, knownThere⟩ := sound_of_items sound known read
    exact beside_form beside soundThere (m.store.car c) knownThere

theorem beside_useValues (sound : m.Sound) (use : Use) {values : List Value}
    (known : ∀ v ∈ values, v.KnownTo m.store) :
    Option.Rel (Beside g) (useValues frames use values m)
      (useValues (frames.map g.frame) (g.use use) (values.map g.value) n) := by
  cases use with
  | list => exact beside_conclude (beside_list beside values)
  | builtin name => exact beside_conclude (Builtin.beside_call beside name sound known)
  | call head => exact beside_goOn beside (.code head)

theorem beside_runBody (sound : m.Sound) (body : Value) :
    Option.Rel (Beside g) (runBody frames body m)
      (runBody (frames.map g.frame) (g.value body) n) := by
  unfold runBody
  rw [beside.store.afterHead?]
  cases after : m.store.afterHead? "block" body with
  | none => exact beside_goOn beside (.code body)
  | some statements =>
    have known := sound.store.afterHead? after
    exact beside_perform (beside_items beside sound known) fun vs _ _ _ beside =>
      beside_sequence beside vs

theorem beside_resume (frame : Frame) (result : Except Fault Value) :
    Option.Rel (Beside g) (resume frames frame result m)
      (resume (frames.map g.frame) (g.frame frame) (result.map g.value) n) := by
  cases result with
  | error e =>
    cases frame with
    | region r => exact beside_conclude (Region.beside_leave beside r (.error e))
    | argument | callee | statement | branch | assignment | definition =>
      exact beside_goOn beside (.done (.error e))
  | ok v =>
    cases frame with
    | region r => exact beside_conclude (Region.beside_leave beside r (.ok v))
    | argument use ready rest =>
      have supplied : Option.Rel (Beside g) (supply frames use (ready ++ [v]) rest m) _ :=
        beside_supply beside use (ready ++ [v]) rest
      rwa [List.map_append] at supplied
    | callee args => exact beside_applyTo beside args v
    | statement rest => exact beside_sequence beside rest
    | branch yes no => exact beside_choose beside yes no v
    | assignment name =>
      exact beside_conclude (beside_bind (beside_assign beside name v) fun _ _ _ _ beside =>
        .value v beside)
    | definition name =>
      exact beside_conclude (beside_bind (beside_define beside name v) fun _ _ _ _ beside =>
        .value v beside)

omit beside

theorem Beside.next (beside : p.Beside g q) (sound : p.Sound) :
    Option.Rel (Beside g) p.next q.next := by
  rcases p with ⟨focus, frames, m⟩
  rcases q with ⟨_, _, n⟩
  obtain ⟨rfl, rfl, machines⟩ := beside
  obtain ⟨⟨soundMachine, _⟩, known⟩ := sound
  cases focus with
  | code v => exact beside_evaluate machines soundMachine v
  | supplied use values => exact beside_useValues machines soundMachine use known.2
  | call l args =>
    exact beside_perform (Region.beside_openCall machines l args) fun e _ _ _ beside =>
      beside_goOn beside (.body e.1)
  | body v => exact beside_runBody machines soundMachine v
  | done result =>
    cases frames with
    | nil => exact .none
    | cons frame frames => exact beside_resume machines frame result

/-- Each of the processes comes to a point where the other does. -/
theorem Beside.leads (beside : p.Beside g q) (sound : p.Sound) :
    (∀ {p'}, Leads p p' → ∃ q', Leads q q' ∧ p'.Beside g q') ∧
      ∀ {q'}, Leads q q' → ∃ p', Leads p p' ∧ p'.Beside g q' := by
  have step : ∀ {p q : Process}, (p.Sound ∧ p.Beside g q) →
      Option.Rel (fun p q => p.Sound ∧ p.Beside g q) p.next q.next := fun ⟨sound, beside⟩ =>
    rel_imp (beside.next sound) fun _ _ taken _ beside => ⟨sound.next taken, beside⟩
  constructor
  · intro p' leads
    obtain ⟨q', there, _, beside⟩ := leads.lockstep ⟨sound, beside⟩ step
    exact ⟨q', there, beside⟩
  · intro q' leads
    obtain ⟨p', there, _, beside⟩ := leads.lockstep (R := fun q p => p.Sound ∧ p.Beside g q)
      ⟨sound, beside⟩ fun related => rel_swap (step related)
    exact ⟨p', there, beside⟩

end Process

end CellLisp
