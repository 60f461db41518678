import CellLisp.Proofs.Change
import CellLisp.Proofs.Process

/-!
# What one step of a process can do

A step changes the machine once and enters and leaves nothing, or it enters one region, or it
leaves the innermost one. This is the only place where the rules of a step are taken apart; what
holds at every point of an evaluation is checked against the three kinds of moves.

The scopes on the stack are those of the regions that are entered, innermost first, above the
stack that the process began with. So the scopes that are popped are the ones that were pushed.
-/

namespace CellLisp

def Store.adopt (s : Store) (v : Value) (i : ScopeId) : Store :=
  match v with
  | .lambda l => s.setLambdaScope l i
  | _ => s

def Frame.region? : Frame → Option Region
  | region r => some r
  | _ => none

namespace Region

/-- The scopes that a region put on the stack, innermost first. -/
def scopes : Region → List ScopeId
  | block inner => [inner]
  | call _ locals owned => [locals, owned]

/-- The scope that was made for a region. -/
def own : Region → ScopeId
  | block inner => inner
  | call _ locals _ => locals

/-- What it takes to enter a region whose own scope starts out with this content. -/
def Opens (focus : Focus) (s : Store) (content : Scope) : Region → Prop
  | block _ => content = .empty
  | call l _ owned => ∃ args, focus = .call l args ∧
      (s.lambda l).params.length = args.length ∧ owned = (s.lambda l).scope ∧
      content = Scope.ofArguments (s.lambda l).params args

/-- The store once a region is left. Only a call that ends with a value gives scopes to lambdas:
to a lambda that it returns and then, in any case, to its own. -/
def settle : Region → Except Fault Value → Store → Store
  | call callee locals owned, .ok v, s => (s.adopt v locals).setLambdaScope callee owned
  | _, _, s => s

end Region

/-- The regions entered, innermost first. -/
def regionsOf (frames : List Frame) : List Region := frames.filterMap Frame.region?

@[simp] theorem regionsOf_region (r : Region) (frames : List Frame) :
    regionsOf (.region r :: frames) = r :: regionsOf frames := rfl

namespace Process

variable {α : Type} {frames : List Frame} {m : Machine} {p q : Process}

def regions (p : Process) : List Region := regionsOf p.frames

/-- The scopes of the entered regions stand on the stack above those that the process began with. -/
def Balanced (base : List ScopeId) (p : Process) : Prop :=
  p.machine.stack = p.regions.flatMap Region.scopes ++ base

inductive Move (p q : Process) : Prop
  | change (regions : q.regions = p.regions) (change : p.machine.Change q.machine)
  | enter (r : Region) (content : Scope) (opens : r.Opens p.focus p.machine.store content)
      (regions : q.regions = r :: p.regions)
      (fresh : r.own = ⟨p.machine.store.scopes.size⟩)
      (store : q.machine.store = (p.machine.store.newScope content).2)
      (stack : q.machine.stack = r.scopes ++ p.machine.stack)
  | leave (r : Region) (result : Except Fault Value)
      (before : p.focus = .done result) (after : q.focus = .done result)
      (frames : p.frames = .region r :: q.frames)
      (store : q.machine.store = r.settle result p.machine.store)
      (stack : p.machine.stack = r.scopes ++ q.machine.stack)

theorem regions_of_frames {r : Region} (frames : p.frames = .region r :: q.frames) :
    p.regions = r :: q.regions := by
  unfold regions
  rw [frames, regionsOf_region]

/-! Steps that enter and leave nothing. -/

/-- The next point has the same regions and the same machine. -/
def Keeps (frames : List Frame) (m : Machine) (q : Process) : Prop :=
  q.regions = regionsOf frames ∧ q.machine = m

theorem perform_of_reads {x : Eval α} {k : α → Machine → Option Process} (reads : x.Reads)
    (found : perform frames x k m = some q) : (∃ a, k a m = some q) ∨ Keeps frames m q := by
  have same := reads m
  rcases of_perform found with ⟨a, n, outcome, later⟩ | ⟨f, n, outcome, rfl⟩
  · rw [outcome] at same
    cases same n rfl
    exact .inl ⟨a, later⟩
  · rw [outcome] at same
    cases same n rfl
    exact .inr ⟨rfl, rfl⟩

theorem keeps_perform {x : Eval α} {k : α → Machine → Option Process} (reads : x.Reads)
    (rest : ∀ a, k a m = some q → Keeps frames m q) (found : perform frames x k m = some q) :
    Keeps frames m q := by
  rcases perform_of_reads reads found with ⟨a, later⟩ | kept
  · exact rest a later
  · exact kept

theorem keeps_yield {v : Value} (found : yield frames v m = some q) : Keeps frames m q := by
  cases found
  exact ⟨rfl, rfl⟩

theorem keeps_supply {use : Use} {ready rest : List Value}
    (found : supply frames use ready rest m = some q) : Keeps frames m q := by
  cases rest <;> cases found <;> exact ⟨rfl, rfl⟩

theorem keeps_sequence {vs : List Value} (found : sequence frames vs m = some q) :
    Keeps frames m q := by
  rcases vs with _ | ⟨v, _ | ⟨w, vs⟩⟩ <;> cases found <;> exact ⟨rfl, rfl⟩

theorem keeps_choose {yes no v : Value} (found : choose frames yes no v m = some q) :
    Keeps frames m q := by
  cases v with
  | boolean b => cases b <;> cases found <;> exact ⟨rfl, rfl⟩
  | number | string | nil | cons | lambda =>
    cases found
    exact ⟨rfl, rfl⟩

theorem keeps_binding {form : String} {frame : String → Frame} {target expr : Value}
    (plain : ∀ name, (frame name).region? = none)
    (found : binding frames form frame target expr m = some q) : Keeps frames m q := by
  cases target with
  | string name =>
    cases found
    exact ⟨by simp [regions, regionsOf, plain], rfl⟩
  | number | boolean | nil | cons | lambda =>
    cases found
    exact ⟨rfl, rfl⟩

theorem keeps_applyTo {args : List Value} {v : Value} (found : applyTo frames args v m = some q) :
    Keeps frames m q := by
  cases v <;> cases found <;> exact ⟨rfl, rfl⟩

theorem keeps_runBody {body : Value} (found : runBody frames body m = some q) :
    Keeps frames m q := by
  unfold runBody at found
  split at found
  · exact keeps_perform (Eval.reads_items _) (fun _ => keeps_sequence) found
  · cases found
    exact ⟨rfl, rfl⟩

theorem reads_quotedCode (v : Value) : (quotedCode v).Reads := by
  apply (Evaluation.reads_quotation? v).bind
  intro code
  cases code with
  | some code => exact Eval.reads_pure code
  | none => exact (Eval.reads_shown v).bind fun _ => Eval.reads_fail _

theorem Keeps.move (kept : Keeps p.frames p.machine q) : Move p q := by
  refine .change kept.1 ?_
  rw [kept.2]
  exact .none

theorem move_of_changes {x : Eval Value} (changes : x.Changes) (frames : List Frame)
    (same : regionsOf frames = p.regions)
    (found : perform frames x (yield frames) p.machine = some q) : Move p q := by
  have changed := changes p.machine
  rcases of_perform found with ⟨v, n, outcome, ⟨⟩⟩ | ⟨f, n, outcome, rfl⟩
  · rw [outcome] at changed
    exact .change same (changed n rfl)
  · rw [outcome] at changed
    exact .change same (changed n rfl)

theorem move_of_fault {f : Fault}
    (found : perform p.frames (Eval.fail f) (yield p.frames) p.machine = some q) : Move p q := by
  cases found
  exact .change rfl .none

/-! Entering and leaving. -/

theorem move_of_openBlock {vs : List Value}
    (found : perform p.frames Region.openBlock
      (fun r => sequence (.region r :: p.frames) vs) p.machine = some q) : Move p q := by
  let inner : Region := .block ⟨p.machine.store.scopes.size⟩
  have kept : Keeps (.region inner :: p.frames) _ q := keeps_sequence found
  refine .enter inner .empty rfl kept.1 rfl ?_ ?_
  · rw [kept.2]
    rfl
  · rw [kept.2]
    rfl

theorem move_of_openCall {l : LambdaId} {args : List Value} (focus : p.focus = .call l args)
    (found : perform p.frames (Region.openCall l args)
      (fun e => goOn (.region e.2 :: p.frames) (.body e.1)) p.machine = some q) : Move p q := by
  unfold Region.openCall at found
  unfold perform at found
  rw [Eval.read_bind] at found
  by_cases arity : (p.machine.store.lambda l).params.length = args.length
  · rw [if_neg fun different => different arity] at found
    cases found
    exact .enter (.call l ⟨p.machine.store.scopes.size⟩ (p.machine.store.lambda l).scope) _
      ⟨args, focus, arity, rfl, rfl⟩ rfl rfl rfl rfl
  · rw [if_pos arity] at found
    cases found
    exact .change rfl .none

/-- Above its own scopes a region finds the stack as it was. -/
theorem leave_eq {r : Region} {result : Except Fault Value} {rest : List ScopeId}
    (stack : m.stack = r.scopes ++ rest) :
    r.leave result m = Eval.ofExcept result ⟨r.settle result m.store, rest⟩ := by
  rcases m with ⟨store, below⟩
  cases stack
  cases r with
  | block inner => cases result <;> rfl
  | call callee locals owned =>
    cases result with
    | error f => rfl
    | ok v => cases v <;> rfl

theorem perform_leave {r : Region} {result : Except Fault Value} {rest : List ScopeId}
    (stack : m.stack = r.scopes ++ rest) :
    perform frames (r.leave result) (yield frames) m =
      some ⟨.done result, frames, ⟨r.settle result m.store, rest⟩⟩ := by
  unfold perform
  rw [leave_eq stack]
  cases result <;> rfl

theorem Balanced.next_region {base : List ScopeId} {r : Region} {result : Except Fault Value}
    (balanced : Balanced base ⟨.done result, .region r :: frames, m⟩) :
    ∃ rest, m.stack = r.scopes ++ rest ∧ next ⟨.done result, .region r :: frames, m⟩ =
      some ⟨.done result, frames, ⟨r.settle result m.store, rest⟩⟩ := by
  have stack : m.stack = r.scopes ++ ((regionsOf frames).flatMap Region.scopes ++ base) := by
    rw [← List.append_assoc]
    exact balanced
  exact ⟨_, stack, perform_leave stack⟩

theorem move_of_keywordForm {keyword : String} {args : List Value}
    (found : keywordForm p.frames keyword args p.machine = some q) : Move p q := by
  unfold keywordForm at found
  cases named : Keyword.named? keyword with
  | none =>
    rw [named] at found
    exact move_of_fault found
  | some k =>
    rw [named] at found
    cases k with
    | quote =>
      rcases args with _ | ⟨x, _ | ⟨_, _⟩⟩
      · exact move_of_fault found
      · exact (keeps_yield found).move
      · exact move_of_fault found
    | block => exact move_of_openBlock found
    | conditional =>
      rcases args with _ | ⟨condition, _ | ⟨yes, _ | ⟨no, _ | ⟨_, _⟩⟩⟩⟩ <;> cases found <;>
        exact .change rfl .none
    | list => exact (keeps_supply found).move
    | lambda =>
      rcases args with _ | ⟨params, _ | ⟨body, _ | ⟨_, _⟩⟩⟩
      · exact move_of_fault found
      · exact move_of_fault found
      · exact move_of_changes (Evaluation.changes_makeLambda params body) p.frames rfl found
      · exact move_of_fault found
    | assign =>
      rcases args with _ | ⟨target, _ | ⟨expr, _ | ⟨_, _⟩⟩⟩
      · exact move_of_fault found
      · exact move_of_fault found
      · exact (keeps_binding (fun _ => rfl) found).move
      · exact move_of_fault found
    | define =>
      rcases args with _ | ⟨target, _ | ⟨expr, _ | ⟨_, _⟩⟩⟩
      · exact move_of_fault found
      · exact move_of_fault found
      · exact (keeps_binding (fun _ => rfl) found).move
      · exact move_of_fault found
    | eval =>
      rcases args with _ | ⟨argument, _ | ⟨_, _⟩⟩
      · exact move_of_fault found
      · refine (keeps_perform (reads_quotedCode argument) (fun code found => ?_) found).move
        cases found
        exact ⟨rfl, rfl⟩
      · exact move_of_fault found

theorem move_of_form {head : Value} {args : List Value}
    (found : form p.frames head args p.machine = some q) : Move p q := by
  unfold form at found
  cases named : head.name? with
  | none =>
    rw [named] at found
    exact (keeps_supply found).move
  | some name =>
    rw [named] at found
    dsimp only at found
    split at found
    · exact move_of_keywordForm found
    · split at found <;> exact (keeps_supply found).move

theorem move_of_evaluate {v : Value} (found : evaluate p.frames v p.machine = some q) :
    Move p q := by
  cases v with
  | number | boolean | lambda | nil =>
    cases found
    exact .change rfl .none
  | string name => exact (keeps_perform (Eval.reads_lookup name) (fun _ => keeps_yield) found).move
  | cons c =>
    rcases perform_of_reads (Eval.reads_items (p.machine.store.cdr c)) found with
      ⟨args, formed⟩ | kept
    · exact move_of_form formed
    · exact kept.move

theorem Balanced.move_of_resume {base : List ScopeId} {frame : Frame} {result : Except Fault Value}
    (balanced : Balanced base ⟨.done result, frame :: frames, m⟩)
    (found : resume frames frame result m = some q) :
    Move ⟨.done result, frame :: frames, m⟩ q := by
  cases frame with
  | region r =>
    obtain ⟨rest, stack, step⟩ := balanced.next_region
    cases step.symm.trans found
    exact .leave r result rfl rfl rfl rfl stack
  | argument use ready rest =>
    cases result with
    | error f => cases found; exact .change rfl .none
    | ok v => exact (keeps_supply found).move
  | callee args =>
    cases result with
    | error f => cases found; exact .change rfl .none
    | ok v => exact (keeps_applyTo found).move
  | statement rest =>
    cases result with
    | error f => cases found; exact .change rfl .none
    | ok v => exact (keeps_sequence found).move
  | branch yes no =>
    cases result with
    | error f => cases found; exact .change rfl .none
    | ok v => exact (keeps_choose found).move
  | assignment name =>
    cases result with
    | error f => cases found; exact .change rfl .none
    | ok v =>
      exact move_of_changes ((Eval.changes_assign name v).bind_reads fun _ => Eval.reads_pure v)
        frames rfl found
  | definition name =>
    cases result with
    | error f => cases found; exact .change rfl .none
    | ok v =>
      exact move_of_changes ((Eval.changes_define name v).bind_reads fun _ => Eval.reads_pure v)
        frames rfl found

/-- What one step does, as long as the stack is balanced. -/
theorem Balanced.move {base : List ScopeId} (balanced : Balanced base p)
    (step : p.next = some q) : Move p q := by
  rcases p with ⟨focus, frames, m⟩
  cases focus with
  | code v => exact move_of_evaluate step
  | supplied use values =>
    cases use with
    | list => exact move_of_changes (Eval.changes_list values) frames rfl step
    | builtin name => exact move_of_changes (Builtin.changes_call name values) frames rfl step
    | call head =>
      cases step
      exact .change rfl .none
  | call l args => exact move_of_openCall rfl step
  | body v => exact (keeps_runBody step).move
  | done result =>
    cases frames with
    | nil => cases step
    | cons frame frames => exact balanced.move_of_resume step

/-! Along a run. -/

theorem Balanced.next {base : List ScopeId} (balanced : Balanced base p) (move : Move p q) :
    Balanced base q := by
  have stack : p.machine.stack = p.regions.flatMap Region.scopes ++ base := balanced
  change q.machine.stack = q.regions.flatMap Region.scopes ++ base
  cases move with
  | change regions change => rw [change.stack, regions, stack]
  | enter r content opens regions fresh store entered =>
    rw [entered, regions, List.flatMap_cons, List.append_assoc, stack]
  | leave r result before after frames store left =>
    rw [left, regions_of_frames frames, List.flatMap_cons, List.append_assoc] at stack
    exact List.append_cancel_left stack

theorem Balanced.leads {base : List ScopeId} (balanced : Balanced base p) (leads : Leads p q) :
    Balanced base q := by
  induction leads with
  | refl => exact balanced
  | tail _ step ih => exact ih.next (ih.move step)

end Process

end CellLisp
