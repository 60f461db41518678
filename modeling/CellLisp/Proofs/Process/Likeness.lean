import CellLisp.Proofs.Outcome
import CellLisp.Proofs.Plain
import Mathlib.Data.Option.Basic

/-!
# Two processes in step

Two processes evaluate the same on machines that are alike in some way, and the regions of the one
are known by other scopes in the other. Whatever it is to be alike, if evaluation keeps it where it
makes lambdas and binds names and where it enters and leaves blocks and calls, then processes at the
same point take the same step. Names are the exception: where one is looked up or assigned to, the
machines have to agree on it.
-/

namespace CellLisp

variable {m n : Machine} {p q : Process}

/-- The frame with another region, if it has one. -/
def Frame.mapRegion (f : Region → Region) : Frame → Frame
  | region r => region (f r)
  | frame => frame

/-- A way for two machines to be alike inside of regions that evaluation keeps. -/
structure Likeness where
  region : Region → Region
  alike : List Region → Machine → Machine → Prop
  cells {rs m n} : alike rs m n → n.store.cells = m.store.cells
  params {rs m n} : alike rs m n → ∀ l, (n.store.lambda l).params = (m.store.lambda l).params
  body {rs m n} : alike rs m n → ∀ l, (n.store.lambda l).body = (m.store.lambda l).body
  withCells {rs m n} : alike rs m n → ∀ cells, alike rs (m.withCells cells) (n.withCells cells)
  newLambda {rs m n} (names : List String) (body : Value) : alike rs m n → Outcome.Like (alike rs)
    (Evaluation.newLambda names body m) (Evaluation.newLambda names body n)
  define {rs m n} (name : String) (v : Value) : alike rs m n →
    Outcome.Like (alike rs) (Eval.define name v m) (Eval.define name v n)
  opened {rs m n} : alike rs m n →
    region (.block m.locals) = .block n.locals ∧ alike (.block m.locals :: rs) m.opened n.opened
  called {rs m n} (l : LambdaId) (args : List Value) : alike rs m n →
    region (m.region l) = n.region l ∧ alike (m.region l :: rs) (m.called l args) (n.called l args)
  leave {rs m n} (r : Region) (result : Except Fault Value) : alike (r :: rs) m n →
    Outcome.Like (alike rs) (r.leave result m) ((region r).leave result n)

namespace Process

/-- What is done now looks the name up or assigns to it. -/
inductive Seeks : Process → String → Prop
  | lookup {name : String} {frames : List Frame} {m : Machine} :
    Seeks ⟨.code (.string name), frames, m⟩ name
  | assign {name : String} {v : Value} {frames : List Frame} {m : Machine} :
    Seeks ⟨.done (.ok v), .assignment name :: frames, m⟩ name

theorem rel_imp {R S : Process → Process → Prop} {start other : Option Process}
    (both : Option.Rel R start other)
    (imp : ∀ p q, start = some p → other = some q → R p q → S p q) : Option.Rel S start other := by
  cases both with
  | none => exact .none
  | some related => exact .some (imp _ _ rfl rfl related)

theorem rel_swap {R : Process → Process → Prop} {start other : Option Process}
    (both : Option.Rel R start other) : Option.Rel (fun q p => R p q) other start := by
  cases both with
  | none => exact .none
  | some related => exact .some related

/-- Of two processes that stay related the one follows the other. -/
theorem Leads.lockstep {R : Process → Process → Prop} {p' : Process} (leads : Leads p p')
    (start : R p q) (step : ∀ {p q}, R p q → Option.Rel R p.next q.next) :
    ∃ q', Leads q q' ∧ R p' q' := by
  induction leads with
  | refl => exact ⟨q, .refl, start⟩
  | tail _ taken ih =>
    obtain ⟨q', leads, related⟩ := ih
    have both := step related
    rw [taken] at both
    generalize other : q'.next = next at both
    cases both with
    | some related => exact ⟨_, leads.tail other, related⟩

end Process

namespace Likeness

open Eval Process

variable {α : Type} (A : Likeness)

theorem simple {rs : List Region} {x : Eval α} (simple : x.Simple) (alike : A.alike rs m n) :
    Outcome.Like (A.alike rs) (x m) (x n) :=
  simple.like (A.cells alike) (A.params alike) (A.withCells alike)

/-- What waits, as it waits in the other process. -/
def frames (frames : List Frame) : List Frame := frames.map (Frame.mapRegion A.region)

/-- The processes are at the same point, on machines that are alike. -/
structure Matches (p q : Process) : Prop where
  focus : q.focus = p.focus
  frames : q.frames = A.frames p.frames
  machine : A.alike p.regions p.machine q.machine

/-- On machines that are alike, the next points match. -/
def Uniform (k : List Frame → Machine → Option Process) : Prop :=
  ∀ frames m n, A.alike (regionsOf frames) m n →
    Option.Rel A.Matches (k frames m) (k (A.frames frames) n)

/-- The machines agree on the name. -/
structure Agrees (rs : List Region) (m n : Machine) (name : String) : Prop where
  lookup : Outcome.Like (A.alike rs) (lookup name m) (lookup name n)
  assign : ∀ v, Outcome.Like (A.alike rs) (assign name v m) (assign name v n)

variable {A} {frames : List Frame}

theorem perform_of_value {x : Eval α} {k : α → Machine → Option Process} {a : α}
    (outcome : x m = .value a n) : perform frames x k m = k a n := by
  unfold perform
  rw [outcome]

theorem perform_of_fault {x : Eval α} {k : α → Machine → Option Process} {f : Fault}
    (outcome : x m = .fault f n) : perform frames x k m = some ⟨.done (.error f), frames, n⟩ := by
  unfold perform
  rw [outcome]

theorem rel_perform {x y : Eval α} {k : α → List Frame → Machine → Option Process}
    (outcomes : Outcome.Like (A.alike (regionsOf frames)) (x m) (y n))
    (rest : ∀ a, A.Uniform (k a)) :
    Option.Rel A.Matches (perform frames x (k · frames) m)
      (perform (A.frames frames) y (k · (A.frames frames)) n) := by
  unfold perform
  generalize x m = o at outcomes
  generalize y n = u at outcomes
  cases outcomes with
  | value a alike => exact rest a frames _ _ alike
  | fault f alike => exact .some ⟨rfl, rfl, alike⟩
  | unfinished => exact .none

theorem uniform_goOn (focus : Focus) : A.Uniform (goOn · focus) :=
  fun _ _ _ alike => .some ⟨rfl, rfl, alike⟩

/-- Something is done first that enters nothing, and the frame waits for it. -/
theorem uniform_goOn_cons {frame : Frame} (focus : Focus) (entered : frame.region? = none)
    (same : frame.mapRegion A.region = frame) :
    A.Uniform fun frames => goOn (frame :: frames) focus := by
  intro frames m n alike
  refine .some ⟨rfl, ?_, ?_⟩
  · exact congrArg (· :: A.frames frames) same.symm
  · change A.alike (List.filterMap _ (frame :: frames)) m n
    rwa [List.filterMap_cons_none entered]

theorem uniform_perform {x : Eval α} {k : α → List Frame → Machine → Option Process}
    (simple : x.Simple) (rest : ∀ a, A.Uniform (k a)) :
    A.Uniform fun frames => perform frames x (k · frames) :=
  fun _ _ _ alike => rel_perform (A.simple simple alike) rest

theorem uniform_conclude {x : Eval Value} (simple : x.Simple) :
    A.Uniform fun frames => perform frames x (yield frames) :=
  uniform_perform simple fun _ => uniform_goOn _

theorem uniform_fault {f : Fault} (ofProgram : f.OfProgram) :
    A.Uniform fun frames => perform frames (fail f) (yield frames) :=
  uniform_conclude (.fail ofProgram)

theorem uniform_reject (v : Value) (cause : String → Fault)
    (each : ∀ text, (cause text).OfProgram) :
    A.Uniform fun frames => perform frames (reject v cause) (yield frames) :=
  uniform_conclude (simple_reject v each)

theorem uniform_supply (use : Use) (ready rest : List Value) :
    A.Uniform (supply · use ready rest) := by
  cases rest with
  | nil => exact uniform_goOn _
  | cons v rest => exact uniform_goOn_cons _ rfl rfl

theorem uniform_sequence (vs : List Value) : A.Uniform (sequence · vs) := by
  rcases vs with _ | ⟨v, _ | ⟨w, vs⟩⟩
  · exact uniform_fault trivial
  · exact uniform_goOn _
  · exact uniform_goOn_cons _ rfl rfl

theorem uniform_choose (yes no v : Value) : A.Uniform (choose · yes no v) := by
  cases v with
  | boolean b => cases b <;> exact uniform_goOn _
  | number | string | nil | cons | lambda =>
    exact uniform_reject _ (fun text => .evaluation (.nonBooleanCondition text)) fun _ => trivial

theorem uniform_binding (form : String) {frame : String → Frame}
    (entered : ∀ name, (frame name).region? = none)
    (same : ∀ name, (frame name).mapRegion A.region = frame name) (target expr : Value) :
    A.Uniform (binding · form frame target expr) := by
  cases target with
  | string name => exact uniform_goOn_cons _ (entered name) (same name)
  | number | boolean | nil | cons | lambda =>
    exact uniform_reject _ (fun text => Evaluation.malformed form (.notName text)) fun _ => trivial

theorem uniform_makeLambda (params body : Value) : A.Uniform fun frames =>
    perform frames (Evaluation.makeLambda params body) (yield frames) := by
  intro frames m n alike
  have named := A.simple (Evaluation.simple_parameters params) alike
  rw [Evaluation.makeLambda_eq]
  exact rel_perform (like_bind named fun names _ _ alike => A.newLambda names body alike)
    fun _ => uniform_goOn _

theorem uniform_block (statements : List Value) : A.Uniform fun frames =>
    perform frames Region.openBlock fun r => sequence (.region r :: frames) statements := by
  intro frames m n alike
  obtain ⟨region, opened⟩ := A.opened alike
  change Option.Rel A.Matches (sequence (.region (.block m.locals) :: frames) statements m.opened)
    (sequence (.region (.block n.locals) :: A.frames frames) statements n.opened)
  rw [← region]
  exact uniform_sequence statements (.region (.block m.locals) :: frames) _ _ opened

theorem uniform_call (l : LambdaId) (args : List Value) : A.Uniform fun frames =>
    perform frames (Region.openCall l args) fun e => goOn (.region e.2 :: frames) (.body e.1) := by
  intro frames m n alike
  dsimp only
  by_cases arity : (m.store.lambda l).params.length = args.length
  · have first := Region.openCall_eq arity
    have second := Region.openCall_eq (by rwa [A.params alike l] :
      (n.store.lambda l).params.length = args.length)
    obtain ⟨region, called⟩ := A.called l args alike
    rw [A.body alike, ← region] at second
    rw [perform_of_value first, perform_of_value second]
    exact uniform_goOn _ (.region (m.region l) :: frames) _ _ called
  · have first := Region.openCall_eq_fault arity
    have second := Region.openCall_eq_fault (by rwa [A.params alike l] :
      (n.store.lambda l).params.length ≠ args.length)
    rw [A.params alike] at second
    rw [perform_of_fault first, perform_of_fault second]
    exact .some ⟨rfl, rfl, alike⟩

theorem uniform_keywordForm (keyword : String) (known : keyword ∈ Keyword.names)
    (args : List Value) : A.Uniform (keywordForm · keyword args) := by
  obtain ⟨k, found⟩ := Keyword.mem_names_iff.mp known
  unfold keywordForm
  rw [found]
  cases k with
  | quote =>
    rcases args with _ | ⟨x, _ | ⟨_, _⟩⟩
    · exact uniform_fault trivial
    · exact uniform_goOn _
    · exact uniform_fault trivial
  | block => exact uniform_block args
  | conditional =>
    rcases args with _ | ⟨condition, _ | ⟨yes, _ | ⟨no, _ | ⟨_, _⟩⟩⟩⟩
    · exact uniform_fault trivial
    · exact uniform_fault trivial
    · exact uniform_fault trivial
    · exact uniform_goOn_cons _ rfl rfl
    · exact uniform_fault trivial
  | list => exact uniform_supply _ _ args
  | lambda =>
    rcases args with _ | ⟨params, _ | ⟨body, _ | ⟨_, _⟩⟩⟩
    · exact uniform_fault trivial
    · exact uniform_fault trivial
    · exact uniform_makeLambda params body
    · exact uniform_fault trivial
  | assign =>
    rcases args with _ | ⟨target, _ | ⟨expr, _ | ⟨_, _⟩⟩⟩
    · exact uniform_fault trivial
    · exact uniform_fault trivial
    · exact uniform_binding _ (fun _ => rfl) (fun _ => rfl) target expr
    · exact uniform_fault trivial
  | define =>
    rcases args with _ | ⟨target, _ | ⟨expr, _ | ⟨_, _⟩⟩⟩
    · exact uniform_fault trivial
    · exact uniform_fault trivial
    · exact uniform_binding _ (fun _ => rfl) (fun _ => rfl) target expr
    · exact uniform_fault trivial
  | eval =>
    rcases args with _ | ⟨argument, _ | ⟨_, _⟩⟩
    · exact uniform_fault trivial
    · exact uniform_perform (simple_quotedCode argument) fun _ => uniform_goOn _
    · exact uniform_fault trivial

theorem uniform_form (head : Value) (args : List Value) : A.Uniform (form · head args) := by
  unfold form
  cases head.name? with
  | none => exact uniform_supply _ _ args
  | some name =>
    dsimp only
    split
    · next known => exact uniform_keywordForm name known args
    · split <;> exact uniform_supply _ _ args

theorem uniform_applyTo (args : List Value) (v : Value) : A.Uniform (applyTo · args v) := by
  cases v with
  | lambda l => exact uniform_goOn _
  | number | string | boolean | nil | cons =>
    exact uniform_reject _ (fun text => .evaluation (.notCallable text)) fun _ => trivial

theorem uniform_runBody (body : Value) : A.Uniform (runBody · body) := by
  intro frames m n alike
  change Option.Rel _ (runBody frames body m) (runBody _ body n)
  unfold runBody
  rw [Store.afterHead?_congr (A.cells alike)]
  cases m.store.afterHead? "block" body with
  | none => exact uniform_goOn _ frames m n alike
  | some statements =>
    exact uniform_perform (simple_items statements) uniform_sequence frames m n alike

theorem uniform_useValues (use : Use) (values : List Value) :
    A.Uniform (useValues · use values) := by
  cases use with
  | list => exact uniform_conclude (.list values)
  | call head => exact uniform_goOn_cons _ rfl rfl
  | builtin name =>
    by_cases known : name ∈ Builtin.names
    · exact uniform_conclude (Builtin.simple_call known values)
    · intro frames m n alike
      change Option.Rel A.Matches (perform frames (Builtin.call name values) _ m)
        (perform _ (Builtin.call name values) _ n)
      rw [Builtin.call_of_unknown known]
      exact .some ⟨rfl, rfl, alike⟩

/-! A name that is looked up or assigned to has to mean the same. -/

theorem rel_evaluate {v : Value} (alike : A.alike (regionsOf frames) m n)
    (agree : ∀ name, Seeks ⟨.code v, frames, m⟩ name → A.Agrees (regionsOf frames) m n name) :
    Option.Rel A.Matches (evaluate frames v m) (evaluate (A.frames frames) v n) := by
  cases v with
  | string name => exact rel_perform (agree name .lookup).lookup fun _ => uniform_goOn _
  | cons c =>
    have cells := A.cells alike
    change Option.Rel _ _ (perform _ (items (n.store.cdr c)) (form _ (n.store.car c)) n)
    rw [Store.cdr_congr cells, Store.car_congr cells]
    exact uniform_perform (simple_items _) (uniform_form _) frames m n alike
  | nil => exact uniform_fault (f := .evaluation .emptyApplication) trivial frames m n alike
  | number | boolean | lambda => exact uniform_goOn _ frames m n alike

theorem rel_resume {frame : Frame} {result : Except Fault Value}
    (alike : A.alike (regionsOf (frame :: frames)) m n)
    (agree : ∀ name, Seeks ⟨.done result, frame :: frames, m⟩ name →
      A.Agrees (regionsOf frames) m n name) :
    Option.Rel A.Matches (resume frames frame result m)
      (resume (A.frames frames) (frame.mapRegion A.region) result n) := by
  cases frame with
  | region r => exact rel_perform (A.leave r result alike) fun _ => uniform_goOn _
  | argument use ready rest =>
    cases result with
    | error f => exact uniform_goOn _ frames m n alike
    | ok v => exact uniform_supply _ _ rest frames m n alike
  | callee args =>
    cases result with
    | error f => exact uniform_goOn _ frames m n alike
    | ok v => exact uniform_applyTo args v frames m n alike
  | statement rest =>
    cases result with
    | error f => exact uniform_goOn _ frames m n alike
    | ok v => exact uniform_sequence rest frames m n alike
  | branch yes no =>
    cases result with
    | error f => exact uniform_goOn _ frames m n alike
    | ok v => exact uniform_choose yes no v frames m n alike
  | assignment name =>
    cases result with
    | error f => exact uniform_goOn _ frames m n alike
    | ok v =>
      have assigned := (agree name .assign).assign v
      exact rel_perform (like_bind assigned fun _ _ _ alike => .value v alike)
        fun _ => uniform_goOn _
  | definition name =>
    cases result with
    | error f => exact uniform_goOn _ frames m n alike
    | ok v =>
      have inside : A.alike (regionsOf frames) m n := alike
      exact rel_perform (like_bind (A.define name v inside) fun _ _ _ alike => .value v alike)
        fun _ => uniform_goOn _

theorem Matches.next (same : A.Matches p q)
    (agree : ∀ name, p.Seeks name → A.Agrees p.regions p.machine q.machine name) :
    Option.Rel A.Matches p.next q.next := by
  rcases p with ⟨now, frames, m⟩
  rcases q with ⟨nowThere, framesThere, n⟩
  obtain ⟨sameFocus, sameFrames, machines⟩ := same
  cases show nowThere = now from sameFocus
  cases show framesThere = A.frames frames from sameFrames
  cases now with
  | code v => exact rel_evaluate machines agree
  | supplied use values => exact uniform_useValues use values _ m n machines
  | call l args => exact uniform_call l args _ m n machines
  | body v => exact uniform_runBody v _ m n machines
  | done result =>
    cases frames with
    | nil => exact .none
    | cons frame frames =>
      refine rel_resume machines fun name seeks => ?_
      cases seeks with
      | assign => exact agree name .assign

end Likeness

end CellLisp
