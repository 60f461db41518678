import CellLisp.Proofs.Process
import CellLisp.Proofs.Store

/-!
# Computations on cells

Most computations that evaluate nothing only read values and make or change cells, the builtins
among them. They show the parameters of a lambda and know nothing else of lambdas, of scopes or of
the stack. So on machines that have the same cells they come to the same, with the same cells again
and with the rest of each machine as it was. Their faults are those of a program that runs: if a
builtin is given as many arguments as it admits, it has each argument that it looks at.
-/

namespace CellLisp

namespace Fault

/-- The fault is one of a text: of its characters, or of how its tokens stand together. -/
def Textual : Fault → Prop
  | lexical _ | syntactic _ => True
  | evaluation _ | builtin _ | internal _ => False

/-- The fault is one of the evaluator itself. -/
def Internal : Fault → Prop
  | internal _ => True
  | lexical _ | syntactic _ | evaluation _ | builtin _ => False

/-- The fault is one of a program that runs: of a form, or of a builtin. -/
def OfProgram : Fault → Prop
  | evaluation _ | builtin _ => True
  | lexical _ | syntactic _ | internal _ => False

variable {f : Fault}

theorem OfProgram.not_textual (ofProgram : f.OfProgram) : ¬f.Textual := by
  cases f with
  | evaluation | builtin => exact id
  | lexical | syntactic | internal => exact ofProgram.elim

theorem OfProgram.not_internal (ofProgram : f.OfProgram) : ¬f.Internal := by
  cases f with
  | evaluation | builtin => exact id
  | lexical | syntactic | internal => exact ofProgram.elim

end Fault

variable {α β : Type}

/-- If this is a fault, then it is one of a program that runs. -/
def Ordinary (result : Except Fault α) : Prop := ∀ f, result = .error f → f.OfProgram

theorem ordinary_ok (a : α) : Ordinary (.ok a : Except Fault α) := nofun

theorem ordinary_error {f : Fault} (ofProgram : f.OfProgram) :
    Ordinary (.error f : Except Fault α) := by
  intro g same
  cases same
  exact ofProgram

theorem Ordinary.bind {x : Except Fault α} {f : α → Except Fault β} (first : Ordinary x)
    (second : ∀ a, Ordinary (f a)) : Ordinary (x >>= f) := by
  cases x with
  | ok a => exact second a
  | error e =>
    intro g same
    cases same
    exact first e rfl

namespace Store

variable {s t : Store}

/-! What is read off the cells and the lambdas alone. -/

theorem car_congr (cells : t.cells = s.cells) (c : CellId) : t.car c = s.car c := by
  unfold car cell
  rw [cells]

theorem cdr_congr (cells : t.cells = s.cells) (c : CellId) : t.cdr c = s.cdr c := by
  unfold cdr cell
  rw [cells]

theorem chainWithin_congr (cells : t.cells = s.cells) (limit : Nat) (v : Value) :
    t.chainWithin limit v = s.chainWithin limit v := by
  induction limit generalizing v with
  | zero => cases v <;> rfl
  | succ limit ih =>
    cases v with
    | cons c => rw [chainWithin, chainWithin, car_congr cells, cdr_congr cells, ih]
    | number | string | boolean | nil | lambda => rfl

theorem chain_congr (cells : t.cells = s.cells) (v : Value) : t.chain v = s.chain v := by
  unfold chain
  rw [cells, chainWithin_congr cells]

theorem afterHead?_congr (cells : t.cells = s.cells) (name : String) (v : Value) :
    t.afterHead? name v = s.afterHead? name v := by
  cases v with
  | cons c => rw [afterHead?, afterHead?, car_congr cells, cdr_congr cells]
  | number | string | boolean | nil | lambda => rfl

theorem sketchWithin_congr (cells : t.cells = s.cells)
    (params : ∀ l, (t.lambda l).params = (s.lambda l).params) (opened : List CellId) (v : Value) :
    t.sketchWithin opened v = s.sketchWithin opened v := by
  fun_induction s.sketchWithin opened v with
  | case1 | case2 | case3 | case4 => simp [sketchWithin]
  | case5 opened l => simp [sketchWithin, params]
  | case6 opened c fresh inside head tail =>
    rw [sketchWithin, dif_pos fresh, dif_pos (by rwa [cells]), car_congr cells, cdr_congr cells,
      head, tail]
  | case7 opened c fresh outside =>
    rw [sketchWithin, dif_pos fresh, dif_neg (by rwa [cells])]
  | case8 opened c again => rw [sketchWithin, dif_neg again]

theorem shown_congr (cells : t.cells = s.cells)
    (params : ∀ l, (t.lambda l).params = (s.lambda l).params) (v : Value) :
    t.shown v = s.shown v := congrArg Sketch.text (sketchWithin_congr cells params [] v)

/-- A list is made of cells alone. -/
theorem list_eq (vs : List Value) (s : Store) :
    (s.list vs).2 = { s with cells := (s.list vs).2.cells } := by
  rw [← list_lambdas s vs, ← list_scopes s vs]

theorem list_congr (cells : t.cells = s.cells) (vs : List Value) :
    (t.list vs).1 = (s.list vs).1 ∧ (t.list vs).2.cells = (s.list vs).2.cells := by
  induction vs with
  | nil => exact ⟨rfl, cells⟩
  | cons v vs ih =>
    obtain ⟨tail, same⟩ := ih
    change (.cons ⟨(t.list vs).2.cells.size⟩ : Value) = .cons ⟨(s.list vs).2.cells.size⟩ ∧
      (t.list vs).2.cells.push ⟨v, (t.list vs).1⟩ = (s.list vs).2.cells.push ⟨v, (s.list vs).1⟩
    simp [tail, same]

end Store

/-- The machine with these cells for its own. -/
def Machine.withCells (m : Machine) (cells : Array Cell) : Machine :=
  ⟨{ m.store with cells := cells }, m.stack⟩

/-- The outcomes are the same, and they leave the two machines as they were but for the cells, which
are the same again. A fault is one of a program that runs. -/
inductive Outcome.OnCells (m n : Machine) : Outcome α → Outcome α → Prop
  | value (a : α) (cells : Array Cell) :
    OnCells m n (.value a (m.withCells cells)) (.value a (n.withCells cells))
  | fault {f : Fault} (ofProgram : f.OfProgram) (cells : Array Cell) :
    OnCells m n (.fault f (m.withCells cells)) (.fault f (n.withCells cells))
  | unfinished : OnCells m n .unfinished .unfinished

theorem Outcome.OnCells.of_withCells {m n : Machine} {cells : Array Cell} {o u : Outcome α}
    (later : OnCells (m.withCells cells) (n.withCells cells) o u) : OnCells m n o u := by
  cases later with
  | value a cells => exact .value a cells
  | fault ofProgram cells => exact .fault ofProgram cells
  | unfinished => exact .unfinished

/-- The outcomes are the same, and the machines that they leave are related. -/
inductive Outcome.Like {α : Type} (R : Machine → Machine → Prop) : Outcome α → Outcome α → Prop
  | value (a : α) {m n : Machine} (related : R m n) : Like R (.value a m) (.value a n)
  | fault (f : Fault) {m n : Machine} (related : R m n) : Like R (.fault f m) (.fault f n)
  | unfinished : Like R .unfinished .unfinished

namespace Eval

theorem like_bind {R : Machine → Machine → Prop} {x : Eval α} {f : α → Eval β} {m n : Machine}
    (first : (x m).Like R (x n)) (second : ∀ a m' n', R m' n' → (f a m').Like R (f a n')) :
    ((x >>= f) m).Like R ((x >>= f) n) := by
  change (Eval.bind x f m).Like R (Eval.bind x f n)
  unfold Eval.bind
  generalize x m = o at first
  generalize x n = u at first
  cases first with
  | value a related => exact second a _ _ related
  | fault e related => exact .fault e related
  | unfinished => exact .unfinished

/-- The computation reads values and makes or changes cells. -/
inductive Simple : {α : Type} → Eval α → Prop
  | pure {α : Type} (a : α) : Simple (pure a : Eval α)
  | fail {α : Type} {f : Fault} (ofProgram : f.OfProgram) : Simple (fail f : Eval α)
  | unfinished {α : Type} : Simple (unfinished : Eval α)
  | car (c : CellId) : Simple (read (·.car c))
  | cdr (c : CellId) : Simple (read (·.cdr c))
  | chain (v : Value) : Simple (read (·.chain v))
  | afterHead? (name : String) (v : Value) : Simple (read (·.afterHead? name v))
  | shown (v : Value) : Simple (shown v)
  | cons (a d : Value) : Simple (update (·.cons a d))
  | list (vs : List Value) : Simple (update (·.list vs))
  | setCar (c : CellId) (v : Value) : Simple (modify (·.setCar c v))
  | setCdr (c : CellId) (v : Value) : Simple (modify (·.setCdr c v))
  | bind {α β : Type} {x : Eval α} {f : α → Eval β} (first : Simple x)
    (second : ∀ a, Simple (f a)) : Simple (x >>= f)

section

variable {m n : Machine}

theorem onCells_bind {x : Eval α} {f : α → Eval β} (first : Outcome.OnCells m n (x m) (x n))
    (second : ∀ a cells, Outcome.OnCells (m.withCells cells) (n.withCells cells)
      (f a (m.withCells cells)) (f a (n.withCells cells))) :
    Outcome.OnCells m n ((x >>= f) m) ((x >>= f) n) := by
  change Outcome.OnCells m n (Eval.bind x f m) (Eval.bind x f n)
  unfold Eval.bind
  generalize x m = o at first
  generalize x n = u at first
  cases first with
  | unfinished => exact .unfinished
  | fault ofProgram cells => exact .fault ofProgram cells
  | value a cells => exact (second a cells).of_withCells

/-- A change of the store that makes or changes cells alone. -/
theorem onCells_update {f : Store → α × Store}
    (apart : ∀ s : Store, (f s).2 = { s with cells := (f s).2.cells })
    (same : (f n.store).1 = (f m.store).1 ∧ (f n.store).2.cells = (f m.store).2.cells) :
    Outcome.OnCells m n (update f m) (update f n) := by
  have changed := Outcome.OnCells.value (m := m) (n := n) (f m.store).1 (f m.store).2.cells
  change Outcome.OnCells m n (.value (f m.store).1 ⟨(f m.store).2, _⟩)
    (.value (f n.store).1 ⟨(f n.store).2, _⟩)
  rw [apart m.store, apart n.store, same.1, same.2]
  exact changed

variable (cells : n.store.cells = m.store.cells)

include cells

theorem onCells_pure (a : α) : Outcome.OnCells m n (pure a m) (pure a n) := by
  have unchanged := Outcome.OnCells.value (m := m) (n := n) a m.store.cells
  have same : n.withCells m.store.cells = n := by
    rw [← cells]
    rfl
  rwa [same] at unchanged

theorem onCells_fail {f : Fault} (ofProgram : f.OfProgram) :
    Outcome.OnCells (α := α) m n (fail f m) (fail f n) := by
  have unchanged := Outcome.OnCells.fault (α := α) (m := m) (n := n) ofProgram m.store.cells
  have same : n.withCells m.store.cells = n := by
    rw [← cells]
    rfl
  rwa [same] at unchanged

theorem onCells_read {f : Store → α} (same : f n.store = f m.store) :
    Outcome.OnCells m n (read f m) (read f n) := by
  have unchanged := onCells_pure cells (f m.store)
  unfold read
  rwa [same]

/-- Computations on cells read the cells and the parameters of lambdas, and change the cells. -/
theorem Simple.onCells {x : Eval α} (simple : x.Simple)
    (params : ∀ l, (n.store.lambda l).params = (m.store.lambda l).params) :
    Outcome.OnCells m n (x m) (x n) := by
  induction simple generalizing m n with
  | pure a => exact onCells_pure cells a
  | fail ofProgram => exact onCells_fail cells ofProgram
  | unfinished => exact .unfinished
  | car c => exact onCells_read cells (Store.car_congr cells c)
  | cdr c => exact onCells_read cells (Store.cdr_congr cells c)
  | chain v => exact onCells_read cells (Store.chain_congr cells v)
  | afterHead? name v => exact onCells_read cells (Store.afterHead?_congr cells name v)
  | shown v => exact onCells_read cells (Store.shown_congr cells params v)
  | bind first second ihFirst ihSecond =>
    exact onCells_bind (ihFirst cells params) fun a later => ihSecond a rfl params
  | cons a d => exact onCells_update (fun _ => rfl) (by simp [Store.cons, Store.newCell, cells])
  | list vs => exact onCells_update (Store.list_eq vs) (Store.list_congr cells vs)
  | setCar c v => exact onCells_update (fun _ => rfl) ⟨rfl, by simp [Store.setCar, cells]⟩
  | setCdr c v => exact onCells_update (fun _ => rfl) ⟨rfl, by simp [Store.setCdr, cells]⟩

/-- Such a computation keeps a relation that holds whatever the cells are. -/
theorem Simple.like {R : Machine → Machine → Prop} {x : Eval α} (simple : x.Simple)
    (params : ∀ l, (n.store.lambda l).params = (m.store.lambda l).params)
    (related : ∀ cells, R (m.withCells cells) (n.withCells cells)) : (x m).Like R (x n) := by
  have same := simple.onCells cells params
  generalize x m = o at same ⊢
  generalize x n = u at same ⊢
  cases same with
  | value a cells => exact .value a (related cells)
  | fault _ cells => exact .fault _ (related cells)
  | unfinished => exact .unfinished

end

theorem simple_ofExcept {result : Except Fault α} (ordinary : Ordinary result) :
    Simple (ofExcept result) := by
  cases result with
  | ok a => exact .pure a
  | error f => exact .fail (ordinary f rfl)

theorem simple_items (v : Value) : Simple (items v) := by
  apply (Simple.chain v).bind
  intro chain
  cases chain with
  | proper vs => exact .pure vs
  | improper => exact .fail trivial
  | endless => exact .unfinished

theorem simple_reject (v : Value) {cause : String → Fault} (each : ∀ text, (cause text).OfProgram) :
    Simple (Process.reject v cause : Eval α) :=
  (Simple.shown v).bind fun text => .fail (each text)

end Eval

namespace Builtin

open Eval

variable {name : String} {args : List Value}

theorem ordinary_mistyped {α : Type} (expected : Expectation) (got : Value) :
    Ordinary (.error (mistyped name expected got) : Except Fault α) := ordinary_error trivial

theorem ordinary_asNumber (v : Value) : Ordinary (asNumber name v) := by
  cases v with
  | number n => exact ordinary_ok n
  | string | boolean | nil | cons | lambda => exact ordinary_mistyped _ _

theorem ordinary_asInteger (v : Value) : Ordinary (asInteger name v) := by
  cases v with
  | number n =>
    cases n with
    | int a => exact ordinary_ok a
    | float => exact ordinary_mistyped _ _
  | string | boolean | nil | cons | lambda => exact ordinary_mistyped _ _

theorem ordinary_asCell (v : Value) : Ordinary (asCell name v) := by
  cases v with
  | cons c => exact ordinary_ok c
  | number | string | boolean | nil | lambda => exact ordinary_mistyped _ _

theorem ordinary_checked (n : Option Number) : Ordinary (checked name n) := by
  cases n with
  | some n => exact ordinary_ok _
  | none => exact ordinary_error trivial

theorem ordinary_fold (op : Number → Number → Option Number) (total : Number) (vs : List Value) :
    Ordinary (fold name op total vs) := by
  induction vs generalizing total with
  | nil => exact ordinary_ok _
  | cons v vs ih =>
    refine (ordinary_asNumber v).bind fun n => ?_
    cases op total n with
    | some next => exact ih next
    | none => exact ordinary_error trivial

theorem ordinary_onNumbers (op : Number → Number → Option Number) (x y : Value) :
    Ordinary (onNumbers name op x y) :=
  (ordinary_asNumber x).bind fun _ => (ordinary_asNumber y).bind fun _ => ordinary_checked _

theorem ordinary_onDivisor (op : Number → Number → Option Number) (x y : Value) :
    Ordinary (onDivisor name op x y) := by
  refine (ordinary_asNumber x).bind fun a => (ordinary_asNumber y).bind fun b => ?_
  split
  · exact ordinary_error trivial
  · exact ordinary_checked _

theorem ordinary_magnitude (x : Value) : Ordinary (magnitude name x) :=
  (ordinary_asNumber x).bind fun _ => ordinary_checked _

theorem ordinary_order? (x y : Value) : Ordinary (order? name x y) := by
  unfold order?
  split
  · exact ordinary_ok _
  · exact ordinary_ok _
  · exact ordinary_mistyped _ _
  · exact ordinary_mistyped _ _

theorem ordinary_comparison (accepts : Ordering → Bool) (x y : Value) :
    Ordinary (comparison name accepts x y) := (ordinary_order? x y).bind fun _ => ordinary_ok _

theorem ordinary_onIntegers (op : Int64 → Int64 → Int64) (x y : Value) :
    Ordinary (onIntegers name op x y) :=
  (ordinary_asInteger x).bind fun _ => (ordinary_asInteger y).bind fun _ => ordinary_ok _

theorem simple_asItems (v : Value) : (asItems name v).Simple := by
  cases v with
  | nil | cons => exact simple_items _
  | number | string | boolean | lambda => exact .fail trivial

theorem simple_joined (vs : List Value) : (joined name vs).Simple := by
  induction vs with
  | nil => exact .pure _
  | cons v vs ih => exact (simple_asItems v).bind fun _ => ih.bind fun _ => .pure _

theorem simple_one {rule : Value → Eval Value} (simple : ∀ x, (rule x).Simple)
    (enough : (Arity.exactly 1).admits args.length = true) : (one name rule args).Simple := by
  cases args with
  | nil => simp [Arity.admits] at enough
  | cons x _ => exact simple x

theorem simple_two {rule : Value → Value → Eval Value} (simple : ∀ x y, (rule x y).Simple)
    (enough : (Arity.exactly 2).admits args.length = true) : (two name rule args).Simple := by
  rcases args with _ | ⟨x, _ | ⟨y, _⟩⟩
  · simp [Arity.admits] at enough
  · simp [Arity.admits] at enough
  · exact simple x y

theorem simple_pureTwo {rule : Value → Value → Except Fault Value}
    (ordinary : ∀ x y, Ordinary (rule x y))
    (enough : (Arity.exactly 2).admits args.length = true) : (pureTwo name rule args).Simple :=
  simple_two (fun x y => simple_ofExcept (ordinary x y)) enough

theorem simple_onCell (v : Value) (f : CellId → Eval α) (simple : ∀ c, (f c).Simple) :
    (ofExcept (asCell name v) >>= f).Simple := (simple_ofExcept (ordinary_asCell v)).bind simple

/-- A builtin finds each argument that it looks at among as many as it admits. -/
theorem simple_rule (b : Builtin) (enough : b.arity.admits args.length = true) :
    (b.rule args).Simple := by
  cases b with
  | add | mul => exact simple_ofExcept (ordinary_fold _ _ args)
  | sub | pow => exact simple_pureTwo (ordinary_onNumbers _) enough
  | div | floorDiv | floorMod => exact simple_pureTwo (ordinary_onDivisor _) enough
  | less | greater | lessOrEqual | greaterOrEqual =>
    exact simple_pureTwo (ordinary_comparison _) enough
  | bitXor | bitAnd | bitOr => exact simple_pureTwo (ordinary_onIntegers _) enough
  | abs => exact simple_one (fun x => simple_ofExcept (ordinary_magnitude x)) enough
  | equal | and | or => exact .pure _
  | notEqual => exact simple_two (fun _ _ => .pure _) enough
  | not => exact simple_one (fun _ => .pure _) enough
  | cons => exact simple_two .cons enough
  | car => exact simple_one (fun x => simple_onCell x _ .car) enough
  | cdr => exact simple_one (fun x => simple_onCell x _ .cdr) enough
  | setCar =>
    refine simple_two (fun x y => simple_onCell x _ fun c => ?_) enough
    exact (Simple.setCar c y).bind fun _ => .pure x
  | setCdr =>
    refine simple_two (fun x y => simple_onCell x _ fun c => ?_) enough
    exact (Simple.setCdr c y).bind fun _ => .pure x
  | concat => exact (simple_joined args).bind .list
  | length =>
    refine simple_one (fun x => (simple_asItems x).bind fun _ => ?_) enough
    exact simple_ofExcept (ordinary_checked _)
  | list => exact .list args

theorem simple_call (known : name ∈ names) (args : List Value) : (call name args).Simple := by
  obtain ⟨b, found⟩ := mem_names_iff.mp known
  unfold call
  rw [found]
  dsimp only
  split
  · next enough => exact simple_rule b enough
  · exact .fail trivial

end Builtin

namespace Evaluation

open Eval

theorem simple_parameterNames (vs : List Value) : (parameterNames vs).Simple := by
  induction vs with
  | nil => exact .pure _
  | cons v vs ih =>
    cases v with
    | string s => exact ih.bind fun _ => .pure _
    | number | boolean | nil | cons | lambda => exact simple_reject _ fun _ => trivial

theorem simple_parameters (v : Value) : (parameters v).Simple := by
  apply (Simple.chain v).bind
  intro chain
  cases chain with
  | proper vs => exact simple_parameterNames vs
  | improper => exact simple_reject v fun _ => trivial
  | endless => exact .unfinished

/-- Makes a lambda of named parameters, with an empty scope. -/
def newLambda (names : List String) (body : Value) : Eval Value := do
  let scope ← update (·.newScope .empty)
  let l ← update (·.newLambda ⟨names, body, scope⟩)
  return .lambda l

theorem makeLambda_eq (params body : Value) :
    makeLambda params body = (do newLambda (← parameters params) body) := rfl

theorem simple_quotation? (v : Value) : (quotation? v).Simple := by
  apply (Simple.afterHead? "quote" v).bind
  intro after
  cases after with
  | none => exact .pure _
  | some rest =>
    apply (Simple.chain rest).bind
    intro chain
    cases chain with
    | improper => exact .pure _
    | endless => exact .unfinished
    | proper vs => rcases vs with _ | ⟨x, _ | ⟨_, _⟩⟩ <;> exact .pure _

end Evaluation

theorem Process.simple_quotedCode (v : Value) : (quotedCode v).Simple := by
  apply (Evaluation.simple_quotation? v).bind
  intro code
  cases code with
  | some code => exact .pure code
  | none => exact Eval.simple_reject v fun _ => trivial

end CellLisp
