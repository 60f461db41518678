import CellLisp.Proofs.Change
import CellLisp.Proofs.Gap
import Mathlib.Data.List.Find

/-!
# Computations beside a gap

Each computation that evaluates nothing, on two machines whose stores are the same up to a gap: it
comes to the same outcome up to the gap. Faults are the very same, as values are shown without their
places. A walk along a chain needs a sound machine; everything else does not.
-/

namespace CellLisp

variable {g : Gap} {m n : Machine}

/-- But for a gap in the store, the machines are the same. -/
structure Machine.Beside (g : Gap) (m n : Machine) : Prop where
  store : m.store.Beside g n.store
  stack : n.stack = m.stack

/-- But for a gap, the outcomes are the same. What the one computation ends with becomes by `f` what
the other does. -/
inductive Outcome.Beside {α β : Type} (g : Gap) (f : α → β) : Outcome α → Outcome β → Prop
  | value (a : α) {m n : Machine} (beside : m.Beside g n) : Beside g f (.value a m) (.value (f a) n)
  | fault (e : Fault) {m n : Machine} (beside : m.Beside g n) : Beside g f (.fault e m) (.fault e n)
  | unfinished : Beside g f .unfinished .unfinished

namespace Eval

variable {α β γ δ : Type} {f : α → β}

theorem beside_bind {x : Eval α} {y : Eval β} {p : α → Eval γ} {q : β → Eval δ} {h : γ → δ}
    (first : (x m).Beside g f (y n))
    (second : ∀ a m' n', x m = .value a m' → m'.Beside g n' → (p a m').Beside g h (q (f a) n')) :
    ((x >>= p) m).Beside g h ((y >>= q) n) := by
  change (Eval.bind x p m).Beside g h (Eval.bind y q n)
  unfold Eval.bind
  generalize outcome : x m = o at first
  generalize y n = u at first
  cases first with
  | value a beside => exact second a _ _ outcome beside
  | fault e beside => exact .fault e beside
  | unfinished => exact .unfinished

variable (beside : m.Beside g n)

include beside

theorem beside_pure (f : α → β) (a : α) : (pure a m).Beside g f (pure (f a) n) := .value a beside

theorem beside_fail (f : α → β) (e : Fault) : (fail e m).Beside g f (fail e n) := .fault e beside

theorem beside_ofExcept (f : α → β) (result : Except Fault α) :
    (ofExcept result m).Beside g f (ofExcept (result.map f) n) := by
  cases result with
  | ok a => exact .value a beside
  | error e => exact .fault e beside

theorem beside_read {p : Store → α} {q : Store → β} (same : q n.store = f (p m.store)) :
    (read p m).Beside g f (read q n) := by
  change Outcome.Beside g f (.value (p m.store) m) (.value (q n.store) n)
  rw [same]
  exact .value _ beside

theorem beside_update {p : Store → α × Store} {q : Store → β × Store}
    (same : (q n.store).1 = f (p m.store).1 ∧ (p m.store).2.Beside g (q n.store).2) :
    (update p m).Beside g f (update q n) := by
  change Outcome.Beside g f (.value (p m.store).1 _) (.value (q n.store).1 _)
  rw [same.1]
  exact .value _ ⟨same.2, beside.stack⟩

theorem beside_modify {p q : Store → Store} (same : (p m.store).Beside g (q n.store)) :
    (modify p m).Beside g id (modify q n) := beside_update beside ⟨rfl, same⟩

theorem beside_push (i : ScopeId) : (push i m).Beside g id (push i n) :=
  .value () ⟨beside.store, congrArg (i :: ·) beside.stack⟩

theorem beside_pop : (pop m).Beside g id (pop n) := by
  unfold pop
  rw [beside.stack]
  cases m.stack with
  | nil => exact .fault _ beside
  | cons i rest => exact .value i ⟨beside.store, rfl⟩

theorem beside_reject (v : Value) (cause : String → Fault) (f : α → β) :
    (Process.reject v cause m).Beside g f (Process.reject (g.value v) cause n) := by
  refine beside_bind (f := id) (beside_read beside (beside.store.shown v)) ?_
  exact fun text _ _ _ beside => beside_fail beside f (cause text)

theorem beside_newScope {content other : Scope}
    (same : ∀ name, other.get? name = (content.get? name).map g.value) :
    (update (·.newScope content) m).Beside g id (update (·.newScope other) n) :=
  beside_update beside (beside.store.newScope same)

theorem beside_list (vs : List Value) :
    (update (·.list vs) m).Beside g g.value (update (·.list (vs.map g.value)) n) :=
  beside_update beside (beside.store.list vs)

/-! Names. -/

omit beside in
theorem binds_eq (beside : m.Beside g n) (i : ScopeId) (name : String) :
    (n.store.scope i).binds name = (m.store.scope i).binds name := by
  unfold Scope.binds
  rw [beside.store.bindings, Option.isSome_map]

theorem binder?_eq (name : String) : n.binder? name = m.binder? name := by
  unfold Machine.binder?
  rw [beside.stack]
  exact List.find?_congr fun i _ => binds_eq beside i name

theorem beside_lookup (name : String) : (lookup name m).Beside g g.value (lookup name n) := by
  have same : n.lookup? name = (m.lookup? name).map g.value := by
    unfold Machine.lookup?
    rw [binder?_eq beside]
    cases m.binder? name with
    | none => rfl
    | some i => exact beside.store.bindings i name
  unfold lookup
  rw [same]
  cases m.lookup? name with
  | none => exact .fault _ beside
  | some v => exact .value v beside

theorem beside_assign (name : String) (v : Value) :
    (assign name v m).Beside g id (assign name (g.value v) n) := by
  unfold assign Machine.assign?
  rw [binder?_eq beside]
  cases m.binder? name with
  | none => exact .fault _ beside
  | some i => exact .value () ⟨beside.store.bind i name v, beside.stack⟩

theorem beside_define (name : String) (v : Value) :
    (define name v m).Beside g id (define name (g.value v) n) := by
  unfold define Machine.define?
  rw [beside.stack]
  cases m.stack.head? with
  | none => exact .fault _ beside
  | some i => exact .value () ⟨beside.store.bind i name v, rfl⟩

/-! Chains. -/

theorem beside_chain (sound : m.Sound) {v : Value} (known : v.KnownTo m.store) :
    (read (·.chain v) m).Beside g g.chain (read (·.chain (g.value v)) n) :=
  beside_read beside (beside.store.chain sound.store known)

theorem beside_items (sound : m.Sound) {v : Value} (known : v.KnownTo m.store) :
    (items v m).Beside g (List.map g.value) (items (g.value v) n) := by
  refine beside_bind (beside_chain beside sound known) fun chain m' n' _ beside => ?_
  cases chain with
  | proper vs => exact .value vs beside
  | improper => exact .fault _ beside
  | endless => exact .unfinished

end Eval

/-! Builtins. -/

namespace Builtin

open Eval

variable {name : String} {op : Number → Number → Option Number}

theorem asNumber_value (v : Value) : asNumber name (g.value v) = asNumber name v := by
  cases v <;> rfl

theorem asInteger_value (v : Value) : asInteger name (g.value v) = asInteger name v := by
  cases v <;> rfl

theorem order?_value (x y : Value) : order? name (g.value x) (g.value y) = order? name x y := by
  cases x <;> cases y <;> rfl

theorem map_checked (n : Option Number) : (checked name n).map g.value = checked name n := by
  cases n <;> rfl

theorem map_bind {α β γ : Type} (x : Except Fault α) (p : α → Except Fault β) (f : β → γ) :
    (x >>= p).map f = x >>= fun a => (p a).map f := by cases x <;> rfl

theorem fold_value (total : Number) (vs : List Value) :
    fold name op total (vs.map g.value) = (fold name op total vs).map g.value := by
  induction vs generalizing total with
  | nil => rfl
  | cons v vs ih =>
    rw [List.map_cons, fold, fold, asNumber_value, map_bind]
    refine bind_congr fun n => ?_
    cases op total n with
    | some next => exact ih next
    | none => rfl

theorem onNumbers_value (x y : Value) :
    onNumbers name op (g.value x) (g.value y) = (onNumbers name op x y).map g.value := by
  simp only [onNumbers, asNumber_value, map_bind, map_checked]

theorem onDivisor_value (x y : Value) :
    onDivisor name op (g.value x) (g.value y) = (onDivisor name op x y).map g.value := by
  simp only [onDivisor, asNumber_value, map_bind]
  refine bind_congr fun a => bind_congr fun b => ?_
  split
  · rfl
  · rw [map_checked]

theorem magnitude_value (x : Value) :
    magnitude name (g.value x) = (magnitude name x).map g.value := by
  simp only [magnitude, asNumber_value, map_bind, map_checked]

theorem comparison_value (accepts : Ordering → Bool) (x y : Value) :
    comparison name accepts (g.value x) (g.value y) =
      (comparison name accepts x y).map g.value := by
  simp only [comparison, order?_value, map_bind]
  rfl

theorem onIntegers_value (op : Int64 → Int64 → Int64) (x y : Value) :
    onIntegers name op (g.value x) (g.value y) = (onIntegers name op x y).map g.value := by
  simp only [onIntegers, asInteger_value, map_bind]
  rfl

theorem allEqual_value (vs : List Value) : allEqual (vs.map g.value) = allEqual vs := by
  cases vs with
  | nil => rfl
  | cons v vs => simp [allEqual, List.all_map, Function.comp_def]

variable (beside : m.Beside g n)

include beside

theorem beside_one {rule : Value → Eval Value} {args : List Value}
    (each : ∀ x ∈ args, (rule x m).Beside g g.value (rule (g.value x) n)) :
    (one name rule args m).Beside g g.value (one name rule (args.map g.value) n) := by
  cases args with
  | nil => exact .fault _ beside
  | cons x _ => exact each x List.mem_cons_self

theorem beside_two {rule : Value → Value → Eval Value}
    (each : ∀ x y, (rule x y m).Beside g g.value (rule (g.value x) (g.value y) n))
    (args : List Value) : (two name rule args m).Beside g g.value
      (two name rule (args.map g.value) n) := by
  rcases args with _ | ⟨x, _ | ⟨y, _⟩⟩
  · exact .fault _ beside
  · exact .fault _ beside
  · exact each x y

theorem beside_pureTwo {rule : Value → Value → Except Fault Value}
    (same : ∀ x y, rule (g.value x) (g.value y) = (rule x y).map g.value) (args : List Value) :
    (pureTwo name rule args m).Beside g g.value (pureTwo name rule (args.map g.value) n) := by
  refine beside_two beside (fun x y => ?_) args
  rw [same]
  exact beside_ofExcept beside g.value _

theorem beside_onCell {k l : CellId → Eval Value} (v : Value)
    (each : ∀ c, (k c m).Beside g g.value (l (g.cell c) n)) :
    ((ofExcept (asCell name v) >>= k) m).Beside g g.value
      ((ofExcept (asCell name (g.value v)) >>= l) n) := by
  cases v with
  | cons c => exact each c
  | number | string | boolean | nil | lambda => exact .fault _ beside

theorem beside_asItems (sound : m.Sound) {v : Value} (known : v.KnownTo m.store) :
    (asItems name v m).Beside g (List.map g.value) (asItems name (g.value v) n) := by
  cases v with
  | nil | cons => exact beside_items beside sound known
  | number | string | boolean | lambda => exact .fault _ beside

theorem beside_joined (sound : m.Sound) {vs : List Value} (known : ∀ v ∈ vs, v.KnownTo m.store) :
    (joined name vs m).Beside g (List.map g.value) (joined name (vs.map g.value) n) := by
  induction vs generalizing n with
  | nil => exact .value [] beside
  | cons v vs ih =>
    obtain ⟨first, rest⟩ := List.forall_mem_cons.mp known
    refine beside_bind (beside_asItems beside sound first) fun items k n' read beside' => ?_
    have same : k = m := reads_asItems name v m k (by rw [read]; rfl)
    rw [same] at beside' ⊢
    refine beside_bind (ih beside' rest) fun others _ _ _ beside => ?_
    rw [← List.map_append]
    exact beside_pure beside _ _

theorem beside_rule (b : Builtin) (sound : m.Sound) {args : List Value}
    (known : ∀ v ∈ args, v.KnownTo m.store) :
    (b.rule args m).Beside g g.value (b.rule (args.map g.value) n) := by
  cases b with
  | add | mul =>
    simp only [rule, fold_value]
    exact beside_ofExcept beside g.value _
  | sub | pow => exact beside_pureTwo beside onNumbers_value args
  | div | floorDiv | floorMod => exact beside_pureTwo beside onDivisor_value args
  | less | greater | lessOrEqual | greaterOrEqual =>
    exact beside_pureTwo beside (comparison_value _) args
  | bitXor | bitAnd | bitOr => exact beside_pureTwo beside (onIntegers_value _) args
  | abs =>
    refine beside_one beside fun x _ => ?_
    rw [magnitude_value]
    exact beside_ofExcept beside g.value _
  | equal =>
    simp only [rule, allEqual_value]
    exact .value _ beside
  | and =>
    simp only [rule, List.all_map, Function.comp_def, Gap.truth_value]
    exact .value _ beside
  | or =>
    simp only [rule, List.any_map, Function.comp_def, Gap.truth_value]
    exact .value _ beside
  | notEqual =>
    refine beside_two beside (fun x y => ?_) args
    rw [Gap.equal_value]
    exact .value _ beside
  | not =>
    refine beside_one beside fun x _ => ?_
    rw [Gap.truth_value]
    exact .value _ beside
  | cons => exact beside_two beside (fun x y => beside_update beside (beside.store.cons x y)) args
  | car =>
    refine beside_one beside fun x _ => beside_onCell beside x fun c => ?_
    exact beside_read beside (beside.store.car c)
  | cdr =>
    refine beside_one beside fun x _ => beside_onCell beside x fun c => ?_
    exact beside_read beside (beside.store.cdr c)
  | setCar =>
    refine beside_two beside (fun x y => beside_onCell beside x fun c => ?_) args
    exact beside_bind (beside_modify beside (beside.store.setCar c y)) fun _ _ _ _ beside =>
      .value x beside
  | setCdr =>
    refine beside_two beside (fun x y => beside_onCell beside x fun c => ?_) args
    exact beside_bind (beside_modify beside (beside.store.setCdr c y)) fun _ _ _ _ beside =>
      .value x beside
  | concat =>
    exact beside_bind (beside_joined beside sound known) fun items _ _ _ beside =>
      beside_list beside items
  | length =>
    refine beside_one beside fun x mem => ?_
    refine beside_bind (beside_asItems beside sound (known x mem)) fun items _ _ _ beside => ?_
    have ends := beside_ofExcept beside g.value (checked length.name
      ((Checked.ofInt? items.length).map .int))
    rw [map_checked] at ends
    rwa [List.length_map]
  | list => exact beside_list beside args

theorem beside_call (name : String) (sound : m.Sound) {args : List Value}
    (known : ∀ v ∈ args, v.KnownTo m.store) :
    (call name args m).Beside g g.value (call name (args.map g.value) n) := by
  unfold call
  cases named? name with
  | none => exact .fault _ beside
  | some b =>
    simp only [List.length_map]
    split
    · exact beside_rule beside b sound known
    · exact .fault _ beside

end Builtin

/-! Lambdas and quoted code. -/

namespace Evaluation

open Eval

variable (beside : m.Beside g n)

include beside

theorem beside_parameterNames (vs : List Value) :
    (parameterNames vs m).Beside g id (parameterNames (vs.map g.value) n) := by
  induction vs with
  | nil => exact .value [] beside
  | cons v vs ih =>
    cases v with
    | string s => exact beside_bind ih fun _ _ _ _ beside => .value _ beside
    | number | boolean | nil | cons | lambda => exact beside_reject beside _ _ id

theorem beside_parameters (sound : m.Sound) {v : Value} (known : v.KnownTo m.store) :
    (parameters v m).Beside g id (parameters (g.value v) n) := by
  refine beside_bind (beside_chain beside sound known) fun chain m' n' _ beside => ?_
  cases chain with
  | proper vs => exact beside_parameterNames beside vs
  | improper => exact beside_reject beside v _ id
  | endless => exact .unfinished

theorem beside_makeLambda (sound : m.Sound) {params : Value} (known : params.KnownTo m.store)
    (body : Value) :
    (makeLambda params body m).Beside g g.value (makeLambda (g.value params) (g.value body) n) := by
  refine beside_bind (beside_parameters beside sound known) fun names _ _ _ beside => ?_
  refine beside_bind (beside_newScope beside fun _ => rfl) fun scope _ _ _ beside => ?_
  have made := beside.store.newLambda ⟨names, body, scope⟩
  refine beside_bind (f := id) (beside_update beside made) fun l _ _ _ beside => ?_
  exact .value (Value.lambda l) beside

theorem beside_quotation? (sound : m.Sound) (v : Value) :
    (quotation? v m).Beside g (Option.map g.value) (quotation? (g.value v) n) := by
  refine beside_bind (beside_read beside (beside.store.afterHead? "quote" v)) ?_
  intro after m' n' found beside
  cases found
  dsimp only
  cases after : m.store.afterHead? "quote" v with
  | none => exact .value none beside
  | some rest =>
    have known := sound.store.afterHead? after
    refine beside_bind (beside_chain beside sound known) fun chain _ _ _ beside => ?_
    cases chain with
    | improper => exact .value none beside
    | endless => exact .unfinished
    | proper vs =>
      rcases vs with _ | ⟨x, _ | ⟨_, _⟩⟩
      · exact .value none beside
      · exact .value (some x) beside
      · exact .value none beside

theorem beside_adopt (v : Value) (i : ScopeId) :
    (adopt v i m).Beside g id (adopt (g.value v) i n) := by
  cases v with
  | lambda l => exact beside_modify beside (beside.store.setLambdaScope l i)
  | number | string | boolean | nil | cons => exact .value () beside

end Evaluation

theorem Process.beside_quotedCode (beside : m.Beside g n) (sound : m.Sound) (v : Value) :
    (quotedCode v m).Beside g g.value (quotedCode (g.value v) n) := by
  refine Eval.beside_bind (Evaluation.beside_quotation? beside sound v) fun code _ _ _ beside => ?_
  cases code with
  | some code => exact .value code beside
  | none => exact Eval.beside_reject beside v _ g.value

/-! Blocks and calls. -/

theorem Scope.get?_ofArguments_map (params : List String) (args : List Value) (name : String) :
    (ofArguments params (args.map g.value)).get? name =
      ((ofArguments params args).get? name).map g.value := by
  suffices general : ∀ (pairs : List (String × Value)) (s t : Scope),
      (∀ name, t.get? name = (s.get? name).map g.value) →
        ((pairs.map fun b => (b.1, g.value b.2)).foldl (fun s b => s.insert b.1 b.2) t).get? name =
          ((pairs.foldl (fun s b => s.insert b.1 b.2) s).get? name).map g.value by
    have zipped := general (params.zip args) .empty .empty fun _ => rfl
    rwa [show (params.zip args).map (fun b => (b.1, g.value b.2)) =
      params.zip (args.map g.value) from (List.zip_map_right ..).symm] at zipped
  intro pairs
  induction pairs with
  | nil => exact fun s t same => same name
  | cons b pairs ih =>
    intro s t same
    refine ih _ _ fun other => ?_
    rw [get?_insert, get?_insert, same]
    split <;> rfl

namespace Region

open Eval Evaluation

variable (beside : m.Beside g n)

include beside

theorem beside_openBlock : (openBlock m).Beside g id (openBlock n) := by
  refine beside_bind (beside_newScope beside fun _ => rfl) fun inner _ _ _ beside => ?_
  exact beside_bind (beside_push beside inner) fun _ _ _ _ beside => .value _ beside

theorem beside_openCall (l : LambdaId) (args : List Value) : (openCall l args m).Beside g
    (fun e => (g.value e.1, e.2)) (openCall l (args.map g.value) n) := by
  refine beside_bind (beside_read beside (beside.store.lambda l)) fun f _ _ _ beside => ?_
  have arity : (g.lambda f).params.length ≠ (args.map g.value).length ↔
      f.params.length ≠ args.length := by simp [Gap.lambda]
  by_cases different : f.params.length ≠ args.length
  · rw [if_pos different, if_pos (arity.mpr different)]
    rw [List.length_map]
    exact .fault _ beside
  · rw [if_neg different, if_neg (mt arity.mp different)]
    refine beside_bind (beside_newScope beside (Scope.get?_ofArguments_map f.params args))
      fun locals _ _ _ beside => ?_
    refine beside_bind (beside_push beside f.scope) fun _ _ _ _ beside => ?_
    refine beside_bind (beside_push beside locals) fun _ _ _ _ beside => ?_
    exact .value (f.body, call l locals f.scope) beside

theorem beside_leave (r : Region) (result : Except Fault Value) :
    (r.leave result m).Beside g g.value (r.leave (result.map g.value) n) := by
  cases r with
  | block inner =>
    exact beside_bind (beside_pop beside) fun _ _ _ _ beside =>
      beside_ofExcept beside g.value result
  | call callee locals owned =>
    refine beside_bind (beside_pop beside) fun used _ _ _ beside => ?_
    refine beside_bind (beside_pop beside) fun own _ _ _ beside => ?_
    refine beside_bind (beside_ofExcept beside g.value result) fun v _ _ _ beside => ?_
    refine beside_bind (beside_adopt beside v used) fun _ _ _ _ beside => ?_
    refine beside_bind (beside_modify beside (beside.store.setLambdaScope callee own))
      fun _ _ _ _ beside => ?_
    exact .value v beside

end Region

end CellLisp
