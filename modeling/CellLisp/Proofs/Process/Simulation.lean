import CellLisp.Proofs.Process.Reach

/-!
# Evaluation and its process come to the same

Whatever frames wait around it: where evaluation ends with a value or a fault, the process leads to
that result with the frames as they were and the machine as evaluation leaves it. Where evaluation
is unfinished at some depth, the process takes at least that many steps. So a process that ends is
that of an evaluation that does.
-/

namespace CellLisp

open Evaluation

/-! A region is what `evalBlock` and `call` enter before they evaluate and leave afterwards. -/

theorem Evaluation.evalBlock_eq (rec : Value → Eval Value) (statements : List Value) :
    evalBlock rec statements =
      Region.openBlock >>= fun r => Eval.attempt (evalStatements rec statements) >>= r.leave := rfl

/-- The call of a lambda whose body is run by `run`. -/
def Evaluation.callBy (run : Value → Eval Value) (l : LambdaId) (args : List Value) :
    Eval Value := do
  let f ← Eval.read (·.lambda l)
  if f.params.length ≠ args.length then
    Eval.fail (arityFault ("lambda " ++ parameterText f.params) f.params.length args.length)
  else
    let locals ← Eval.update (·.newScope (Scope.ofArguments f.params args))
    Eval.push f.scope
    Eval.push locals
    let result ← Eval.attempt (run f.body)
    let used ← Eval.pop
    let owned ← Eval.pop
    let v ← Eval.ofExcept result
    adopt v used
    Eval.modify (·.setLambdaScope l owned)
    return v

theorem Evaluation.call_eq_callBy (rec : Value → Eval Value) :
    call rec = callBy (runBody rec) := rfl

theorem Evaluation.callBy_eq (run : Value → Eval Value) (l : LambdaId) (args : List Value) :
    callBy run l args =
      Region.openCall l args >>= fun e => Eval.attempt (run e.1) >>= e.2.leave := by
  funext m
  change (if _ then _ else _ : Eval Value) m = Eval.bind (if _ then _ else _) _ m
  split <;> rfl

theorem Evaluation.call_eq (rec : Value → Eval Value) (l : LambdaId) (args : List Value) :
    call rec l args =
      Region.openCall l args >>= fun e => Eval.attempt (runBody rec e.1) >>= e.2.leave :=
  callBy_eq (runBody rec) l args

theorem Evaluation.evalQuoted_eq (rec : Value → Eval Value) (argument : Value) :
    evalQuoted rec argument = Process.quotedCode argument >>= rec := by
  funext m
  change Eval.bind (quotation? argument) _ m = Eval.bind (Eval.bind (quotation? argument) _) rec m
  unfold Eval.bind
  cases quotation? argument m with
  | value code m => cases code <;> rfl
  | fault f m => rfl
  | unfinished => rfl

namespace Process

variable {frames : List Frame} {m : Machine} {depth : Nat}

/-! One level of evaluation follows, if what it evaluates inside does. -/

/-- The process of a value comes to the outcome that `rec` gives it. -/
def Follows (depth : Nat) (rec : Value → Eval Value) : Prop :=
  ∀ v frames m, Reaches depth (some ⟨.code v, frames, m⟩) frames (yield frames) (rec v m)

variable {rec : Value → Eval Value} (follows : Follows depth rec)

include follows

theorem evalEach_reaches (use : Use) (vs ready : List Value) :
    Reaches depth (supply frames use ready vs m) frames
      (fun ws => goOn frames (.supplied use (ready ++ ws))) (evalEach rec vs m) := by
  induction vs generalizing ready m with
  | nil =>
    have reached : Reaches depth (goOn frames (.supplied use (ready ++ [])) m) frames
        (fun ws => goOn frames (.supplied use (ready ++ ws))) (.value [] m) :=
      reaches_self (fun ws => goOn frames (.supplied use (ready ++ ws))) [] m
    rwa [List.append_nil] at reached
  | cons v vs ih =>
    have first := (follows v (.argument use ready vs :: frames) m).resumed fun _ => rfl
    refine first.bind fun w m' => (ih (ready ++ [w])).bind fun ws m'' => ?_
    rw [List.append_assoc]
    exact reaches_self (fun ws => goOn frames (.supplied use (ready ++ ws))) (w :: ws) m''

theorem evalStatements_reaches (vs : List Value) :
    Reaches depth (sequence frames vs m) frames (yield frames) (evalStatements rec vs m) := by
  induction vs generalizing m with
  | nil => exact reaches_perform (Eval.fail (.evaluation .emptyBlock)) (yield frames)
  | cons v vs ih =>
    cases vs with
    | nil => exact follows v frames m
    | cons w vs =>
      have first := (follows v (.statement (w :: vs) :: frames) m).resumed fun _ => rfl
      exact first.bind fun _ m' => ih

theorem runBody_reaches (body : Value) :
    Reaches depth (some ⟨.body body, frames, m⟩) frames (yield frames)
      (Evaluation.runBody rec body m) := by
  refine Reaches.of_next nofun ?_
  change Reaches depth (runBody frames body m) frames (yield frames) _
  unfold runBody Evaluation.runBody
  rw [Eval.read_bind]
  cases m.store.afterHead? "block" body with
  | none => exact follows body frames m
  | some statements =>
    exact (reaches_perform (Eval.items statements) (sequence frames)).bind fun vs m' =>
      evalStatements_reaches follows vs

theorem call_reaches (l : LambdaId) (args : List Value) :
    Reaches depth (some ⟨.call l args, frames, m⟩) frames (yield frames)
      (Evaluation.call rec l args m) := by
  rw [Evaluation.call_eq]
  have opened : Reaches depth (some ⟨.call l args, frames, m⟩) frames
      (fun e => goOn (.region e.2 :: frames) (.body e.1)) (Region.openCall l args m) :=
    Reaches.of_next nofun (reaches_perform (Region.openCall l args) _)
  exact opened.bind fun e m' => (runBody_reaches follows e.1).left

theorem callHead_reaches (head : Value) (args : List Value) :
    Reaches depth (some ⟨.code head, .callee args :: frames, m⟩) frames (yield frames)
      (callHead rec head args m) := by
  have headed := (follows head (.callee args :: frames) m).resumed fun _ => rfl
  apply headed.bind
  intro v m'
  cases v with
  | lambda l => exact call_reaches follows l args
  | number | string | boolean | nil | cons =>
    exact reaches_reject _ fun text => .evaluation (.notCallable text)

theorem evalBlock_reaches (statements : List Value) :
    Reaches depth (perform frames Region.openBlock
      (fun r => sequence (.region r :: frames) statements) m) frames (yield frames)
      (evalBlock rec statements m) := by
  rw [evalBlock_eq]
  exact (reaches_perform Region.openBlock _).bind fun r m' =>
    (evalStatements_reaches follows statements).left

theorem evalIf_reaches (condition yes no : Value) :
    Reaches depth (goOn (.branch yes no :: frames) (.code condition) m) frames (yield frames)
      (evalIf rec condition yes no m) := by
  have decided := (follows condition (.branch yes no :: frames) m).resumed fun _ => rfl
  apply decided.bind
  intro v m'
  cases v with
  | boolean b =>
    cases b with
    | true => exact follows yes frames m'
    | false => exact follows no frames m'
  | number | string | nil | cons | lambda =>
    exact reaches_reject _ fun text => .evaluation (.nonBooleanCondition text)

theorem evalBinding_reaches (form : String) (frame : String → Frame)
    (bind : String → Value → Eval Unit) (target expr : Value)
    (binds : ∀ name v, resume frames (frame name) (.ok v) =
      perform frames (do bind name v; return v) (yield frames))
    (passes : ∀ name f, resume frames (frame name) (.error f) = goOn frames (.done (.error f))) :
    Reaches depth (binding frames form frame target expr m) frames (yield frames)
      (evalBinding rec form bind target expr m) := by
  cases target with
  | string name =>
    have evaluated := (follows expr (frame name :: frames) m).resumed (passes name)
    apply evaluated.bind
    intro v m'
    rw [binds]
    exact reaches_perform _ _
  | number | boolean | nil | cons | lambda =>
    exact reaches_reject _ fun text => malformed form (.notName text)

theorem keywordForm_reaches (keyword : String) (args : List Value) :
    Reaches depth (keywordForm frames keyword args m) frames (yield frames)
      (Evaluation.keywordForm rec keyword args m) := by
  unfold keywordForm Evaluation.keywordForm
  cases Keyword.named? keyword with
  | none => exact reaches_perform _ _
  | some k =>
    cases k with
    | quote =>
      rcases args with _ | ⟨x, _ | ⟨_, _⟩⟩
      · exact reaches_perform _ _
      · exact reaches_self (yield frames) x m
      · exact reaches_perform _ _
    | block => exact evalBlock_reaches follows args
    | conditional =>
      rcases args with _ | ⟨condition, _ | ⟨yes, _ | ⟨no, _ | ⟨_, _⟩⟩⟩⟩
      · exact reaches_perform _ _
      · exact reaches_perform _ _
      · exact reaches_perform _ _
      · exact evalIf_reaches follows condition yes no
      · exact reaches_perform _ _
    | list =>
      exact (evalEach_reaches follows .list args []).bind fun values m' =>
        Reaches.of_next nofun (reaches_perform (Eval.update (·.list values)) (yield frames))
    | lambda =>
      rcases args with _ | ⟨params, _ | ⟨body, _ | ⟨_, _⟩⟩⟩ <;> exact reaches_perform _ _
    | assign =>
      rcases args with _ | ⟨target, _ | ⟨expr, _ | ⟨_, _⟩⟩⟩
      · exact reaches_perform _ _
      · exact reaches_perform _ _
      · exact evalBinding_reaches follows keyword .assignment Eval.assign target expr
          (fun _ _ => rfl) fun _ _ => rfl
      · exact reaches_perform _ _
    | define =>
      rcases args with _ | ⟨target, _ | ⟨expr, _ | ⟨_, _⟩⟩⟩
      · exact reaches_perform _ _
      · exact reaches_perform _ _
      · exact evalBinding_reaches follows keyword .definition Eval.define target expr
          (fun _ _ => rfl) fun _ _ => rfl
      · exact reaches_perform _ _
    | eval =>
      rcases args with _ | ⟨argument, _ | ⟨_, _⟩⟩
      · exact reaches_perform _ _
      · change Reaches _ _ _ _ (evalQuoted rec argument m)
        rw [evalQuoted_eq]
        exact (reaches_perform (quotedCode argument) _).bind fun code m' => follows code frames m'
      · exact reaches_perform _ _

theorem supplied_call_reaches (head : Value) (args : List Value) :
    Reaches depth (supply frames (.call head) [] args m) frames (yield frames)
      ((evalEach rec args >>= callHead rec head) m) :=
  (evalEach_reaches follows (.call head) args []).bind fun _ _ =>
    Reaches.of_next nofun (callHead_reaches follows head _)

theorem apply_reaches (head rest : Value) :
    Reaches depth (perform frames (Eval.items rest) (form frames head) m) frames (yield frames)
      (apply rec head rest m) := by
  apply (reaches_perform (Eval.items rest) (form frames head)).bind
  intro args m'
  unfold form
  cases head.name? with
  | none => exact supplied_call_reaches follows head args
  | some name =>
    dsimp only
    by_cases keyword : name ∈ Keyword.names
    · rw [if_pos keyword, if_pos keyword]
      exact keywordForm_reaches follows name args
    · rw [if_neg keyword, if_neg keyword]
      by_cases builtin : name ∈ Builtin.names
      · simp only [if_pos builtin]
        exact (evalEach_reaches follows (.builtin name) args []).bind fun values m'' =>
          Reaches.of_next nofun (reaches_perform (Builtin.call name values) (yield frames))
      · simp only [if_neg builtin]
        exact supplied_call_reaches follows head args

theorem step_follows : Follows (depth + 1) (step rec) := by
  intro v frames m
  refine Reaches.succ nofun ?_
  cases v with
  | number n => exact reaches_self (yield frames) _ m
  | boolean b => exact reaches_self (yield frames) _ m
  | lambda l => exact reaches_self (yield frames) _ m
  | string name => exact reaches_perform (Eval.lookup name) (yield frames)
  | nil => exact reaches_perform (Eval.fail (.evaluation .emptyApplication)) (yield frames)
  | cons c => exact apply_reaches follows (m.store.car c) (m.store.cdr c)

omit follows

/-- Evaluation to any depth is followed by its process. -/
theorem eval_follows (depth : Nat) : Follows depth (eval depth) := by
  induction depth with
  | zero => exact fun v frames m => .inr ⟨_, _, rfl, rfl⟩
  | succ depth ih => exact step_follows ih

theorem body_follows (depth : Nat) (body : Value) (m : Machine) :
    Reaches depth (some ⟨.body body, [], m⟩) [] (yield [])
      (Evaluation.runBody (eval depth) body m) :=
  runBody_reaches (eval_follows depth) body

theorem call_follows (depth : Nat) (l : LambdaId) (args : List Value) (m : Machine) :
    Reaches depth (some ⟨.call l args, [], m⟩) [] (yield [])
      (Evaluation.call (eval depth) l args m) :=
  call_reaches (eval_follows depth) l args

/-- What has the outcomes of a process comes to a result, to whatever depth that takes, exactly
where the process does. -/
theorem exists_eq_iff {x : Nat → Eval Value} {p : Process} {m n : Machine}
    {result : Except Fault Value}
    (follows : ∀ depth, Reaches depth (some p) [] (yield []) (x depth m)) :
    (∃ depth, x depth m = Eval.ofExcept result n) ↔ Leads p ⟨.done result, [], n⟩ := by
  constructor
  · rintro ⟨depth, ends⟩
    have reached := follows depth
    rw [ends] at reached
    exact reached.leads_ofExcept
  · intro leads
    obtain ⟨steps, found⟩ := leads.exists_after
    have reached := follows (steps + 1)
    refine ⟨steps + 1, ?_⟩
    cases outcome : x (steps + 1) m with
    | unfinished =>
      rw [outcome] at reached
      exact absurd reached (not_lasts_of_after found)
    | value w k =>
      rw [outcome] at reached
      cases reached.leads_value.unique leads rfl rfl
      rfl
    | fault f k =>
      rw [outcome] at reached
      cases reached.leads_fault.unique leads rfl rfl
      rfl

theorem exists_eval_eq_iff {v : Value} {m n : Machine} {result : Except Fault Value} :
    (∃ depth, eval depth v m = Eval.ofExcept result n) ↔
      Leads ⟨.code v, [], m⟩ ⟨.done result, [], n⟩ :=
  exists_eq_iff fun depth => eval_follows depth v [] m

theorem exists_body_eq_iff {body : Value} {m n : Machine} {result : Except Fault Value} :
    (∃ depth, Evaluation.runBody (eval depth) body m = Eval.ofExcept result n) ↔
      Leads ⟨.body body, [], m⟩ ⟨.done result, [], n⟩ :=
  exists_eq_iff fun depth => body_follows depth body m

/-- The depth decides whether evaluation comes to a result, but not to which. -/
theorem eval_result_unique {v : Value} {m n k : Machine} {other : Nat}
    {first second : Except Fault Value} (ends : eval depth v m = Eval.ofExcept first n)
    (again : eval other v m = Eval.ofExcept second k) : first = second ∧ n = k := by
  have one := exists_eval_eq_iff.mp ⟨depth, ends⟩
  have two := exists_eval_eq_iff.mp ⟨other, again⟩
  cases one.unique two rfl rfl
  exact ⟨rfl, rfl⟩

end Process

end CellLisp
