import CellLisp.Proofs.Printing
import CellLisp.Proofs.Process.Gap

/-!
# Quoted code means what it says

A quoted form is read as data, which adds nothing to it, and `eval` evaluates it as it stands. So
`(eval (quote X))` is the evaluation of X in front of which four more cells were made: those of the
two forms around X, which nothing refers to any more. Written directly, X gets else branches where
they are missing; if it lacks none, this is the same evaluation up to the place of the four cells.
-/

namespace CellLisp

variable {α β : Type} {g : Gap} {f : α → β} {m n : Machine}

/-- To whatever depth it takes, each of two evaluations comes to an outcome that the other comes to
as well, but for a gap. -/
structure Agree (g : Gap) (f : α → β) (x : Nat → Outcome α) (y : Nat → Outcome β) : Prop where
  forth : ∀ depth, x depth ≠ .unfinished → ∃ other, (x depth).Beside g f (y other)
  back : ∀ other, y other ≠ .unfinished → ∃ depth, (x depth).Beside g f (y other)

theorem Outcome.Beside.exists_value {a : α} {o : Outcome β}
    (beside : Outcome.Beside g f (.value a m) o) : ∃ n, o = .value (f a) n := by
  cases beside with
  | value _ beside => exact ⟨_, rfl⟩

theorem Outcome.exists_ofExcept {o : Outcome α} (ended : o ≠ .unfinished) :
    ∃ result n, o = Eval.ofExcept result n := by
  cases o with
  | value a n => exact ⟨.ok a, n, rfl⟩
  | fault f n => exact ⟨.error f, n, rfl⟩
  | unfinished => exact absurd rfl ended

theorem eval_agree (beside : m.Beside g n) (sound : m.Sound) {v : Value}
    (known : v.KnownTo m.store) :
    Agree g g.value (fun depth => eval depth v m) fun depth => eval depth (g.value v) n := by
  have begun : Process.Beside g ⟨.code v, [], m⟩ ⟨.code (g.value v), [], n⟩ := ⟨rfl, rfl, beside⟩
  obtain ⟨forth, back⟩ := begun.leads ⟨⟨sound, List.forall_mem_nil _⟩, known⟩
  constructor
  · intro depth ended
    obtain ⟨result, k, outcome⟩ := Outcome.exists_ofExcept ended
    obtain ⟨⟨_, _, l⟩, leads, rfl, rfl, beside⟩ :=
      forth (Process.exists_eval_eq_iff.mp ⟨depth, outcome⟩)
    obtain ⟨other, same⟩ := Process.exists_eval_eq_iff.mpr leads
    exact ⟨other, by rw [outcome, same]; exact Eval.beside_ofExcept beside g.value result⟩
  · intro other ended
    obtain ⟨result, l, outcome⟩ := Outcome.exists_ofExcept ended
    obtain ⟨⟨focus, frames, k⟩, leads, same, none, beside⟩ :=
      back (Process.exists_eval_eq_iff.mp ⟨other, outcome⟩)
    cases List.map_eq_nil_iff.mp none.symm
    cases focus with
    | done before =>
      cases same
      obtain ⟨depth, same⟩ := Process.exists_eval_eq_iff.mpr leads
      exact ⟨depth, by rw [outcome, same]; exact Eval.beside_ofExcept beside g.value before⟩
    | code | supplied | call | body => cases same

/-! A gap where cells were made. -/

/-- The cells that one store has more than another. -/
def Store.gap (s t : Store) : Gap := ⟨s.cells.size, t.cells.size - s.cells.size⟩

theorem Gap.value_of_known {s t : Store} {v : Value} (known : v.KnownTo s) :
    (s.gap t).value v = v := by
  cases v with
  | cons c => exact congrArg Value.cons (cell_of_lt known)
  | number | string | boolean | nil | lambda => rfl

theorem Store.Extends.beside {s t : Store} (kept : s.Extends t) (sound : s.Sound)
    (lambdas : t.lambdas = s.lambdas) (scopes : t.scopes = s.scopes) : s.Beside (s.gap t) t where
  start := Nat.le_refl _
  size := (Nat.add_sub_cancel' kept.size).symm
  cell c := by
    by_cases inside : c.index < s.cells.size
    · have before : (s.gap t).cell c = c := Gap.cell_of_lt inside
      rw [before, kept.cell c inside, Gap.contents]
      rw [show (s.cell c).car = s.car c from rfl, show (s.cell c).cdr = s.cdr c from rfl,
        Gap.value_of_known (sound.car c), Gap.value_of_known (sound.cdr c)]
      rfl
    · have outside : s.cells.size ≤ c.index := Nat.le_of_not_lt inside
      have behind : (s.gap t).cell c = ⟨c.index + (t.cells.size - s.cells.size)⟩ :=
        Gap.cell_of_le outside
      have size := kept.size
      rw [behind, cell_of_le s outside, cell_of_le t (by simp only; omega)]
      rfl
  lambdas := congrArg Array.size lambdas
  lambda l := by
    rw [lambda_congr lambdas, Gap.lambda, Gap.value_of_known (sound.body l)]
  scopes := congrArg Array.size scopes
  bindings i name := by
    rw [scope_congr scopes]
    cases found : (s.scope i).get? name with
    | none => rfl
    | some v => rw [Option.map_some, Gap.value_of_known (sound.bound i name v found)]

/-! The text around a form. -/

/-- The text that quotes what another text says and evaluates it. -/
def quotedText (source : String) : String := "(eval (quote " ++ source ++ "))"

namespace Node

variable {ns inner root forms : List Node}

theorem expandGroup_group (expanded : expandGroup ns = .ok inner) :
    expandGroup [group ns] = .ok [group inner] := by
  have alone : unsugar [group ns] = .ok [group ns] := rfl
  rw [expandGroup, alone]
  change expandEach [group ns] = _
  rw [expandEach_group, expanded, expandEach]
  rfl

theorem expandGroup_name (s : String) : expandGroup [name s] = .ok [name s] :=
  expandEach_of_unmarked (List.forall_mem_singleton.mpr (avoids_name _ s))

/-- A name in front of a group is no sugar. -/
theorem expandGroup_cons (s : String) (expanded : expandGroup root = .ok forms)
    (unseparated : root.any isSeparator = false) :
    expandGroup (name s :: root) = .ok (name s :: forms) :=
  expandGroup_append (expandGroup_name s) expanded rfl unseparated

end Node

open Node in
theorem Source.Reads.quoted {text : List Char} {root forms : List Node}
    (reads : Reads text root forms) (noComment : '#' ∉ text) :
    Reads ("(eval (quote".toList ++ ' ' :: (text ++ [')', ')']))
      [group [name "eval", group (name "quote" :: root)]]
      [group [name "eval", group (name "quote" :: forms)]] := by
  obtain ⟨ts, lexed, matched⟩ := reads.matched
  obtain ⟨rfl, avoid⟩ := matchParens_eq_ok_iff.mp matched
  rw [Comment.tokens?_of_not_mem noComment] at lexed
  have quoted : (group (name "quote" :: root)).Avoids Mark.isParen :=
    .group (List.forall_mem_cons.mpr ⟨avoids_name _ _, avoid⟩)
  have whole : ∀ n ∈ [group [name "eval", group (name "quote" :: root)]], n.Avoids Mark.isParen :=
    List.forall_mem_singleton.mpr (.group (List.forall_mem_cons.mpr
      ⟨avoids_name _ _, List.forall_mem_singleton.mpr quoted⟩))
  refine ⟨⟨tokensOf _, Comment.tokens?_of_tokens? ?_, matchParens_eq_ok_iff.mpr ⟨rfl, whole⟩⟩, rfl,
    ?_⟩
  · have opening : Token.tokens? "(eval (quote".toList = some
        [.mark .leftParen, .name "eval", .mark .leftParen, .name "quote"] := rfl
    have closing : Token.tokens? [')', ')'] = some [.mark .rightParen, .mark .rightParen] := rfl
    rw [Token.tokens?_append Token.blank_space, Token.tokens?_append_mark rfl, lexed, opening,
      closing]
    simp [Token.both, tokensOf, tokens, name]
  · have quoted := expandGroup_group (expandGroup_cons "quote" reads.expanded reads.unseparated)
    exact expandGroup_group (expandGroup_cons "eval" quoted rfl)

theorem Source.nodes_quotedText {source : String} {node : Node} (separate : Separate source)
    (noComment : '#' ∉ source.toList) (single : nodes source = .ok [node]) :
    nodes (quotedText source) =
      .ok [.group [.name "eval", .group [.name "quote", node]]] := by
  obtain ⟨root, forms, reads⟩ := separate.exists_reads
  cases Except.ok.inj (reads.nodes.symm.trans single)
  have quoted := reads.quoted noComment
  rw [show "(eval (quote".toList ++ ' ' :: (source.toList ++ [')', ')']) =
    (quotedText source).toList by simp [quotedText]] at quoted
  exact quoted.nodes

/-! Evaluating it. -/

theorem Datum.ofNode_eval {n : Node} {d : Datum} (read : ofNode false n = .ok d) :
    ofNode false (.group [.name "eval", n]) = .ok (unary "eval" d) := by
  have items : ofChildren false (some "eval") 0 [.name "eval", n] = .ok [string "eval", d] := by
    rw [ofChildren, ofChildren, show (false || holdsData (some "eval") (0 + 1)) = false from rfl,
      read]
    rfl
  exact ofNode_group items

namespace Evaluation

theorem quotation?_eq {code argument : Value} (quotes : m.store.Applies "quote" code argument) :
    quotation? argument m = .value (some code) m := by
  obtain ⟨rest, after, listed⟩ := quotes.exists_rest
  unfold quotation?
  rw [Eval.read_bind, after]
  dsimp only
  rw [Eval.read_bind, listed]
  rfl

/-- The two forms around quoted code are left behind. -/
theorem eval_eval_quote (depth : Nat) {code argument form : Value}
    (evaluates : m.store.Applies "eval" argument form)
    (quotes : m.store.Applies "quote" code argument) :
    eval (depth + 1) form m = eval depth code m := by
  rw [eval_applies (by decide) depth evaluates]
  change Eval.bind (quotation? argument) _ m = _
  rw [Eval.bind, quotation?_eq quotes]

end Evaluation

namespace Session

/-- Evaluates a datum as a form. -/
def runDatum (depth : Nat) (d : Datum) : Eval (Option Value) := do
  let form ← Eval.update (·.place d)
  let v ← eval depth form
  return some v

/-- A text of one form is the datum that it is read as. -/
theorem run_eq_runDatum {source : String} {node : Node} {d : Datum}
    (single : Source.nodes source = .ok [node]) (read : Datum.ofNode false node = .ok d)
    (depth : Nat) (m : Machine) : run depth source m = runDatum depth d m :=
  run_single single read m

theorem some_of_eval {x y : Eval Value} (same : x m = y m) :
    (x >>= fun v => (return some v : Eval (Option Value))) m =
      (y >>= fun v => return some v) m := by
  change Eval.bind _ _ _ = Eval.bind _ _ _
  rw [Eval.bind, Eval.bind, same]

theorem eval_of_runDatum {depth : Nat} {d : Datum} {w : Option Value}
    (ran : runDatum depth d m = .value w n) :
    ∃ v, eval depth (m.store.place d).1 ⟨(m.store.place d).2, m.stack⟩ = .value v n := by
  obtain ⟨_, _, placed, rest⟩ := Eval.value_of_bind ran
  cases placed
  obtain ⟨v, _, evaluated, last⟩ := Eval.value_of_bind rest
  cases last
  exact ⟨v, evaluated⟩

theorem agree_of_eval {v w : Value} (agree : Agree g g.value (fun depth => eval depth v m)
    fun depth => eval depth w n) :
    Agree g (Option.map g.value) (fun depth => (eval depth v >>= fun v => (return some v)) m)
      fun depth => (eval depth w >>= fun v => (return some v : Eval (Option Value))) n := by
  have ends {depth : Nat} {v : Value} {m : Machine}
      (ended : (eval depth v >>= fun v => (return some v : Eval (Option Value))) m ≠ .unfinished) :
      eval depth v m ≠ .unfinished := by
    intro unfinished
    apply ended
    change Eval.bind _ _ _ = _
    rw [Eval.bind, unfinished]
  constructor
  · intro depth ended
    obtain ⟨other, beside⟩ := agree.forth depth (ends ended)
    exact ⟨other, Eval.beside_bind beside fun v _ _ _ beside => .value (some v) beside⟩
  · intro other ended
    obtain ⟨depth, beside⟩ := agree.back other (ends ended)
    exact ⟨depth, Eval.beside_bind beside fun v _ _ _ beside => .value (some v) beside⟩

/-- One more level around the one evaluation makes no difference. -/
theorem agree_of_succ {x : Nat → Outcome α} {y z : Nat → Outcome β} (agree : Agree g f x y)
    (zero : z 0 = .unfinished) (succ : ∀ depth, z (depth + 1) = y depth) : Agree g f x z := by
  constructor
  · intro depth ended
    obtain ⟨other, beside⟩ := agree.forth depth ended
    exact ⟨other + 1, by rwa [succ]⟩
  · intro other ended
    cases other with
    | zero => exact absurd zero ended
    | succ other =>
      rw [succ] at ended ⊢
      exact agree.back other ended

/-- The cells that `(eval (quote X))` takes more than X. -/
theorem agree_runDatum (sound : m.Sound) (d : Datum) :
    ∃ g : Gap, m.store.cells.size ≤ g.start ∧ Agree g (Option.map g.value)
      (fun depth => runDatum depth d m)
      fun depth => runDatum depth (.unary "eval" (.unary "quote" d)) m := by
  let s := (m.store.place d).2
  let t := (m.store.place (.unary "eval" (.unary "quote" d))).2
  have quoted := Store.extends_unary m.store "quote" d
  have evaluated := Store.extends_unary m.store "eval" (.unary "quote" d)
  obtain ⟨placed, known⟩ := sound.store.place d
  have beside : s.Beside (s.gap t) t := (quoted.trans evaluated).beside placed
    ((Store.place_lambdas ..).trans (Store.place_lambdas ..).symm)
    ((Store.place_scopes ..).trans (Store.place_scopes ..).symm)
  have machines : Machine.Beside (s.gap t) ⟨s, m.stack⟩ ⟨t, m.stack⟩ := ⟨beside, rfl⟩
  have machine : Machine.Sound ⟨s, m.stack⟩ := ⟨placed, fun i mem =>
    Nat.lt_of_lt_of_le (sound.stack i mem) (Store.within_place m.store d).scopes⟩
  have agree := eval_agree machines machine known
  -- The form lies before the gap, so on both sides it is the same.
  rw [Gap.value_of_known known] at agree
  refine ⟨s.gap t, (Store.extends_place m.store d).size, agree_of_succ (agree_of_eval agree) rfl ?_⟩
  intro depth
  have evaluates := Store.applies_place m.store "eval" (.unary "quote" d)
  have quotes := (Store.applies_place m.store "quote" d).extends evaluated
  exact some_of_eval (Evaluation.eval_eval_quote (m := ⟨t, m.stack⟩) depth evaluates quotes)

end Session

/-- The node that printed data is read from. -/
theorem Datum.Readable.nodes {d : Datum} (readable : d.Readable) {source : String}
    (printed : source.toList = d.sketch.chars) : Source.nodes source = .ok [d.node] :=
  Source.nodes_of_tokens? (by rw [printed, readable.tokens?_chars])
    (Node.ofTokens_tokens readable.unmarked)

/-- Evaluating the quotation of a text with one form evaluates the form as it stands, without the
else branches that reading it as code would add. Where reading adds none, it is running the text:
but for the cells of the two forms around it, the outcomes and all effects are the same. -/
theorem eval_quote_runs_code {source : String} {node : Node} (separate : Source.Separate source)
    (noComment : '#' ∉ source.toList) (single : Source.nodes source = .ok [node])
    (sound : m.Sound) : ∃ (d : Datum) (g : Gap), Datum.ofNode true node = .ok d ∧
      m.store.cells.size ≤ g.start ∧
      Agree g (Option.map g.value) (fun depth => Session.runDatum depth d m)
        (fun depth => Session.run depth (quotedText source) m) ∧
      (Datum.ofNode false node = .ok d → Agree g (Option.map g.value)
        (fun depth => Session.run depth source m)
        fun depth => Session.run depth (quotedText source) m) := by
  have unmarked := Source.unmarked_of_nodes single node List.mem_cons_self
  obtain ⟨d, read⟩ := Datum.exists_ofNode unmarked true
  obtain ⟨g, old, agree⟩ := Session.agree_runDatum sound d
  have quoted := Source.nodes_quotedText separate noComment single
  have form := Datum.ofNode_eval (Datum.ofNode_quote read false)
  have same : (fun depth => Session.runDatum depth (.unary "eval" (.unary "quote" d)) m) =
      fun depth => Session.run depth (quotedText source) m :=
    funext fun depth => (Session.run_eq_runDatum quoted form depth m).symm
  rw [same] at agree
  refine ⟨d, g, read, old, agree, fun complete => ?_⟩
  have direct : (fun depth => Session.run depth source m) =
      fun depth => Session.runDatum depth d m :=
    funext fun depth => Session.run_eq_runDatum single complete depth m
  rwa [direct]

/-- A definition, and an `if` that has both branches. -/
def branchingData : Datum := .list [.string "if", .list [.string "def", .string "x", .boolean true],
  .list [.string "list", .string "x"], .number (.int 1)]

theorem readable_branchingData : branchingData.Readable := by
  refine .list ?_
  simp only [List.forall_mem_cons]
  refine ⟨.string (by decide +kernel), .list ?_, .list ?_, .int 1, List.forall_mem_nil _⟩ <;>
    simp only [List.forall_mem_cons]
  · exact ⟨.string (by decide +kernel), .string (by decide +kernel), .boolean true,
      List.forall_mem_nil _⟩
  · exact ⟨.string (by decide +kernel), .string (by decide +kernel), List.forall_mem_nil _⟩

theorem eval_quote_runs_code_with_branches : ∃ source node, Source.Separate source ∧
    '#' ∉ source.toList ∧ Source.nodes source = .ok [node] ∧ Machine.initial.Sound ∧
    ∃ g : Gap, Machine.initial.store.cells.size ≤ g.start ∧ Agree g (Option.map g.value)
      (fun depth => Session.run depth source Machine.initial)
      fun depth => Session.run depth (quotedText source) Machine.initial := by
  have separate : Source.Separate "(if (def x true) (list x) 1)" := by decide +kernel
  have noComment : '#' ∉ "(if (def x true) (list x) 1)".toList := by decide +kernel
  have single : Source.nodes "(if (def x true) (list x) 1)" = .ok [branchingData.node] :=
    readable_branchingData.nodes (by decide +kernel)
  obtain ⟨d, g, read, old, _, same⟩ :=
    eval_quote_runs_code separate noComment single Machine.sound_initial
  cases Except.ok.inj (readable_branchingData.ofNode.symm.trans read)
  exact ⟨_, _, separate, noComment, single, Machine.sound_initial, g, old, same rfl⟩

/-- An `if` without an else branch. -/
def shortData : Datum := .list [.string "if", .boolean true, .number (.int 1)]

theorem readable_shortData : shortData.Readable := by
  refine .list ?_
  simp only [List.forall_mem_cons]
  exact ⟨.string (by decide +kernel), .boolean true, .int 1, List.forall_mem_nil _⟩

/-- Written directly it has a value, but quoted and evaluated it has too few arguments. -/
theorem eval_quote_lacks_branch : ∃ source node, Source.Separate source ∧ '#' ∉ source.toList ∧
    Source.nodes source = .ok [node] ∧ ¬∃ (g : Gap) (f : Option Value → Option Value), Agree g f
      (fun depth => Session.run depth source Machine.initial)
      fun depth => Session.run depth (quotedText source) Machine.initial := by
  have single : Source.nodes "(if true 1)" = .ok [shortData.node] :=
    readable_shortData.nodes (by decide +kernel)
  have separate : Source.Separate "(if true 1)" := by decide +kernel
  have noComment : '#' ∉ "(if true 1)".toList := by decide +kernel
  refine ⟨"(if true 1)", _, separate, noComment, single, fun ⟨g, f, agree⟩ => ?_⟩
  obtain ⟨v, direct⟩ := Option.isSome_iff_exists.mp (by decide +kernel :
    (Session.run 2 "(if true 1)" Machine.initial).value?.isSome = true)
  obtain ⟨m, direct⟩ := Outcome.exists_of_value? direct
  have ended : Session.run 2 "(if true 1)" Machine.initial ≠ .unfinished := by rw [direct]; nofun
  obtain ⟨other, beside⟩ := agree.forth 2 ended
  rw [direct] at beside
  have quoted := Source.nodes_quotedText separate noComment single
  have form := Datum.ofNode_eval (Datum.ofNode_quote readable_shortData.ofNode false)
  rw [Session.run_eq_runDatum quoted form] at beside
  obtain ⟨n, quoted⟩ := beside.exists_value
  obtain ⟨v, evaluated⟩ := Session.eval_of_runDatum quoted
  have faulted : ∃ e n, eval 2 (.cons ⟨6⟩) ⟨(Machine.initial.store.place
      (.unary "eval" (.unary "quote" shortData))).2, [⟨0⟩]⟩ = .fault e n := ⟨_, _, rfl⟩
  obtain ⟨e, n, faulted⟩ := faulted
  have same : Except.ok v = .error e := (Process.eval_result_unique evaluated faulted).1
  cases same

end CellLisp
