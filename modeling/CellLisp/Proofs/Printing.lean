import CellLisp.Proofs.Data
import CellLisp.Proofs.Joining
import CellLisp.Proofs.Store

/-!
# What is printed reads back

A value whose cells spell out a datum is printed as the datum is laid out. So quoting the printed
form of such a value gives a value that spells out the same datum, and the printed form of code that
was read is read as the same code: with its sugar undone and its else branches added for good.
-/

namespace CellLisp

namespace Store

variable {s t u : Store} {v : Value} {d : Datum}

/-- The cells of the value spell out the datum. -/
inductive Holds (s : Store) : Value → Datum → Prop
  | number (n : Number) : Holds s (.number n) (.number n)
  | string (text : String) : Holds s (.string text) (.string text)
  | boolean (b : Bool) : Holds s (.boolean b) (.boolean b)
  | nil : Holds s .nil .nil
  | cons {c : CellId} {a d : Datum} (inside : c.index < s.cells.size) (car : Holds s (s.car c) a)
    (cdr : Holds s (s.cdr c) d) : Holds s (.cons c) (.pair a d)

theorem Holds.unique {e : Datum} (first : s.Holds v d) (second : s.Holds v e) : d = e := by
  induction first generalizing e with
  | number | string | boolean | nil =>
    cases second
    rfl
  | cons inside car cdr ihCar ihCdr =>
    cases second with
    | cons _ otherCar otherCdr => rw [ihCar otherCar, ihCdr otherCdr]

theorem Holds.extends (holds : s.Holds v d) (kept : s.Extends t) : t.Holds v d := by
  induction holds with
  | number n => exact .number n
  | string text => exact .string text
  | boolean b => exact .boolean b
  | nil => exact .nil
  | @cons c a d inside car cdr ihCar ihCdr =>
    refine .cons (Nat.lt_of_lt_of_le inside kept.size) ?_ ?_
    · rwa [Store.car, kept.cell c inside]
    · rwa [Store.cdr, kept.cell c inside]

theorem holds_cons {a b : Value} {e : Datum} (car : s.Holds a d) (cdr : s.Holds b e) :
    (s.cons a b).2.Holds (s.cons a b).1 (.pair d e) := by
  have cell : (s.cons a b).2.cell ⟨s.cells.size⟩ = ⟨a, b⟩ := by rw [cell_cons, if_pos rfl]
  refine .cons (by simp) ?_ ?_
  · rw [Store.car, cell]
    exact car.extends (extends_cons s a b)
  · rw [Store.cdr, cell]
    exact cdr.extends (extends_cons s a b)

theorem holds_place (s : Store) (d : Datum) : (s.place d).2.Holds (s.place d).1 d := by
  induction d generalizing s with
  | number n => exact .number n
  | string text => exact .string text
  | boolean b => exact .boolean b
  | nil => exact .nil
  | pair a d iha ihd => exact holds_cons ((iha s).extends (extends_place _ d)) (ihd _)

/-! The printed form. -/

/-- No cell that is open around the value occurs in it, as what each of them spells is larger. -/
theorem Holds.sketchWithin (holds : s.Holds v d) {opened : List CellId}
    (around : ∀ c ∈ opened, ∃ e, s.Holds (.cons c) e ∧ sizeOf d < sizeOf e) :
    s.sketchWithin opened v = d.sketch := by
  induction holds generalizing opened with
  | number | string | boolean | nil => rw [Store.sketchWithin, Datum.sketch]
  | @cons c a d inside car cdr ihCar ihCdr =>
    have here : s.Holds (.cons c) (.pair a d) := .cons inside car cdr
    have fresh : c ∉ opened := by
      intro mem
      obtain ⟨e, other, smaller⟩ := around c mem
      rw [here.unique other] at smaller
      exact Nat.lt_irrefl _ smaller
    have within : ∀ part : Datum, sizeOf part < sizeOf (Datum.pair a d) →
        ∀ k ∈ c :: opened, ∃ e, s.Holds (.cons k) e ∧ sizeOf part < sizeOf e := by
      intro part smaller
      refine List.forall_mem_cons.mpr ⟨⟨_, here, smaller⟩, fun k mem => ?_⟩
      obtain ⟨e, other, larger⟩ := around k mem
      exact ⟨e, other, Nat.lt_trans smaller larger⟩
    have size := Datum.pair.sizeOf_spec a d
    rw [Store.sketchWithin, dif_pos fresh, dif_pos inside, ihCar (within a (by omega)),
      ihCdr (within d (by omega)), Datum.sketch]

theorem Holds.toList_shown (holds : s.Holds v d) : (s.shown v).toList = d.sketch.chars := by
  rw [shown, sketch, holds.sketchWithin (List.forall_mem_nil _), Sketch.text, String.toList_ofList]

end Store

/-! Keywords with one argument. -/

namespace Datum

/-- A name applied to one argument. -/
def unary (name : String) (d : Datum) : Datum := list [string name, d]

theorem ofNode_quote {n : Node} {d : Datum} (read : ofNode true n = .ok d) (literal : Bool) :
    ofNode literal (.group [.name "quote", n]) = .ok (unary "quote" d) := by
  have argument : ofNode (literal || holdsData (some "quote") 1) n = .ok d := by
    rwa [show holdsData (some "quote") 1 = true from rfl, Bool.or_true]
  have items : ofChildren literal (some "quote") 0 [.name "quote", n] =
      .ok [string "quote", d] := by
    rw [ofChildren, ofChildren, argument]
    rfl
  rw [ofNode_group items]
  cases literal <;> rfl

end Datum

/-- A chain of one cell. -/
theorem Store.chain_single {s : Store} {c : CellId} (filled : 0 < s.cells.size)
    (last : s.cdr c = .nil) : s.chain (.cons c) = .proper [s.car c] := by
  obtain ⟨limit, more⟩ := Nat.exists_eq_add_one_of_ne_zero (Nat.ne_of_gt filled)
  rw [chain, more, chainWithin, last]
  cases limit <;> rfl

namespace Store

variable {s t : Store} {name : String} {form argument : Value}

/-- The form is two cells, for the name and for its one argument. -/
inductive Applies (s : Store) (name : String) (argument : Value) : Value → Prop
  | intro {c k : CellId} (inside : c.index < s.cells.size) (behind : k.index < s.cells.size)
    (head : s.cell c = ⟨.string name, .cons k⟩) (last : s.cell k = ⟨argument, .nil⟩) :
    Applies s name argument (.cons c)

/-- The cell of the argument is made first. -/
theorem applies_cons_cons (s : Store) (name : String) (v : Value) :
    ((s.cons v .nil).2.cons (.string name) (s.cons v .nil).1).2.Applies name v
      ((s.cons v .nil).2.cons (.string name) (s.cons v .nil).1).1 := by
  refine .intro (k := ⟨s.cells.size⟩) (Nat.lt_of_lt_of_eq (Nat.lt_succ_self _)
    (size_cells_cons _ _ _).symm) (by simp only [size_cells_cons]; omega) ?_ ?_
  · rw [cell_cons, if_pos rfl, fst_cons]
  · rw [cell_cons, if_neg (by simp), cell_cons, if_pos rfl]

theorem applies_place (s : Store) (name : String) (d : Datum) :
    (s.place (.unary name d)).2.Applies name (s.place d).1 (s.place (.unary name d)).1 :=
  applies_cons_cons (s.place d).2 name (s.place d).1

theorem extends_unary (s : Store) (name : String) (d : Datum) :
    (s.place d).2.Extends (s.place (.unary name d)).2 :=
  (extends_cons _ _ _).trans (extends_cons _ _ _)

theorem Applies.extends (applies : s.Applies name argument form) (kept : s.Extends t) :
    t.Applies name argument form := by
  cases applies with
  | intro inside behind head last =>
    exact .intro (Nat.lt_of_lt_of_le inside kept.size) (Nat.lt_of_lt_of_le behind kept.size)
      (by rw [kept.cell _ inside, head]) (by rw [kept.cell _ behind, last])

/-- What stands behind the name is the list of the one argument. -/
theorem Applies.exists_rest (applies : s.Applies name argument form) :
    ∃ rest, s.afterHead? name form = some rest ∧ s.chain rest = .proper [argument] := by
  cases applies with
  | @intro c k inside behind head last =>
    refine ⟨.cons k, ?_, ?_⟩
    · simp [afterHead?, car, cdr, head, Value.name?]
    · rw [chain_single (Nat.zero_lt_of_lt inside) (by rw [cdr, last]), car, last]

end Store

namespace Evaluation

/-- A keyword gets the items of a proper list as they stand. -/
theorem apply_keyword {name : String} (keyword : name ∈ Keyword.names) (rec : Value → Eval Value)
    {rest : Value} {args : List Value} {m : Machine} (listed : m.store.chain rest = .proper args) :
    apply rec (.string name) rest m = keywordForm rec name args m := by
  have items : Eval.items rest m = .value args m := by
    unfold Eval.items
    rw [Eval.read_bind, listed]
    rfl
  change Eval.bind (Eval.items rest) _ m = _
  simp only [Eval.bind, items, Value.name?, if_pos keyword]

theorem eval_applies {name : String} (keyword : name ∈ Keyword.names) (depth : Nat)
    {form argument : Value} {m : Machine} (applies : m.store.Applies name argument form) :
    eval (depth + 1) form m = keywordForm (eval depth) name [argument] m := by
  obtain ⟨rest, after, listed⟩ := applies.exists_rest
  cases applies with
  | @intro c k inside behind head last =>
    change apply (eval depth) (m.store.car c) (m.store.cdr c) m = _
    have same : m.store.cdr c = rest := by
      simpa [Store.afterHead?, Store.car, head, Value.name?] using after
    rw [same, Store.car, head]
    exact apply_keyword keyword _ listed

end Evaluation

namespace Session

variable {depth : Nat}

theorem readForm_of_ofNode {n : Node} {d : Datum} (read : Datum.ofNode false n = .ok d)
    (m : Machine) :
    readForm n m = .value (m.store.place d).1 ⟨(m.store.place d).2, m.stack⟩ := by
  unfold readForm
  rw [read]
  rfl

/-- The run of a text with one form. -/
theorem run_single {source : String} {n : Node} {d : Datum} (parsed : Source.nodes source = .ok [n])
    (read : Datum.ofNode false n = .ok d) (m : Machine) : run depth source m =
      (eval depth (m.store.place d).1 >>= fun v => (return some v : Eval (Option Value)))
        ⟨(m.store.place d).2, m.stack⟩ := by
  rw [run_eq parsed]
  change Eval.bind (readForm n) _ m = _
  rw [Eval.bind, readForm_of_ofNode read]
  rfl

end Session

theorem toOption_eq_some_iff {ε α : Type} {x : Except ε α} {a : α} :
    x.toOption = some a ↔ x = .ok a := by
  cases x <;> simp [Except.toOption]

theorem Source.plainNodes_of_tokens? {text : List Char} {ts : List Token} {forms : List Node}
    (lexed : Token.tokens? text = some ts) (read : Node.ofTokens ts = .ok forms) :
    plainNodes text = .ok forms := by
  rw [plainNodes, toOption_eq_some_iff.mp lexed]
  change (Node.ofTokens ts).mapError _ = _
  rw [read]
  rfl

theorem Source.nodes_of_tokens? {source : String} {ts : List Token} {forms : List Node}
    (lexed : Token.tokens? source.toList = some ts) (read : Node.ofTokens ts = .ok forms) :
    nodes source = .ok forms :=
  plainNodes_of_tokens? (Comment.tokens?_of_tokens? lexed) read

/-- A value of integers, booleans, names and proper lists, printed behind a quote mark, evaluates to
a value that spells out the same data, on every machine. The run makes new cells and does nothing
else. -/
theorem quoted_data_reads_back {s : Store} {v : Value} {d : Datum} (holds : s.Holds v d)
    (readable : d.Readable) (depth : Nat) (m : Machine) :
    ∃ w n, Session.run (depth + 1) ("'" ++ s.shown v) m = .value (some w) n ∧
      n.store.Holds w d ∧ n.stack = m.stack ∧ n.store.scopes = m.store.scopes ∧
      n.store.lambdas = m.store.lambdas ∧ m.store.Extends n.store := by
  have lexed : Token.tokens? ("'" ++ s.shown v).toList = some (.mark .quote :: d.node.tokens) := by
    rw [String.toList_append, holds.toList_shown]
    change Token.tokens? ('\'' :: d.sketch.chars) = _
    rw [Token.tokens?_mark rfl, readable.tokens?_chars]
    rfl
  have parsed := Source.nodes_of_tokens? lexed (Node.ofTokens_quote readable.unmarked)
  have read := Datum.ofNode_quote readable.ofNode false
  refine ⟨(m.store.place d).1, ⟨(m.store.place (.unary "quote" d)).2, m.stack⟩, ?_, ?_, rfl,
    Store.place_scopes _ _, Store.place_lambdas _ _, Store.extends_place _ _⟩
  · rw [Session.run_single parsed read]
    change Eval.bind (eval _ _) _ _ = _
    have placed := Store.applies_place m.store "quote" d
    rw [Eval.bind, Evaluation.eval_applies (by decide) depth placed]
    rfl
  · exact (Store.holds_place m.store d).extends (Store.extends_unary m.store "quote" d)

/-- An `if` of three items, a lambda without parameters, a form that looks quoted, an operator and
a negative integer. -/
def keywordData : Datum :=
  .list [.string "if", .boolean false, .list [.string "lambda", .nil,
    .list [.string "quote", .string "<=", .number (.int (-7))]]]

theorem readable_keywordData : keywordData.Readable := by
  refine .list ?_
  simp only [List.forall_mem_cons]
  refine ⟨.string (by decide +kernel), .boolean false, .list ?_, List.forall_mem_nil _⟩
  simp only [List.forall_mem_cons]
  refine ⟨.string (by decide +kernel), .list (List.forall_mem_nil _), .list ?_,
    List.forall_mem_nil _⟩
  simp only [List.forall_mem_cons]
  exact ⟨.string (by decide +kernel), .string (by decide +kernel), .int (-7),
    List.forall_mem_nil _⟩

theorem quoted_data_reads_back_with_keywords : ∃ (s : Store) (v w : Value) (n : Machine),
    s.Holds v keywordData ∧
    keywordData.Readable ∧ s.shown v = "(if false (lambda () (quote <= -7)))" ∧
    Session.run 1 ("'" ++ s.shown v) Machine.initial = .value (some w) n ∧
    n.store.Holds w keywordData ∧ n.stack = Machine.initial.stack ∧
    n.store.scopes = Machine.initial.store.scopes ∧
    n.store.lambdas = Machine.initial.store.lambdas ∧ Machine.initial.store.Extends n.store := by
  have holds := Store.holds_place .empty keywordData
  obtain ⟨w, n, runs, again, rest⟩ :=
    quoted_data_reads_back holds readable_keywordData 0 Machine.initial
  refine ⟨_, _, w, n, holds, readable_keywordData, ?_, runs, again, rest⟩
  rw [← String.toList_inj, holds.toList_shown]
  decide +kernel

/-- Code that was read without floats is printed as a text that has one form, which is read as the
same code. -/
theorem printed_code_reads_back {source : String} {ts : List Token} {nodes : List Node}
    (lexed : Token.ofText (Comment.strip source.toList) = .ok ts)
    (noFloat : ∀ t ∈ ts, t.isFloat = false) (parsed : Node.ofTokens ts = .ok nodes) {node : Node}
    (mem : node ∈ nodes) (m : Machine) :
    ∃ form n d again, Session.readForm node m = .value form n ∧ n.store.Holds form d ∧
      Source.plainNodes (n.store.shown form).toList = .ok [again] ∧
      Source.nodes (n.store.shown form) = .ok [again] ∧
      ∀ k, ∃ form' k', Session.readForm again k = .value form' k' ∧ k'.store.Holds form' d := by
  have unmarked := Node.unmarked_of_ofTokens parsed node mem
  have legible : ∀ t ∈ node.tokens, (∃ m, t = .mark m) ∨ t.Legible := by
    intro t among
    rcases Node.mem_tokensOf_ofTokens parsed (Node.mem_tokensOf.mpr ⟨node, mem, among⟩) with
      written | sugar
    · exact Token.legible_of_ofText lexed noFloat t written
    · exact Datum.legible_of_mem_sugarTokens sugar
  obtain ⟨d, read⟩ := Datum.exists_ofNode unmarked false
  obtain ⟨readable, again, _⟩ := Datum.ofNode_rereads unmarked legible false d read
  have holds := Store.holds_place m.store d
  have printed : Token.tokens? ((m.store.place d).2.shown (m.store.place d).1).toList =
      some d.node.tokens := by
    rw [holds.toList_shown, readable.tokens?_chars]
  have nodes := Node.ofTokens_tokens readable.unmarked
  refine ⟨_, _, d, d.node, Session.readForm_of_ofNode read m, holds, ?_,
    Source.nodes_of_tokens? printed nodes, fun k => ?_⟩
  · exact Source.plainNodes_of_tokens? printed nodes
  · exact ⟨_, _, Session.readForm_of_ofNode again k, Store.holds_place k.store d⟩

/-- Sugar of both kinds around an `if` that gets an else branch and one that is quoted, and a lambda
whose parameters look like an `if`. -/
def sugaredSource : String := "((if c 'x) ; ''(if a b)) # and\n(lambda (if a b) (if 'd -1))"

theorem printed_code_reads_back_with_sugar : ∃ ts nodes node,
    Token.ofText (Comment.strip sugaredSource.toList) = .ok ts ∧ (∀ t ∈ ts, t.isFloat = false) ∧
    Node.ofTokens ts = .ok nodes ∧ node ∈ nodes ∧
    ∃ form n d again, Session.readForm node Machine.initial = .value form n ∧
      n.store.shown form = "(block (if c (quote x) (block)) (quote (quote (if a b))))" ∧
      n.store.Holds form d ∧ Source.plainNodes (n.store.shown form).toList = .ok [again] ∧
      Source.nodes (n.store.shown form) = .ok [again] ∧
      ∀ k, ∃ form' k', Session.readForm again k = .value form' k' ∧ k'.store.Holds form' d := by
  have facts : (Token.ofText (Comment.strip sugaredSource.toList)).toOption.any (fun ts =>
      ts.all (!·.isFloat) && (Node.ofTokens ts).toOption.any fun nodes =>
        nodes.head?.any fun node =>
          ((do Eval.shown (← Session.readForm node)) Machine.initial).value? ==
             some "(block (if c (quote x) (block)) (quote (quote (if a b))))") = true := by
    decide +kernel
  obtain ⟨ts, lexed, facts⟩ := (Option.any_eq_true _ _).mp facts
  obtain ⟨noFloat, facts⟩ := (Bool.and_eq_true_iff).mp facts
  obtain ⟨nodes, parsed, facts⟩ := (Option.any_eq_true _ _).mp facts
  obtain ⟨node, first, shown⟩ := (Option.any_eq_true _ _).mp facts
  have lexed := toOption_eq_some_iff.mp lexed
  have parsed := toOption_eq_some_iff.mp parsed
  have noFloat : ∀ t ∈ ts, t.isFloat = false := by simpa using noFloat
  have mem := List.mem_of_head? first
  obtain ⟨form, n, d, again, read, holds, rest⟩ :=
    printed_code_reads_back lexed noFloat parsed mem Machine.initial
  refine ⟨ts, nodes, node, lexed, noFloat, parsed, mem, form, n, d, again, read, ?_, holds, rest⟩
  change (Eval.bind (Session.readForm node) Eval.shown Machine.initial).value? == _ at shown
  rw [Eval.bind, read] at shown
  exact Option.some.inj (eq_of_beq shown)

end CellLisp
