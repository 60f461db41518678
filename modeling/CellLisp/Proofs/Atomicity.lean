import CellLisp.Proofs.Balance
import CellLisp.Proofs.Faults
import CellLisp.Proofs.Sugar

/-!
# A text with a syntax fault changes nothing

The forms of a text are read one by one, each after the ones before it were evaluated. But reading
fails only on a mark, and the nodes of a text have no marks. So what is wrong with a text shows
before any of it is evaluated.
-/

namespace CellLisp

namespace Datum

theorem exists_ofChildren {ns : List Node}
    (each : ∀ n ∈ ns, ∀ literal, ∃ d, ofNode literal n = .ok d) (literal : Bool)
    (head : Option String) (position : Nat) :
    ∃ items, ofChildren literal head position ns = .ok items := by
  induction ns generalizing position with
  | nil => exact ⟨[], rfl⟩
  | cons n ns ih =>
    obtain ⟨here, there⟩ := List.forall_mem_cons.mp each
    obtain ⟨d, read⟩ := here (literal || holdsData head position)
    obtain ⟨items, rest⟩ := ih there (position + 1)
    refine ⟨d :: items, ?_⟩
    rw [ofChildren, read, rest]
    rfl

/-- A node without marks stands for a datum. -/
theorem exists_ofNode {n : Node} (unmarked : n.Unmarked) (literal : Bool) :
    ∃ d, ofNode literal n = .ok d := by
  induction unmarked generalizing literal with
  | @leaf t allowed =>
    cases t with
    | mark m => cases allowed m rfl
    | number k => exact ⟨number k, rfl⟩
    | operator s => exact ⟨string s, rfl⟩
    | name s =>
      simp only [ofNode, ofToken]
      split
      · exact ⟨_, rfl⟩
      · split
        · exact ⟨_, rfl⟩
        · exact ⟨_, rfl⟩
  | @group children each ih =>
    obtain ⟨items, read⟩ := exists_ofChildren ih literal (headName? children) 0
    refine ⟨list (if literal then items else completeIf (headName? children) items), ?_⟩
    rw [ofNode, read]
    rfl

end Datum

namespace Source

/-- The nodes of a source come from its tokens, or its characters or its tokens are at fault. -/
theorem nodes_eq (source : String) :
    (∃ f, nodes source = .error (.lexical f)) ∨
      ∃ ts, nodes source = (Node.ofTokens ts).mapError Fault.syntactic := by
  unfold nodes plainNodes
  cases Token.ofText (Comment.strip source.toList) with
  | error f => exact .inl ⟨f, rfl⟩
  | ok ts => exact .inr ⟨ts, rfl⟩

theorem unmarked_of_nodes {source : String} {ns : List Node} (found : nodes source = .ok ns) :
    ∀ n ∈ ns, n.Unmarked := by
  obtain ⟨ts, _, read⟩ := nodes_eq_ok_iff.mp found
  exact Node.unmarked_of_ofTokens read

theorem ne_unexpectedMark {source : String} {f : Fault} (failed : nodes source = .error f)
    (m : Mark) : f ≠ .syntactic (.unexpectedMark m) := by
  rintro rfl
  rcases nodes_eq source with ⟨g, lexical⟩ | ⟨ts, same⟩
  · rw [lexical] at failed
    cases failed
  · rw [same] at failed
    cases read : Node.ofTokens ts with
    | ok ms =>
      rw [read] at failed
      cases failed
    | error g =>
      rw [read] at failed
      cases failed
      rcases Node.ofTokens_error read with impossible | impossible <;> cases impossible

end Source

namespace Session

variable {depth : Nat}

theorem untextual_readForm {n : Node} (unmarked : n.Unmarked) : (readForm n).Untextual := by
  obtain ⟨d, read⟩ := Datum.exists_ofNode unmarked false
  unfold readForm
  rw [read]
  exact (Eval.untextual_pure d).bind fun _ => Eval.untextual_update _

theorem untextual_runForms {ns : List Node} (unmarked : ∀ n ∈ ns, n.Unmarked)
    (last : Option Value) : (runForms depth last ns).Untextual := by
  induction ns generalizing last with
  | nil => exact Eval.untextual_pure last
  | cons n ns ih =>
    obtain ⟨here, there⟩ := List.forall_mem_cons.mp unmarked
    exact (untextual_readForm here).bind fun form => (untextual_eval depth form).bind fun v =>
      ih there (some v)

/-- A run ends with a fault of its text only if the text as a whole is refused. -/
theorem nodes_of_run_fault {source : String} {m n : Machine} {f : Fault}
    (ends : run depth source m = .fault f n) (textual : f.Textual) :
    Source.nodes source = .error f ∧ n = m := by
  change Eval.bind (Eval.ofExcept (Source.nodes source)) _ m = _ at ends
  cases found : Source.nodes source with
  | error g =>
    rw [found] at ends
    cases ends
    exact ⟨rfl, rfl⟩
  | ok ns =>
    rw [found] at ends
    have forms : (runForms depth none ns).Untextual :=
      untextual_runForms (Source.unmarked_of_nodes found) none
    exact absurd textual (forms m f n ends)

end Session

/-- If a run ends with a lexical or a syntactic fault, the text was refused as a whole and the
machine is as it was. Reading never fails on the nodes that tokens make: they have no marks. -/
theorem syntax_faults_are_atomic :
    (∀ depth source m f n, Session.run depth source m = .fault f n → f.Textual →
      Source.nodes source = .error f ∧ n = m) ∧
    (∀ ts nodes, Node.ofTokens ts = .ok nodes →
      ∀ n ∈ nodes, n.Unmarked ∧ ∃ d, Datum.ofNode false n = .ok d) ∧
    ∀ depth source m n mark,
      Session.run depth source m ≠ .fault (.syntactic (.unexpectedMark mark)) n := by
  refine ⟨fun depth source m f n => Session.nodes_of_run_fault, fun ts nodes read n mem => ?_,
    fun depth source m n mark ends => ?_⟩
  · have unmarked := Node.unmarked_of_ofTokens read n mem
    exact ⟨unmarked, Datum.exists_ofNode unmarked false⟩
  · obtain ⟨refused, _⟩ := Session.nodes_of_run_fault ends trivial
    exact Source.ne_unexpectedMark refused mark rfl

/-- Two definitions, and a quote mark that quotes nothing. -/
def unfinishedQuote : String := "(def x 2) (def y 'x) (list x ')"

/-- The tokens of `(a ; ''b) 'c`. -/
def sugaredTokens : List Token :=
  [.mark .leftParen, .name "a", .mark .separator, .mark .quote, .mark .quote, .name "b",
   .mark .rightParen, .mark .quote, .name "c"]

set_option maxRecDepth 4000 in
theorem syntax_faults_are_atomic_after_definitions : ∃ m n nodes, Session.Reached m ∧
    Session.run 9 unfinishedQuote m = .fault (.syntactic .danglingQuote) n ∧
    Source.nodes unfinishedQuote = .error (.syntactic .danglingQuote) ∧ n = m ∧
    Node.ofTokens sugaredTokens = .ok nodes ∧
    ∀ node ∈ nodes, node.Unmarked ∧ ∃ d, Datum.ofNode false node = .ok d := by
  obtain ⟨m, left, facts⟩ := (Option.any_eq_true _ _).mp (by decide +kernel :
    (Session.run 9 "(def x 1)" Machine.initial).machine?.any (fun m => decide (
      (Session.run 9 unfinishedQuote m).fault? = some (.syntactic .danglingQuote))) = true)
  obtain ⟨n, fails⟩ := Outcome.exists_of_fault? (of_decide_eq_true facts)
  obtain ⟨nodes, parsed⟩ := isOk_iff.mp (by decide +kernel :
    (Node.ofTokens sugaredTokens).isOk = true)
  obtain ⟨atomic, readable, _⟩ := syntax_faults_are_atomic
  obtain ⟨refused, unchanged⟩ := atomic 9 unfinishedQuote m _ n fails trivial
  exact ⟨m, n, nodes, .run .initial 9 _ left, fails, refused, unchanged, parsed,
    readable sugaredTokens nodes parsed⟩

end CellLisp
