import CellLisp.Proofs.Meaning

/-!
# The two sugars in either order

The separators of a group are taken out before its quote marks are applied. The other way round, a
quote mark directly before a separator would quote the separator, and quoting keeps what it quotes,
so that the separator would stay. Where no quote mark stands there, a run of quote marks quotes the
same node in both orders, and both come to the same. They also do where the group ends with a quote
mark, which has nothing to quote in either order.
-/

namespace CellLisp.Node

variable {n : Node} {ns : List Node} {depth : Nat}

/-- A quote mark stands directly before a separator. -/
def QuotesSeparator (ns : List Node) : Prop :=
  [leaf (.mark .quote), leaf (.mark .separator)] <:+: ns

theorem isSeparator_iff : n.isSeparator = true ↔ n = leaf (.mark .separator) := by
  refine ⟨eq_of_isMark, ?_⟩
  rintro rfl
  rfl

theorem last_iff :
    ns.getLast? = some (leaf (.mark .quote)) ↔ ns.getLast?.any isQuote = true := by
  cases ns.getLast? with
  | none => simp
  | some n =>
    rw [Option.some.injEq, Option.any_some]
    refine ⟨?_, eq_of_isQuote⟩
    rintro rfl
    rfl

theorem quotesSeparator_cons_iff : QuotesSeparator (n :: ns) ↔
    n = leaf (.mark .quote) ∧ ns.head? = some (leaf (.mark .separator)) ∨ QuotesSeparator ns := by
  unfold QuotesSeparator
  rw [List.infix_cons_iff, List.cons_prefix_cons, eq_comm]
  cases ns with
  | nil => simp
  | cons k ks => simp [List.cons_prefix_cons, eq_comm]

theorem isSeparator_of_mem_quoteMarks (mem : n ∈ quoteMarks depth) : n.isSeparator = false := by
  rw [List.eq_of_mem_replicate mem]
  rfl

theorem not_quotesSeparator_marks (depth : Nat) : ¬QuotesSeparator (quoteMarks depth) := by
  intro among
  have mem : leaf (.mark .separator) ∈ quoteMarks depth := among.subset (by simp)
  cases isSeparator_of_mem_quoteMarks mem

/-- No run of quote marks quotes a separator if the first does not and no later one does. -/
theorem not_quotesSeparator_run_iff (plain : n.isQuote = false) (depth : Nat) (ns : List Node) :
    ¬QuotesSeparator (quoteMarks depth ++ n :: ns) ↔
      (n.isSeparator = true → depth = 0) ∧ ¬QuotesSeparator ns := by
  have noQuote : n ≠ leaf (.mark .quote) := by
    rintro rfl
    cases plain
  have here : QuotesSeparator (n :: ns) ↔ QuotesSeparator ns := by
    simp [quotesSeparator_cons_iff, noQuote]
  induction depth with
  | zero => simpa [quoteMarks] using not_congr here
  | succ depth ih =>
    change ¬QuotesSeparator (leaf (.mark .quote) :: (quoteMarks depth ++ n :: ns)) ↔ _
    rw [quotesSeparator_cons_iff, not_or]
    cases depth with
    | zero => simp [quoteMarks, here, ← isSeparator_iff]
    | succ depth =>
      refine (and_congr_right fun _ => ih).trans ?_
      simp [quoteMarks, List.replicate_succ]

/-! Where no separator is quoted. -/

theorem filter_quoteMarks (depth : Nat) :
    (quoteMarks depth).filter (!·.isSeparator) = quoteMarks depth := by
  refine List.filter_eq_self.mpr fun n mem => ?_
  rw [isSeparator_of_mem_quoteMarks mem]
  rfl

theorem filter_quoteRuns (free : ¬QuotesSeparator ns) :
    (quoteRuns ns).filter (!·.isSeparator) = quoteRuns (ns.filter (!·.isSeparator)) := by
  induction ns using induction_on_runs with
  | marks depth => rw [filter_quoteMarks, quoteRuns_marks, List.filter_nil]
  | run depth n ns plain ih =>
    obtain ⟨unquoted, later⟩ := (not_quotesSeparator_run_iff plain depth ns).mp free
    rw [quoteRuns_run plain, List.filter_append, filter_quoteMarks]
    by_cases separator : n.isSeparator = true
    · obtain rfl := unquoted separator
      rw [List.filter_cons_of_neg (by simpa [quoteTimes] using separator), ih later,
        List.filter_cons_of_neg (by simpa using separator)]
      rfl
    · have kept : n.isSeparator = false := by simpa using separator
      have keptQuoted : (quoteTimes depth n).isSeparator = false := isMark_quoteTimes kept depth
      rw [List.filter_cons_of_pos (by simp [keptQuoted]), ih later,
        List.filter_cons_of_pos (by simp [kept]), quoteRuns_run plain]

/-! Separators among the nodes, and all separators. -/

theorem countP_quoteMarks (depth : Nat) : (quoteMarks depth).countP isSeparator = 0 :=
  List.countP_eq_zero.mpr fun _ mem => ne_true_of_eq_false (isSeparator_of_mem_quoteMarks mem)

theorem countP_quoteRuns_le (ns : List Node) :
    (quoteRuns ns).countP isSeparator ≤ ns.countP isSeparator := by
  induction ns using induction_on_runs with
  | marks depth => simp [quoteRuns_marks]
  | run depth n ns plain ih =>
    rw [quoteRuns_run plain, List.countP_append, countP_quoteMarks, Nat.zero_add, List.countP_cons,
      List.countP_cons]
    cases depth with
    | zero => exact Nat.add_le_add_right ih _
    | succ depth => exact Nat.le_add_right_of_le ih

/-- Quoting takes a separator from among the nodes exactly if a mark stands before it. -/
theorem countP_quoteRuns_eq_iff :
    (quoteRuns ns).countP isSeparator = ns.countP isSeparator ↔ ¬QuotesSeparator ns := by
  induction ns using induction_on_runs with
  | marks depth => simp [quoteRuns_marks, countP_quoteMarks, not_quotesSeparator_marks]
  | run depth n ns plain ih =>
    rw [quoteRuns_run plain, List.countP_append, countP_quoteMarks, Nat.zero_add, List.countP_cons,
      List.countP_cons, not_quotesSeparator_run_iff plain, ← ih]
    cases depth with
    | zero =>
      rw [quoteTimes, Nat.add_right_cancel_iff]
      simp
    | succ depth =>
      have quoted : (quoteTimes (depth + 1) n).isSeparator = false := rfl
      by_cases separator : n.isSeparator = true
      · -- No later separator can make up for the one that is quoted.
        have fewer := countP_quoteRuns_le ns
        simp only [quoted, separator, Bool.false_eq_true, if_true, if_false, Nat.succ_ne_zero,
          imp_false, not_true_eq_false, false_and, iff_false]
        omega
      · simp [quoted, separator]

/-- How many separators there are, at every depth. -/
def separators (ns : List Node) : Nat := (tokensOf ns).countP (Token.isMark .separator)

@[simp] theorem separators_append (ns ms : List Node) :
    separators (ns ++ ms) = separators ns + separators ms := by simp [separators]

theorem separators_cons (n : Node) (ns : List Node) :
    separators (n :: ns) = separators [n] + separators ns := separators_append [n] ns

theorem separators_quoteTimes (depth : Nat) (n : Node) :
    separators [quoteTimes depth n] = separators [n] := by
  induction depth with
  | zero => rfl
  | succ depth ih =>
    rw [← ih]
    simp [separators, quoteTimes, tokensOf, tokens, name, Token.isMark]

theorem separators_quoteMarks (depth : Nat) : separators (quoteMarks depth) = 0 := by
  induction depth with
  | zero => rfl
  | succ depth ih =>
    rw [quoteMarks, List.replicate_succ, separators_cons]
    exact (Nat.zero_add _).trans ih

theorem separators_quoteRuns (ns : List Node) : separators (quoteRuns ns) = separators ns := by
  induction ns using induction_on_runs with
  | marks depth =>
    rw [quoteRuns_marks, separators_quoteMarks]
    rfl
  | run depth n ns plain ih =>
    rw [quoteRuns_run plain, separators_cons, separators_quoteTimes, ih, separators_append,
      separators_quoteMarks, Nat.zero_add, ← separators_cons]

theorem separators_filter (ns : List Node) :
    separators (ns.filter (!·.isSeparator)) + ns.countP isSeparator = separators ns := by
  induction ns with
  | nil => rfl
  | cons n ns ih =>
    rw [separators_cons, ← ih]
    by_cases separator : n.isSeparator = true
    · have one : separators [n] = 1 := by
        rw [isSeparator_iff.mp separator]
        rfl
      rw [List.filter_cons_of_neg (by simpa using separator), List.countP_cons_of_pos separator,
        one]
      omega
    · rw [List.filter_cons_of_pos (by simpa using separator), List.countP_cons_of_neg separator,
        separators_cons, Nat.add_assoc]

/-- A block loses the separators that stand directly in it. -/
theorem separators_asBlock (ns : List Node) :
    separators (asBlock ns) + ns.countP isSeparator = separators ns := by
  have front : separators (if ns.any isSeparator then [name "block"] else []) = 0 := by
    split <;> rfl
  rw [asBlock_eq, separators_append, front, Nat.zero_add, separators_filter]

/-- The two orders, on a group in which every quote mark has something to quote. -/
theorem quoteRuns_asBlock_iff :
    quoteRuns (asBlock ns) = asBlock (quoteRuns ns) ↔ ¬QuotesSeparator ns := by
  constructor
  · intro same
    -- Quoting keeps all separators, so both orders must have found as many directly in the group.
    have first := separators_asBlock ns
    have second := separators_asBlock (quoteRuns ns)
    rw [← same, separators_quoteRuns, separators_quoteRuns] at second
    exact countP_quoteRuns_eq_iff.mp (by omega)
  · intro free
    have block : (quoteRuns ns).any isSeparator = ns.any isSeparator := by
      rw [Bool.eq_iff_iff, List.any_eq_true, List.any_eq_true, ← List.countP_pos_iff,
        ← List.countP_pos_iff, countP_quoteRuns_eq_iff.mpr free]
    rw [asBlock_eq, asBlock_eq, block, filter_quoteRuns free]
    split
    · exact quoteRuns_cons rfl _
    · rfl

/-- A quote mark that only separators follow stands directly before one, or it is the last node. -/
theorem last_of_dangles (dangling : dangles ns = true) (free : ¬QuotesSeparator ns) :
    ns.getLast?.any isQuote = true := by
  induction ns using induction_on_runs with
  | marks depth => rwa [dangles, filter_quoteMarks] at dangling
  | run depth n ns plain ih =>
    obtain ⟨unquoted, later⟩ := (not_quotesSeparator_run_iff plain depth ns).mp free
    rw [last_run plain]
    refine ih ?_ later
    rw [← dangling, dangles, dangles, List.filter_append, filter_quoteMarks]
    by_cases separator : n.isSeparator = true
    · obtain rfl := unquoted separator
      rw [List.filter_cons_of_neg (by simpa using separator)]
      rfl
    · rw [List.filter_cons_of_pos (by simpa using separator), last_run plain]

theorem dangles_of_last (last : ns.getLast?.any isQuote = true) : dangles ns = true := by
  obtain ⟨before, rfl⟩ := List.getLast?_eq_some_iff.mp (last_iff.mpr last)
  simp [dangles, isSeparator, isQuote, isMark]

/-- Undoing the two sugars of a group in one order and in the other comes to the same exactly if no
quote mark stands directly before a separator, or if the last node of the group is a quote mark. -/
theorem sugars_commute_iff (children : List Node) :
    applyQuotes 0 (asBlock children) = (applyQuotes 0 children).map asBlock ↔
      ¬[leaf (.mark .quote), leaf (.mark .separator)] <:+: children ∨
        children.getLast? = some (leaf (.mark .quote)) := by
  change _ ↔ ¬QuotesSeparator children ∨ _
  rw [last_iff, applyQuotes_eq 0 children, quoteMarks, List.replicate_zero, List.nil_append]
  change unsugar children = _ ↔ _
  rw [unsugar_eq]
  by_cases ends : children.getLast?.any isQuote = true
  · simp [ends, dangles_of_last ends, Except.map]
  · by_cases dangling : dangles children = true
    · have quoted := mt (last_of_dangles dangling) ends
      simp [ends, dangling, quoted, Except.map]
    · rw [if_neg dangling, if_neg ends, ← quoteRuns_asBlock, ← quoteRuns_asBlock_iff]
      simp [ends, Except.map]

/-- In `(' ; x)` the quote mark quotes `x` if the separator goes first, and else the separator. -/
theorem sugars_can_differ :
    let children := [leaf (.mark .quote), leaf (.mark .separator), name "x"]
    applyQuotes 0 (asBlock children) = .ok [name "block", group [name "quote", name "x"]] ∧
    (applyQuotes 0 children).map asBlock =
      .ok [group [name "quote", leaf (.mark .separator)], name "x"] ∧
    applyQuotes 0 (asBlock children) ≠ (applyQuotes 0 children).map asBlock := by
  refine ⟨rfl, rfl, fun same => ?_⟩
  change Except.ok [name "block", _] = Except.ok [group _, name "x"] at same
  cases same

end CellLisp.Node
