import Mathlib.Data.List.TakeWhile
import CellLisp.Proofs.Data
import CellLisp.Proofs.Parentheses

/-!
# What sugar means

The sugar of a group has a meaning that is read off the tree from the leaves upwards: the separators
go, a `block` comes first if there were any, and each run of quote marks quotes the node behind it
as many times. Undoing the sugar goes the other way, rewrites a group before it enters it, and
enters the groups that this makes as well. Both come to the same, unless a group ends with a quote
mark.
-/

namespace CellLisp

namespace Node

/-! The meaning of one group. -/

/-- Each run of quote marks, as long as it gets, quotes the node behind it so many times. -/
def quoteRuns (ns : List Node) : List Node :=
  match _behind : ns.dropWhile isQuote with
  | [] => []
  | n :: rest => quoteTimes (ns.takeWhile isQuote).length n :: quoteRuns rest
termination_by ns.length
decreasing_by
  have shorter := (List.dropWhile_suffix isQuote : ns.dropWhile isQuote <:+ ns).length_le
  rw [_behind, List.length_cons] at shorter
  exact shorter

/-- A group with its direct sugar undone. -/
def desugared (children : List Node) : List Node :=
  quoteRuns ((if children.any isSeparator then [name "block"] else []) ++
    children.filter (!·.isSeparator))

/-- A quote mark stands last in the group, but for separators. -/
def dangles (children : List Node) : Bool :=
  (children.filter (!·.isSeparator)).getLast?.any isQuote

/-! The meaning of a tree. -/

mutual

def meaning : Node → Node
  | leaf t => leaf t
  | group children => group (desugared (meanings children))

def meanings : List Node → List Node
  | [] => []
  | n :: ns => n.meaning :: meanings ns

end

/-- The forms that a text with these nodes means. -/
def meantForms (root : List Node) : List Node :=
  if root.any isSeparator then [meaning (group root)] else desugared (meanings root)

/-- The groups of a tree, the nodes outside of every group included. -/
inductive GroupOf (root : List Node) : List Node → Prop
  | whole : GroupOf root root
  | inner {g children : List Node} (around : GroupOf root g) (mem : group children ∈ g) :
    GroupOf root children

variable {n : Node} {ns out children root g : List Node} {depth : Nat}

theorem eq_of_isMark {m : Mark} (marked : n.isMark m = true) : n = leaf (.mark m) := by
  cases n with
  | leaf t =>
    cases t with
    | mark k => exact congrArg _ (congrArg _ (eq_of_beq marked))
    | number | name | operator => cases marked
  | group children => cases marked

theorem eq_of_isQuote (quote : n.isQuote = true) : n = leaf (.mark .quote) := eq_of_isMark quote

/-! Runs of quote marks. -/

/-- So many quote marks. -/
def quoteMarks (depth : Nat) : List Node := List.replicate depth (leaf (.mark .quote))

theorem isQuote_of_mem_quoteMarks (mem : n ∈ quoteMarks depth) : n.isQuote = true := by
  rw [List.eq_of_mem_replicate mem]
  rfl

theorem quoteMarks_succ (depth : Nat) (ns : List Node) :
    quoteMarks (depth + 1) ++ ns = quoteMarks depth ++ leaf (.mark .quote) :: ns := by
  simp [quoteMarks, List.replicate_succ']

theorem quoteRuns_marks (depth : Nat) : quoteRuns (quoteMarks depth) = [] := by
  have none : (quoteMarks depth).dropWhile isQuote = [] :=
    List.dropWhile_eq_nil_iff.mpr fun n => isQuote_of_mem_quoteMarks
  rw [quoteRuns]
  split
  · rfl
  · next found =>
    rw [none] at found
    cases found

/-- The run before a node quotes it. -/
theorem quoteRuns_run (plain : n.isQuote = false) (depth : Nat) (ns : List Node) :
    quoteRuns (quoteMarks depth ++ n :: ns) = quoteTimes depth n :: quoteRuns ns := by
  have behind : (quoteMarks depth ++ n :: ns).dropWhile isQuote = n :: ns := by
    rw [List.dropWhile_append_of_pos fun n => isQuote_of_mem_quoteMarks]
    simp [plain]
  have run : (quoteMarks depth ++ n :: ns).takeWhile isQuote = quoteMarks depth := by
    rw [List.takeWhile_append_of_pos fun n => isQuote_of_mem_quoteMarks]
    simp [plain]
  rw [quoteRuns]
  split
  · next found =>
    rw [behind] at found
    cases found
  · next found =>
    rw [behind] at found
    cases found
    rw [run, quoteMarks, List.length_replicate]

theorem quoteRuns_cons (plain : n.isQuote = false) (ns : List Node) :
    quoteRuns (n :: ns) = n :: quoteRuns ns := quoteRuns_run plain 0 ns

/-- A list of nodes is its runs, one after the other, and perhaps marks that quote nothing. -/
theorem induction_on_runs {motive : List Node → Prop} (marks : ∀ depth, motive (quoteMarks depth))
    (run : ∀ depth n ns, n.isQuote = false → motive ns → motive (quoteMarks depth ++ n :: ns))
    (ns : List Node) : motive ns := by
  suffices waiting : ∀ depth, motive (quoteMarks depth ++ ns) from waiting 0
  induction ns with
  | nil =>
    intro depth
    simpa using marks depth
  | cons n ns ih =>
    intro depth
    by_cases quote : n.isQuote = true
    · rw [eq_of_isQuote quote, ← quoteMarks_succ]
      exact ih (depth + 1)
    · exact run depth n ns (by simpa using quote) (ih 0)

theorem last_run (plain : n.isQuote = false) (depth : Nat) (ns : List Node) :
    (quoteMarks depth ++ n :: ns).getLast?.any isQuote = ns.getLast?.any isQuote := by
  cases ns with
  | nil => simp [plain]
  | cons k ks =>
    rw [List.getLast?_append, List.getLast?_cons_cons, List.getLast?_cons]
    rfl

/-- Applying the marks one after the other applies whole runs, if the last one quotes something. -/
theorem applyQuotes_eq (depth : Nat) (ns : List Node) : applyQuotes depth ns =
    if (quoteMarks depth ++ ns).getLast?.any isQuote then .error .danglingQuote
    else .ok (quoteRuns (quoteMarks depth ++ ns)) := by
  induction ns generalizing depth with
  | nil =>
    cases depth with
    | zero => simp [applyQuotes, quoteMarks, quoteRuns]
    | succ depth =>
      rw [quoteMarks_succ]
      simp [applyQuotes, isQuote, isMark]
  | cons n ns ih =>
    rw [applyQuotes]
    by_cases quote : n.isQuote = true
    · rw [if_pos quote, ih, eq_of_isQuote quote, quoteMarks_succ]
    · have plain : n.isQuote = false := by simpa using quote
      rw [if_neg quote, ih, quoteRuns_run plain, last_run plain]
      by_cases dangling : ns.getLast?.any isQuote = true
      · simp [quoteMarks, dangling, bind, Except.bind]
      · simp [quoteMarks, dangling, bind, Except.bind, pure, Except.pure]

theorem asBlock_eq (children : List Node) : asBlock children =
    (if children.any isSeparator then [name "block"] else []) ++
      children.filter (!·.isSeparator) := by
  unfold asBlock
  split
  · rfl
  · next none =>
    have all : children.filter (!·.isSeparator) = children := by
      simpa [List.filter_eq_self] using none
    rw [all, List.nil_append]

theorem quoteRuns_asBlock (children : List Node) :
    quoteRuns (asBlock children) = desugared children := by rw [asBlock_eq, desugared]

/-- Neither a separator nor the name of the block is a quote mark at the end. -/
theorem last_asBlock (children : List Node) :
    (asBlock children).getLast?.any isQuote = dangles children := by
  rw [asBlock_eq, dangles]
  split
  · rw [List.singleton_append, List.getLast?_cons]
    cases (children.filter (!·.isSeparator)).getLast? <;> rfl
  · rfl

theorem unsugar_eq (children : List Node) : unsugar children =
    if dangles children then .error .danglingQuote else .ok (desugared children) := by
  rw [unsugar, applyQuotes_eq, quoteMarks, List.replicate_zero, List.nil_append, last_asBlock,
    quoteRuns_asBlock]

/-! Groups without a dangling quote mark. -/

/-- No group of the node ends with a quote mark. -/
inductive Settled : Node → Prop
  | leaf (t : Token) : Settled (leaf t)
  | group {children : List Node} (firm : dangles children = false)
    (each : ∀ n ∈ children, Settled n) : Settled (group children)

theorem settled_group_iff :
    (group root).Settled ↔ ∀ g, GroupOf root g → dangles g = false := by
  constructor
  · intro settled g within
    suffices inner : dangles g = false ∧ ∀ n ∈ g, n.Settled from inner.1
    induction within with
    | whole =>
      cases settled with
      | group firm each => exact ⟨firm, each⟩
    | inner around mem ih =>
      cases ih.2 _ mem with
      | group firm each => exact ⟨firm, each⟩
  · intro firm
    suffices inner : ∀ n : Node, ∀ g, GroupOf root g → n ∈ g → n.Settled from
      .group (firm root .whole) fun n => inner n root .whole
    intro n
    induction n using induction_on_children with
    | leaf t => exact fun _ _ _ => .leaf t
    | group children ih =>
      intro g around mem
      have within : GroupOf root children := .inner around mem
      exact .group (firm children within) fun n inside => ih n inside children within inside

theorem settled_of_quoteTimes (settled : (quoteTimes depth n).Settled) : n.Settled := by
  induction depth with
  | zero => exact settled
  | succ depth ih =>
    cases settled with
    | group firm each => exact ih (each _ (by simp))

theorem exists_mem_quoteRuns (mem : n ∈ ns) (plain : n.isQuote = false) :
    ∃ depth, quoteTimes depth n ∈ quoteRuns ns := by
  induction ns using induction_on_runs with
  | marks depth =>
    rw [isQuote_of_mem_quoteMarks mem] at plain
    cases plain
  | run depth k ns kPlain ih =>
    rw [quoteRuns_run kPlain]
    rcases List.mem_append.mp mem with mark | mem
    · rw [isQuote_of_mem_quoteMarks mark] at plain
      cases plain
    · rcases List.mem_cons.mp mem with rfl | mem
      · exact ⟨depth, List.mem_cons_self⟩
      · obtain ⟨times, among⟩ := ih mem
        exact ⟨times, List.mem_cons_of_mem _ among⟩

theorem exists_mem_desugared (mem : n ∈ children) (noSeparator : n.isSeparator = false)
    (noQuote : n.isQuote = false) : ∃ depth, quoteTimes depth n ∈ desugared children := by
  refine exists_mem_quoteRuns (List.mem_append_right _ ?_) noQuote
  simp [mem, noSeparator]

theorem settled_of_expandEach (expanded : expandEach ns = .ok out) : ∀ n ∈ ns, n.Settled := by
  induction ns using expandEach.induct generalizing out with
  | case1 => exact List.forall_mem_nil _
  | case2 t ns ih =>
    rw [expandEach] at expanded
    obtain ⟨rest, later, _⟩ := bind_eq_ok_iff.mp expanded
    exact List.forall_mem_cons.mpr ⟨.leaf t, ih later⟩
  | case3 children ns f failed =>
    rw [expandEach_group, expandGroup, failed] at expanded
    cases expanded
  | case4 children ns unsugared found ihInner ihRest =>
    rw [expandEach_group, expandGroup, found] at expanded
    obtain ⟨inner, entered, expanded⟩ := bind_eq_ok_iff.mp expanded
    obtain ⟨rest, later, _⟩ := bind_eq_ok_iff.mp expanded
    refine List.forall_mem_cons.mpr ⟨?_, ihRest later⟩
    rw [unsugar_eq] at found
    split at found
    · cases found
    · next firm =>
      cases found
      refine .group (by simpa using firm) fun n mem => ?_
      cases n with
      | leaf t => exact .leaf t
      | group inside =>
        obtain ⟨depth, among⟩ := exists_mem_desugared mem rfl rfl
        exact settled_of_quoteTimes (ihInner entered _ among)

/-! Both ways come to the same. -/

@[simp] theorem meanings_eq_map (ns : List Node) : meanings ns = ns.map meaning := by
  induction ns with
  | nil => rfl
  | cons n ns ih => simp [meanings, ih]

@[simp] theorem isMark_meaning (m : Mark) (n : Node) : n.meaning.isMark m = n.isMark m := by
  cases n <;> rfl

/-- What is expanded to its meaning is expanded to that inside of quotations as well. -/
theorem expandEach_quoteTimes (expands : expandEach [n] = .ok [n.meaning])
    (noSeparator : n.isSeparator = false) (noQuote : n.isQuote = false) (depth : Nat) :
    expandEach [quoteTimes depth n] = .ok [quoteTimes depth n.meaning] := by
  induction depth with
  | zero => exact expands
  | succ depth ih =>
    have separator : (quoteTimes depth n).isSeparator = false := isMark_quoteTimes noSeparator depth
    have quote : (quoteTimes depth n).isQuote = false := isMark_quoteTimes noQuote depth
    have plain : unsugar [name "quote", quoteTimes depth n] =
        .ok [name "quote", quoteTimes depth n] := by
      have none : [name "quote", quoteTimes depth n].any isSeparator = false := by
        simp [separator]
        rfl
      rw [unsugar_of_unseparated none]
      apply applyQuotes_of_plain
      simp [quote]
      rfl
    rw [quoteTimes, expandEach_group, expandGroup, plain]
    change (do return group (← expandEach ([name "quote"] ++ [quoteTimes depth n])) ::
      (← expandEach [])) = _
    rw [expandEach_append, ih]
    simp only [name, expandEach]
    rfl

theorem expandEach_quoteRuns (each : ∀ n ∈ ns, expandEach [n] = .ok [n.meaning])
    (noSeparator : ∀ n ∈ ns, n.isSeparator = false) :
    expandEach (quoteRuns ns) = .ok (quoteRuns (ns.map meaning)) := by
  have marks (depth : Nat) : (quoteMarks depth).map meaning = quoteMarks depth := by
    simp [quoteMarks, meaning]
  induction ns using induction_on_runs with
  | marks depth =>
    rw [marks, quoteRuns_marks, expandEach]
  | run depth n ns plain ih =>
    rw [List.forall_mem_append, List.forall_mem_cons] at each noSeparator
    have meaningPlain : n.meaning.isQuote = false := (isMark_meaning .quote n).trans plain
    rw [List.map_append, marks, List.map_cons, quoteRuns_run plain, quoteRuns_run meaningPlain]
    change expandEach ([quoteTimes depth n] ++ quoteRuns ns) = _
    rw [expandEach_append, expandEach_quoteTimes each.2.1 noSeparator.2.1 plain,
      ih each.2.2 noSeparator.2.2]
    rfl

theorem any_isSeparator_meanings (children : List Node) :
    (meanings children).any isSeparator = children.any isSeparator := by
  have separated : isSeparator ∘ meaning = isSeparator :=
    funext fun n => isMark_meaning .separator n
  rw [meanings_eq_map, List.any_map, separated]

theorem map_meaning_asBlock (children : List Node) :
    (asBlock children).map meaning = asBlock (meanings children) := by
  have kept : (fun n : Node => !n.isSeparator) ∘ meaning = fun n => !n.isSeparator :=
    funext fun n => congrArg _ (isMark_meaning .separator n)
  rw [asBlock, asBlock, any_isSeparator_meanings]
  split
  · rw [meanings_eq_map, List.filter_map, kept]
    rfl
  · exact (meanings_eq_map children).symm

theorem expandEach_desugared (each : ∀ n ∈ children, expandEach [n] = .ok [n.meaning]) :
    expandEach (desugared children) = .ok (desugared (meanings children)) := by
  rw [← quoteRuns_asBlock, ← quoteRuns_asBlock, ← map_meaning_asBlock]
  apply expandEach_quoteRuns
  · intro n mem
    rcases (of_mem_asBlock mem).1 with child | rfl
    · exact each n child
    · simp [name, expandEach, meaning, pure, Except.pure, bind, Except.bind]
  · exact fun n mem => (of_mem_asBlock mem).2

theorem Settled.expandEach (settled : n.Settled) : expandEach [n] = .ok [n.meaning] := by
  induction settled with
  | leaf t =>
    rw [Node.expandEach, Node.expandEach]
    rfl
  | @group children firm each ih =>
    rw [expandEach_group, expandGroup, unsugar_eq, firm]
    change (do return Node.group (← Node.expandEach (desugared children)) ::
      (← Node.expandEach [])) = _
    rw [expandEach_desugared ih, Node.expandEach]
    rfl

theorem expandGroup_of_settled (settled : (group children).Settled) :
    expandGroup children = .ok (desugared (meanings children)) := by
  cases settled with
  | group firm each =>
    rw [expandGroup, unsugar_eq, firm]
    exact expandEach_desugared fun n mem => (each n mem).expandEach

theorem expandGroup_eq_ok_iff {forms : List Node} : expandGroup children = .ok forms ↔
    (group children).Settled ∧ forms = desugared (meanings children) := by
  constructor
  · intro expanded
    have settled : (group children).Settled := by
      have whole : Node.expandEach [group children] = .ok [group forms] := by
        rw [expandEach_group, expanded]
        change (do return group forms :: (← Node.expandEach [])) = _
        rw [Node.expandEach]
        rfl
      exact settled_of_expandEach whole _ List.mem_cons_self
    rw [expandGroup_of_settled settled] at expanded
    exact ⟨settled, (Except.ok.inj expanded).symm⟩
  · rintro ⟨settled, rfl⟩
    exact expandGroup_of_settled settled

end Node

end CellLisp
