import CellLisp.Proofs.Nesting
import CellLisp.Source

/-!
# No sugar is left

Undoing the sugar of a group removes the separators and the quote marks that stand directly in it
and puts groups around what was quoted; these groups are entered afterwards. So the nodes of a text
have no marks at any depth, whatever tokens they were made from.

Where no separator stands outside of every group, the nodes of one token list and then another are
those of the two lists together.
-/

namespace CellLisp

theorem bind_eq_ok_iff {ε α β : Type} {x : Except ε α} {f : α → Except ε β} {b : β} :
    x >>= f = .ok b ↔ ∃ a, x = .ok a ∧ f a = .ok b := by
  cases x with
  | error e => exact ⟨nofun, fun ⟨_, impossible, _⟩ => nomatch impossible⟩
  | ok a =>
    constructor
    · intro found
      exact ⟨a, rfl, found⟩
    · rintro ⟨_, same, found⟩
      cases same
      exact found

theorem bind_eq_error_iff {ε α β : Type} {x : Except ε α} {f : α → Except ε β} {e : ε} :
    x >>= f = .error e ↔ x = .error e ∨ ∃ a, x = .ok a ∧ f a = .error e := by
  cases x with
  | error e' => simp [bind, Except.bind]
  | ok a => simp [bind, Except.bind]

theorem mapError_eq_ok_iff {ε ε' α : Type} {x : Except ε α} {f : ε → ε'} {a : α} :
    x.mapError f = .ok a ↔ x = .ok a := by
  cases x with
  | ok b =>
    change Except.ok b = .ok a ↔ _
    rw [Except.ok.injEq, Except.ok.injEq]
  | error e => exact iff_of_false (by rintro ⟨⟩) (by rintro ⟨⟩)

theorem isOk_iff {ε α : Type} {x : Except ε α} : x.isOk = true ↔ ∃ a, x = .ok a := by
  cases x <;> simp [Except.isOk, Except.toBool]

namespace Node

variable {marks : Mark → Bool} {depth : Nat}

/-! One group. -/

theorem Avoids.quoteTimes {n : Node} (avoids : n.Avoids marks) (depth : Nat) :
    (quoteTimes depth n).Avoids marks := by
  induction depth with
  | zero => exact avoids
  | succ depth ih =>
    refine .group fun child mem => ?_
    simp only [List.mem_cons, List.not_mem_nil, or_false] at mem
    rcases mem with rfl | rfl
    · exact avoids_name marks "quote"
    · exact ih

theorem isMark_quoteTimes {n : Node} {m : Mark} (plain : n.isMark m = false) (depth : Nat) :
    (quoteTimes depth n).isMark m = false := by
  cases depth with
  | zero => exact plain
  | succ depth => rfl

/-- What stands in a group whose quote marks are applied is quoted some number of times. -/
theorem exists_of_mem_applyQuotes {ns out : List Node} (applied : applyQuotes depth ns = .ok out)
    {o : Node} (mem : o ∈ out) :
    ∃ times n, n ∈ ns ∧ n.isQuote = false ∧ o = quoteTimes times n := by
  induction ns generalizing depth out with
  | nil =>
    simp only [applyQuotes] at applied
    split at applied <;> cases applied
    cases mem
  | cons n ns ih =>
    rw [applyQuotes] at applied
    split at applied
    · obtain ⟨times, k, among, rest⟩ := ih applied mem
      exact ⟨times, k, List.mem_cons_of_mem n among, rest⟩
    · next plain =>
      obtain ⟨more, later, same⟩ := bind_eq_ok_iff.mp applied
      cases same
      rcases List.mem_cons.mp mem with rfl | mem
      · exact ⟨depth, n, List.mem_cons_self, by simpa using plain, rfl⟩
      · obtain ⟨times, k, among, rest⟩ := ih later mem
        exact ⟨times, k, List.mem_cons_of_mem n among, rest⟩

theorem of_mem_asBlock {children : List Node} {n : Node} (mem : n ∈ asBlock children) :
    (n ∈ children ∨ n = name "block") ∧ n.isSeparator = false := by
  unfold asBlock at mem
  split at mem
  · rcases List.mem_cons.mp mem with rfl | mem
    · exact ⟨.inr rfl, rfl⟩
    · simp only [List.mem_filter, Bool.not_eq_true'] at mem
      exact ⟨.inl mem.1, mem.2⟩
  · next none =>
    simp only [List.any_eq_true, not_exists, not_and, Bool.not_eq_true] at none
    exact ⟨.inl mem, none n mem⟩

/-- In a group without separators only the quote marks are sugar. -/
theorem unsugar_of_unseparated {children : List Node}
    (unseparated : children.any isSeparator = false) :
    unsugar children = applyQuotes 0 children := by
  rw [unsugar, asBlock, unseparated]
  rfl

theorem of_mem_unsugar {children out : List Node} (unsugared : unsugar children = .ok out)
    (avoid : ∀ n ∈ children, n.Avoids marks) {o : Node} (mem : o ∈ out) :
    o.Avoids marks ∧ o.isSeparator = false ∧ o.isQuote = false := by
  obtain ⟨times, n, among, plain, rfl⟩ := exists_of_mem_applyQuotes unsugared mem
  obtain ⟨origin, noSeparator⟩ := of_mem_asBlock among
  have avoids : n.Avoids marks := by
    rcases origin with child | rfl
    · exact avoid n child
    · exact avoids_name marks "block"
  exact ⟨avoids.quoteTimes times, isMark_quoteTimes noSeparator times,
    isMark_quoteTimes plain times⟩

/-! Every depth. -/

/-- No leaf of the node, at whatever depth, is a mark. -/
abbrev Unmarked (n : Node) : Prop := n.Avoids fun _ => true

theorem unmarked_leaf {t : Token} (noParen : (leaf t).Avoids Mark.isParen)
    (noSeparator : (leaf t).isSeparator = false) (noQuote : (leaf t).isQuote = false) :
    (leaf t).Unmarked := by
  refine .leaf fun m same => ?_
  subst same
  cases noParen with
  | leaf allowed =>
    cases m with
    | leftParen | rightParen => cases allowed _ rfl
    | quote => cases noQuote
    | separator => cases noSeparator

theorem expandEach_group (children ns : List Node) :
    expandEach (group children :: ns) = do
      let inner ← expandGroup children
      return group inner :: (← expandEach ns) := by
  rw [expandEach]
  unfold expandGroup
  split
  · next f failed =>
    rw [failed]
    rfl
  · next unsugared found =>
    rw [found]
    rfl

theorem unmarked_of_expandEach {ns out : List Node} (expanded : expandEach ns = .ok out)
    (plain : ∀ n ∈ ns, n.Avoids Mark.isParen ∧ n.isSeparator = false ∧ n.isQuote = false) :
    ∀ o ∈ out, o.Unmarked := by
  induction ns using expandEach.induct generalizing out with
  | case1 =>
    rw [expandEach] at expanded
    cases expanded
    nofun
  | case2 t ns ih =>
    rw [expandEach] at expanded
    obtain ⟨rest, later, same⟩ := bind_eq_ok_iff.mp expanded
    cases same
    obtain ⟨⟨noParen, noSeparator, noQuote⟩, others⟩ := List.forall_mem_cons.mp plain
    exact List.forall_mem_cons.mpr ⟨unmarked_leaf noParen noSeparator noQuote, ih later others⟩
  | case3 children ns f failed =>
    rw [expandEach_group, expandGroup, failed] at expanded
    cases expanded
  | case4 children ns unsugared found ihInner ihRest =>
    rw [expandEach_group, expandGroup, found] at expanded
    obtain ⟨inner, entered, expanded⟩ := bind_eq_ok_iff.mp expanded
    obtain ⟨rest, later, same⟩ := bind_eq_ok_iff.mp expanded
    cases same
    obtain ⟨⟨noParen, _⟩, others⟩ := List.forall_mem_cons.mp plain
    have inside := ihInner entered fun o mem => of_mem_unsugar found noParen.children mem
    exact List.forall_mem_cons.mpr ⟨.group inside, ihRest later others⟩

theorem unmarked_of_expandGroup {children forms : List Node}
    (expanded : expandGroup children = .ok forms)
    (noParens : ∀ n ∈ children, n.Avoids Mark.isParen) : ∀ n ∈ forms, n.Unmarked := by
  obtain ⟨unsugared, first, later⟩ := bind_eq_ok_iff.mp expanded
  exact unmarked_of_expandEach later fun o mem => of_mem_unsugar first noParens mem

/-- The nodes of a text have no marks, at whatever depth. -/
theorem unmarked_of_ofTokens {ts : List Token} {nodes : List Node}
    (read : ofTokens ts = .ok nodes) : ∀ n ∈ nodes, n.Unmarked := by
  obtain ⟨root, matched, read⟩ := bind_eq_ok_iff.mp read
  obtain ⟨forms, expanded, same⟩ := bind_eq_ok_iff.mp read
  have unmarked := unmarked_of_expandGroup expanded (matchParens_eq_ok_iff.mp matched).2
  cases same
  split
  · intro n mem
    cases List.mem_singleton.mp mem
    exact .group unmarked
  · exact unmarked

/-! The faults. -/

theorem applyQuotes_error {ns : List Node} {f : SyntaxFault}
    (failed : applyQuotes depth ns = .error f) : f = .danglingQuote := by
  induction ns generalizing depth with
  | nil =>
    rw [applyQuotes] at failed
    split at failed <;> cases failed
    rfl
  | cons n ns ih =>
    rw [applyQuotes] at failed
    split at failed
    · exact ih failed
    · rcases bind_eq_error_iff.mp failed with later | ⟨more, _, impossible⟩
      · exact ih later
      · cases impossible

theorem expandEach_error {ns : List Node} {f : SyntaxFault} (failed : expandEach ns = .error f) :
    f = .danglingQuote := by
  induction ns using expandEach.induct with
  | case1 =>
    rw [expandEach] at failed
    cases failed
  | case2 t ns ih =>
    rw [expandEach] at failed
    rcases bind_eq_error_iff.mp failed with later | ⟨rest, _, impossible⟩
    · exact ih later
    · cases impossible
  | case3 children ns g refused =>
    rw [expandEach_group, expandGroup, refused] at failed
    cases failed
    exact applyQuotes_error refused
  | case4 children ns unsugared found ihInner ihRest =>
    rw [expandEach_group, expandGroup, found] at failed
    rcases bind_eq_error_iff.mp failed with within | ⟨inner, _, failed⟩
    · exact ihInner within
    · rcases bind_eq_error_iff.mp failed with later | ⟨rest, _, impossible⟩
      · exact ihRest later
      · cases impossible

theorem expandGroup_error {children : List Node} {f : SyntaxFault}
    (failed : expandGroup children = .error f) : f = .danglingQuote := by
  rcases bind_eq_error_iff.mp failed with refused | ⟨unsugared, _, failed⟩
  · exact applyQuotes_error refused
  · exact expandEach_error failed

theorem ofTokens_error {ts : List Token} {f : SyntaxFault} (failed : ofTokens ts = .error f) :
    f = .unbalancedParens ∨ f = .danglingQuote := by
  rcases bind_eq_error_iff.mp failed with unmatched | ⟨root, _, failed⟩
  · exact .inl (matchWithin_error unmatched)
  · rcases bind_eq_error_iff.mp failed with failed | ⟨forms, _, impossible⟩
    · exact .inr (expandGroup_error failed)
    · cases impossible

/-! One list of nodes and then another. -/

theorem applyQuotes_append {ns ms out : List Node} (applied : applyQuotes depth ns = .ok out) :
    applyQuotes depth (ns ++ ms) = (applyQuotes 0 ms).map (out ++ ·) := by
  induction ns generalizing depth out with
  | nil =>
    simp only [applyQuotes] at applied
    split at applied
    · next none =>
      cases applied
      subst none
      rw [List.nil_append]
      cases applyQuotes 0 ms <;> rfl
    · cases applied
  | cons n ns ih =>
    rw [applyQuotes] at applied
    rw [List.cons_append, applyQuotes]
    split at applied
    · next quote => rw [if_pos quote, ih applied]
    · next plain =>
      obtain ⟨more, later, same⟩ := bind_eq_ok_iff.mp applied
      cases same
      rw [if_neg plain, ih later]
      cases applyQuotes 0 ms <;> rfl

theorem expandEach_append (ns ms : List Node) :
    expandEach (ns ++ ms) = do return (← expandEach ns) ++ (← expandEach ms) := by
  induction ns with
  | nil =>
    rw [List.nil_append, expandEach]
    cases expandEach ms <;> rfl
  | cons n ns ih =>
    cases n with
    | leaf t =>
      rw [List.cons_append, expandEach, expandEach, ih]
      cases expandEach ns <;> cases expandEach ms <;> rfl
    | group children =>
      rw [List.cons_append, expandEach_group, expandEach_group, ih]
      cases expandGroup children <;> cases expandEach ns <;> cases expandEach ms <;> rfl

theorem expandGroup_append {ns ms forms more : List Node} (first : expandGroup ns = .ok forms)
    (second : expandGroup ms = .ok more) (noneFirst : ns.any isSeparator = false)
    (noneSecond : ms.any isSeparator = false) : expandGroup (ns ++ ms) = .ok (forms ++ more) := by
  obtain ⟨plain, unsugared, expanded⟩ := bind_eq_ok_iff.mp first
  obtain ⟨others, unsugaredSecond, expandedSecond⟩ := bind_eq_ok_iff.mp second
  have none : (ns ++ ms).any isSeparator = false := by simp [noneFirst, noneSecond]
  rw [unsugar_of_unseparated noneFirst] at unsugared
  rw [unsugar_of_unseparated noneSecond] at unsugaredSecond
  rw [expandGroup, unsugar_of_unseparated none, applyQuotes_append unsugared, unsugaredSecond]
  change expandEach (plain ++ others) = _
  rw [expandEach_append, expanded, expandedSecond]
  rfl

end Node

theorem Source.nodes_eq_ok_iff {source : String} {forms : List Node} :
    nodes source = .ok forms ↔
      ∃ ts, Token.ofText (Comment.strip source.toList) = .ok ts ∧ Node.ofTokens ts = .ok forms := by
  simp [nodes, plainNodes, bind_eq_ok_iff, mapError_eq_ok_iff]

end CellLisp
