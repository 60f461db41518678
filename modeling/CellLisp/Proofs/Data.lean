import CellLisp.Proofs.Atomicity
import CellLisp.Proofs.Words

/-!
# Data as nodes

A datum of integers, booleans, names and proper lists is written as one node, and its text has the
tokens of that node. The node has no sugar, so undoing the sugar leaves it alone. Read as data it is
the datum again. Read as code it may get else branches, once: the node of what was read then reads
as the same datum.
-/

namespace CellLisp

/-! How data is written. -/

namespace Datum

/-- The tree that a datum is laid out from. -/
def sketch : Datum → Sketch
  | number n => .leaf n.text
  | string t => .leaf t
  | boolean b => .leaf (if b then "true" else "false")
  | nil => .nil
  | pair a d => .pair a.sketch d.sketch

/-- A word that is no number. -/
def wordToken (s : String) : Token := if s.toList.all Token.isSymbol then .operator s else .name s

mutual

/-- The node that a datum is written as. -/
def node : Datum → Node
  | number n => .leaf (.number n)
  | string s => .leaf (wordToken s)
  | boolean b => .name (if b then "true" else "false")
  | nil => .group []
  | pair a d => .group (a.node :: d.nodes)

/-- The nodes of the items of a list. -/
def nodes : Datum → List Node
  | pair a d => a.node :: d.nodes
  | _ => []

end

theorem nodes_list (ds : List Datum) : (list ds).nodes = ds.map node := by
  induction ds with
  | nil => rfl
  | cons d ds ih => simp [list, nodes, ih]

theorem node_list (ds : List Datum) : (list ds).node = .group (ds.map node) := by
  cases ds with
  | nil => rfl
  | cons d ds => simp [list, node, nodes_list]

/-- A word that is read as this string. It is neither a boolean nor a number, and it could not be
taken for a malformed number. -/
structure Word (s : String) : Prop where
  filled : s ≠ ""
  plain : ∀ c ∈ s.toList, Token.isWordChar c = true
  notBoolean : s ≠ "true" ∧ s ≠ "false"
  notNumber : s.toList.all Token.isSymbol = true ∨
    Number.read? s.toList = none ∧ (s.toList.head?.map Char.isDigit).getD false = false

theorem word_iff {s : String} : Word s ↔ s ≠ "" ∧ s.toList.all Token.isWordChar = true ∧
    (s ≠ "true" ∧ s ≠ "false") ∧ (s.toList.all Token.isSymbol = true ∨
      (Number.read? s.toList).isNone = true ∧
        (s.toList.head?.map Char.isDigit).getD false = false) := by
  rw [Option.isNone_iff_eq_none, List.all_eq_true (p := Token.isWordChar)]
  exact ⟨fun ⟨filled, plain, notBoolean, notNumber⟩ => ⟨filled, plain, notBoolean, notNumber⟩,
    fun ⟨filled, plain, notBoolean, notNumber⟩ => ⟨filled, plain, notBoolean, notNumber⟩⟩

instance (s : String) : Decidable (Word s) := decidable_of_iff _ word_iff.symm

/-- The data that program text can spell out without floats. -/
inductive Readable : Datum → Prop
  | int (n : Int64) : Readable (number (.int n))
  | boolean (b : Bool) : Readable (boolean b)
  | string {s : String} (word : Word s) : Readable (string s)
  | list {ds : List Datum} (each : ∀ d ∈ ds, Readable d) : Readable (list ds)

theorem Word.written {s : String} (word : Word s) : Token.Written s.toList (wordToken s) := by
  refine ⟨by simpa using word.filled, word.plain, fun offset => ?_⟩
  rw [Token.ofWord, wordToken, String.ofList_toList]
  split
  · rfl
  · next mixed =>
    obtain ⟨noNumber, noDigit⟩ := word.notNumber.resolve_left mixed
    simp [noNumber, noDigit]

theorem Word.ofToken {s : String} (word : Word s) : ofToken (wordToken s) = .ok (string s) := by
  unfold wordToken
  split
  · rfl
  · simp [Datum.ofToken, word.notBoolean]

theorem written_boolean (b : Bool) : Token.Written (if b then "true" else "false").toList
    (.name (if b then "true" else "false")) := by
  cases b <;> exact ⟨nofun, List.all_eq_true.mp (by decide), fun _ => rfl⟩

/-! The text of a datum. -/

variable {d : Datum} {ds : List Datum}

/-- Wherever the text of the datum is parted from what follows, it has the tokens of its node. -/
def Spelled (d : Datum) : Prop := ∀ rest, Token.Parted rest →
  Token.tokens? (d.sketch.chars ++ rest) = Token.both (some d.node.tokens) (Token.tokens? rest)

theorem parted_tailChars (ds : List Datum) (rest : List Char) :
    Token.Parted ((list ds).sketch.tailChars ++ rest) := by
  cases ds with
  | nil => exact .mark rfl rest
  | cons d ds => exact .blank Token.blank_space _

theorem tokens?_tailChars (each : ∀ d ∈ ds, Spelled d) (rest : List Char) :
    Token.tokens? ((list ds).sketch.tailChars ++ rest) = Token.both
      (some (Node.tokensOf (ds.map node) ++ [.mark .rightParen])) (Token.tokens? rest) := by
  induction ds with
  | nil => exact Token.tokens?_mark rfl rest
  | cons d ds ih =>
    obtain ⟨here, there⟩ := List.forall_mem_cons.mp each
    have text : (list (d :: ds)).sketch.tailChars ++ rest =
        ' ' :: (d.sketch.chars ++ ((list ds).sketch.tailChars ++ rest)) := by
      simp [list, sketch, Sketch.tailChars]
    rw [text, Token.tokens?_blank Token.blank_space, here _ (parted_tailChars ds rest), ih there,
      ← Token.both_assoc]
    simp [Token.both, Node.tokensOf]

theorem spelled_list (each : ∀ d ∈ ds, Spelled d) : Spelled (list ds) := by
  intro rest _
  cases ds with
  | nil =>
    change Token.tokens? ('(' :: ')' :: rest) = _
    rw [Token.tokens?_mark rfl, Token.tokens?_mark rfl, ← Token.both_assoc]
    rfl
  | cons d ds =>
    obtain ⟨here, there⟩ := List.forall_mem_cons.mp each
    have text : (list (d :: ds)).sketch.chars ++ rest =
        '(' :: (d.sketch.chars ++ ((list ds).sketch.tailChars ++ rest)) := by
      simp [list, sketch, Sketch.chars]
    rw [text, Token.tokens?_mark rfl, here _ (parted_tailChars ds rest),
      tokens?_tailChars there, ← Token.both_assoc, ← Token.both_assoc, node_list]
    simp [Token.both, Node.tokens, Node.tokensOf]

theorem Readable.spelled (readable : Readable d) : Spelled d := by
  induction readable with
  | int n => exact fun rest => (Token.written_int n).tokens?
  | boolean b => exact fun rest => (written_boolean b).tokens?
  | string word => exact fun rest => word.written.tokens?
  | list each ih => exact spelled_list ih

theorem Readable.tokens?_chars (readable : Readable d) :
    Token.tokens? d.sketch.chars = some d.node.tokens := by
  have spelled := readable.spelled [] .nil
  rw [List.append_nil] at spelled
  rw [spelled]
  exact congrArg some (List.append_nil _)

/-! The node of a datum. -/

theorem Readable.unmarked (readable : Readable d) : d.node.Unmarked := by
  induction readable with
  | int n => exact .leaf nofun
  | boolean b => exact .leaf nofun
  | @string s word =>
    refine .leaf fun m same => ?_
    unfold wordToken at same
    split at same <;> cases same
  | list each ih =>
    rw [node_list]
    exact .group (List.forall_mem_map.mpr ih)

theorem Readable.ofNode (readable : Readable d) : ofNode true d.node = .ok d := by
  induction readable with
  | int n => rfl
  | boolean b => cases b <;> rfl
  | string word => exact word.ofToken
  | @list ds each ih =>
    have items : ∀ head position, ofChildren true head position (ds.map node) = .ok ds := by
      clear each
      induction ds with
      | nil => exact fun _ _ => rfl
      | cons d ds rest =>
        obtain ⟨here, there⟩ := List.forall_mem_cons.mp ih
        intro head position
        rw [List.map_cons, ofChildren, Bool.true_or, here, rest there]
        rfl
    rw [node_list, Datum.ofNode, items]
    rfl

end Datum

/-! Nodes without sugar. -/

namespace Node

variable {marks : Mark → Bool} {n : Node} {ns out : List Node}

theorem Unmarked.avoids (unmarked : n.Unmarked) (marks : Mark → Bool) : n.Avoids marks := by
  induction unmarked with
  | leaf allowed => exact .leaf fun m same => Bool.noConfusion (allowed m same)
  | group each ih => exact .group ih

theorem Unmarked.isMark (unmarked : n.Unmarked) (m : Mark) : n.isMark m = false := by
  cases unmarked with
  | @leaf t allowed =>
    cases t with
    | mark k => exact Bool.noConfusion (allowed k rfl)
    | number | name | operator => rfl
  | group each => rfl

theorem applyQuotes_of_plain (plain : ∀ n ∈ ns, n.isQuote = false) : applyQuotes 0 ns = .ok ns := by
  induction ns with
  | nil => rfl
  | cons n ns ih =>
    obtain ⟨here, there⟩ := List.forall_mem_cons.mp plain
    rw [applyQuotes, here, ih there]
    rfl

theorem any_isSeparator (unmarked : ∀ n ∈ ns, n.Unmarked) : ns.any isSeparator = false :=
  List.any_eq_false.mpr fun n mem => by simp [isSeparator, (unmarked n mem).isMark]

theorem unsugar_of_unmarked (unmarked : ∀ n ∈ ns, n.Unmarked) : unsugar ns = .ok ns := by
  rw [unsugar_of_unseparated (any_isSeparator unmarked)]
  exact applyQuotes_of_plain fun n mem => (unmarked n mem).isMark .quote

theorem expandEach_of_unmarked (unmarked : ∀ n ∈ ns, n.Unmarked) : expandEach ns = .ok ns := by
  induction ns using expandEach.induct with
  | case1 => rw [expandEach]
  | case2 t ns ih =>
    rw [expandEach, ih fun n mem => unmarked n (List.mem_cons_of_mem _ mem)]
    rfl
  | case3 children ns f failed =>
    rw [unsugar_of_unmarked (unmarked _ List.mem_cons_self).children] at failed
    cases failed
  | case4 children ns unsugared found ihInner ihRest =>
    obtain ⟨here, there⟩ := List.forall_mem_cons.mp unmarked
    rw [unsugar_of_unmarked here.children] at found
    cases found
    rw [expandEach_group, expandGroup, unsugar_of_unmarked here.children]
    change (do return group (← expandEach children) :: (← expandEach ns)) = _
    rw [ihInner here.children, ihRest there]
    rfl

/-- Nodes that are written out without separators between them are read one by one. -/
theorem ofTokens_of_unseparated (avoid : ∀ n ∈ ns, n.Avoids Mark.isParen)
    (unseparated : ns.any isSeparator = false) : ofTokens (tokensOf ns) = expandGroup ns := by
  rw [ofTokens, matchParens_eq_ok_iff.mpr ⟨rfl, avoid⟩]
  change (do
    let forms ← expandGroup ns
    return if ns.any isSeparator then [group forms] else forms) = _
  rw [unseparated]
  cases expandGroup ns <;> rfl

theorem ofTokens_tokens (unmarked : n.Unmarked) : ofTokens n.tokens = .ok [n] := by
  have single : ∀ k ∈ [n], k.Unmarked := List.forall_mem_singleton.mpr unmarked
  have read :=
    ofTokens_of_unseparated (fun k mem => (single k mem).avoids _) (any_isSeparator single)
  rw [expandGroup, unsugar_of_unmarked single] at read
  simpa [tokensOf] using read.trans (expandEach_of_unmarked single)

theorem ofTokens_quote (unmarked : n.Unmarked) :
    ofTokens (.mark .quote :: n.tokens) = .ok [group [name "quote", n]] := by
  have quoted : ∀ k ∈ [group [name "quote", n]], k.Unmarked := by
    refine List.forall_mem_singleton.mpr (.group ?_)
    exact List.forall_mem_cons.mpr ⟨avoids_name _ _, List.forall_mem_singleton.mpr unmarked⟩
  have avoid : ∀ k ∈ [leaf (.mark .quote), n], k.Avoids Mark.isParen := by
    refine List.forall_mem_cons.mpr ⟨.leaf ?_, List.forall_mem_singleton.mpr (unmarked.avoids _)⟩
    rintro _ ⟨⟩
    rfl
  have separator : n.isSeparator = false := unmarked.isMark .separator
  have quote : n.isQuote = false := unmarked.isMark .quote
  have unseparated : [leaf (.mark .quote), n].any isSeparator = false := by
    simp [separator]
    rfl
  have read := ofTokens_of_unseparated avoid unseparated
  have unsugared : unsugar [leaf (.mark .quote), n] = .ok [group [name "quote", n]] := by
    rw [unsugar_of_unseparated unseparated]
    simp [applyQuotes, quote]
    rfl
  rw [expandGroup, unsugared] at read
  simpa [tokensOf, tokens] using read.trans (expandEach_of_unmarked quoted)

/-! The tokens of nodes whose sugar was undone. -/

/-- The tokens that take the place of sugar. -/
def sugarTokens : List Token :=
  [.name "quote", .name "block", .mark .leftParen, .mark .rightParen]

theorem mem_tokensOf {t : Token} : t ∈ tokensOf ns ↔ ∃ n ∈ ns, t ∈ n.tokens := by
  induction ns with
  | nil => simp [tokensOf]
  | cons n ns ih => simp [tokensOf, ih]

theorem mem_tokens_group {t : Token} : t ∈ (group ns).tokens ↔
    t = .mark .leftParen ∨ t ∈ tokensOf ns ∨ t = .mark .rightParen := by
  simp [tokens]

theorem mem_tokens_quoteTimes {depth : Nat} {t : Token} (mem : t ∈ (quoteTimes depth n).tokens) :
    t ∈ n.tokens ∨ t ∈ sugarTokens := by
  induction depth with
  | zero => exact .inl mem
  | succ depth ih =>
    rcases mem_tokens_group.mp mem with rfl | inside | rfl
    · exact .inr (by simp [sugarTokens])
    · simp only [tokensOf, name, tokens, List.append_nil, List.singleton_append,
        List.mem_cons] at inside
      rcases inside with rfl | inside
      · exact .inr (by simp [sugarTokens])
      · exact ih inside
    · exact .inr (by simp [sugarTokens])

theorem mem_tokensOf_unsugar {children : List Node} (unsugared : unsugar children = .ok out)
    {t : Token} (mem : t ∈ tokensOf out) : t ∈ tokensOf children ∨ t ∈ sugarTokens := by
  obtain ⟨o, among, mem⟩ := mem_tokensOf.mp mem
  obtain ⟨times, n, before, _, rfl⟩ := exists_of_mem_applyQuotes unsugared among
  rcases mem_tokens_quoteTimes mem with mem | sugar
  · rcases (of_mem_asBlock before).1 with child | rfl
    · exact .inl (mem_tokensOf.mpr ⟨n, child, mem⟩)
    · exact .inr (by simp_all [sugarTokens, name, tokens])
  · exact .inr sugar

theorem mem_tokensOf_expandEach (expanded : expandEach ns = .ok out) {t : Token}
    (mem : t ∈ tokensOf out) : t ∈ tokensOf ns ∨ t ∈ sugarTokens := by
  induction ns using expandEach.induct generalizing out t with
  | case1 =>
    rw [expandEach] at expanded
    cases expanded
    exact .inl mem
  | case2 u ns ih =>
    rw [expandEach] at expanded
    obtain ⟨rest, later, same⟩ := bind_eq_ok_iff.mp expanded
    cases same
    rcases List.mem_append.mp mem with here | there
    · exact .inl (List.mem_append_left _ here)
    · exact (ih later there).imp_left (List.mem_append_right _)
  | case3 children ns f failed =>
    rw [expandEach_group, expandGroup, failed] at expanded
    cases expanded
  | case4 children ns unsugared found ihInner ihRest =>
    rw [expandEach_group, expandGroup, found] at expanded
    obtain ⟨inner, entered, expanded⟩ := bind_eq_ok_iff.mp expanded
    obtain ⟨rest, later, same⟩ := bind_eq_ok_iff.mp expanded
    cases same
    rcases List.mem_append.mp mem with here | there
    · rcases mem_tokens_group.mp here with rfl | inside | rfl
      · exact .inr (by simp [sugarTokens])
      · have origin := (ihInner entered inside).elim (mem_tokensOf_unsugar found) .inr
        exact origin.imp_left fun child =>
          List.mem_append_left _ (mem_tokens_group.mpr (.inr (.inl child)))
      · exact .inr (by simp [sugarTokens])
    · exact (ihRest later there).imp_left (List.mem_append_right _)

/-- Besides the tokens of a text its nodes have only those that take the place of sugar. -/
theorem mem_tokensOf_ofTokens {ts : List Token} {nodes : List Node}
    (read : ofTokens ts = .ok nodes) {t : Token} (mem : t ∈ tokensOf nodes) :
    t ∈ ts ∨ t ∈ sugarTokens := by
  obtain ⟨root, matched, read⟩ := bind_eq_ok_iff.mp read
  obtain ⟨forms, expanded, same⟩ := bind_eq_ok_iff.mp read
  obtain ⟨unsugared, first, later⟩ := bind_eq_ok_iff.mp expanded
  rw [← (matchParens_eq_ok_iff.mp matched).1]
  have inForms (mem : t ∈ tokensOf forms) : t ∈ tokensOf root ∨ t ∈ sugarTokens :=
    (mem_tokensOf_expandEach later mem).elim (mem_tokensOf_unsugar first) .inr
  cases same
  split at mem
  · simp only [tokensOf, List.append_nil, mem_tokens_group] at mem
    rcases mem with rfl | inside | rfl
    · exact .inr (by simp [sugarTokens])
    · exact inForms inside
    · exact .inr (by simp [sugarTokens])
  · exact inForms mem

end Node

/-! Reading what was read. -/

def Token.isFloat : Token → Bool
  | .number (.float _) => true
  | _ => false

/-- A token that stands for an atom, and that the atom is written as. -/
def Token.Legible (t : Token) : Prop :=
  ∃ d : Datum, d.Readable ∧ Datum.ofToken t = .ok d ∧ d.node = .leaf t

namespace Token

/-- How a word comes to be a token. -/
theorem cases_of_ofWord {word : List Char} {t : Token} {offset : Nat}
    (read : ofWord offset word = .ok t) :
    (word.all isSymbol = true ∧ t = .operator (String.ofList word)) ∨
    (∃ n, t = .number n) ∨
    (word.all isSymbol = false ∧ Number.read? word = none ∧
      (word.head?.map Char.isDigit).getD false = false ∧ t = .name (String.ofList word)) := by
  unfold ofWord at read
  split at read
  · next symbols =>
    cases read
    exact .inl ⟨symbols, rfl⟩
  · next mixed =>
    split at read
    · next n _ =>
      cases read
      exact .inr (.inl ⟨n, rfl⟩)
    · next noNumber =>
      split at read
      · cases read
      · next noDigit =>
        cases read
        exact .inr (.inr ⟨by simpa using mixed, noNumber, by simpa using noDigit, rfl⟩)

theorem Written.legible {word : List Char} {t : Token} (written : Written word t)
    (noFloat : t.isFloat = false) : t.Legible := by
  rcases cases_of_ofWord (written.reads 0) with ⟨symbols, rfl⟩ | ⟨n, rfl⟩ |
    ⟨mixed, noNumber, noDigit, rfl⟩
  · have operator : Datum.Word (String.ofList word) := by
      refine ⟨by simpa using written.filled, by simpa using written.plain, ⟨?_, ?_⟩,
        .inl (by simpa using symbols)⟩
      all_goals
        intro same
        rw [← String.toList_inj, String.toList_ofList] at same
        subst same
        revert symbols
        decide
    exact ⟨.string _, .string operator, rfl, by simp [Datum.node, Datum.wordToken, symbols]⟩
  · cases n with
    | int n => exact ⟨.number (.int n), .int n, rfl, rfl⟩
    | float x => cases noFloat
  · by_cases isTrue : String.ofList word = "true"
    · exact ⟨.boolean true, .boolean true, by rw [isTrue]; rfl, by rw [isTrue]; rfl⟩
    · by_cases isFalse : String.ofList word = "false"
      · exact ⟨.boolean false, .boolean false, by rw [isFalse]; rfl, by rw [isFalse]; rfl⟩
      · have name : Datum.Word (String.ofList word) :=
          ⟨by simpa using written.filled, by simpa using written.plain, ⟨isTrue, isFalse⟩,
            .inr (by simpa using ⟨noNumber, noDigit⟩)⟩
        exact ⟨.string _, .string name, by simp [Datum.ofToken, isTrue, isFalse],
          by simp [Datum.node, Datum.wordToken, mixed]⟩

theorem written_of_close {word : List Char} {offset : Nat} {ts : List Token}
    (plain : ∀ c ∈ word, isWordChar c = true) (closed : close offset word = .ok ts) :
    ∀ t ∈ ts, ∃ word, Written word t := by
  unfold close at closed
  split at closed
  · cases closed
    nofun
  · next filled =>
    obtain ⟨t, read, same⟩ := bind_eq_ok_iff.mp closed
    cases same
    refine List.forall_mem_singleton.mpr ⟨word.reverse, by simpa using filled, by simpa using plain,
      fun other => ?_⟩
    have same := toOption_ofWord other offset word.reverse
    rw [read] at same
    cases there : ofWord other word.reverse with
    | ok u =>
      rw [there] at same
      rw [Option.some.inj same]
    | error f =>
      rw [there] at same
      cases same

theorem mark_or_written_of_scan {text word : List Char} {offset : Nat} {ts : List Token}
    (plain : ∀ c ∈ word, isWordChar c = true) (read : scan word offset text = .ok ts) :
    ∀ t ∈ ts, (∃ m, t = .mark m) ∨ ∃ word, Written word t := by
  induction text generalizing word offset ts with
  | nil => exact fun t mem => .inr (written_of_close plain read t mem)
  | cons c cs ih =>
    rw [scan] at read
    split at read
    · next m _ =>
      obtain ⟨before, closed, read⟩ := bind_eq_ok_iff.mp read
      obtain ⟨behind, rest, same⟩ := bind_eq_ok_iff.mp read
      cases same
      refine List.forall_mem_append.mpr
        ⟨fun t mem => .inr (written_of_close plain closed t mem), ?_⟩
      exact List.forall_mem_cons.mpr ⟨.inl ⟨m, rfl⟩, ih (List.forall_mem_nil _) rest⟩
    · split at read
      · obtain ⟨before, closed, read⟩ := bind_eq_ok_iff.mp read
        obtain ⟨behind, rest, same⟩ := bind_eq_ok_iff.mp read
        cases same
        exact List.forall_mem_append.mpr
          ⟨fun t mem => .inr (written_of_close plain closed t mem), ih (List.forall_mem_nil _) rest⟩
      · split at read
        · next wordChar => exact ih (List.forall_mem_cons.mpr ⟨wordChar, plain⟩) read
        · cases read

/-- Every token of a text that is not a mark was read off a word. -/
theorem mark_or_written {text : List Char} {ts : List Token} (read : ofText text = .ok ts) :
    ∀ t ∈ ts, (∃ m, t = .mark m) ∨ ∃ word, Written word t :=
  mark_or_written_of_scan (List.forall_mem_nil _) read

theorem legible_of_ofText {text : List Char} {ts : List Token} (read : ofText text = .ok ts)
    (noFloat : ∀ t ∈ ts, t.isFloat = false) : ∀ t ∈ ts, (∃ m, t = .mark m) ∨ t.Legible :=
  fun t mem => (mark_or_written read t mem).imp_right fun ⟨_, written⟩ =>
    written.legible (noFloat t mem)

end Token

namespace Datum

theorem word_block : Word "block" := by decide +kernel

theorem word_quote : Word "quote" := by decide +kernel

theorem legible_of_mem_sugarTokens {t : Token} (mem : t ∈ Node.sugarTokens) :
    (∃ m, t = .mark m) ∨ t.Legible := by
  simp only [Node.sugarTokens, List.mem_cons, List.not_mem_nil, or_false] at mem
  rcases mem with rfl | rfl | rfl | rfl
  · exact .inr ⟨.string "quote", .string word_quote, rfl, rfl⟩
  · exact .inr ⟨.string "block", .string word_block, rfl, rfl⟩
  · exact .inl ⟨_, rfl⟩
  · exact .inl ⟨_, rfl⟩

/-- What the node was read as is written as a node that reads as the same. -/
structure Rereads (literal : Bool) (n : Node) (d : Datum) : Prop where
  readable : d.Readable
  again : ofNode literal d.node = .ok d
  head : headName? [d.node] = headName? [n]

theorem headName?_cons (n : Node) (ns : List Node) : headName? (n :: ns) = headName? [n] := by
  cases n with
  | leaf t => cases t <;> rfl
  | group children => rfl

/-- What code gets for a missing else branch. -/
def emptyBlock : Datum := list [string "block"]

theorem ofChildren_emptyBlock (literal : Bool) (head : Option String) (position : Nat) :
    ofChildren literal head position [emptyBlock.node] = .ok [emptyBlock] := by
  have alone : ∀ literal, ofNode literal emptyBlock.node = .ok emptyBlock := by
    intro literal
    cases literal <;> rfl
  rw [ofChildren, alone]
  rfl

/-- The items of a group as they are kept. -/
def completed (literal : Bool) (head : Option String) (items : List Datum) : List Datum :=
  if literal then items else completeIf head items

theorem ofNode_group {literal : Bool} {ns : List Node} {items : List Datum}
    (read : ofChildren literal (headName? ns) 0 ns = .ok items) :
    ofNode literal (.group ns) = .ok (list (completed literal (headName? ns) items)) := by
  rw [ofNode, read]
  rfl

theorem completed_eq (literal : Bool) (head : Option String) (items : List Datum) :
    completed literal head items =
      if literal = false ∧ head = some "if" ∧ items.length = 3 then items ++ [emptyBlock]
      else items := by
  cases literal <;> simp [completed, completeIf, emptyBlock]

theorem completed_completed (literal : Bool) (head : Option String) (items : List Datum) :
    completed literal head (completed literal head items) = completed literal head items := by
  rw [completed_eq literal head items]
  split
  · next incomplete => simp [completed_eq, incomplete]
  · next complete => rw [completed_eq, if_neg complete]

theorem ofChildren_append (literal : Bool) (head : Option String) (position : Nat)
    (ns ms : List Node) : ofChildren literal head position (ns ++ ms) = do
      let items ← ofChildren literal head position ns
      return items ++ (← ofChildren literal head (position + ns.length) ms) := by
  induction ns generalizing position with
  | nil =>
    rw [List.nil_append, ofChildren]
    cases ofChildren literal head position ms <;> rfl
  | cons n ns ih =>
    rw [List.cons_append, ofChildren, ofChildren, ih, List.length_cons, Nat.add_right_comm,
      Nat.add_assoc]
    cases ofNode (literal || holdsData head position) n <;>
      cases ofChildren literal head (position + 1) ns <;>
        cases ofChildren literal head (position + (ns.length + 1)) ms <;> rfl

theorem ofChildren_rereads {literal : Bool} {head : Option String} {position : Nat} {ns : List Node}
    {items : List Datum} (read : ofChildren literal head position ns = .ok items)
    (each : ∀ n ∈ ns, ∀ literal d, ofNode literal n = .ok d → Rereads literal n d) :
    (∀ d ∈ items, d.Readable) ∧ headName? (items.map node) = headName? ns ∧
      ofChildren literal head position (items.map node) = .ok items := by
  induction ns generalizing position items with
  | nil =>
    cases read
    exact ⟨nofun, rfl, rfl⟩
  | cons n ns ih =>
    obtain ⟨here, there⟩ := List.forall_mem_cons.mp each
    rw [ofChildren] at read
    obtain ⟨d, first, read⟩ := bind_eq_ok_iff.mp read
    obtain ⟨rest, later, same⟩ := bind_eq_ok_iff.mp read
    cases same
    obtain ⟨readable, again, head⟩ := here _ _ first
    obtain ⟨others, _, read⟩ := ih later there
    refine ⟨List.forall_mem_cons.mpr ⟨readable, others⟩, ?_, ?_⟩
    · rw [List.map_cons, headName?_cons, headName?_cons n, head]
    · rw [List.map_cons, ofChildren, again, read]
      rfl

theorem completed_rereads {literal : Bool} {children : List Node} {items : List Datum}
    (readable : ∀ d ∈ items, d.Readable) (head : headName? (items.map node) = headName? children)
    (again : ofChildren literal (headName? children) 0 (items.map node) = .ok items) :
    let kept := completed literal (headName? children) items
    (∀ d ∈ kept, d.Readable) ∧ headName? (kept.map node) = headName? children ∧
      ofChildren literal (headName? children) 0 (kept.map node) = .ok kept := by
  intro kept
  by_cases incomplete : literal = false ∧ headName? children = some "if" ∧ items.length = 3
  · have added : kept = items ++ [emptyBlock] := (completed_eq _ _ _).trans (if_pos incomplete)
    have blockReadable : emptyBlock.Readable :=
      .list (List.forall_mem_singleton.mpr (.string word_block))
    rw [added]
    refine ⟨List.forall_mem_append.mpr ⟨readable, List.forall_mem_singleton.mpr blockReadable⟩,
      ?_, ?_⟩
    · cases items with
      | nil => cases incomplete.2.2
      | cons d ds =>
        rw [← head, List.cons_append, List.map_cons, List.map_cons, headName?_cons,
          headName?_cons _ (ds.map node)]
    · rw [List.map_append, List.map_singleton, ofChildren_append, again, ofChildren_emptyBlock]
      rfl
  · have same : kept = items := (completed_eq _ _ _).trans (if_neg incomplete)
    rw [same]
    exact ⟨readable, head, again⟩

/-- An else branch is added where there is none, so reading again adds nothing. -/
theorem ofNode_rereads {n : Node} (unmarked : n.Unmarked)
    (legible : ∀ t ∈ n.tokens, (∃ m, t = .mark m) ∨ t.Legible) (literal : Bool) (d : Datum)
    (read : ofNode literal n = .ok d) : Rereads literal n d := by
  induction unmarked generalizing literal d with
  | @leaf t allowed =>
    rcases legible t (by simp [Node.tokens]) with ⟨m, rfl⟩ | ⟨atom, readable, same, written⟩
    · exact Bool.noConfusion (allowed m rfl)
    · rw [ofNode, same] at read
      cases read
      exact ⟨readable, by rw [written]; exact same, by rw [written]⟩
  | @group children each ih =>
    have inside : ∀ n ∈ children, ∀ literal d, ofNode literal n = .ok d → Rereads literal n d :=
      fun n mem => ih n mem fun t among => legible t
        (Node.mem_tokens_group.mpr (.inr (.inl (Node.mem_tokensOf.mpr ⟨n, mem, among⟩))))
    rw [ofNode] at read
    obtain ⟨items, parsed, same⟩ := bind_eq_ok_iff.mp read
    obtain rfl : list (completed literal (headName? children) items) = d := Except.ok.inj same
    obtain ⟨readable, head, again⟩ := ofChildren_rereads parsed inside
    obtain ⟨keptReadable, keptHead, keptAgain⟩ := completed_rereads readable head again
    have complete := completed_completed literal (headName? children) items
    generalize completed literal (headName? children) items = kept at *
    rw [← keptHead] at keptAgain complete
    refine ⟨.list keptReadable, ?_, by rw [node_list]; rfl⟩
    rw [node_list, ofNode_group keptAgain, complete]

end Datum

end CellLisp
