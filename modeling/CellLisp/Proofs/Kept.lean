import Mathlib.Algebra.Order.Group.Multiset
import Mathlib.Tactic.Abel
import CellLisp.Proofs.Meaning
import CellLisp.Proofs.Worklist

/-!
# What undoing the sugar keeps

The forms of a text have its tokens, in their order, without the quote marks and the separators. In
place of each quote mark stands a quotation around what it quoted, and each group with separators
begins with one `block`. Nothing else is added and nothing is written twice.
-/

namespace CellLisp

namespace Token

def isSugar (t : Token) : Bool := t.isMark .quote || t.isMark .separator

/-- How many quote marks there are. -/
def quotes (ts : List Token) : Nat := ts.countP (isMark .quote)

/-- What stands in the place of a quote mark, around the tokens that it quotes. -/
def quotation : Multiset Token := {.mark .leftParen, .name "quote", .mark .rightParen}

/-- The tokens `us` are those of `ts` without sugar, in their order, and besides them so many
quotations and so many names of blocks. -/
structure Unsweetened (quoted blocks : Nat) (ts us : List Token) : Prop where
  order : (ts.filter (!·.isSugar)).Sublist us
  whole : Multiset.ofList us =
    Multiset.ofList (ts.filter (!·.isSugar)) + quoted • quotation + blocks • {.name "block"}

namespace Unsweetened

variable {quoted blocks : Nat} {t : Token} {ts us : List Token}

theorem nil : Unsweetened 0 0 [] [] := ⟨.slnil, by simp⟩

theorem append {quotedMore blocksMore : Nat} {more added : List Token}
    (first : Unsweetened quoted blocks ts us)
    (second : Unsweetened quotedMore blocksMore more added) :
    Unsweetened (quoted + quotedMore) (blocks + blocksMore) (ts ++ more) (us ++ added) := by
  constructor
  · rw [List.filter_append]
    exact first.order.append second.order
  · rw [List.filter_append, ← Multiset.coe_add, ← Multiset.coe_add, first.whole, second.whole,
      add_nsmul, add_nsmul]
    abel

/-- A token that is no sugar stays. -/
theorem keep (plain : t.isSugar = false) : Unsweetened 0 0 [t] [t] := by
  constructor
  · simp [plain]
  · simp [plain]

/-- A sugar mark goes. -/
theorem drop (sugar : t.isSugar = true) : Unsweetened 0 0 [t] [] := by
  constructor
  · simp [sugar]
  · simp [sugar]

theorem block : Unsweetened 0 1 [] [.name "block"] := by
  constructor
  · simp
  · simp only [List.filter_nil, Multiset.coe_nil, Multiset.coe_singleton, zero_nsmul, one_nsmul,
      zero_add]

theorem quotation (within : Unsweetened quoted blocks ts us) :
    Unsweetened (quoted + 1) blocks ts
      (.mark .leftParen :: .name "quote" :: (us ++ [.mark .rightParen])) := by
  constructor
  · exact ((within.order.trans (List.sublist_append_left _ _)).cons _).cons _
  · rw [← Multiset.cons_coe, ← Multiset.cons_coe, ← Multiset.coe_add, within.whole, add_nsmul,
      one_nsmul, Token.quotation]
    simp only [← Multiset.singleton_add, Multiset.insert_eq_cons, Multiset.coe_singleton]
    abel

theorem parens (within : Unsweetened quoted blocks ts us) :
    Unsweetened quoted blocks (.mark .leftParen :: ts ++ [.mark .rightParen])
      (.mark .leftParen :: us ++ [.mark .rightParen]) := by
  have whole := ((keep (t := .mark .leftParen) rfl).append within).append
    (keep (t := .mark .rightParen) rfl)
  simpa using whole

end Unsweetened

end Token

namespace Node

open Token

mutual

/-- How many of the groups of a node have separators directly in them. -/
def blocks : Node → Nat
  | leaf _ => 0
  | group children => (if children.any isSeparator then 1 else 0) + blocksIn children

def blocksIn : List Node → Nat
  | [] => 0
  | n :: ns => n.blocks + blocksIn ns

end

/-- The nodes of a text, in one group if there is a separator between them. -/
def outermost (root : List Node) : List Node :=
  if root.any isSeparator then [group root] else root

variable {n m : Node} {ns children root : List Node} {depth quoted count : Nat} {ts : List Token}

theorem unsweetened_quoteTimes (within : Unsweetened quoted count ts n.tokens) (depth : Nat) :
    Unsweetened (depth + quoted) count ts (quoteTimes depth n).tokens := by
  induction depth with
  | zero => simpa [quoteTimes] using within
  | succ depth ih =>
    have around := ih.quotation
    rw [Nat.add_right_comm] at around
    simpa [quoteTimes, tokens, tokensOf, name] using around

/-- The marks that wait for a node count as read. -/
theorem unsweetened_runs (depth : Nat)
    (each : ∀ n ∈ ns, n.isSeparator = false → n.isQuote = false →
      Unsweetened (quotes n.tokens) n.blocks n.tokens n.meaning.tokens)
    (firm : (quoteMarks depth ++ ns.filter (!·.isSeparator)).getLast?.any isQuote = false) :
    Unsweetened (depth + quotes (tokensOf ns)) (blocksIn ns) (tokensOf ns)
      (tokensOf (quoteRuns (quoteMarks depth ++ (meanings ns).filter (!·.isSeparator)))) := by
  induction ns generalizing depth with
  | nil =>
    cases depth with
    | zero => simpa [quoteMarks, quoteRuns, tokensOf, quotes, blocksIn, meanings] using .nil
    | succ depth =>
      rw [quoteMarks_succ] at firm
      simp [isQuote, isMark] at firm
  | cons n ns ih =>
    obtain ⟨here, there⟩ := List.forall_mem_cons.mp each
    by_cases separator : n.isSeparator = true
    · rw [List.filter_cons_of_neg (by simpa using separator)] at firm
      have rest := (Unsweetened.drop (t := .mark .separator) rfl).append (ih _ there firm)
      rw [eq_of_isMark separator]
      simpa [meanings, meaning, tokensOf, tokens, blocksIn, blocks, quotes, isSeparator, isMark,
        Token.isMark] using rest
    · have noSeparator : n.isSeparator = false := by simpa using separator
      rw [List.filter_cons_of_pos (by simpa using noSeparator)] at firm
      by_cases quote : n.isQuote = true
      · rw [eq_of_isQuote quote, ← quoteMarks_succ] at firm
        have rest := (Unsweetened.drop (t := .mark .quote) rfl).append (ih _ there firm)
        rw [quoteMarks_succ] at rest
        rw [eq_of_isQuote quote]
        simpa [meanings, meaning, tokensOf, tokens, blocksIn, blocks, quotes, isSeparator, isMark,
          Token.isMark, Nat.add_assoc, Nat.add_comm] using rest
      · have noQuote : n.isQuote = false := by simpa using quote
        rw [last_run noQuote] at firm
        have kept := (unsweetened_quoteTimes (here noSeparator noQuote) depth).append
          (ih 0 there firm)
        have meant : n.meaning.isQuote = false := (isMark_meaning .quote n).trans noQuote
        have separates : n.meaning.isSeparator = false :=
          (isMark_meaning .separator n).trans noSeparator
        rw [meanings, List.filter_cons_of_pos (by simpa using separates), quoteRuns_run meant]
        simpa [tokensOf, blocksIn, quotes, quoteMarks, Nat.add_assoc] using kept

theorem unsweetened_desugared
    (each : ∀ n ∈ children, n.isSeparator = false → n.isQuote = false →
      Unsweetened (quotes n.tokens) n.blocks n.tokens n.meaning.tokens)
    (firm : dangles children = false) :
    Unsweetened (quotes (tokensOf children)) (group children).blocks (tokensOf children)
      (tokensOf (desugared (meanings children))) := by
  have runs := unsweetened_runs 0 each firm
  rw [desugared, any_isSeparator_meanings, blocks]
  by_cases separated : children.any isSeparator = true
  · rw [if_pos separated, if_pos separated, List.singleton_append, quoteRuns_cons rfl]
    simpa [tokensOf, name, tokens, quoteMarks] using Unsweetened.block.append runs
  · rw [if_neg separated, if_neg separated]
    simpa [quoteMarks] using runs

theorem Settled.unsweetened (settled : n.Settled) (noSeparator : n.isSeparator = false)
    (noQuote : n.isQuote = false) :
    Unsweetened (quotes n.tokens) n.blocks n.tokens n.meaning.tokens := by
  induction settled with
  | leaf t =>
    cases t with
    | mark m =>
      cases m with
      | leftParen | rightParen => exact .keep rfl
      | quote => cases noQuote
      | separator => cases noSeparator
    | number | name | operator => exact .keep rfl
  | @group children firm each ih =>
    have within := (unsweetened_desugared ih firm).parens
    simpa [meaning, tokens, quotes, Token.isMark] using within

theorem unsweetened_meantForms (settled : (group root).Settled) :
    Unsweetened (quotes (tokensOf root)) (group root).blocks (tokensOf (outermost root))
      (tokensOf (meantForms root)) := by
  rw [outermost, meantForms]
  split
  · have within := settled.unsweetened rfl rfl
    simpa [tokensOf, tokens, quotes, Token.isMark] using within
  · cases settled with
    | group firm each =>
      exact unsweetened_desugared (fun n mem => (each n mem).unsweetened) firm

/-- The nodes are those of a token list. -/
structure Parses (ts : List Token) (root : List Node) : Prop where
  tokens : tokensOf root = ts
  noParens : ∀ n ∈ root, n.Avoids Mark.isParen

theorem matchParens_iff : matchParens ts = .ok root ↔ Parses ts root := by
  rw [matchParens_eq_ok_iff]
  exact ⟨fun ⟨tokens, noParens⟩ => ⟨tokens, noParens⟩, fun ⟨tokens, noParens⟩ => ⟨tokens, noParens⟩⟩

theorem ofTokens_of_parses (parses : Parses ts root) : ofTokens ts = (do
    let forms ← expandGroup root
    return if root.any isSeparator then [group forms] else forms) := by
  rw [ofTokens, matchParens_iff.mpr parses]
  rfl

theorem ofTokens_of_settled (parses : Parses ts root) (settled : (group root).Settled) :
    ofTokens ts = .ok (meantForms root) := by
  rw [ofTokens_of_parses parses, expandGroup_of_settled settled, meantForms, meaning]
  rfl

theorem ofTokens_of_dangling (parses : Parses ts root) (dangling : ¬(group root).Settled) :
    ofTokens ts = .error .danglingQuote := by
  rw [ofTokens_of_parses parses]
  cases expanded : expandGroup root with
  | error f =>
    rw [expandGroup_error expanded]
    rfl
  | ok forms => exact absurd (expandGroup_eq_ok_iff.mp expanded).1 dangling

theorem yields_of_settled (settled : (group root).Settled) :
    (Draft.waiting root).Yields (.ok (group root).meaning) := by
  have yields := (Draft.waiting root).yields_outcome
  rw [Draft.outcome, expandGroup_of_settled settled] at yields
  exact yields

theorem yields_of_dangling (dangling : ¬(group root).Settled) :
    (Draft.waiting root).Yields (.error .danglingQuote) := by
  have yields := (Draft.waiting root).yields_outcome
  cases expanded : expandGroup root with
  | error f =>
    rw [Draft.outcome, expanded, expandGroup_error expanded] at yields
    exact yields
  | ok forms => exact absurd (expandGroup_eq_ok_iff.mp expanded).1 dangling

theorem ofTokens_eq_unbalanced_iff : ofTokens ts = .error .unbalancedParens ↔ ¬Balanced ts := by
  rw [← exists_matchParens_iff]
  constructor
  · rintro failed ⟨root, matched⟩
    have parses := matchParens_iff.mp matched
    by_cases settled : (group root).Settled
    · rw [ofTokens_of_settled parses settled] at failed
      cases failed
    · rw [ofTokens_of_dangling parses settled] at failed
      cases failed
  · intro unmatched
    cases matched : matchParens ts with
    | ok root => exact absurd ⟨root, matched⟩ unmatched
    | error f =>
      rw [ofTokens, matched, matchWithin_error matched]
      rfl

/-- Undoing the sugar of a text gives the forms that its tree means. It refuses a text whose
parentheses do not match, and of the others those in which a group ends with a quote mark. The loop
over the groups that wait comes to the same, in whatever order it takes them. -/
theorem ofTokens_meaning (ts : List Token) :
    ofTokens ts = ofTokensByQueue ts ∧
    (ofTokens ts = .error .unbalancedParens ↔ ¬Balanced ts) ∧
    (Balanced ts → ∃! root, Parses ts root) ∧
    ∀ root, Parses ts root →
      (ofTokens ts = .error .danglingQuote ↔ ∃ g, GroupOf root g ∧ dangles g = true) ∧
      (∀ forms, ofTokens ts = .ok forms ↔
        (∀ g, GroupOf root g → dangles g = false) ∧ forms = meantForms root) ∧
      (∀ forms, ofTokens ts = .ok forms →
        Unsweetened (quotes ts) (group root).blocks (tokensOf (outermost root))
          (tokensOf forms)) ∧
      ((∃ g, GroupOf root g ∧ dangles g = true) →
        (Draft.waiting root).Yields (.error .danglingQuote)) ∧
      ((∀ g, GroupOf root g → dangles g = false) →
        (Draft.waiting root).Yields (.ok (group root).meaning)) := by
  refine ⟨ofTokens_eq_byQueue ts, ofTokens_eq_unbalanced_iff, fun balanced => ?_,
    fun root parses => ?_⟩
  · obtain ⟨root, matched⟩ := exists_matchParens_iff.mpr balanced
    refine ⟨root, matchParens_iff.mp matched, fun other parses => ?_⟩
    have same := (matchParens_iff.mpr parses).symm.trans matched
    exact Except.ok.inj same
  · by_cases settled : (group root).Settled
    · have firm := settled_group_iff.mp settled
      have none : ¬∃ g, GroupOf root g ∧ dangles g = true := by simpa using firm
      rw [ofTokens_of_settled parses settled]
      refine ⟨iff_of_false nofun none, fun forms => ⟨?_, ?_⟩, ?_, fun some => absurd some none,
        fun _ => yields_of_settled settled⟩
      · rintro ⟨⟩
        exact ⟨firm, rfl⟩
      · rintro ⟨_, rfl⟩
        rfl
      · rintro forms ⟨⟩
        rw [← parses.tokens]
        exact unsweetened_meantForms settled
    · rw [ofTokens_of_dangling parses settled]
      have loose : ¬∀ g, GroupOf root g → dangles g = false := mt settled_group_iff.mpr settled
      refine ⟨iff_of_true rfl (by simpa using loose), fun forms => ?_, nofun,
        fun _ => yields_of_dangling settled, fun firm => absurd firm loose⟩
      exact iff_of_false nofun fun meant => loose meant.1

end Node

end CellLisp
