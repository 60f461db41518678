import CellLisp.Proofs.Lines
import CellLisp.Proofs.Session
import CellLisp.Proofs.Sugar

/-!
# Texts one by one and in one

Nothing of a text that is accepted on its own is left open at its end: no comment, no word, no group
and no quote mark. So its forms are the same in front of another text, and running texts joined by
line feeds is running them one by one. Only separators outside of every group reach further, as they
make one block of all forms.
-/

namespace CellLisp

instance : LawfulMonad Eval := by
  refine LawfulMonad.mk' Eval (fun x => ?_) (fun _ _ => rfl) (fun x f g => ?_)
  · funext m
    change Eval.bind x _ m = x m
    unfold Eval.bind
    cases x m <;> rfl
  · funext m
    change Eval.bind (Eval.bind x f) g m = Eval.bind x _ m
    unfold Eval.bind
    cases x m <;> rfl

namespace Source

/-- The text is accepted on its own, and no separator stands outside of its groups. -/
structure Separate (source : String) : Prop where
  accepted : ∃ forms, nodes source = .ok forms
  unseparated : ∀ tokens root, Token.ofText (Comment.strip source.toList) = .ok tokens →
    Node.matchParens tokens = .ok root → root.any Node.isSeparator = false

theorem separate_iff {source : String} : Separate source ↔ (nodes source).isOk = true ∧
    ((Token.ofText (Comment.strip source.toList)).toOption.bind fun tokens =>
      (Node.matchParens tokens).toOption).all (!·.any Node.isSeparator) = true := by
  constructor
  · rintro ⟨accepted, unseparated⟩
    refine ⟨isOk_iff.mpr accepted, ?_⟩
    cases lexed : Token.ofText (Comment.strip source.toList) with
    | error f => rfl
    | ok ts =>
      cases matched : Node.matchParens ts with
      | error f => simp [Except.toOption, matched]
      | ok root => simp [Except.toOption, matched, unseparated ts root lexed matched]
  · rintro ⟨accepted, unseparated⟩
    refine ⟨isOk_iff.mp accepted, fun ts root lexed matched => ?_⟩
    simpa [lexed, matched, Except.toOption] using unseparated

instance (source : String) : Decidable (Separate source) := decidable_of_iff _ separate_iff.symm

/-- How a text without separators outside of its groups comes to its forms. -/
structure Reads (text : List Char) (root forms : List Node) : Prop where
  matched : ∃ tokens, Comment.tokens? text = some tokens ∧ Node.matchParens tokens = .ok root
  unseparated : root.any Node.isSeparator = false
  expanded : Node.expandGroup root = .ok forms

variable {source : String} {text more : List Char} {root forms others : List Node}

theorem Reads.nodes (reads : Reads source.toList root forms) : nodes source = .ok forms := by
  obtain ⟨ts, lexed, matched⟩ := reads.matched
  refine nodes_eq_ok_iff.mpr ⟨ts, Comment.tokens?_eq_some_iff.mp lexed, ?_⟩
  refine bind_eq_ok_iff.mpr ⟨root, matched, bind_eq_ok_iff.mpr ⟨forms, reads.expanded, ?_⟩⟩
  rw [reads.unseparated]
  rfl

theorem Separate.exists_reads (separate : Separate source) :
    ∃ root forms, Reads source.toList root forms := by
  obtain ⟨_, accepted⟩ := separate.accepted
  obtain ⟨ts, lexed, read⟩ := nodes_eq_ok_iff.mp accepted
  obtain ⟨root, matched, rest⟩ := bind_eq_ok_iff.mp read
  obtain ⟨forms, expanded, _⟩ := bind_eq_ok_iff.mp rest
  have unseparated := separate.unseparated ts root lexed matched
  exact ⟨root, forms, ⟨ts, Comment.tokens?_eq_some_iff.mpr lexed, matched⟩, unseparated, expanded⟩

theorem Reads.empty : Reads [] [] [] := by
  refine ⟨⟨[], rfl, rfl⟩, rfl, ?_⟩
  change Node.expandEach [] = _
  rw [Node.expandEach]

theorem Reads.append {roots : List Node} (first : Reads text root forms)
    (second : Reads more roots others) :
    Reads (text ++ '\n' :: more) (root ++ roots) (forms ++ others) := by
  obtain ⟨ts, lexed, matched⟩ := first.matched
  obtain ⟨us, lexedSecond, matchedSecond⟩ := second.matched
  refine ⟨⟨ts ++ us, ?_, Node.matchParens_append matched matchedSecond⟩, ?_, ?_⟩
  · rw [Comment.tokens?_append, Token.both_eq_some_iff]
    exact ⟨ts, us, lexed, lexedSecond, rfl⟩
  · rw [List.any_append, first.unseparated, second.unseparated]
    rfl
  · exact Node.expandGroup_append first.expanded second.expanded first.unseparated
      second.unseparated

end Source

namespace Session

variable {depth : Nat}

theorem runForms_append (last : Option Value) (ns ms : List Node) :
    runForms depth last (ns ++ ms) = runForms depth last ns >>= (runForms depth · ms) := by
  induction ns generalizing last with
  | nil => rfl
  | cons n ns ih => simp [runForms, ih]

/-- A text without forms leaves the value there was. -/
theorem runForms_eq (last : Option Value) (ns : List Node) :
    runForms depth last ns = do
      let v ← runForms depth none ns
      return v.or last := by
  induction ns generalizing last with
  | nil => rfl
  | cons n ns ih =>
    simp only [runForms, bind_assoc]
    refine bind_congr fun form => bind_congr fun v => ?_
    rw [ih (some v)]
    simp

theorem run_eq {source : String} {forms : List Node} (found : Source.nodes source = .ok forms) :
    run depth source = runForms depth none forms := by
  unfold run
  rw [found]
  rfl

/-- Runs texts in order, for the value of the last one that has a form or else for the value
given. -/
def runEach (depth : Nat) (last : Option Value) : List String → Eval (Option Value)
  | [] => return last
  | text :: texts => do
    let v ← run depth text
    runEach depth (v.or last) texts

theorem runEach_eq (last : Option Value) (texts : List String) :
    runEach depth last texts = do
      let v ← runEach depth none texts
      return v.or last := by
  induction texts generalizing last with
  | nil => rfl
  | cons text texts ih =>
    simp only [runEach, bind_assoc]
    refine bind_congr fun v => ?_
    rw [ih (v.or last), ih (v.or none)]
    simp [Option.or_assoc]

open Source in
/-- Joined texts have the forms of all of them, which run as those of each do. -/
theorem exists_reads_of_joined {texts : List String} (separate : ∀ t ∈ texts, Separate t) :
    ∃ root forms, Reads ("\n".intercalate texts).toList root forms ∧
      runEach depth none texts = runForms depth none forms := by
  induction texts with
  | nil => exact ⟨[], [], .empty, rfl⟩
  | cons text texts ih =>
    obtain ⟨here, there⟩ := List.forall_mem_cons.mp separate
    obtain ⟨root, forms, reads⟩ := here.exists_reads
    obtain ⟨roots, others, readsRest, same⟩ := ih there
    cases texts with
    | nil =>
      refine ⟨root, forms, by simpa using reads, ?_⟩
      simp [runEach, run_eq reads.nodes]
    | cons next texts =>
      refine ⟨root ++ roots, forms ++ others, ?_, ?_⟩
      · have joined := reads.append readsRest
        simpa [String.intercalate_cons_cons] using joined
      · rw [runEach, run_eq reads.nodes, runForms_append]
        refine bind_congr fun v => ?_
        rw [runEach_eq, same, ← runForms_eq, Option.or_none]

/-- Texts that are accepted on their own and have no separators outside of their groups run one by
one as they run joined by line feeds. -/
theorem run_joined (depth : Nat) (texts : List String)
    (separate : ∀ t ∈ texts, Source.Separate t) :
    run depth ("\n".intercalate texts) = runEach depth none texts := by
  obtain ⟨root, forms, reads, same⟩ := exists_reads_of_joined separate
  rw [same, run_eq reads.nodes]

/-- Comments, a carriage return, a text without forms, and lines that end a text. -/
def commentedTexts : List String :=
  ["(def x 1) # one (\r", "", "((set x 2) ; x)\n\n", "# nothing '"]

set_option maxRecDepth 4000 in
theorem run_joined_with_comments : (∀ t ∈ commentedTexts, Source.Separate t) ∧
    run 9 ("\n".intercalate commentedTexts) = runEach 9 none commentedTexts ∧
    (runEach 9 none commentedTexts Machine.initial).value?.any
      (·.any (·.equal (.int 2))) = true := by
  have separate : ∀ t ∈ commentedTexts, Source.Separate t := by decide +kernel
  exact ⟨separate, run_joined 9 commentedTexts separate, by decide +kernel⟩

end Session

end CellLisp
