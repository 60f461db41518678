import CellLisp.Proofs.Atomicity
import CellLisp.Proofs.Placement

/-!
# What a node is read as

A node is read unless one of its leaves is a mark, and then the first of these is named. What is
read has the shape of the node, with an atom for each of its tokens; only an `if` that lacks its
else branch has an item more. Whether it stands in code is told by the whole way from the root to
it: nothing inside a quoted form or inside the parameters of a lambda is code.
-/

namespace CellLisp

namespace Token

def mark? : Token → Option Mark
  | mark m => some m
  | _ => none

theorem mark?_eq_some_iff {t : Token} {m : Mark} : t.mark? = some m ↔ t = mark m := by
  cases t <;> simp [mark?]

/-- The atom that the token stands for. -/
inductive Means : Token → Datum → Prop
  | number (n : Number) : Means (number n) (.number n)
  | true : Means (name "true") (.boolean true)
  | false : Means (name "false") (.boolean false)
  | name {s : String} (notTrue : s ≠ "true") (notFalse : s ≠ "false") : Means (name s) (.string s)
  | operator (s : String) : Means (operator s) (.string s)

theorem means_iff {t : Token} {d : Datum} : t.Means d ↔ Datum.ofToken t = .ok d := by
  constructor
  · intro means
    cases means with
    | number | true | false | operator => rfl
    | name notTrue notFalse => simp [Datum.ofToken, notTrue, notFalse]
  · intro read
    cases t with
    | mark m => cases read
    | number n =>
      cases read
      exact .number n
    | operator s =>
      cases read
      exact .operator s
    | name s =>
      simp only [Datum.ofToken] at read
      split at read
      · next same =>
        cases read
        exact same ▸ .true
      · next notTrue =>
        split at read
        · next same =>
          cases read
          exact same ▸ .false
        · next notFalse =>
          cases read
          exact .name notTrue notFalse

theorem Means.unique {t : Token} {d e : Datum} (first : t.Means d) (second : t.Means e) :
    d = e := by
  have read := means_iff.mp first
  rw [means_iff.mp second] at read
  exact (Except.ok.inj read).symm

theorem Means.proper {t : Token} {d : Datum} (means : t.Means d) : d.Proper := by
  cases means with
  | number n => exact .number n
  | true | false => exact .boolean _
  | name | operator => exact .string _

end Token

namespace Datum

/-- Each child is read for itself, as data by the flag, the head and its position. -/
theorem ofChildren_each {literal : Bool} {head : Option String} {position : Nat} {ns : List Node}
    {items : List Datum} (read : ofChildren literal head position ns = .ok items) :
    items.length = ns.length ∧ ∀ (i : Nat) (n : Node) (d : Datum), ns[i]? = some n →
      items[i]? = some d → ofNode (literal || holdsData head (position + i)) n = .ok d := by
  induction ns generalizing position items with
  | nil =>
    cases read
    simp
  | cons n ns ih =>
    rw [ofChildren] at read
    obtain ⟨d, first, read⟩ := bind_eq_ok_iff.mp read
    obtain ⟨rest, later, same⟩ := bind_eq_ok_iff.mp read
    cases same
    obtain ⟨count, each⟩ := ih later
    refine ⟨by simp [count], ?_⟩
    intro i k e child item
    cases i with
    | zero =>
      cases child
      cases item
      exact first
    | succ i =>
      have deeper := each i k e child item
      rwa [Nat.add_assoc, Nat.add_comm 1] at deeper

end Datum

namespace Node

mutual

/-- The tokens of a node from left to right. -/
def leaves : Node → List Token
  | leaf t => [t]
  | group children => leavesOf children

def leavesOf : List Node → List Token
  | [] => []
  | n :: ns => n.leaves ++ leavesOf ns

end

def child? : Node → Nat → Option Node
  | leaf _, _ => none
  | group children, i => children[i]?

/-- The node to which the path leads: each step tells the position of a child. -/
def at? : Node → List Nat → Option Node
  | n, [] => some n
  | n, i :: path => (n.child? i).bind (·.at? path)

/-- The path goes into what is data: from a group headed by `quote` it takes what is behind the
head, or from one headed by `lambda` the parameters. -/
def Literal (root : Node) (path : List Nat) : Prop :=
  ∃ above i below children, path = above ++ i :: below ∧ root.at? above = some (group children) ∧
    (children.head? = some (name "quote") ∧ 0 < i ∨ children.head? = some (name "lambda") ∧ i = 1)

/-- The path leads to an `if` that is code and has no else branch. -/
def LacksElse (root : Node) (path : List Nat) : Prop :=
  ¬root.Literal path ∧ ∃ children, root.at? path = some (group children) ∧
    children.length = 3 ∧ children.head? = some (name "if")

/-- The datum has the shape of the node at the path and the meanings of its tokens, with an empty
block as one more item of each group that lacks it. -/
inductive Image (lacks : List Nat → Prop) : List Nat → Node → Datum → Prop
  | leaf {path : List Nat} {t : Token} {d : Datum} (means : t.Means d) :
      Image lacks path (leaf t) d
  | complete {path : List Nat} {children : List Node} {items : List Datum}
      (complete : ¬lacks path) (same : items.length = children.length)
      (each : ∀ (i : Nat) (n : Node) (d : Datum), children[i]? = some n → items[i]? = some d →
        Image lacks (path ++ [i]) n d) :
      Image lacks path (group children) (.list items)
  | completed {path : List Nat} {children : List Node} {items : List Datum}
      (lacking : lacks path) (same : items.length = children.length)
      (each : ∀ (i : Nat) (n : Node) (d : Datum), children[i]? = some n → items[i]? = some d →
        Image lacks (path ++ [i]) n d) :
      Image lacks path (group children) (.list (items ++ [.list [.string "block"]]))

variable {root n : Node} {children : List Node} {path : List Nat} {lacks : List Nat → Prop}
  {d e : Datum} {items others : List Datum} {literal : Bool}

theorem eq_items_of_each (same : items.length = children.length)
    (also : others.length = children.length)
    (each : ∀ (i : Nat) (n : Node) (d e : Datum), children[i]? = some n → items[i]? = some d →
      others[i]? = some e → d = e) : items = others := by
  apply List.ext_getElem (same.trans also.symm)
  intro i here there
  apply each i (children.get ⟨i, same ▸ here⟩)
  · simp
  · simp
  · simp

/-- A node has at most one image. -/
theorem Image.unique (first : Image lacks path n d) (second : Image lacks path n e) : d = e := by
  induction first generalizing e with
  | leaf means =>
    cases second with
    | leaf other => exact means.unique other
  | complete complete same each ih =>
    cases second with
    | complete _ also others =>
      congr 1
      apply eq_items_of_each same also
      intro i n d e child item other
      exact ih i n d child item (others i n e child other)
    | completed lacking => contradiction
  | completed lacking same each ih =>
    cases second with
    | complete complete => contradiction
    | completed _ also others =>
      congr 2
      apply eq_items_of_each same also
      intro i n d e child item other
      exact ih i n d child item (others i n e child other)

theorem exists_child_of_mem (same : items.length = children.length) (mem : d ∈ items) :
    ∃ (i : Nat) (n : Node), children[i]? = some n ∧ items[i]? = some d := by
  obtain ⟨i, inside, rfl⟩ := List.mem_iff_getElem.mp mem
  exact ⟨i, children.get ⟨i, same ▸ inside⟩, by simp, by simp⟩

theorem Image.proper (image : Image lacks path n d) : d.Proper := by
  induction image with
  | leaf means => exact means.proper
  | complete _ same _ ih =>
    apply Datum.Proper.list
    intro d mem
    obtain ⟨i, n, child, item⟩ := exists_child_of_mem same mem
    exact ih i n d child item
  | completed _ same _ ih =>
    apply Datum.Proper.list
    simp only [List.forall_mem_append, List.forall_mem_singleton]
    constructor
    · intro d mem
      obtain ⟨i, n, child, item⟩ := exists_child_of_mem same mem
      exact ih i n d child item
    · apply Datum.Proper.list
      simp [Datum.Proper.string]

theorem at?_concat (root : Node) (path : List Nat) (i : Nat) :
    root.at? (path ++ [i]) = (root.at? path).bind (·.child? i) := by
  induction path generalizing root with
  | nil => simp [at?]
  | cons j path ih => simp [at?, ih, Option.bind_assoc]

theorem literal_nil (root : Node) : ¬root.Literal [] := by
  rintro ⟨above, i, below, children, same, -⟩
  simp at same

/-- One step further the path is in data if it was before, or by the head of the group that it
enters there. -/
theorem literal_concat (found : root.at? path = some (group children)) (i : Nat) :
    root.Literal (path ++ [i]) ↔ root.Literal path ∨
      children.head? = some (name "quote") ∧ 0 < i ∨
      children.head? = some (name "lambda") ∧ i = 1 := by
  constructor
  · rintro ⟨above, j, below, around, same, there, holds⟩
    rcases List.eq_nil_or_concat below with rfl | ⟨below, last, rfl⟩
    · obtain ⟨rfl, last⟩ := List.append_inj' same rfl
      cases last
      rw [found] at there
      cases there
      exact .inr holds
    · rw [List.concat_eq_append, ← List.cons_append, ← List.append_assoc] at same
      obtain ⟨rfl, -⟩ := List.append_inj' same rfl
      exact .inl ⟨above, j, below, around, rfl, there, holds⟩
  · rintro (⟨above, j, below, around, rfl, there, holds⟩ | holds)
    · exact ⟨above, j, below ++ [i], around, by simp, there, holds⟩
    · exact ⟨path, i, [], children, rfl, found, holds⟩

theorem headName?_eq_some_iff {s : String} :
    Datum.headName? children = some s ↔ children.head? = some (name s) := by
  cases children with
  | nil => simp [Datum.headName?]
  | cons n ns =>
    rw [Datum.headName?_cons]
    cases n with
    | leaf t => cases t <;> simp [Datum.headName?, name]
    | group => simp [Datum.headName?, name]

theorem holdsData_iff {i : Nat} : Datum.holdsData (Datum.headName? children) i = true ↔
    children.head? = some (name "quote") ∧ 0 < i ∨
      children.head? = some (name "lambda") ∧ i = 1 := by
  simp [Datum.holdsData, headName?_eq_some_iff]

theorem lacksElse_iff (found : root.at? path = some (group children)) :
    root.LacksElse path ↔ ¬root.Literal path ∧ Datum.headName? children = some "if" ∧
      children.length = 3 := by
  simp [LacksElse, found, headName?_eq_some_iff, and_comm]

/-- The flag with which a node is read tells whether its path goes into data. -/
theorem image_of_ofNode (found : root.at? path = some n) (flag : literal = true ↔ root.Literal path)
    (read : Datum.ofNode literal n = .ok d) : Image root.LacksElse path n d := by
  induction n using induction_on_children generalizing path literal d with
  | leaf t => exact .leaf (Token.means_iff.mpr read)
  | group children ih =>
    rw [Datum.ofNode] at read
    obtain ⟨items, parsed, same⟩ := bind_eq_ok_iff.mp read
    obtain rfl : .list (Datum.completed literal (Datum.headName? children) items) = d :=
      Except.ok.inj same
    obtain ⟨count, readEach⟩ := Datum.ofChildren_each parsed
    have each (i : Nat) (n : Node) (d : Datum) (child : children[i]? = some n)
        (item : items[i]? = some d) : Image root.LacksElse (path ++ [i]) n d := by
      refine ih n (List.mem_of_getElem? child) ?_ ?_ (readEach i n d child item)
      · simp [at?_concat, found, child?, child]
      · rw [Bool.or_eq_true, flag, Nat.zero_add, holdsData_iff, literal_concat found]
    rw [Datum.completed_eq]
    split
    · next incomplete =>
      obtain ⟨code, head, three⟩ := incomplete
      apply Image.completed ((lacksElse_iff found).mpr ⟨?_, head, count ▸ three⟩) count each
      simp [← flag, code]
    · next complete =>
      refine Image.complete (fun lacking => complete ?_) count each
      obtain ⟨code, head, three⟩ := (lacksElse_iff found).mp lacking
      exact ⟨by simpa [← flag] using code, head, count ▸ three⟩

/-- The `if` that is code gets an else branch, the quoted one does not. -/
example :
    let short := group [name "if", name "c", name "t"]
    let asData := Datum.list [.string "if", .string "c", .string "t"]
    Datum.ofNode false (group [name "if", name "c", group [name "quote", short]]) =
      .ok (.list [.string "if", .string "c", .list [.string "quote", asData],
        .list [.string "block"]]) := rfl

end Node

/-- The reading fails for the first mark if there is one, and else it succeeds. -/
inductive FailsFor {α : Type} : Option Mark → Except SyntaxFault α → Prop
  | marked (m : Mark) : FailsFor (some m) (.error (.unexpectedMark m))
  | unmarked (a : α) : FailsFor none (.ok a)

theorem FailsFor.bind {α β : Type} {first second : Option Mark} {x : Except SyntaxFault α}
    {f : α → Except SyntaxFault β} (here : FailsFor first x) (there : ∀ a, FailsFor second (f a)) :
    FailsFor (first.or second) (x >>= f) := by
  cases here with
  | marked m => exact .marked m
  | unmarked a => exact there a

namespace Datum

theorem failsFor_ofToken (t : Token) : FailsFor t.mark? (ofToken t) := by
  cases t with
  | mark m => exact .marked m
  | number n => exact .unmarked _
  | operator s => exact .unmarked _
  | name s =>
    simp only [ofToken]
    split
    · exact .unmarked _
    · split
      · exact .unmarked _
      · exact .unmarked _

theorem failsFor_ofChildren {ns : List Node} {literal : Bool} {head : Option String}
    (each : ∀ n ∈ ns, ∀ literal, FailsFor (n.leaves.findSome? Token.mark?) (ofNode literal n))
    (position : Nat) :
    FailsFor ((Node.leavesOf ns).findSome? Token.mark?) (ofChildren literal head position ns) := by
  induction ns generalizing position with
  | nil => exact .unmarked []
  | cons n ns ih =>
    obtain ⟨here, there⟩ := List.forall_mem_cons.mp each
    rw [Node.leavesOf, List.findSome?_append, ofChildren]
    apply (here _).bind
    intro d
    rw [← Option.or_none (o := (Node.leavesOf ns).findSome? Token.mark?)]
    exact (ih there (position + 1)).bind fun items => .unmarked (d :: items)

/-- Children are read from left to right, so it is the first mark of all that is named. -/
theorem failsFor_ofNode (n : Node) (literal : Bool) :
    FailsFor (n.leaves.findSome? Token.mark?) (ofNode literal n) := by
  induction n using Node.induction_on_children generalizing literal with
  | leaf t => simpa [Node.leaves, ofNode] using failsFor_ofToken t
  | group children ih =>
    have each : FailsFor _ (ofChildren literal (headName? children) 0 children) :=
      failsFor_ofChildren ih 0
    rw [Node.leaves, ofNode, ← Option.or_none (o := (Node.leavesOf children).findSome? Token.mark?)]
    exact each.bind fun items => .unmarked _

end Datum

theorem exists_mark_iff {ts : List Token} :
    (∃ m, Token.mark m ∈ ts) ↔ ∃ m, ts.findSome? Token.mark? = some m := by
  constructor
  · rintro ⟨m, mem⟩
    cases first : ts.findSome? Token.mark? with
    | some k => exact ⟨k, rfl⟩
    | none => cases List.findSome?_eq_none_iff.mp first _ mem
  · rintro ⟨m, first⟩
    obtain ⟨t, mem, same⟩ := List.exists_of_findSome?_eq_some first
    exact ⟨m, Token.mark?_eq_some_iff.mp same ▸ mem⟩

namespace Session

variable {n : Node}

theorem readForm_of_mark {mark : Mark} (first : n.leaves.findSome? Token.mark? = some mark)
    (m : Machine) : readForm n m = .fault (.syntactic (.unexpectedMark mark)) m := by
  have fails := Datum.failsFor_ofNode n false
  rw [first] at fails
  generalize read : Datum.ofNode false n = outcome at fails
  cases fails
  rw [readForm, read]
  rfl

theorem exists_image_of_unmarked (unmarked : n.leaves.findSome? Token.mark? = none) :
    ∃ d, Datum.ofNode false n = .ok d ∧ Node.Image n.LacksElse [] n d := by
  have reads := Datum.failsFor_ofNode n false
  rw [unmarked] at reads
  generalize read : Datum.ofNode false n = outcome at reads
  cases reads with
  | unmarked d =>
    refine ⟨d, rfl, Node.image_of_ofNode rfl ?_ read⟩
    simp [Node.literal_nil]

end Session

open Session

/-- The value spells the one image of the node. It is in new cells, to each of which there is one
way, and wherever a list begins in it, the list ends in nil and has no cycle. -/
structure Node.ReadInto (n : Node) (m k : Machine) (v : Value) (d : Datum) : Prop where
  image : n.Image n.LacksElse [] d
  unique : ∀ e, n.Image n.LacksElse [] e → e = d
  holds : k.store.Holds v d
  untouched : m.Untouched k
  tree : k.store.Tree m.store.cells.size k.store.cells.size v
  acyclic : ∀ c, k.store.PartOf v c → ¬k.store.OnCycle c
  proper : ∀ c, k.store.PartOf v c → k.store.Proper (.cons c)

theorem Session.readInto_of_unmarked (unmarked : n.leaves.findSome? Token.mark? = none)
    (m : Machine) : ∃ v k d, readForm n m = .value v k ∧ n.ReadInto m k v d := by
  obtain ⟨d, read, image⟩ := exists_image_of_unmarked unmarked
  have holds := Store.holds_place m.store d
  have tree := Store.tree_place m.store d
  refine ⟨_, _, d, readForm_of_ofNode read m, ?_⟩
  exact {
    image := image
    unique := fun e other => other.unique image
    holds := holds
    untouched := ⟨m.store.untouched_place d, rfl⟩
    tree := tree
    acyclic := fun c part => tree.not_onCycle part
    proper := fun c part => holds.proper_of_partOf image.proper part }

/-- Reading a node fails exactly if one of its leaves is a mark, and for the first of them. What is
read otherwise is its one image, in new cells that form a tree of proper lists. -/
theorem reading_is_exact (n : Node) (m : Machine) :
    ((∃ f k, readForm n m = .fault f k) ↔ ∃ mark, Token.mark mark ∈ n.leaves) ∧
    (∀ mark, n.leaves.findSome? Token.mark? = some mark →
      readForm n m = .fault (.syntactic (.unexpectedMark mark)) m) ∧
    ((∀ mark, Token.mark mark ∉ n.leaves) →
      ∃ v k d, readForm n m = .value v k ∧ n.ReadInto m k v d) := by
  rw [exists_mark_iff]
  refine ⟨⟨?_, ?_⟩, fun mark first => readForm_of_mark first m, ?_⟩
  · rintro ⟨f, k, fails⟩
    apply Option.ne_none_iff_exists'.mp
    intro unmarked
    obtain ⟨v, k, d, reads, _⟩ := readInto_of_unmarked unmarked m
    cases fails.symm.trans reads
  · rintro ⟨mark, first⟩
    exact ⟨_, _, readForm_of_mark first m⟩
  · intro unmarked
    apply readInto_of_unmarked
    rw [← Option.not_isSome_iff_eq_none, Option.isSome_iff_exists, ← exists_mark_iff, not_exists]
    exact unmarked

/-- `(lambda (if c t) (if c (quote (if c t))))` -/
def branches : Node :=
  let short := .group [.name "if", .name "c", .name "t"]
  .group [.name "lambda", short, .group [.name "if", .name "c", .group [.name "quote", short]]]

theorem reading_is_exact_of_branches : (∀ mark, Token.mark mark ∉ branches.leaves) ∧
    ∃ v k d, readForm branches Machine.initial = .value v k ∧
      branches.ReadInto Machine.initial k v d := by
  have unmarked : ∀ mark, Token.mark mark ∉ branches.leaves := by
    simp [branches, Node.leaves, Node.leavesOf, Node.name]
  exact ⟨unmarked, (reading_is_exact branches Machine.initial).2.2 unmarked⟩

end CellLisp
