import CellLisp.Proofs.Data
import CellLisp.Proofs.Session

/-!
# The words of a program

The strings that a program computes with are words of its text or stand for its sugar: no builtin
makes a string. A builtin is applied where a form has its name at the head. So a program applies no
builtin that its text does not mention, whatever it evaluates that it has put together itself.
-/

namespace CellLisp

variable {words : String → Prop} {s : Store} {v : Value} {d : Datum}

/-! Stores. -/

/-- If the value is a string, it is one of these words. -/
def Value.UsesOnly (words : String → Prop) (v : Value) : Prop :=
  ∀ word, v = .string word → words word

/-- All strings that the store holds are among these words. -/
structure Store.UsesOnly (s : Store) (words : String → Prop) : Prop where
  car : ∀ c, (s.car c).UsesOnly words
  cdr : ∀ c, (s.cdr c).UsesOnly words
  body : ∀ l, (s.lambda l).body.UsesOnly words
  bound : ∀ i name v, (s.scope i).get? name = some v → v.UsesOnly words

def Datum.UsesOnly (words : String → Prop) : Datum → Prop
  | string word => words word
  | pair a d => a.UsesOnly words ∧ d.UsesOnly words
  | _ => True

theorem Value.Atomic.usesOnly (atomic : v.Atomic) : v.UsesOnly words := by
  rintro word rfl
  cases atomic

namespace Store.UsesOnly

theorem cons {a d : Value} (uses : s.UsesOnly words) (head : a.UsesOnly words)
    (tail : d.UsesOnly words) : (s.cons a d).2.UsesOnly words where
  car c := by
    unfold Store.car
    rw [cell_cons]
    split
    · exact head
    · exact uses.car c
  cdr c := by
    unfold Store.cdr
    rw [cell_cons]
    split
    · exact tail
    · exact uses.cdr c
  body := uses.body
  bound := uses.bound

theorem bind (uses : s.UsesOnly words) (i : ScopeId) (name : String) (known : v.UsesOnly words) :
    (s.bind i name v).UsesOnly words where
  car := uses.car
  cdr := uses.cdr
  body := uses.body
  bound j other w found := by
    rw [scope_bind] at found
    split at found
    · rw [Scope.get?_insert] at found
      split at found
      · cases found
        exact known
      · exact uses.bound j other w found
    · exact uses.bound j other w found

theorem newScope {content : Scope} (uses : s.UsesOnly words)
    (known : ∀ name v, content.get? name = some v → v.UsesOnly words) :
    (s.newScope content).2.UsesOnly words where
  car := uses.car
  cdr := uses.cdr
  body := uses.body
  bound j name v found := by
    rw [scope_newScope] at found
    split at found
    · exact known name v found
    · exact uses.bound j name v found

theorem newLambda {f : Lambda} (uses : s.UsesOnly words) (body : f.body.UsesOnly words) :
    (s.newLambda f).2.UsesOnly words where
  car := uses.car
  cdr := uses.cdr
  body l := by
    rw [lambda_newLambda]
    split
    · exact body
    · exact uses.body l
  bound := uses.bound

theorem setCar (uses : s.UsesOnly words) (c : CellId) (known : v.UsesOnly words) :
    (s.setCar c v).UsesOnly words where
  car e := by
    unfold Store.car
    rw [cell_setCar]
    split
    · exact known
    · exact uses.car e
  cdr e := by
    unfold Store.cdr
    rw [cell_setCar]
    split
    · exact uses.cdr e
    · exact uses.cdr e
  body := uses.body
  bound := uses.bound

theorem setCdr (uses : s.UsesOnly words) (c : CellId) (known : v.UsesOnly words) :
    (s.setCdr c v).UsesOnly words where
  car e := by
    unfold Store.car
    rw [cell_setCdr]
    split
    · exact uses.car e
    · exact uses.car e
  cdr e := by
    unfold Store.cdr
    rw [cell_setCdr]
    split
    · exact known
    · exact uses.cdr e
  body := uses.body
  bound := uses.bound

theorem setLambdaScope (uses : s.UsesOnly words) (l : LambdaId) (i : ScopeId) :
    (s.setLambdaScope l i).UsesOnly words where
  car := uses.car
  cdr := uses.cdr
  body k := by
    rw [lambda_setLambdaScope]
    split
    · exact uses.body k
    · exact uses.body k
  bound := uses.bound

theorem place (uses : s.UsesOnly words) (said : d.UsesOnly words) :
    (s.place d).2.UsesOnly words ∧ (s.place d).1.UsesOnly words := by
  induction d generalizing s with
  | string word =>
    refine ⟨uses, ?_⟩
    rintro _ ⟨⟩
    exact said
  | pair a d ihCar ihCdr =>
    obtain ⟨first, head⟩ := ihCar uses said.1
    obtain ⟨second, tail⟩ := ihCdr first said.2
    exact ⟨second.cons head tail, nofun⟩
  | number | boolean | nil => exact ⟨uses, nofun⟩

end Store.UsesOnly

theorem Store.usesOnly_initial : Machine.initial.store.UsesOnly words where
  car _ := nofun
  cdr _ := nofun
  body _ := nofun
  bound i name v found := by
    change ((Store.empty.newScope .empty).2.scope i).get? name = some v at found
    rw [Store.scope_newScope] at found
    split at found <;> cases found

/-- All strings that a program computes with, and all that its code is made of, are these words. -/
def Discipline.usesOnly (words : String → Prop) : Discipline where
  changing := True
  store s := s.UsesOnly words
  allows _ _ v := v.UsesOnly words
  scope _ _ := True
  later _ _ := True
  refl _ := trivial
  trans _ _ := trivial
  allows_later _ := id
  scope_later _ := id
  atom atomic := atomic.usesOnly
  lambda := id
  car uses _ := uses.car _
  cdr uses _ := uses.cdr _
  bound uses found := uses.bound _ _ _ found
  body l uses := uses.body l
  owned _ _ := trivial
  cons uses head tail := ⟨uses.cons head tail, trivial, nofun⟩
  setCar _ uses _ known := ⟨uses.setCar _ known, trivial⟩
  setCdr _ uses _ known := ⟨uses.setCdr _ known, trivial⟩
  bind i name _ uses known := ⟨uses.bind i name known, trivial⟩
  newScope uses known := ⟨uses.newScope known, trivial, trivial⟩
  newLambda uses body _ := ⟨uses.newLambda body, trivial, nofun⟩
  setLambdaScope l i uses _ := ⟨uses.setLambdaScope l i, trivial⟩

namespace Process

variable {p q : Process}

/-- What is applied has its name among the words. -/
theorem word_of_supplied (governs : (Discipline.usesOnly words).Governs p) {name : String}
    {values : List Value} (applied : p.focus = .supplied (.builtin name) values) : words name := by
  have allowed := governs.focus
  rw [applied] at allowed
  exact allowed.1 name rfl

theorem Leads.usesOnly (leads : Leads p q) (governs : (Discipline.usesOnly words).Governs p) :
    (Discipline.usesOnly words).Governs q := by
  induction leads with
  | refl => exact governs
  | tail _ step ih => exact ih.next (fun _ => trivial) step

end Process

/-! Texts. -/

/-- The word of a token that is no number. -/
def Token.word? : Token → Option String
  | name word | operator word => some word
  | number _ | mark _ => none

/-- The words of a text without comments. A text that is refused has none. -/
def Token.wordsOf (text : List Char) : List String :=
  match ofText text with
  | .ok ts => ts.filterMap word?
  | .error _ => []

def Token.UsesOnly (words : String → Prop) (t : Token) : Prop :=
  ∀ word, t.word? = some word → words word

namespace Datum

theorem usesOnly_ofToken {t : Token} (said : t.UsesOnly words) (read : ofToken t = .ok d) :
    d.UsesOnly words := by
  cases t with
  | name word =>
    unfold ofToken at read
    dsimp only at read
    split at read
    · cases read
      trivial
    · split at read
      · cases read
        trivial
      · cases read
        exact said word rfl
  | operator word =>
    cases read
    exact said word rfl
  | number n =>
    cases read
    trivial
  | mark m => cases read

theorem usesOnly_list {ds : List Datum} (each : ∀ d ∈ ds, d.UsesOnly words) :
    (list ds).UsesOnly words := by
  induction ds with
  | nil => trivial
  | cons d ds ih =>
    obtain ⟨here, there⟩ := List.forall_mem_cons.mp each
    exact ⟨here, ih there⟩

theorem usesOnly_completeIf (block : words "block") {head : Option String} {items : List Datum}
    (each : ∀ d ∈ items, d.UsesOnly words) :
    ∀ d ∈ completeIf head items, d.UsesOnly words := by
  unfold completeIf
  split
  · refine List.forall_mem_append.mpr ⟨each, List.forall_mem_singleton.mpr ?_⟩
    exact ⟨block, trivial⟩
  · exact each

theorem usesOnly_ofChildren {ns : List Node} {literal : Bool} {head : Option String}
    {position : Nat} {items : List Datum}
    (each : ∀ n ∈ ns, ∀ literal d, ofNode literal n = .ok d → d.UsesOnly words)
    (read : ofChildren literal head position ns = .ok items) :
    ∀ d ∈ items, d.UsesOnly words := by
  induction ns generalizing position items with
  | nil =>
    cases read
    exact List.forall_mem_nil _
  | cons n ns ih =>
    obtain ⟨here, there⟩ := List.forall_mem_cons.mp each
    rw [ofChildren] at read
    obtain ⟨item, first, read⟩ := bind_eq_ok_iff.mp read
    obtain ⟨others, rest, same⟩ := bind_eq_ok_iff.mp read
    cases same
    exact List.forall_mem_cons.mpr ⟨here _ item first, ih there rest⟩

/-- Besides its own words a node may get the name of an empty block. -/
theorem usesOnly_ofNode (block : words "block") {n : Node} {literal : Bool}
    (said : ∀ t ∈ n.tokens, t.UsesOnly words) (read : ofNode literal n = .ok d) :
    d.UsesOnly words := by
  induction n using Node.induction_on_children generalizing literal d with
  | leaf t => exact usesOnly_ofToken (said t (by simp [Node.tokens])) read
  | group children ih =>
    rw [ofNode] at read
    obtain ⟨items, parsed, same⟩ := bind_eq_ok_iff.mp read
    cases same
    have each : ∀ n ∈ children, ∀ literal d, ofNode literal n = .ok d → d.UsesOnly words := by
      intro n mem literal d
      refine ih n mem fun t among => said t ?_
      exact Node.mem_tokens_group.mpr (.inr (.inl (Node.mem_tokensOf.mpr ⟨n, mem, among⟩)))
    have items := usesOnly_ofChildren each parsed
    apply usesOnly_list
    split
    · exact items
    · exact usesOnly_completeIf block items

end Datum

namespace Source

variable {source : String}

/-- The words that stand in a text, outside of its comments. -/
def vocabulary (source : String) : List String := Token.wordsOf (Comment.strip source.toList)

/-- The words of the text, and those that stand for its sugar, are among these. -/
structure UsesOnly (source : String) (words : String → Prop) : Prop where
  written : ∀ word ∈ vocabulary source, words word
  quote : words "quote"
  block : words "block"

theorem UsesOnly.nodes (uses : UsesOnly source words) {nodes : List Node}
    (parsed : Source.nodes source = .ok nodes) :
    ∀ n ∈ nodes, ∀ t ∈ n.tokens, t.UsesOnly words := by
  obtain ⟨ts, lexed, read⟩ := nodes_eq_ok_iff.mp parsed
  intro n mem t among word named
  rcases Node.mem_tokensOf_ofTokens read (Node.mem_tokensOf.mpr ⟨n, mem, among⟩) with
    written | sugar
  · apply uses.written
    rw [vocabulary, Token.wordsOf, lexed]
    exact List.mem_filterMap.mpr ⟨t, written, named⟩
  · simp only [Node.sugarTokens, List.mem_cons, List.not_mem_nil, or_false] at sugar
    rcases sugar with rfl | rfl | rfl | rfl
    · cases named
      exact uses.quote
    · cases named
      exact uses.block
    · cases named
    · cases named

end Source

/-! Sessions. -/

namespace Session

variable {m n : Machine} {q : Process} {depth : Nat} {source : String}

theorem usesOnly_readForm (uses : m.store.UsesOnly words) (block : words "block") {node : Node}
    (said : ∀ t ∈ node.tokens, t.UsesOnly words) {form : Value}
    (placed : readForm node m = .value form n) :
    (Discipline.usesOnly words).Governs ⟨.code form, [], n⟩ := by
  obtain ⟨d, read, rfl, rfl⟩ := exists_of_readForm placed
  obtain ⟨store, known⟩ := uses.place (Datum.usesOnly_ofNode block said read)
  exact ⟨⟨⟨store, fun _ _ => trivial⟩, nofun⟩, known⟩

theorem PassesForms.usesOnly {nodes : List Node} (passes : PassesForms depth nodes m q)
    (uses : m.store.UsesOnly words) (block : words "block")
    (said : ∀ n ∈ nodes, ∀ t ∈ n.tokens, t.UsesOnly words) :
    (Discipline.usesOnly words).Governs q := by
  induction passes with
  | here placed leads =>
    obtain ⟨first, _⟩ := List.forall_mem_cons.mp said
    exact leads.usesOnly (usesOnly_readForm uses block first placed)
  | @later node nodes m n k form v q placed ended rest ih =>
    obtain ⟨first, others⟩ := List.forall_mem_cons.mp said
    have follows := Process.eval_follows depth form [] n
    rw [ended] at follows
    have governs := follows.leads_value.usesOnly (usesOnly_readForm uses block first placed)
    exact ih governs.grounded.machine.store others

/-- Whatever a text comes to while it runs, it computes with its own words and with those that were
there before it. -/
theorem Passes.usesOnly (passes : Passes depth source m q) (uses : m.store.UsesOnly words)
    (text : Source.UsesOnly source words) : (Discipline.usesOnly words).Governs q := by
  obtain ⟨nodes, parsed, passes⟩ := passes
  exact passes.usesOnly uses text.block (text.nodes parsed)

theorem usesOnly_run (uses : m.store.UsesOnly words) (text : Source.UsesOnly source words)
    (ends : (run depth source m).machine? = some n) : n.store.UsesOnly words := by
  rcases run_ends ends with rfl | ⟨final, passes⟩
  · exact uses
  · exact (passes.usesOnly uses text).grounded.machine.store

end Session

end CellLisp
