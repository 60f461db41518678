import CellLisp.Proofs.Sugar

/-!
# Undoing the sugar of one group at a time

The groups that are still to be unsugared may wait instead, and be taken one by one. A group that is
taken is rewritten where it stands, and the groups that stand directly in it then wait in its place.
Each time what waits weighs less, so in the end no group waits or the one that is taken is refused.
Nothing that is taken changes what the whole comes to, so the order in which they are taken makes no
difference: the outcome is that of undoing the sugar of each group before that of its parts.
-/

namespace CellLisp

open Node

/-- A node in which groups wait to be unsugared. What is inside of these was not looked at yet. -/
inductive Draft where
  | leaf (t : Token)
  | waiting (children : List Node)
  | finished (children : List Draft)

namespace Draft

/-- Every group waits. -/
def ofNode : Node → Draft
  | .leaf t => leaf t
  | .group children => waiting children

mutual

def node : Draft → Node
  | leaf t => .leaf t
  | waiting children => .group children
  | finished children => .group (nodes children)

def nodes : List Draft → List Node
  | [] => []
  | d :: ds => d.node :: nodes ds

end

/-- A group that waits is unsugared, and the groups in it wait. -/
inductive Step : Draft → Draft → Prop
  | here {children out : List Node} (unsugared : unsugar children = .ok out) :
    Step (waiting children) (finished (out.map ofNode))
  | inside {d e : Draft} (before after : List Draft) (step : Step d e) :
    Step (finished (before ++ d :: after)) (finished (before ++ e :: after))

/-- A group that waits cannot be unsugared. -/
inductive Refused : Draft → SyntaxFault → Prop
  | here {children : List Node} {f : SyntaxFault} (refused : unsugar children = .error f) :
    Refused (waiting children) f
  | inside {d : Draft} {ds : List Draft} {f : SyntaxFault} (mem : d ∈ ds) (refused : Refused d f) :
    Refused (finished ds) f

/-- No group waits. -/
inductive Complete : Draft → Prop
  | leaf (t : Token) : Complete (leaf t)
  | finished {ds : List Draft} (each : ∀ d ∈ ds, Complete d) : Complete (finished ds)

theorem induction_on_parts {motive : Draft → Prop} (leaf : ∀ t, motive (leaf t))
    (waiting : ∀ children, motive (waiting children))
    (finished : ∀ ds, (∀ d ∈ ds, motive d) → motive (finished ds)) (d : Draft) : motive d :=
  match d with
  | .leaf t => leaf t
  | .waiting children => waiting children
  | .finished ds => finished ds fun part _ => induction_on_parts leaf waiting finished part

variable {d e : Draft} {ds es : List Draft} {f : SyntaxFault}

/-! The loop gets on until it ends. -/

theorem exists_step (d : Draft) : d.Complete ∨ (∃ f, d.Refused f) ∨ ∃ e, d.Step e := by
  induction d using induction_on_parts with
  | leaf t => exact .inl (.leaf t)
  | waiting children =>
    cases unsugared : unsugar children with
    | error f => exact .inr (.inl ⟨f, .here unsugared⟩)
    | ok out => exact .inr (.inr ⟨_, .here unsugared⟩)
  | finished ds ih =>
    by_cases all : ∀ d ∈ ds, d.Complete
    · exact .inl (.finished all)
    · obtain ⟨d, mem, incomplete⟩ : ∃ d ∈ ds, ¬d.Complete := by simpa using all
      rcases (ih d mem).resolve_left incomplete with ⟨f, refused⟩ | ⟨e, step⟩
      · exact .inr (.inl ⟨f, .inside mem refused⟩)
      · obtain ⟨before, after, rfl⟩ := List.append_of_mem mem
        exact .inr (.inr ⟨_, .inside before after step⟩)

mutual

/-- The weight of what waits. -/
def load : Draft → Nat
  | leaf _ => 0
  | waiting children => weightOf children + 1
  | finished ds => loadOf ds

def loadOf : List Draft → Nat
  | [] => 0
  | d :: ds => d.load + loadOf ds

end

theorem loadOf_append : loadOf (ds ++ es) = loadOf ds + loadOf es := by
  induction ds with
  | nil => simp [loadOf]
  | cons d ds ih => simp [loadOf, ih, Nat.add_assoc]

theorem loadOf_ofNode (ns : List Node) : loadOf (ns.map ofNode) ≤ weightOf ns := by
  induction ns with
  | nil => exact Nat.le_refl _
  | cons n ns ih =>
    have first : (ofNode n).load ≤ n.weight := by
      cases n with
      | leaf t => exact Nat.zero_le _
      | group children => exact Nat.le_refl _
    exact Nat.add_le_add first ih

theorem Step.load_lt (step : d.Step e) : e.load < d.load := by
  induction step with
  | @here children out unsugared =>
    apply Nat.lt_succ_of_le
    exact Nat.le_trans (loadOf_ofNode out) (weightOf_unsugar unsugared)
  | inside before after step ih =>
    simp only [load, loadOf_append, loadOf]
    omega

theorem wellFounded_step : WellFounded fun e d : Draft => d.Step e :=
  Subrelation.wf Step.load_lt (measure load).wf

/-! What the loop comes to. -/

mutual

/-- What is left to come to, if the groups that wait are unsugared from the outside in. -/
def outcome : Draft → Except SyntaxFault Node
  | leaf t => .ok (.leaf t)
  | waiting children => do return .group (← expandGroup children)
  | finished ds => do return .group (← outcomes ds)

def outcomes : List Draft → Except SyntaxFault (List Node)
  | [] => .ok []
  | d :: ds => do return (← d.outcome) :: (← outcomes ds)

end

theorem outcomes_ofNode (ns : List Node) : outcomes (ns.map ofNode) = expandEach ns := by
  induction ns with
  | nil =>
    rw [expandEach]
    rfl
  | cons n ns ih =>
    rw [List.map_cons, outcomes, ih]
    cases n with
    | leaf t =>
      rw [expandEach]
      rfl
    | group children =>
      rw [expandEach_group, ofNode, outcome]
      cases expandGroup children <;> rfl

theorem outcomes_congr (same : e.outcome = d.outcome) (before after : List Draft) :
    outcomes (before ++ e :: after) = outcomes (before ++ d :: after) := by
  induction before with
  | nil => rw [List.nil_append, List.nil_append, outcomes, outcomes, same]
  | cons c before ih => rw [List.cons_append, List.cons_append, outcomes, outcomes, ih]

theorem Step.outcome_eq (step : d.Step e) : e.outcome = d.outcome := by
  induction step with
  | here unsugared =>
    rw [outcome, expandGroup, unsugared, outcome, outcomes_ofNode]
    rfl
  | inside before after step ih => rw [outcome, outcome, outcomes_congr ih]

theorem Complete.outcome (complete : d.Complete) : d.outcome = .ok d.node := by
  induction complete with
  | leaf t => rfl
  | @finished ds each ih =>
    have all : outcomes ds = .ok (nodes ds) := by
      clear each
      induction ds with
      | nil => rfl
      | cons d ds parts =>
        obtain ⟨here, there⟩ := List.forall_mem_cons.mp ih
        rw [outcomes, here, parts there]
        rfl
    rw [Draft.outcome, all]
    rfl

theorem outcome_error (failed : d.outcome = .error f) : f = .danglingQuote := by
  induction d using induction_on_parts generalizing f with
  | leaf t => cases failed
  | waiting children =>
    rw [outcome] at failed
    rcases bind_eq_error_iff.mp failed with within | ⟨inner, _, impossible⟩
    · exact expandGroup_error within
    · cases impossible
  | finished ds ih =>
    rw [outcome] at failed
    rcases bind_eq_error_iff.mp failed with within | ⟨inner, _, impossible⟩
    · clear failed
      induction ds with
      | nil => cases within
      | cons d ds parts =>
        obtain ⟨here, there⟩ := List.forall_mem_cons.mp ih
        rw [outcomes] at within
        rcases bind_eq_error_iff.mp within with first | ⟨n, _, within⟩
        · exact here first
        · rcases bind_eq_error_iff.mp within with later | ⟨rest, _, impossible⟩
          · exact parts there later
          · cases impossible
    · cases impossible

theorem exists_outcomes_error (mem : d ∈ ds) (failed : ∃ f, d.outcome = .error f) :
    ∃ f, outcomes ds = .error f := by
  induction ds with
  | nil => cases mem
  | cons c ds ih =>
    rw [outcomes]
    cases first : c.outcome with
    | error f => exact ⟨f, rfl⟩
    | ok n =>
      rcases List.mem_cons.mp mem with rfl | among
      · obtain ⟨f, failed⟩ := failed
        rw [failed] at first
        cases first
      · obtain ⟨f, later⟩ := ih among
        rw [later]
        exact ⟨f, rfl⟩

theorem Refused.exists_outcome (refused : d.Refused f) : ∃ g, d.outcome = .error g := by
  induction refused with
  | @here children f refused =>
    rw [outcome, expandGroup, refused]
    exact ⟨f, rfl⟩
  | inside mem refused ih =>
    obtain ⟨g, failed⟩ := exists_outcomes_error mem ih
    rw [outcome, failed]
    exact ⟨g, rfl⟩

theorem Refused.fault (refused : d.Refused f) : f = .danglingQuote := by
  induction refused with
  | here refused => exact applyQuotes_error refused
  | inside _ _ ih => exact ih

theorem Refused.outcome (refused : d.Refused f) : d.outcome = .error f := by
  obtain ⟨g, failed⟩ := refused.exists_outcome
  rw [failed, outcome_error failed, refused.fault]

/-- In whatever order the groups that wait are taken, that comes to an end, and to this result. -/
inductive Yields (result : Except SyntaxFault Node) : Draft → Prop
  | intro {d : Draft} (goesOn : d.Complete ∨ (∃ f, d.Refused f) ∨ ∃ e, d.Step e)
      (complete : d.Complete → result = .ok d.node)
      (refused : ∀ f, d.Refused f → result = .error f)
      (step : ∀ e, d.Step e → Yields result e) : Yields result d

theorem yields_outcome (d : Draft) : d.Yields d.outcome := by
  induction d using wellFounded_step.induction with
  | h d ih =>
    refine .intro d.exists_step Complete.outcome (fun f => Refused.outcome) fun e step => ?_
    rw [← step.outcome_eq]
    exact ih e step

/-! One order: the group that was queued last is taken first. -/

mutual

/-- Takes the last group of the text that waits. It was queued last: the groups in front of it were
there before it or were queued together with it, in the order of the text. -/
def take? : Draft → Option (Except SyntaxFault Draft)
  | leaf _ => none
  | waiting children => some (do return finished ((← unsugar children).map ofNode))
  | finished ds => (takeIn? ds).map (·.map finished)

def takeIn? : List Draft → Option (Except SyntaxFault (List Draft))
  | [] => none
  | d :: ds =>
    match takeIn? ds with
    | some taken => some (taken.map (d :: ·))
    | none => d.take?.map (·.map (· :: ds))

end

/-- What taking a group comes to: there is none, or it is refused, or it is unsugared. -/
def Takes (d : Draft) : Option (Except SyntaxFault Draft) → Prop
  | none => d.Complete
  | some (.error f) => d.Refused f
  | some (.ok e) => d.Step e

/-- The same for a list, one node of which may have such a group. -/
def TakesIn (ds : List Draft) : Option (Except SyntaxFault (List Draft)) → Prop
  | none => ∀ d ∈ ds, d.Complete
  | some (.error f) => ∃ d ∈ ds, d.Refused f
  | some (.ok es) => ∃ before d e after,
      ds = before ++ d :: after ∧ es = before ++ e :: after ∧ d.Step e

theorem takesIn (each : ∀ d ∈ ds, d.Takes d.take?) : TakesIn ds (takeIn? ds) := by
  induction ds with
  | nil => exact List.forall_mem_nil _
  | cons d ds ih =>
    obtain ⟨here, there⟩ := List.forall_mem_cons.mp each
    have rest := ih there
    rw [takeIn?]
    cases later : takeIn? ds with
    | some taken =>
      rw [later] at rest
      cases taken with
      | error f =>
        obtain ⟨e, mem, refused⟩ := rest
        exact ⟨e, List.mem_cons_of_mem d mem, refused⟩
      | ok es =>
        obtain ⟨before, e, e', after, rfl, rfl, step⟩ := rest
        exact ⟨d :: before, e, e', after, rfl, rfl, step⟩
    | none =>
      rw [later] at rest
      cases first : d.take? with
      | none =>
        rw [first] at here
        exact List.forall_mem_cons.mpr ⟨here, rest⟩
      | some taken =>
        rw [first] at here
        cases taken with
        | error f => exact ⟨d, List.mem_cons_self, here⟩
        | ok e => exact ⟨[], d, e, ds, rfl, rfl, here⟩

theorem takes (d : Draft) : d.Takes d.take? := by
  induction d using induction_on_parts with
  | leaf t => exact .leaf t
  | waiting children =>
    rw [take?]
    cases unsugared : unsugar children with
    | error f => exact .here unsugared
    | ok out => exact .here unsugared
  | finished ds ih =>
    have inside := takesIn ih
    rw [take?]
    cases taken : takeIn? ds with
    | none =>
      rw [taken] at inside
      exact .finished inside
    | some result =>
      rw [taken] at inside
      cases result with
      | error f =>
        obtain ⟨d, mem, refused⟩ := inside
        exact .inside mem refused
      | ok es =>
        obtain ⟨before, d, e, after, rfl, rfl, step⟩ := inside
        exact .inside before after step

theorem step_of_take? (taken : d.take? = some (.ok e)) : d.Step e := by
  have takes := d.takes
  rwa [taken] at takes

/-- Takes one group after the other until none waits. -/
def drain (d : Draft) : Except SyntaxFault Node :=
  match _taken : d.take? with
  | none => .ok d.node
  | some (.error f) => .error f
  | some (.ok e) => drain e
termination_by d.load
decreasing_by exact (step_of_take? _taken).load_lt

theorem Yields.drain {result : Except SyntaxFault Node} (yields : d.Yields result) :
    d.drain = result := by
  induction yields with
  | @intro d goesOn complete refused step ih =>
    have takes := d.takes
    rw [Draft.drain]
    split
    · next none =>
      rw [none] at takes
      exact (complete takes).symm
    · next f failed =>
      rw [failed] at takes
      exact (refused f takes).symm
    · next e taken =>
      rw [taken] at takes
      exact ih e takes

end Draft

namespace Node

def children : Node → List Node
  | leaf _ => []
  | group children => children

/-- One node for each form of a text, with the sugar undone by the loop. -/
def ofTokensByQueue (ts : List Token) : Except SyntaxFault (List Node) := do
  let root ← matchParens ts
  let whole ← (Draft.waiting root).drain
  return if root.any isSeparator then [whole] else whole.children

theorem ofTokens_eq_byQueue (ts : List Token) : ofTokens ts = ofTokensByQueue ts := by
  rw [ofTokens, ofTokensByQueue]
  cases matchParens ts with
  | error f => rfl
  | ok root =>
    have same := (Draft.yields_outcome (.waiting root)).drain
    change (expandGroup root >>= fun forms => _) = ((Draft.waiting root).drain >>= fun whole => _)
    rw [same, Draft.outcome]
    cases expandGroup root <;> rfl

end Node

end CellLisp
