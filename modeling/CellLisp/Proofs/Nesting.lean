import CellLisp.Node.Nesting

/-!
# Groups are the token list written out

Matching the parentheses of a token list succeeds exactly for the lists that nodes without stray
parentheses are written as, and gives those nodes. What has been read of a list is at every point
the open groups, the outermost first, each with the nodes that it holds so far.
-/

namespace CellLisp

namespace Mark

def isParen : Mark → Bool
  | leftParen | rightParen => true
  | quote | separator => false

end Mark

namespace Node

theorem induction_on_children {motive : Node → Prop} (leaf : ∀ t, motive (leaf t))
    (group : ∀ children, (∀ n ∈ children, motive n) → motive (group children)) (n : Node) :
    motive n :=
  match n with
  | .leaf t => leaf t
  | .group children => group children fun child _ => induction_on_children leaf group child

/-- No leaf of the node, at whatever depth, is one of these marks. -/
inductive Avoids (marks : Mark → Bool) : Node → Prop
  | leaf {t : Token} (allowed : ∀ m, t = .mark m → marks m = false) : Avoids marks (leaf t)
  | group {children : List Node} (each : ∀ n ∈ children, Avoids marks n) :
    Avoids marks (group children)

theorem Avoids.children {marks : Mark → Bool} {children : List Node}
    (avoids : (Node.group children).Avoids marks) : ∀ n ∈ children, n.Avoids marks := by
  cases avoids with
  | group each => exact each

theorem avoids_name (marks : Mark → Bool) (s : String) : (name s).Avoids marks := .leaf nofun

@[simp] theorem tokensOf_append (ns ms : List Node) :
    tokensOf (ns ++ ms) = tokensOf ns ++ tokensOf ms := by
  induction ns with
  | nil => rfl
  | cons n ns ih => simp [tokensOf, ih]

/-- The tokens of open groups, the innermost given first, each with its last node first. -/
def tokensOpen (current : List Node) : List (List Node) → List Token
  | [] => tokensOf current.reverse
  | parent :: outer => tokensOpen parent outer ++ .mark .leftParen :: tokensOf current.reverse

theorem tokensOpen_cons (n : Node) (current : List Node) (outer : List (List Node)) :
    tokensOpen (n :: current) outer = tokensOpen current outer ++ n.tokens := by
  cases outer <;> simp [tokensOpen, tokensOf]

/-- What matching has read and what it still reads is the whole list. -/
theorem tokensOf_of_matchWithin {current ns : List Node} {outer : List (List Node)}
    {ts : List Token} (matched : matchWithin current outer ts = .ok ns) :
    tokensOf ns = tokensOpen current outer ++ ts := by
  induction ts generalizing current outer with
  | nil =>
    cases outer with
    | nil =>
      cases matched
      simp [tokensOpen]
    | cons parent outer => cases matched
  | cons t ts ih =>
    unfold matchWithin at matched
    split at matched
    · rw [ih matched]
      simp [tokensOpen, tokensOf]
    · cases outer with
      | nil => cases matched
      | cons parent outer =>
        rw [ih matched, tokensOpen_cons]
        simp [tokensOpen, tokens]
    · rw [ih matched, tokensOpen_cons]
      simp [tokens]

theorem avoids_of_matchWithin {current ns : List Node} {outer : List (List Node)} {ts : List Token}
    (matched : matchWithin current outer ts = .ok ns) (inner : ∀ n ∈ current, n.Avoids Mark.isParen)
    (others : ∀ g ∈ outer, ∀ n ∈ g, n.Avoids Mark.isParen) : ∀ n ∈ ns, n.Avoids Mark.isParen := by
  induction ts generalizing current outer with
  | nil =>
    cases outer with
    | nil =>
      cases matched
      simpa using inner
    | cons parent outer => cases matched
  | cons t ts ih =>
    unfold matchWithin at matched
    split at matched
    · exact ih matched nofun (List.forall_mem_cons.mpr ⟨inner, others⟩)
    · cases outer with
      | nil => cases matched
      | cons parent outer =>
        obtain ⟨around, others⟩ := List.forall_mem_cons.mp others
        have closed : (group current.reverse).Avoids Mark.isParen := .group (by simpa using inner)
        exact ih matched (List.forall_mem_cons.mpr ⟨closed, around⟩) others
    · next notLeft notRight =>
      have plain : (leaf t).Avoids Mark.isParen := by
        refine .leaf fun m same => ?_
        subst same
        cases m with
        | leftParen => exact absurd rfl notLeft
        | rightParen => exact absurd rfl notRight
        | quote | separator => rfl
      exact ih matched (List.forall_mem_cons.mpr ⟨plain, inner⟩) others

/-- Where the node is written out, matching reads it as the next one of the innermost group. -/
def ReadsBack (n : Node) : Prop :=
  ∀ current outer ts,
    matchWithin current outer (n.tokens ++ ts) = matchWithin (n :: current) outer ts

theorem matchWithin_tokensOf {ns : List Node} (each : ∀ n ∈ ns, n.ReadsBack)
    (current : List Node) (outer : List (List Node)) (ts : List Token) :
    matchWithin current outer (tokensOf ns ++ ts) =
      matchWithin (ns.reverse ++ current) outer ts := by
  induction ns generalizing current with
  | nil => rfl
  | cons n ns ih =>
    obtain ⟨here, there⟩ := List.forall_mem_cons.mp each
    rw [tokensOf, List.append_assoc, here, ih there]
    simp

theorem Avoids.readsBack {n : Node} (avoids : n.Avoids Mark.isParen) : n.ReadsBack := by
  induction avoids with
  | @leaf t allowed =>
    intro current outer ts
    cases t with
    | mark m =>
      cases m with
      | leftParen | rightParen => cases allowed _ rfl
      | quote | separator => rfl
    | number | name | operator => rfl
  | @group children each ih =>
    intro current outer ts
    change matchWithin [] (current :: outer) (tokensOf children ++ [.mark .rightParen] ++ ts) = _
    rw [List.append_assoc, matchWithin_tokensOf ih]
    simp [matchWithin]

theorem matchParens_eq_ok_iff {ts : List Token} {ns : List Node} :
    matchParens ts = .ok ns ↔ tokensOf ns = ts ∧ ∀ n ∈ ns, n.Avoids Mark.isParen := by
  constructor
  · intro matched
    exact ⟨tokensOf_of_matchWithin matched, avoids_of_matchWithin matched nofun nofun⟩
  · rintro ⟨rfl, avoid⟩
    have read := matchWithin_tokensOf (fun n mem => (avoid n mem).readsBack) [] [] []
    rw [List.append_nil, List.append_nil] at read
    rw [matchParens, read]
    simp [matchWithin]

theorem matchWithin_error {current : List Node} {outer : List (List Node)} {ts : List Token}
    {f : SyntaxFault} (failed : matchWithin current outer ts = .error f) :
    f = .unbalancedParens := by
  induction ts generalizing current outer with
  | nil =>
    cases outer with
    | nil => cases failed
    | cons parent outer =>
      cases failed
      rfl
  | cons t ts ih =>
    unfold matchWithin at failed
    split at failed
    · exact ih failed
    · cases outer with
      | nil =>
        cases failed
        rfl
      | cons parent outer => exact ih failed
    · exact ih failed

/-- Two lists that match on their own match one after the other. -/
theorem matchParens_append {ts us : List Token} {ns ms : List Node}
    (first : matchParens ts = .ok ns) (second : matchParens us = .ok ms) :
    matchParens (ts ++ us) = .ok (ns ++ ms) := by
  obtain ⟨rfl, avoidFirst⟩ := matchParens_eq_ok_iff.mp first
  obtain ⟨rfl, avoidSecond⟩ := matchParens_eq_ok_iff.mp second
  refine matchParens_eq_ok_iff.mpr ⟨tokensOf_append ns ms, fun n mem => ?_⟩
  rcases List.mem_append.mp mem with mem | mem
  · exact avoidFirst n mem
  · exact avoidSecond n mem

end Node

end CellLisp
