import CellLisp.Proofs.Nesting

/-!
# Balanced tokens

The parentheses of a token list match exactly if no prefix of the list closes more groups than it
opens, and the whole list closes as many as it opens. The groups that are open when matching begins
count as opened before.
-/

namespace CellLisp

namespace Token

def isMark (m : Mark) : Token → Bool
  | mark k => k == m
  | _ => false

/-- How many groups the tokens open. -/
def opens (ts : List Token) : Nat := ts.countP (isMark .leftParen)

/-- How many groups the tokens close. -/
def closes (ts : List Token) : Nat := ts.countP (isMark .rightParen)

structure Balanced (ts : List Token) : Prop where
  within : ∀ before, before <+: ts → closes before ≤ opens before
  whole : closes ts = opens ts

/-- The tokens close what they open and so many groups that were open before. -/
structure Closing (depth : Nat) (ts : List Token) : Prop where
  within : ∀ before, before <+: ts → closes before ≤ opens before + depth
  whole : closes ts = opens ts + depth

variable {depth : Nat} {t : Token} {ts : List Token}

theorem closing_zero_iff : Closing 0 ts ↔ Balanced ts :=
  ⟨fun ⟨within, whole⟩ => ⟨within, whole⟩, fun ⟨within, whole⟩ => ⟨within, whole⟩⟩

theorem closing_nil_iff : Closing depth [] ↔ depth = 0 := by
  constructor
  · intro closing
    simpa [closes, opens] using closing.whole.symm
  · rintro rfl
    exact ⟨fun before none => by simp [List.prefix_nil.mp none, closes], rfl⟩

/-- What a first token closes and opens goes to the account of the rest. -/
theorem closing_cons_iff : Closing depth (t :: ts) ↔
    closes [t] ≤ opens [t] + depth ∧ Closing (opens [t] + depth - closes [t]) ts := by
  have closesCons (us : List Token) : closes (t :: us) = closes us + closes [t] := by
    simp [closes, List.countP_cons]
  have opensCons (us : List Token) : opens (t :: us) = opens us + opens [t] := by
    simp [opens, List.countP_cons]
  constructor
  · rintro ⟨within, whole⟩
    have first : closes [t] ≤ opens [t] + depth := within [t] ⟨ts, rfl⟩
    refine ⟨first, fun before behind => ?_, ?_⟩
    · have longer := within (t :: before) (List.prefix_cons_inj t |>.mpr behind)
      rw [closesCons, opensCons] at longer
      omega
    · rw [closesCons, opensCons] at whole
      omega
  · rintro ⟨first, within, whole⟩
    refine ⟨fun before behind => ?_, ?_⟩
    · rcases List.prefix_cons_iff.mp behind with rfl | ⟨us, rfl, shorter⟩
      · simp [closes]
      · have rest := within us shorter
        rw [closesCons, opensCons]
        omega
    · rw [closesCons, opensCons]
      omega

end Token

namespace Node

open Token

theorem exists_matchWithin_iff {current : List Node} {outer : List (List Node)} {ts : List Token} :
    (∃ ns, matchWithin current outer ts = .ok ns) ↔ Closing outer.length ts := by
  induction ts generalizing current outer with
  | nil => cases outer <;> simp [matchWithin, closing_nil_iff]
  | cons t ts ih =>
    rw [closing_cons_iff, matchWithin.eq_def]
    dsimp only
    split
    · rw [ih]
      simp [opens, closes, Token.isMark, Nat.add_comm]
    · cases outer with
      | nil => simp [opens, closes, Token.isMark]
      | cons parent outer =>
        dsimp only
        rw [ih]
        simp [opens, closes, Token.isMark]
    · next notLeft notRight =>
      have silent : t.isMark .leftParen = false ∧ t.isMark .rightParen = false := by
        cases t with
        | mark m =>
          cases m with
          | leftParen => exact absurd rfl notLeft
          | rightParen => exact absurd rfl notRight
          | quote | separator => exact ⟨rfl, rfl⟩
        | number | name | operator => exact ⟨rfl, rfl⟩
      rw [ih]
      simp [opens, closes, silent]

theorem exists_matchParens_iff {ts : List Token} :
    (∃ ns, matchParens ts = .ok ns) ↔ Balanced ts :=
  exists_matchWithin_iff.trans closing_zero_iff

theorem matchParens_eq_error_iff {ts : List Token} {f : SyntaxFault} :
    matchParens ts = .error f ↔ f = .unbalancedParens ∧ ¬Balanced ts := by
  rw [← exists_matchParens_iff]
  cases matched : matchParens ts with
  | ok ns => simp
  | error g =>
    cases matchWithin_error matched
    simp [eq_comm]

theorem matchParens_tokensOf_iff {ns : List Node} :
    matchParens (tokensOf ns) = .ok ns ↔ ∀ n ∈ ns, n.Avoids Mark.isParen :=
  matchParens_eq_ok_iff.trans ⟨fun ⟨_, avoid⟩ => avoid, fun avoid => ⟨rfl, avoid⟩⟩

/-- Matching takes exactly the balanced lists. What it gives are the nodes without stray parentheses
that are written as the list, and all such nodes come back from their tokens. -/
theorem matching_loses_nothing (ts : List Token) (ns : List Node) :
    ((∃ ns, matchParens ts = .ok ns) ↔ Balanced ts) ∧
    (∀ f, matchParens ts = .error f ↔ f = .unbalancedParens ∧ ¬Balanced ts) ∧
    (matchParens ts = .ok ns ↔ tokensOf ns = ts ∧ ∀ n ∈ ns, n.Avoids Mark.isParen) ∧
    (matchParens (tokensOf ns) = .ok ns ↔ ∀ n ∈ ns, n.Avoids Mark.isParen) :=
  ⟨exists_matchParens_iff, fun _ => matchParens_eq_error_iff, matchParens_eq_ok_iff,
    matchParens_tokensOf_iff⟩

end Node

end CellLisp
