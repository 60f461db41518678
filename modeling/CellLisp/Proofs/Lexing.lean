import CellLisp.Proofs.Words

/-!
# The lexer reads maximal words and reports the first fault

What a text says is stated place by place, without a lexer: where a mark stands, where a word starts
and ends, what a word reads as, and what is wrong where. While the lexer holds an open word, all
characters of it are word characters and none stands before it. So the word that it closes at the
next other character is a maximal one, and nothing else starts or ends in between. Hence the tokens
are those of the text, in its order, and a fault is reported only after everything before it was
found right.
-/

namespace CellLisp

namespace Token

variable {text word : List Char} {c : Char} {i j k l : Nat} {t : Token} {f g : LexicalFault}

/-! What a text says. -/

def HasWordChar (text : List Char) (i : Nat) : Prop := ∃ c, text[i]? = some c ∧ isWordChar c = true

/-- A maximal run of word characters, from `i` up to, and without, `j`. -/
structure IsWord (text : List Char) (i j : Nat) : Prop where
  filled : i < j
  inside : ∀ k, i ≤ k → k < j → HasWordChar text k
  before : ∀ k, k + 1 = i → ¬HasWordChar text k
  after : ¬HasWordChar text j

/-- A character that has no place in a text. -/
structure IsStray (c : Char) : Prop where
  noMark : Mark.ofChar? c = none
  noBlank : Unicode.isWhiteSpace c = false
  noWord : isWordChar c = false

def IsOperator (word : List Char) : Prop := ∀ c ∈ word, isSymbol c = true

def HasDigit (word : List Char) : Prop := ∃ c ∈ word, c.isDigit = true

def IsInt (word : List Char) (n : Int64) : Prop := Decimal.integer? word = some n.toInt

def IsFloat (word : List Char) (x : Float) : Prop := Decimal.float? word = some x

/-- The word is a numeral of one of the two kinds. -/
def IsNumeral (word : List Char) : Prop := (∃ n, IsInt word n) ∨ ∃ x, IsFloat word x

/-- A word that starts like a number and is none. -/
structure IsBad (word : List Char) : Prop where
  mixed : ¬IsOperator word
  digit : ∃ c, word.head? = some c ∧ c.isDigit = true
  noNumeral : ¬IsNumeral word

/-- What a word reads as: the first of four kinds that fits. -/
inductive Reads (word : List Char) : Token → Prop
  | operator (all : IsOperator word) : Reads word (operator (String.ofList word))
  | int {n : Int64} (mixed : ¬IsOperator word) (digit : HasDigit word) (int : IsInt word n) :
    Reads word (number (.int n))
  | float {x : Float} (mixed : ¬IsOperator word) (digit : HasDigit word)
    (noInt : ¬∃ n, IsInt word n) (float : IsFloat word x) : Reads word (number (.float x))
  | name (mixed : ¬IsOperator word) (noNumber : ¬(HasDigit word ∧ IsNumeral word)) :
    Reads word (name (String.ofList word))

/-- A mark stands at `i`, or a word starts there. -/
def Starts (text : List Char) (i : Nat) : Prop :=
  (∃ c m, text[i]? = some c ∧ Mark.ofChar? c = some m) ∨ ∃ j, IsWord text i j

/-- The token whose characters start at `i`. -/
inductive Stands (text : List Char) (i : Nat) : Token → Prop
  | mark {c : Char} {m : Mark} (here : text[i]? = some c) (found : Mark.ofChar? c = some m) :
    Stands text i (mark m)
  | word {j : Nat} {t : Token} (word : IsWord text i j) (reads : Reads (text.extract i j) t) :
    Stands text i t

/-- A stray character counts where it stands, and a bad word just behind its end, unless a stray
character stands there. -/
inductive FaultAt (text : List Char) (i : Nat) : LexicalFault → Prop
  | stray {c : Char} (here : text[i]? = some c) (stray : IsStray c) :
    FaultAt text i (.unexpectedCharacter c i)
  | bad {j : Nat} (word : IsWord text j i) (bad : IsBad (text.extract j i))
    (noStray : ∀ c, text[i]? = some c → ¬IsStray c) :
    FaultAt text i (.invalidToken (String.ofList (text.extract j i)) i)

/-- The tokens that start from `i` on and before `j`, each with its place, in the order of the
text. -/
structure Lists (text : List Char) (i j : Nat) (placed : List (Nat × Token)) : Prop where
  ordered : placed.Pairwise fun p q => p.1 < q.1
  within : ∀ p ∈ placed, i ≤ p.1 ∧ p.1 < j
  stands : ∀ p ∈ placed, Stands text p.1 p.2
  complete : ∀ k, i ≤ k → k < j → Starts text k → ∃ t, (k, t) ∈ placed

/-- Every other fault of the text comes later. -/
structure FirstFault (text : List Char) (i : Nat) (f : LexicalFault) : Prop where
  here : FaultAt text i f
  first : ∀ k g, FaultAt text k g → i < k ∨ g = f

/-! Words lie apart. -/

theorem IsStray.not_hasWordChar (stray : IsStray c) (here : text[i]? = some c) :
    ¬HasWordChar text i := by
  simp [HasWordChar, here, stray.noWord]

theorem IsWord.stop_eq (word : IsWord text i j) (other : IsWord text k l) (low : i < l)
    (high : l ≤ j) : k = i ∧ l = j := by
  have stop : l = j := by
    by_cases same : l = j
    · exact same
    · exact absurd (word.inside l (by omega) (by omega)) other.after
  refine ⟨?_, stop⟩
  have filled := other.filled
  rcases Nat.lt_trichotomy k i with before | same | behind
  · exact absurd (other.inside (i - 1) (by omega) (by omega)) (word.before (i - 1) (by omega))
  · exact same
  · exact absurd (word.inside (k - 1) (by omega) (by omega)) (other.before (k - 1) (by omega))

/-! What a word reads as. -/

theorem all_isSymbol : word.all isSymbol = true ↔ IsOperator word := List.all_eq_true

theorem any_isDigit : word.any Char.isDigit = true ↔ HasDigit word := List.any_eq_true

theorem ofInt?_integer? {n : Int64} :
    (Decimal.integer? word).bind Checked.ofInt? = some n ↔ IsInt word n := by
  rw [Option.bind_eq_some_iff]
  constructor
  · rintro ⟨i, read, fits⟩
    rw [IsInt, read, Checked.ofInt?_eq_some_iff.mp fits]
  · intro int
    exact ⟨n.toInt, int, Checked.ofInt?_eq_some_iff.mpr rfl⟩

theorem reads_of_read? {n : Number} (mixed : ¬IsOperator word) (read : Number.read? word = some n) :
    Reads word (number n) ∧ IsNumeral word := by
  unfold Number.read? at read
  split at read
  · next digit =>
    have digit := any_isDigit.mp digit
    split at read
    · next n found =>
      cases read
      have int := ofInt?_integer?.mp found
      exact ⟨.int mixed digit int, .inl ⟨n, int⟩⟩
    · next none =>
      obtain ⟨x, float, rfl⟩ := Option.map_eq_some_iff.mp read
      have noInt : ¬∃ n, IsInt word n := by
        rintro ⟨n, int⟩
        rw [ofInt?_integer?.mpr int] at none
        cases none
      exact ⟨.float mixed digit noInt float, .inr ⟨x, float⟩⟩
  · cases read

theorem read?_eq_none (unread : Number.read? word = none) :
    ¬(HasDigit word ∧ IsNumeral word) := by
  rintro ⟨digit, ⟨n, int⟩ | ⟨x, float⟩⟩
  · simp [Number.read?, any_isDigit.mpr digit, ofInt?_integer?.mpr int] at unread
  · simp only [Number.read?, any_isDigit.mpr digit, if_true] at unread
    split at unread
    · cases unread
    · simp [show Decimal.float? word = some x from float] at unread

theorem head?_isDigit : (word.head?.map Char.isDigit).getD false = true ↔
    ∃ c, word.head? = some c ∧ c.isDigit = true := by
  cases word.head? <;> simp

/-- A word is read, or it is bad. -/
theorem ofWord_cases (offset : Nat) (word : List Char) :
    (∃ t, ofWord offset word = .ok t ∧ Reads word t ∧ ¬IsBad word) ∨
      (ofWord offset word = .error (.invalidToken (String.ofList word) offset) ∧ IsBad word) := by
  unfold ofWord
  split
  · next all =>
    have all := all_isSymbol.mp all
    exact .inl ⟨_, rfl, .operator all, fun bad => bad.mixed all⟩
  · next mixed =>
    have mixed : ¬IsOperator word := fun all => mixed (all_isSymbol.mpr all)
    split
    · next n read =>
      obtain ⟨reads, numeral⟩ := reads_of_read? mixed read
      exact .inl ⟨_, rfl, reads, fun bad => bad.noNumeral numeral⟩
    · next unread =>
      have noNumber := read?_eq_none unread
      split
      · next starts =>
        have starts := head?_isDigit.mp starts
        refine .inr ⟨rfl, mixed, starts, fun numeral => noNumber ⟨?_, numeral⟩⟩
        obtain ⟨c, first, digit⟩ := starts
        exact ⟨c, List.mem_of_mem_head? first, digit⟩
      · next noDigit =>
        exact .inl ⟨_, rfl, .name mixed noNumber, fun bad => noDigit (head?_isDigit.mpr bad.digit)⟩

/-! Parts of a text. -/

theorem Lists.append {first second : List (Nat × Token)} (before : Lists text i j first)
    (behind : Lists text j k second) (low : i ≤ j) (high : j ≤ k) :
    Lists text i k (first ++ second) where
  ordered := by
    refine List.pairwise_append.mpr ⟨before.ordered, behind.ordered, fun p memP q memQ => ?_⟩
    exact Nat.lt_of_lt_of_le (before.within p memP).2 (behind.within q memQ).1
  within p mem := by
    rcases List.mem_append.mp mem with mem | mem
    · have := before.within p mem
      omega
    · have := behind.within p mem
      omega
  stands p mem := by
    rcases List.mem_append.mp mem with mem | mem
    · exact before.stands p mem
    · exact behind.stands p mem
  complete l lower upper starts := by
    by_cases left : l < j
    · obtain ⟨t, mem⟩ := before.complete l lower left starts
      exact ⟨t, List.mem_append_left _ mem⟩
    · obtain ⟨t, mem⟩ := behind.complete l (by omega) upper starts
      exact ⟨t, List.mem_append_right _ mem⟩

theorem lists_nil (none : ∀ k, i ≤ k → k < j → ¬Starts text k) : Lists text i j [] where
  ordered := List.Pairwise.nil
  within _ mem := absurd mem List.not_mem_nil
  stands _ mem := absurd mem List.not_mem_nil
  complete k low high starts := absurd starts (none k low high)

/-- One token, where nothing else starts. -/
theorem lists_singleton (low : i < j) (stands : Stands text i t)
    (only : ∀ k, i ≤ k → k < j → Starts text k → k = i) : Lists text i j [(i, t)] where
  ordered := List.pairwise_singleton _ _
  within p mem := by
    cases List.mem_singleton.mp mem
    exact ⟨Nat.le_refl i, low⟩
  stands p mem := by
    cases List.mem_singleton.mp mem
    exact stands
  complete k lower upper starts := by
    cases only k lower upper starts
    exact ⟨t, List.mem_singleton.mpr rfl⟩

/-- What the lexer should answer to the text from `i` on. -/
inductive Answers (text : List Char) (i : Nat) : Except LexicalFault (List Token) → Prop
  | ok {placed : List (Nat × Token)} (lists : Lists text i text.length placed)
    (clean : ∀ k g, i ≤ k → ¬FaultAt text k g) : Answers text i (.ok (placed.map Prod.snd))
  | error {j : Nat} {f : LexicalFault} (low : i ≤ j) (here : FaultAt text j f)
    (first : ∀ k g, i ≤ k → FaultAt text k g → j < k ∨ g = f) : Answers text i (.error f)

/-- A part without faults in front of the rest. -/
theorem Answers.prepend {first : List (Nat × Token)} {ts : List Token}
    {rest : Except LexicalFault (List Token)} (answers : Answers text j rest)
    (lists : Lists text i j first) (clean : ∀ k g, i ≤ k → k < j → ¬FaultAt text k g)
    (tokens : first.map Prod.snd = ts) (low : i ≤ j) (high : j ≤ text.length) :
    Answers text i (rest.map (ts ++ ·)) := by
  subst tokens
  cases answers with
  | ok more behind =>
    rw [Except.map, ← List.map_append]
    refine .ok (lists.append more low high) fun k g lower => ?_
    by_cases left : k < j
    · exact clean k g lower left
    · exact behind k g (by omega)
  | error later here first =>
    refine .error (by omega) here fun k g lower fault => ?_
    by_cases left : k < j
    · exact absurd fault (clean k g lower left)
    · exact first k g (by omega) fault

/-! An open word. -/

/-- The word that is open at `j` started at `i`. -/
structure Open (text : List Char) (i j : Nat) : Prop where
  low : i ≤ j
  inside : ∀ k, i ≤ k → k < j → HasWordChar text k
  before : ∀ k, k + 1 = i → ¬HasWordChar text k

namespace Open

theorem isWord (opened : Open text i j) (filled : i < j) (ends : ¬HasWordChar text j) :
    IsWord text i j := ⟨filled, opened.inside, opened.before, ends⟩

theorem more (opened : Open text i j) (here : text[j]? = some c) (plain : isWordChar c = true) :
    Open text i (j + 1) where
  low := Nat.le_succ_of_le opened.low
  inside k low high := by
    by_cases last : k = j
    · exact last ▸ ⟨c, here, plain⟩
    · exact opened.inside k low (by omega)
  before := opened.before

theorem empty (ends : ¬HasWordChar text j) : Open text (j + 1) (j + 1) where
  low := Nat.le_refl _
  inside k low high := by omega
  before k eq := (Nat.succ.inj eq) ▸ ends

/-- No mark stands inside an open word. -/
theorem not_mark (opened : Open text i j) {m : Mark} (low : i ≤ k) (high : k < j)
    (here : text[k]? = some c) : Mark.ofChar? c ≠ some m := by
  obtain ⟨d, found, plain⟩ := opened.inside k low high
  cases here.symm.trans found
  simp [ofChar?_of_isWordChar plain]

/-- Only one word starts where a word is open. -/
theorem starts_eq (opened : Open text i j) (low : i ≤ k) (high : k < j)
    (starts : Starts text k) : k = i := by
  rcases starts with ⟨c, m, here, found⟩ | ⟨l, other⟩
  · exact absurd found (opened.not_mark low high here)
  · by_cases same : k = i
    · exact same
    · exact absurd (opened.inside (k - 1) (by omega) (by omega)) (other.before (k - 1) (by omega))

/-- A word character is no fault, and a word that ended here would be open still. -/
theorem not_faultAt (opened : Open text i j) (low : i ≤ k) (high : k < j) : ¬FaultAt text k g := by
  intro fault
  have plain := opened.inside k low high
  cases fault with
  | stray here stray => exact stray.not_hasWordChar here plain
  | bad word => exact word.after plain

/-- What may be wrong where an open word ends. -/
theorem faultAt_end (opened : Open text i j) (ends : ¬HasWordChar text j)
    (noStray : ∀ c, text[j]? = some c → ¬IsStray c) (fault : FaultAt text j g) :
    i < j ∧ IsBad (text.extract i j) ∧
      g = .invalidToken (String.ofList (text.extract i j)) j := by
  cases fault with
  | stray here stray => exact absurd stray (noStray _ here)
  | @bad start word bad =>
    by_cases filled : i < j
    · obtain ⟨rfl, -⟩ := (opened.isWord filled ends).stop_eq word filled (Nat.le_refl j)
      exact ⟨filled, bad, rfl⟩
    · have filled := word.filled
      have last := word.inside (j - 1) (by omega) (by omega)
      have low := opened.low
      exact absurd last (opened.before (j - 1) (by omega))

/-- The word is closed where it ends: it is listed, or it is bad. -/
theorem close_cases (opened : Open text i j) (ends : ¬HasWordChar text j)
    (noStray : ∀ c, text[j]? = some c → ¬IsStray c) :
    (∃ placed, close j (text.extract i j).reverse = .ok (placed.map Prod.snd) ∧
        Lists text i j placed ∧ ∀ k g, i ≤ k → k ≤ j → ¬FaultAt text k g) ∨
      ∃ f, close j (text.extract i j).reverse = .error f ∧ FaultAt text j f ∧
        ∀ k g, i ≤ k → FaultAt text k g → j < k ∨ g = f := by
  have quiet : ¬(i < j ∧ IsBad (text.extract i j)) → ∀ k g, i ≤ k → k ≤ j → ¬FaultAt text k g := by
    intro right k g low high fault
    by_cases last : k = j
    · subst last
      obtain ⟨filled, bad, -⟩ := opened.faultAt_end ends noStray fault
      exact right ⟨filled, bad⟩
    · exact opened.not_faultAt low (by omega) fault
  by_cases filled : i < j
  · have word := opened.isWord filled ends
    have nonempty : (text.extract i j).reverse.isEmpty = false := by
      obtain ⟨c, here, -⟩ := opened.inside i (Nat.le_refl i) filled
      have bound := (List.getElem?_eq_some_iff.mp here).1
      simp [List.extract_eq_take_drop]
      omega
    rw [close, nonempty, List.reverse_reverse]
    rcases ofWord_cases j (text.extract i j) with ⟨t, read, reads, right⟩ | ⟨refused, bad⟩
    · refine .inl ⟨[(i, t)], ?_, ?_, quiet fun both => right both.2⟩
      · rw [read]
        rfl
      · apply lists_singleton filled (.word word reads)
        intro k low high starts
        exact opened.starts_eq low high starts
    · refine .inr ⟨_, ?_, .bad word bad noStray, fun k g low fault => ?_⟩
      · rw [refused]
        rfl
      · rcases Nat.lt_trichotomy k j with before | rfl | behind
        · exact absurd fault (opened.not_faultAt low before)
        · exact .inr (opened.faultAt_end ends noStray fault).2.2
        · exact .inl behind
  · have low := opened.low
    obtain rfl : i = j := by omega
    refine .inl ⟨[], ?_, ?_, quiet fun both => filled both.1⟩
    · simp [close]
    · apply lists_nil
      omega

end Open

theorem extract_succ (low : i ≤ j) (here : text[j]? = some c) :
    text.extract i (j + 1) = text.extract i j ++ [c] := by
  have last : (text.drop i)[j - i]? = some c := by
    rw [List.getElem?_drop, Nat.add_sub_cancel' low, here]
  simp [List.extract_eq_take_drop, Nat.succ_sub low, List.take_add_one, last]

/-! From the open word to the end of the text. -/

theorem FaultAt.le_length (fault : FaultAt text i g) : i ≤ text.length := by
  cases fault with
  | stray here => exact Nat.le_of_lt (List.getElem?_eq_some_iff.mp here).1
  | bad word =>
    have filled := word.filled
    obtain ⟨c, last, -⟩ := word.inside (i - 1) (by omega) (by omega)
    have bound := (List.getElem?_eq_some_iff.mp last).1
    omega

theorem bind_ok {β : Type} {x : Except LexicalFault (List Token)}
    {f : List Token → Except LexicalFault β} {ts : List Token} (same : x = .ok ts) :
    x >>= f = f ts := by
  subst same
  rfl

/-- A character that is neither a word character nor stray closes the open word. What it stands
for itself comes next, and then the rest. -/
theorem Open.answers {piece : List (Nat × Token)} {rest : Except LexicalFault (List Token)}
    (opened : Open text i j) (here : text[j]? = some c) (ends : ¬HasWordChar text j)
    (noStray : ¬IsStray c) (lists : Lists text j (j + 1) piece)
    (answers : Answers text (j + 1) rest) :
    Answers text i (do
      let closed ← close j (text.extract i j).reverse
      return closed ++ (piece.map Prod.snd ++ (← rest))) := by
  have bound := (List.getElem?_eq_some_iff.mp here).1
  have noStray : ∀ d, text[j]? = some d → ¬IsStray d := fun d there => by
    cases here.symm.trans there
    exact noStray
  rcases opened.close_cases ends noStray with ⟨placed, closed, before, clean⟩ | ⟨f, refused, fault⟩
  · have all := answers.prepend (before.append lists opened.low (Nat.le_succ j))
      (fun k g low high => clean k g low (Nat.le_of_lt_succ high)) List.map_append
      (Nat.le_succ_of_le opened.low) bound
    rw [bind_ok closed]
    cases rest with
    | ok ts =>
      rw [Except.map, List.append_assoc] at all
      exact all
    | error f => exact all
  · rw [refused]
    exact .error opened.low fault.1 fault.2

theorem lists_blank {c : Char} (here : text[j]? = some c) (found : Mark.ofChar? c = none)
    (apart : ¬HasWordChar text j) : Lists text j (j + 1) [] := by
  apply lists_nil
  rintro k low high (⟨d, m, there, marks⟩ | ⟨l, word⟩)
  · obtain rfl : k = j := by omega
    cases here.symm.trans there
    simp [found] at marks
  · obtain rfl : k = j := by omega
    exact apart (word.inside k (Nat.le_refl k) word.filled)

/-- A stray character is reported before a word that it ends. -/
theorem Open.answers_stray {c : Char} (opened : Open text i j) (here : text[j]? = some c)
    (stray : IsStray c) : Answers text i (.error (.unexpectedCharacter c j)) := by
  refine .error opened.low (.stray here stray) fun k g low other => ?_
  rcases Nat.lt_trichotomy k j with before | rfl | after
  · exact absurd other (opened.not_faultAt low before)
  · cases other with
    | stray there =>
      cases here.symm.trans there
      exact .inr rfl
    | bad _ _ noStray => exact absurd stray (noStray c here)
  · exact .inl after

/-- The lexer answers to the rest of the text as the text says, from the start of the open word
on. -/
theorem scan_answers {rest : List Char} (opened : Open text i j) (behind : text.drop j = rest)
    (bound : j ≤ text.length) : Answers text i (scan (text.extract i j).reverse j rest) := by
  induction rest generalizing i j with
  | nil =>
    have stop : j = text.length := Nat.le_antisymm bound (List.drop_eq_nil_iff.mp behind)
    have nothing : text[j]? = none := by simp [stop]
    have ends : ¬HasWordChar text j := by simp [HasWordChar, nothing]
    have noStray : ∀ d, text[j]? = some d → ¬IsStray d := by simp [nothing]
    rw [scan]
    rcases opened.close_cases ends noStray with ⟨placed, closed, lists, clean⟩ | ⟨f, refused, fault⟩
    · rw [closed]
      exact .ok (stop ▸ lists) fun k g low fault =>
        clean k g low (stop ▸ fault.le_length) fault
    · rw [refused]
      exact .error opened.low fault.1 fault.2
  | cons c rest ih =>
    have here : text[j]? = some c := by
      simpa using congrArg List.head? behind
    have next : text.drop (j + 1) = rest := by
      rw [← List.tail_drop, behind, List.tail_cons]
    have bound := (List.getElem?_eq_some_iff.mp here).1
    have apart (plain : isWordChar c = false) : ¬HasWordChar text j := by
      simp [HasWordChar, here, plain]
    have fresh (plain : isWordChar c = false) : Answers text (j + 1) (scan [] (j + 1) rest) := by
      simpa using ih (Open.empty (apart plain)) next bound
    cases found : Mark.ofChar? c with
    | some m =>
      have plain : isWordChar c = false := by
        rw [Bool.eq_false_iff]
        intro plain
        simp [ofChar?_of_isWordChar plain] at found
      have alone : Lists text j (j + 1) [(j, mark m)] :=
        lists_singleton (Nat.lt_succ_self j) (.mark here found) (by omega)
      have noStray : ¬IsStray c := fun stray => by simp [stray.noMark] at found
      have all := opened.answers here (apart plain) noStray alone (fresh plain)
      simpa [scan, found] using all
    | none =>
      by_cases white : Unicode.isWhiteSpace c = true
      · have plain : isWordChar c = false := by
          rw [Bool.eq_false_iff]
          intro plain
          simp [isWhiteSpace_of_isWordChar plain] at white
        have noStray : ¬IsStray c := fun stray => by simp [stray.noBlank] at white
        have none := lists_blank here found (apart plain)
        have all := opened.answers here (apart plain) noStray none (fresh plain)
        simpa [scan, found, white] using all
      · by_cases plain : isWordChar c = true
        · have all := ih (opened.more here plain) next bound
          rw [extract_succ opened.low here, List.reverse_append] at all
          simpa [scan, found, white, plain] using all
        · have stray : IsStray c := ⟨found, by simpa using white, by simpa using plain⟩
          have stops : scan (text.extract i j).reverse j (c :: rest) =
              .error (.unexpectedCharacter c j) := by
            simp [scan, found, white, plain]
          rw [stops]
          exact opened.answers_stray here stray

theorem answers_ofText (text : List Char) : Answers text 0 (ofText text) := by
  have opened : Open text 0 0 := ⟨Nat.le_refl 0, by omega, by omega⟩
  have all := scan_answers opened List.drop_zero (Nat.zero_le _)
  rwa [List.extract_eq_take_drop, Nat.sub_self, List.take_zero] at all

theorem no_fault_iff : (∀ k g, ¬FaultAt text k g) ↔
    (∀ c ∈ text, ¬IsStray c) ∧ ∀ i j, IsWord text i j → ¬IsBad (text.extract i j) := by
  constructor
  · intro clean
    have noStray : ∀ c ∈ text, ¬IsStray c := by
      intro c mem stray
      obtain ⟨i, here⟩ := List.mem_iff_getElem?.mp mem
      exact clean i _ (.stray here stray)
    refine ⟨noStray, fun i j word bad => clean j _ (.bad word bad fun c here => ?_)⟩
    exact noStray c (List.mem_of_getElem? here)
  · rintro ⟨noStray, noBad⟩ k g fault
    cases fault with
    | stray here stray => exact noStray _ (List.mem_of_getElem? here) stray
    | bad word bad => exact noBad _ _ word bad

/-- A text is read if every character has its place in it and every word that starts with a digit
is a number. Its tokens are then what stands in it, one for each mark and one for each word, in
order. Otherwise the first fault is reported. -/
theorem ofText_reads_text (text : List Char) :
    ((∃ ts, ofText text = .ok ts) ↔
      (∀ c ∈ text, ¬IsStray c) ∧ ∀ i j, IsWord text i j → ¬IsBad (text.extract i j)) ∧
    (∀ ts, ofText text = .ok ts →
      ∃ placed, Lists text 0 text.length placed ∧ placed.map Prod.snd = ts) ∧
    ∀ f, ofText text = .error f ↔ ∃ i, FirstFault text i f := by
  rw [← no_fault_iff]
  have answers := answers_ofText text
  generalize ofText text = outcome at answers ⊢
  cases answers with
  | @ok placed lists clean =>
    have clean : ∀ k g, ¬FaultAt text k g := fun k g => clean k g (Nat.zero_le k)
    refine ⟨⟨fun _ => clean, fun _ => ⟨_, rfl⟩⟩, fun ts same => ?_, fun f => ?_⟩
    · cases same
      exact ⟨placed, lists, rfl⟩
    · constructor
      · intro same
        cases same
      · rintro ⟨i, fault⟩
        exact absurd fault.here (clean i f)
  | @error i f low here first =>
    have first : ∀ k g, FaultAt text k g → i < k ∨ g = f := fun k g => first k g (Nat.zero_le k)
    refine ⟨⟨fun ⟨ts, same⟩ => ?_, fun clean => absurd here (clean i f)⟩, fun ts same => ?_, ?_⟩
    · cases same
    · cases same
    · intro g
      constructor
      · intro same
        cases same
        exact ⟨i, here, first⟩
      · rintro ⟨k, other⟩
        rcases first k g other.here with later | rfl
        · rcases other.first i f here with earlier | rfl
          · omega
          · rfl
        · rfl

/-- A bad word is reported at the character behind it, which is reported instead if it is stray. -/
example : ofText ['1', 'a', ' ', '@'] = .error (.invalidToken (String.ofList ['1', 'a']) 2) ∧
    ofText ['1', 'a', '@'] = .error (.unexpectedCharacter '@' 2) := ⟨rfl, rfl⟩

end Token

end CellLisp
