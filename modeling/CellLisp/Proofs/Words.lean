import CellLisp.Proofs.Lines

/-!
# Words are read whole

No word character is a mark or a blank, so an open word takes in all word characters that follow,
and the first mark or blank behind them closes it. Hence a word that reads as a token on its own
does so in every text in which something parts it from what follows. An integer is written as such
a word, and it reads as the same integer.
-/

namespace CellLisp

/-! Kinds of characters. -/

namespace Unicode

theorem Ranges.has_of_apart {t u : Ranges} {c : Char}
    (apart : ∀ r ∈ t, ∀ q ∈ u, r.2 < q.1 ∨ q.2 < r.1) (inside : t.has c = true) :
    u.has c = false := by
  obtain ⟨r, among, low, high⟩ := has_iff.mp inside
  rw [Bool.eq_false_iff]
  intro other
  obtain ⟨q, there, below, above⟩ := has_iff.mp other
  rcases apart r among q there with before | behind <;> omega

theorem isWhiteSpace_of_isAlphanumeric {c : Char} (alphanumeric : isAlphanumeric c = true) :
    isWhiteSpace c = false := by
  unfold isAlphanumeric at alphanumeric
  split at alphanumeric
  · next ascii =>
    have each : ∀ n : Fin 128, (Char.ofNat n).isAlphanum = true →
        isWhiteSpace (Char.ofNat n) = false := by decide
    have here := each ⟨c.toNat, ascii⟩
    rw [Char.ofNat_toNat] at here
    exact here alphanumeric
  · exact Ranges.has_of_apart (by decide +kernel) alphanumeric

end Unicode

namespace Token

theorem isWordChar_of_isDigit {c : Char} (digit : c.isDigit = true) : isWordChar c = true := by
  have bounds := Char.isDigit_iff_toNat.mp digit
  have ascii : c.toNat < 0x80 := Nat.lt_of_le_of_lt bounds.2 (by decide)
  simp [isWordChar, isPlain, Unicode.isAlphanumeric_of_ascii ascii, Char.isAlphanum, digit]

theorem of_isSymbol (p : Char → Bool) {c : Char} (symbol : isSymbol c = true)
    (each : ['+', '-', '*', '/', '%', '^', '&', '<', '>', '=', '|', '!'].all p = true) :
    p c = true :=
  List.all_eq_true.mp each c (List.contains_iff_mem.mp symbol)

theorem isSymbol_of_isDigit {c : Char} (digit : c.isDigit = true) : isSymbol c = false := by
  rw [Bool.eq_false_iff]
  intro symbol
  have noDigit := of_isSymbol (!Char.isDigit ·) symbol (by decide)
  rw [digit] at noDigit
  cases noDigit

theorem isWhiteSpace_of_isWordChar {c : Char} (word : isWordChar c = true) :
    Unicode.isWhiteSpace c = false := by
  simp only [isWordChar, isPlain, isSymbol, Bool.or_eq_true, beq_iff_eq] at word
  rcases word with ((alphanumeric | rfl) | rfl) | symbol
  · exact Unicode.isWhiteSpace_of_isAlphanumeric alphanumeric
  · decide
  · decide
  · have seen := of_isSymbol (!Unicode.isWhiteSpace ·) symbol (by decide)
    rwa [Bool.not_eq_true'] at seen

theorem ofChar?_of_isWordChar {c : Char} (word : isWordChar c = true) : Mark.ofChar? c = none := by
  have marks : ['(', ')', '\'', ';'].all (!isWordChar ·) = true := by decide
  cases found : Mark.ofChar? c with
  | none => rfl
  | some m =>
    have mem : c ∈ ['(', ')', '\'', ';'] := by
      unfold Mark.ofChar? at found
      split at found <;> simp_all
    have apart := List.all_eq_true.mp marks c mem
    rw [word] at apart
    cases apart

/-! Words. -/

variable {word text more : List Char} {t : Token}

/-- On its own the word reads as the token, wherever it ends. -/
structure Written (word : List Char) (t : Token) : Prop where
  filled : word ≠ []
  plain : ∀ c ∈ word, isWordChar c = true
  reads : ∀ offset, ofWord offset word = .ok t

/-- A text before which an open word ends. -/
inductive Parted : List Char → Prop
  | nil : Parted []
  | mark {c : Char} {m : Mark} (found : Mark.ofChar? c = some m) (rest : List Char) :
    Parted (c :: rest)
  | blank {c : Char} (blank : Blank c) (rest : List Char) : Parted (c :: rest)

theorem scan_word (plain : ∀ c ∈ word, isWordChar c = true) (opened : List Char) (offset : Nat)
    (rest : List Char) :
    scan opened offset (word ++ rest) =
      scan (word.reverse ++ opened) (offset + word.length) rest := by
  induction word generalizing opened offset with
  | nil => rfl
  | cons c word ih =>
    obtain ⟨here, there⟩ := List.forall_mem_cons.mp plain
    rw [List.cons_append, scan, ofChar?_of_isWordChar here]
    dsimp only
    rw [if_neg (by simp [isWhiteSpace_of_isWordChar here]), if_pos here, ih there]
    simp [Nat.add_comm, Nat.add_left_comm]

theorem Written.close (written : Written word t) (offset : Nat) :
    Token.close offset word.reverse = .ok [t] := by
  have filled : word.reverse.isEmpty = false := by simp [written.filled]
  rw [Token.close, filled, List.reverse_reverse, written.reads]
  rfl

theorem tokens?_mark {c : Char} {m : Mark} (found : Mark.ofChar? c = some m) (text : List Char) :
    tokens? (c :: text) = both (some [mark m]) (tokens? text) := by
  have marked := scan_mark found [] 0 text
  rwa [show (Token.close 0 []).toOption = some [] from rfl, nil_both] at marked

theorem tokens?_blank {c : Char} (blank : Blank c) (text : List Char) :
    tokens? (c :: text) = tokens? text := by
  have skipped := scan_blank blank [] 0 text
  rwa [show (Token.close 0 []).toOption = some [] from rfl, nil_both] at skipped

theorem Written.tokens? (written : Written word t) (parted : Parted text) :
    tokens? (word ++ text) = both (some [t]) (Token.tokens? text) := by
  have opened : Token.tokens? (word ++ text) = (scan word.reverse word.length text).toOption := by
    rw [Token.tokens?, ofText, scan_word written.plain, List.append_nil, Nat.zero_add]
  rw [opened]
  cases parted with
  | nil =>
    rw [scan, written.close]
    rfl
  | mark found rest =>
    rw [scan_mark found, written.close, tokens?_mark found]
    rfl
  | blank blank rest =>
    rw [scan_blank blank, written.close, tokens?_blank blank]
    rfl

/-- A mark parts a text in two. -/
theorem scan_append_mark {c : Char} {m : Mark} (found : Mark.ofChar? c = some m)
    (word : List Char) (offset : Nat) (text more : List Char) :
    (scan word offset (text ++ c :: more)).toOption =
      both (scan word offset text).toOption (Token.tokens? (c :: more)) := by
  induction text generalizing word offset with
  | nil => rw [List.nil_append, scan_mark found, tokens?_mark found, scan]
  | cons d text ih =>
    have rest : Token.tokens? (text ++ c :: more) =
        both (Token.tokens? text) (Token.tokens? (c :: more)) := ih [] 0
    rw [List.cons_append]
    cases other : Mark.ofChar? d with
    | some k => rw [scan_mark other, scan_mark other, rest, both_assoc, both_assoc]
    | none =>
      by_cases white : Unicode.isWhiteSpace d = true
      · rw [scan_blank ⟨other, white⟩, scan_blank ⟨other, white⟩, rest, both_assoc]
      · simp only [scan, other, if_neg white]
        split
        · exact ih (d :: word) (offset + 1)
        · rfl

theorem tokens?_append_mark {c : Char} {m : Mark} (found : Mark.ofChar? c = some m)
    (text more : List Char) :
    tokens? (text ++ c :: more) = both (tokens? text) (tokens? (c :: more)) :=
  scan_append_mark found [] 0 text more

theorem blank_space : Blank ' ' := ⟨rfl, by decide⟩

end Token

/-! Integers. -/

namespace Decimal

theorem natural?_toDigits (n : Nat) : natural? (Nat.toDigits 10 n) = some n := by
  have digits : (Nat.toDigits 10 n).all Char.isDigit = true :=
    List.all_eq_true.mpr fun c mem => Nat.isDigit_of_mem_toDigits (by decide) (by decide) mem
  have filled : (Nat.toDigits 10 n).isEmpty = false := by simp [Nat.toDigits_ne_nil]
  rw [natural?, digits, filled, Nat.ofDigitChars_ten_toDigits]
  rfl

theorem sign_of_isDigit {c : Char} {cs : List Char} (digit : c.isDigit = true) :
    sign (c :: cs) = (false, c :: cs) := by
  unfold sign
  split
  · next same =>
    cases same
    cases digit
  · next same =>
    cases same
    cases digit
  · rfl

theorem toList_toString (i : Int) : (toString i).toList =
    if 0 ≤ i then Nat.toDigits 10 i.toNat else '-' :: Nat.toDigits 10 (-i).toNat := by
  rw [Int.toString_eq_repr, Int.repr_eq_if]
  split <;> simp

theorem exists_isDigit_toString (i : Int) : ∃ c ∈ (toString i).toList, c.isDigit = true := by
  have digit (n : Nat) : ∃ c ∈ Nat.toDigits 10 n, c.isDigit = true := by
    obtain ⟨c, mem⟩ := List.exists_mem_of_ne_nil _ (Nat.toDigits_ne_nil (n := n) (b := 10))
    exact ⟨c, mem, Nat.isDigit_of_mem_toDigits (by decide) (by decide) mem⟩
  rw [toList_toString]
  split
  · exact digit _
  · obtain ⟨c, mem, isDigit⟩ := digit (-i).toNat
    exact ⟨c, List.mem_cons_of_mem _ mem, isDigit⟩

theorem integer?_toString (i : Int) : integer? (toString i).toList = some i := by
  rw [toList_toString]
  split
  · next natural =>
    cases digits : Nat.toDigits 10 i.toNat with
    | nil => exact absurd digits Nat.toDigits_ne_nil
    | cons c cs =>
      have digit : c.isDigit = true :=
        Nat.isDigit_of_mem_toDigits (by decide) (by decide) (digits ▸ List.mem_cons_self)
      simp only [integer?, sign_of_isDigit digit]
      rw [← digits, natural?_toDigits]
      simp
      omega
  · next negative =>
    simp only [integer?, sign, natural?_toDigits]
    simp
    omega

end Decimal

theorem Number.read?_text (n : Int64) : read? (int n).text.toList = some (int n) := by
  have digits : (int n).text.toList.any Char.isDigit = true :=
    List.any_eq_true.mpr (Decimal.exists_isDigit_toString n.toInt)
  have range : Checked.ofInt? n.toInt = some n := Checked.ofInt?_eq_some_iff.mpr rfl
  rw [read?, if_pos digits, show (int n).text = toString n.toInt from rfl,
    Decimal.integer?_toString, Option.bind_some, range]

theorem Token.written_int (n : Int64) : Written (Number.int n).text.toList (number (.int n)) := by
  obtain ⟨c, mem, digit⟩ := Decimal.exists_isDigit_toString n.toInt
  refine ⟨List.ne_nil_of_mem mem, fun d mem => ?_, fun offset => ?_⟩
  · change d ∈ (toString n.toInt).toList at mem
    rw [Decimal.toList_toString] at mem
    have plain : ∀ {k d}, d ∈ Nat.toDigits 10 k → isWordChar d = true := fun mem =>
      isWordChar_of_isDigit (Nat.isDigit_of_mem_toDigits (by decide) (by decide) mem)
    split at mem
    · exact plain mem
    · rcases List.mem_cons.mp mem with rfl | mem
      · decide
      · exact plain mem
  · have mixed : (Number.int n).text.toList.all isSymbol = false :=
      List.all_eq_false.mpr ⟨c, mem, by simp [isSymbol_of_isDigit digit]⟩
    rw [ofWord, mixed, Number.read?_text]
    rfl

/-! Texts without comments. -/

namespace Comment

/-- Where a comment could begin there is no token. -/
theorem not_mem_of_scan {word text : List Char} {offset : Nat} {ts : List Token}
    (read : (Token.scan word offset text).toOption = some ts) : '#' ∉ text := by
  induction text generalizing word offset ts with
  | nil => exact List.not_mem_nil
  | cons c cs ih =>
    suffices apart : '#' ≠ c ∧ '#' ∉ cs from List.not_mem_cons_of_ne_of_not_mem apart.1 apart.2
    cases found : Mark.ofChar? c with
    | some m =>
      rw [Token.scan_mark found] at read
      obtain ⟨_, _, _, rest, _⟩ := Token.both_eq_some_iff.mp read
      obtain ⟨_, vs, _, rest, _⟩ := Token.both_eq_some_iff.mp rest
      refine ⟨?_, ih rest⟩
      rintro rfl
      cases found
    | none =>
      by_cases white : Unicode.isWhiteSpace c = true
      · rw [Token.scan_blank ⟨found, white⟩] at read
        obtain ⟨_, vs, _, rest, _⟩ := Token.both_eq_some_iff.mp read
        refine ⟨?_, ih rest⟩
        rintro rfl
        revert white
        decide
      · simp only [Token.scan, found, if_neg white] at read
        split at read
        · next plain =>
          refine ⟨?_, ih read⟩
          rintro rfl
          revert plain
          decide
        · cases read

theorem uncomment_of_not_mem {l : List Char} (none : '#' ∉ l) : uncomment l = l := by
  fun_induction uncomment l with
  | case1 cs ih => simp at none
  | case2 cs => simp at none
  | case3 c cs notEscape notComment ih => rw [ih fun mem => none (List.mem_cons_of_mem c mem)]
  | case4 => rfl

theorem tokens?_of_not_mem {text : List Char} (none : '#' ∉ text) :
    tokens? text = Token.tokens? text := by
  induction text using by_lines with
  | last l inside => rw [tokens?_last inside, uncomment_of_not_mem none]
  | line l text inside ih =>
    have before : '#' ∉ l := fun mem => none (List.mem_append_left _ mem)
    have after : '#' ∉ text := fun mem =>
      none (List.mem_append_right _ (List.mem_cons_of_mem _ mem))
    rw [tokens?_line inside, tokens?_last inside, uncomment_of_not_mem before, ih after,
      Token.tokens?_append Token.blank_newline]

/-- A text that is a list of tokens as it stands has no comments to strip. -/
theorem tokens?_of_tokens? {text : List Char} {ts : List Token}
    (read : Token.tokens? text = some ts) : tokens? text = some ts := by
  rw [tokens?_of_not_mem (not_mem_of_scan read), read]

end Comment

end CellLisp
