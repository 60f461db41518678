import CellLisp.Source

/-!
# Lines are read apart

A blank closes the open word, and a comment ends where its line does. So a line feed parts a text
in two that have nothing to do with each other: the tokens of the whole are the tokens of the two
parts. A carriage return at the end of a line does not count, whether it belongs to the end of the
line or is a blank of the last line. Offsets are left out here, as they appear in faults only.
-/

namespace CellLisp

theorem toOption_bind {ε α β : Type} (x : Except ε α) (f : α → Except ε β) :
    (x >>= f).toOption = x.toOption.bind fun a => (f a).toOption := by
  cases x <;> rfl

namespace Token

/-- The tokens of a text, if it is free of faults. -/
def tokens? (text : List Char) : Option (List Token) := (ofText text).toOption

/-- The tokens of one text and then those of another. -/
def both (xs ys : Option (List Token)) : Option (List Token) :=
  xs.bind fun ts => ys.map (ts ++ ·)

@[simp] theorem both_nil (xs : Option (List Token)) : both xs (some []) = xs := by
  cases xs <;> simp [both]

@[simp] theorem nil_both (ys : Option (List Token)) : both (some []) ys = ys := by
  cases ys <;> simp [both]

theorem both_assoc (xs ys zs : Option (List Token)) :
    both (both xs ys) zs = both xs (both ys zs) := by
  cases xs <;> cases ys <;> cases zs <;> simp [both]

theorem both_eq_some_iff {xs ys : Option (List Token)} {ts : List Token} :
    both xs ys = some ts ↔ ∃ us vs, xs = some us ∧ ys = some vs ∧ us ++ vs = ts := by
  cases xs <;> cases ys <;> simp [both]

/-! The offset is used by faults only. -/

theorem toOption_ofWord (offset other : Nat) (word : List Char) :
    (ofWord offset word).toOption = (ofWord other word).toOption := by
  unfold ofWord
  split
  · rfl
  · split
    · rfl
    · split <;> rfl

theorem toOption_close (offset other : Nat) (word : List Char) :
    (close offset word).toOption = (close other word).toOption := by
  unfold close
  split
  · rfl
  · rw [toOption_bind, toOption_bind, toOption_ofWord offset other]

theorem toOption_scan (word : List Char) (offset other : Nat) (text : List Char) :
    (scan word offset text).toOption = (scan word other text).toOption := by
  induction text generalizing word offset other with
  | nil => exact toOption_close offset other word
  | cons c cs ih =>
    simp only [scan]
    split
    · simp only [toOption_bind, toOption_close offset other, ih [] (offset + 1) (other + 1)]
    · split
      · simp only [toOption_bind, toOption_close offset other, ih [] (offset + 1) (other + 1)]
      · split
        · exact ih (c :: word) (offset + 1) (other + 1)
        · rfl

theorem scan_mark {c : Char} {m : Mark} (found : Mark.ofChar? c = some m) (word : List Char)
    (offset : Nat) (text : List Char) : (scan word offset (c :: text)).toOption =
      both (close offset word).toOption (both (some [mark m]) (tokens? text)) := by
  simp only [scan, found, toOption_bind, tokens?, ofText, toOption_scan [] 0 (offset + 1)]
  cases close offset word <;> cases scan [] (offset + 1) text <;> rfl

/-- A character that closes the open word and is nothing else. -/
structure Blank (c : Char) : Prop where
  unmarked : Mark.ofChar? c = none
  white : Unicode.isWhiteSpace c = true

theorem scan_blank {c : Char} (blank : Blank c) (word : List Char) (offset : Nat)
    (text : List Char) :
    (scan word offset (c :: text)).toOption = both (close offset word).toOption (tokens? text) := by
  simp only [scan, blank.unmarked, blank.white, if_true, toOption_bind, tokens?, ofText,
    toOption_scan [] 0 (offset + 1)]
  cases close offset word <;> cases scan [] (offset + 1) text <;> rfl

theorem scan_append {c : Char} (blank : Blank c) (word : List Char) (offset : Nat)
    (text more : List Char) : (scan word offset (text ++ c :: more)).toOption =
      both (scan word offset text).toOption (tokens? more) := by
  induction text generalizing word offset with
  | nil => exact scan_blank blank word offset more
  | cons d text ih =>
    have rest : tokens? (text ++ c :: more) = both (tokens? text) (tokens? more) := ih [] 0
    rw [List.cons_append]
    cases found : Mark.ofChar? d with
    | some m => rw [scan_mark found, scan_mark found, rest, both_assoc, both_assoc]
    | none =>
      by_cases white : Unicode.isWhiteSpace d = true
      · rw [scan_blank ⟨found, white⟩, scan_blank ⟨found, white⟩, rest, both_assoc]
      · simp only [scan, found, if_neg white]
        split
        · exact ih (d :: word) (offset + 1)
        · rfl

theorem tokens?_append {c : Char} (blank : Blank c) (text more : List Char) :
    tokens? (text ++ c :: more) = both (tokens? text) (tokens? more) :=
  scan_append blank [] 0 text more

theorem blank_newline : Blank '\n' := ⟨rfl, by decide⟩

theorem blank_return : Blank '\r' := ⟨rfl, by decide⟩

end Token

namespace Comment

/-! Lines. -/

theorem lines_cons {c : Char} {cs : List Char} (inside : c ≠ '\n')
    (noEnd : c = '\r' → cs.head? ≠ some '\n') :
    lines (c :: cs) = match lines cs with
      | [] => [[c]]
      | l :: ls => (c :: l) :: ls := by
  have ordinary : ∀ more, c = '\r' → cs = '\n' :: more → False := by
    intro more isReturn ends
    exact noEnd isReturn (by rw [ends]; rfl)
  exact lines.eq_4 c cs inside ordinary

/-- What stands before the end of a line belongs to the line. -/
theorem lines_append {l tail : List Char} {ls : List (List Char)} (inside : '\n' ∉ l)
    (noEnd : l.getLast? = some '\r' → tail.head? ≠ some '\n') (ends : lines tail = [] :: ls) :
    lines (l ++ tail) = l :: ls := by
  induction l with
  | nil => exact ends
  | cons c l ih =>
    obtain ⟨here, there⟩ := not_or.mp (mt List.mem_cons.mpr inside)
    have rest : lines (l ++ tail) = l :: ls := by
      refine ih there fun last => noEnd ?_
      rw [List.getLast?_cons, last]
      rfl
    rw [List.cons_append, lines_cons (Ne.symm here), rest]
    rintro rfl
    cases l with
    | nil => exact noEnd rfl
    | cons d l =>
      intro first
      cases first
      exact there List.mem_cons_self

/-- The last line, where it lacks its end. -/
theorem lines_last {l : List Char} (inside : '\n' ∉ l) (filled : l ≠ []) : lines l = [l] := by
  induction l with
  | nil => exact absurd rfl filled
  | cons c l ih =>
    obtain ⟨here, there⟩ := not_or.mp (mt List.mem_cons.mpr inside)
    rw [lines_cons (Ne.symm here)]
    · cases l with
      | nil => rfl
      | cons d l => rw [ih there nofun]
    · rintro rfl first
      exact there (List.mem_of_mem_head? first)

/-- To show something of every text, show it of one line without its end, and of a line with its
end before a text that has it. -/
theorem by_lines {P : List Char → Prop} (last : ∀ l, '\n' ∉ l → P l)
    (line : ∀ l text, '\n' ∉ l → P text → P (l ++ '\n' :: text)) (text : List Char) : P text := by
  induction size : text.length using Nat.strongRecOn generalizing text with
  | ind n ih =>
    by_cases ends : '\n' ∈ text
    · obtain ⟨l, rest, rfl, inside⟩ := List.eq_append_cons_of_mem ends
      refine line l rest inside (ih rest.length ?_ rest rfl)
      rw [← size, List.length_append, List.length_cons]
      omega
    · exact last text ends

/-! Tokens outside of comments. -/

theorem uncomment_cons {c : Char} {cs : List Char} (noMark : c ≠ '#')
    (noEscape : c = '\\' → cs.head? ≠ some '#') : uncomment (c :: cs) = c :: uncomment cs := by
  have ordinary : ∀ more, c = '\\' → cs = '#' :: more → False := by
    intro more isEscape follows
    exact noEscape isEscape (by rw [follows]; rfl)
  exact uncomment.eq_3 c cs ordinary noMark

/-- What stands at the end of a line is in its comment, or it is read by itself. -/
theorem uncomment_append (l : List Char) {more : List Char}
    (noEscape : l.getLast? = some '\\' → more.head? ≠ some '#') :
    uncomment (l ++ more) = uncomment l ∨
      uncomment (l ++ more) = uncomment l ++ uncomment more := by
  fun_induction uncomment l with
  | case1 cs ih =>
    have rest := ih fun last => noEscape (by simp [List.getLast?_cons, last])
    simpa [uncomment] using rest
  | case2 cs => exact .inl (by simp [uncomment])
  | case3 c cs notEscape notComment ih =>
    have rest := ih fun last => noEscape (by simp [List.getLast?_cons, last])
    have goesOn : uncomment (c :: (cs ++ more)) = c :: uncomment (cs ++ more) := by
      refine uncomment_cons notComment ?_
      rintro rfl
      cases cs with
      | nil => exact noEscape rfl
      | cons d cs =>
        intro follows
        cases follows
        exact notEscape cs rfl rfl
    rw [List.cons_append, goesOn]
    simpa using rest
  | case4 => exact .inr rfl

/-- The tokens of a text, if it is free of faults when its comments are left out. -/
def tokens? (text : List Char) : Option (List Token) := Token.tokens? (strip text)

theorem tokens?_eq_some_iff {text : List Char} {ts : List Token} :
    tokens? text = some ts ↔ Token.ofText (strip text) = .ok ts := by
  unfold tokens? Token.tokens?
  cases Token.ofText (strip text) <;> simp [Except.toOption]

theorem tokens?_uncomment_return (l : List Char) :
    Token.tokens? (uncomment (l ++ ['\r'])) = Token.tokens? (uncomment l) := by
  have noEscape : l.getLast? = some '\\' → ['\r'].head? ≠ some '#' := fun _ => nofun
  rcases uncomment_append l noEscape with same | more
  · rw [same]
  · rw [more]
    change Token.tokens? (uncomment l ++ '\r' :: []) = _
    rw [Token.tokens?_append Token.blank_return]
    exact Token.both_nil _

theorem tokens?_last {l : List Char} (inside : '\n' ∉ l) :
    tokens? l = Token.tokens? (uncomment l) := by
  by_cases filled : l = []
  · subst filled
    rfl
  · rw [tokens?, strip, lines_last inside filled]
    simp

theorem tokens?_of_lines {text rest l : List Char} (first : lines text = l :: lines rest) :
    tokens? text = Token.both (Token.tokens? (uncomment l)) (tokens? rest) := by
  rw [tokens?, tokens?, strip, strip, first, List.map_cons]
  cases lines rest with
  | nil => simp [Token.tokens?, Token.ofText, Token.scan, Token.close, Except.toOption]
  | cons m ls =>
    rw [List.map_cons, List.intercalate_cons_cons, List.append_assoc]
    exact Token.tokens?_append Token.blank_newline _ _

/-- A line and its end read like the line without the end. -/
theorem tokens?_line {l : List Char} (inside : '\n' ∉ l) (text : List Char) :
    tokens? (l ++ '\n' :: text) = Token.both (tokens? l) (tokens? text) := by
  rw [tokens?_last inside]
  by_cases ends : l.getLast? = some '\r'
  · obtain ⟨k, rfl⟩ := List.getLast?_eq_some_iff.mp ends
    have within : '\n' ∉ k := fun mem => inside (List.mem_append_left _ mem)
    rw [tokens?_uncomment_return, List.append_assoc]
    exact tokens?_of_lines (lines_append within (fun _ => nofun) rfl)
  · exact tokens?_of_lines (lines_append inside (fun last => absurd last ends) rfl)

/-- A line feed parts the tokens of a text. -/
theorem tokens?_append (text more : List Char) :
    tokens? (text ++ '\n' :: more) = Token.both (tokens? text) (tokens? more) := by
  induction text using by_lines with
  | last l inside => exact tokens?_line inside more
  | line l text inside ih =>
    rw [List.append_assoc, List.cons_append, tokens?_line inside, tokens?_line inside, ih,
      Token.both_assoc]

end Comment

end CellLisp
