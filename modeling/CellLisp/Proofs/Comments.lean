import CellLisp.Proofs.Lines

/-!
# Comments and line ends are not seen

A line without its comment is the same, whatever the comment says and however the line ends. Still,
two texts of the same lines can differ by one line feed when the comments are gone, for an empty
line at the end of a text is no line, and one with a comment is. But a line feed at the end of a
text closes the open word just where the end of the text does. So the lexer gives the same tokens,
and the same fault at the same offset.
-/

namespace CellLisp

theorem Token.scan_concat {c : Char} (blank : Blank c) (word : List Char) (offset : Nat)
    (text : List Char) : scan word offset (text ++ [c]) = scan word offset text := by
  induction text generalizing word offset with
  | nil =>
    simp only [List.nil_append, scan, blank.unmarked, blank.white, if_true]
    cases close offset word with
    | error f => rfl
    | ok ts => exact congrArg Except.ok (List.append_nil ts)
  | cons d text ih => simp only [List.cons_append, scan, ih]

theorem Token.ofText_concat_newline (text : List Char) : ofText (text ++ ['\n']) = ofText text :=
  scan_concat blank_newline [] 0 text

theorem intercalate_concat {α : Type} (separator last : List α) {ls : List (List α)}
    (filled : ls ≠ []) : separator.intercalate (ls ++ [last]) =
      separator.intercalate ls ++ separator ++ last := by
  induction ls with
  | nil => exact absurd rfl filled
  | cons l ls ih =>
    cases ls with
    | nil => simp [List.intercalate_cons_cons]
    | cons m ls =>
      have rest := ih nofun
      simp only [List.cons_append, List.intercalate_cons_cons] at rest ⊢
      rw [rest]
      simp

namespace Comment

/-- A line as it may be written: with or without a comment behind its code, and with or without a
carriage return before the line feed that ends it. -/
structure Line where
  code : List Char
  comment : Option (List Char)
  withReturn : Bool

namespace Line

def bare (code : List Char) : Line := ⟨code, none, false⟩

def written (l : Line) : List Char :=
  match l.comment with
  | none => l.code
  | some text => l.code ++ '#' :: text

def ending (l : Line) : List Char := if l.withReturn then ['\r', '\n'] else ['\n']

/-- Nothing in the line ends it, and its code leaves no escape open. -/
structure Plain (l : Line) : Prop where
  code : '\n' ∉ l.code ∧ '\r' ∉ l.code
  closed : l.code.getLast? ≠ some '\\'
  comment : ∀ text ∈ l.comment, '\n' ∉ text ∧ '\r' ∉ text

instance (l : Line) : Decidable l.Plain :=
  decidable_of_iff (('\n' ∉ l.code ∧ '\r' ∉ l.code) ∧ l.code.getLast? ≠ some '\\' ∧
      ∀ text ∈ l.comment, '\n' ∉ text ∧ '\r' ∉ text)
    ⟨fun ⟨code, closed, comment⟩ => ⟨code, closed, comment⟩,
      fun ⟨code, closed, comment⟩ => ⟨code, closed, comment⟩⟩

end Line

/-- The text of some lines. The last one is not ended. -/
def joined : List Line → List Char
  | [] => []
  | [l] => l.written
  | l :: m :: ls => l.written ++ (l.ending ++ joined (m :: ls))

variable {l : Line} {ls : List Line}

theorem Line.Plain.written (plain : l.Plain) : '\n' ∉ l.written ∧ '\r' ∉ l.written := by
  obtain ⟨code, comment, _⟩ := l
  cases comment with
  | none => exact plain.code
  | some text =>
    have code := plain.code
    have text := plain.comment text rfl
    simp_all [Line.written]

theorem Line.Plain.uncomment_written (plain : l.Plain) :
    uncomment l.written = uncomment l.code := by
  obtain ⟨code, comment, _⟩ := l
  cases comment with
  | none => rfl
  | some text =>
    have nothing : uncomment ('#' :: text) = [] := by simp [uncomment]
    have noEscape : code.getLast? = some '\\' → ('#' :: text).head? ≠ some '#' :=
      fun last => absurd last plain.closed
    rcases uncomment_append code noEscape with same | same
    · exact same
    · rw [nothing, List.append_nil] at same
      exact same

theorem lines_ending (l : Line) (text : List Char) :
    lines (l.ending ++ text) = [] :: lines text := by
  unfold Line.ending
  split <;> rfl

/-- The lines of a text are those that it was made of, but for an empty one at the end. -/
theorem lines_joined (plain : ∀ l ∈ ls, l.Plain) :
    lines (joined ls) = ls.map Line.written ∨ lines (joined ls) ++ [[]] = ls.map Line.written := by
  induction ls with
  | nil => exact .inl rfl
  | cons l ls ih =>
    obtain ⟨here, there⟩ := List.forall_mem_cons.mp plain
    obtain ⟨noFeed, noReturn⟩ := here.written
    cases ls with
    | nil =>
      by_cases filled : l.written = []
      · exact .inr (by simp [joined, filled, lines])
      · exact .inl (lines_last noFeed filled)
    | cons m ls =>
      have first : lines (joined (l :: m :: ls)) = l.written :: lines (joined (m :: ls)) :=
        lines_append noFeed (fun last => absurd (List.mem_of_getLast? last) noReturn)
          (lines_ending l _)
      rw [first, List.map_cons, List.cons_append]
      exact (ih there).imp (congrArg _) (congrArg _)

/-- What is left of the lines when their comments are gone, with line feeds between them. -/
def stripped (ls : List Line) : List Char := ['\n'].intercalate (ls.map (uncomment ·.code))

theorem strip_joined (plain : ∀ l ∈ ls, l.Plain) :
    strip (joined ls) = stripped ls ∨ strip (joined ls) ++ ['\n'] = stripped ls := by
  have same : stripped ls = ['\n'].intercalate ((ls.map Line.written).map uncomment) := by
    rw [stripped, List.map_map]
    exact congrArg _ (List.map_congr_left fun l mem => (plain l mem).uncomment_written.symm)
  rw [same, strip]
  rcases lines_joined plain with all | butLast
  · exact .inl (by rw [all])
  · -- With the empty last line goes the line feed before it, if there is one.
    rw [← butLast, List.map_append]
    by_cases filled : lines (joined ls) = []
    · exact .inl (by simp [filled, uncomment])
    · have some : (lines (joined ls)).map uncomment ≠ [] := by simpa using filled
      right
      rw [List.map_singleton, uncomment, intercalate_concat _ _ some, List.append_nil]

theorem ofText_strip_joined (plain : ∀ l ∈ ls, l.Plain) :
    Token.ofText (strip (joined ls)) = Token.ofText (stripped ls) := by
  rcases strip_joined plain with same | more
  · rw [same]
  · rw [← more, Token.ofText_concat_newline]

theorem joined_bare (codes : List (List Char)) :
    joined (codes.map .bare) = ['\n'].intercalate codes := by
  induction codes with
  | nil => rfl
  | cons code codes ih =>
    cases codes with
    | nil => simp [joined, Line.bare, Line.written]
    | cons next codes =>
      rw [List.intercalate_cons_cons, ← ih]
      simp [joined, Line.bare, Line.written, Line.ending]

/-- However lines are commented and ended, they are read as they are without it. -/
theorem comments_are_invisible (plain : ∀ l ∈ ls, l.Plain) :
    Token.ofText (strip (joined ls)) =
      Token.ofText (strip (['\n'].intercalate (ls.map Line.code))) := by
  have bare : ∀ l ∈ (ls.map Line.code).map Line.bare, l.Plain := by
    intro l mem
    simp only [List.map_map, List.mem_map, Function.comp_apply] at mem
    obtain ⟨k, among, rfl⟩ := mem
    exact ⟨(plain k among).code, (plain k among).closed, nofun⟩
  rw [← joined_bare, ofText_strip_joined plain, ofText_strip_joined bare]
  simp [stripped, Line.bare, Function.comp_def]

/-- Comments with both marks in them, an escaped mark, a line feed with and without a carriage
return, and a last line that is nothing but a comment. -/
def commentedLines : List Line :=
  [⟨"(def x".toList, some " one # two \\".toList, true⟩,
    ⟨"  (f \\# 1".toList, some " three \\# four".toList, false⟩, ⟨[], some "".toList, false⟩]

theorem comments_are_invisible_before_fault : (∀ l ∈ commentedLines, l.Plain) ∧
    Token.ofText (strip (joined commentedLines)) =
      Token.ofText (strip (['\n'].intercalate (commentedLines.map Line.code))) ∧
    Token.ofText (strip (joined commentedLines)) = .error (.unexpectedCharacter '#' 12) := by
  have plain : ∀ l ∈ commentedLines, l.Plain := by decide +kernel
  exact ⟨plain, comments_are_invisible plain, by rfl⟩

end Comment

end CellLisp
