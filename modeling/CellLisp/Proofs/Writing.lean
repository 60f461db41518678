import CellLisp.Proofs.Cycles

/-!
# Writing values out

Two ways to write a value out piece by piece. The writer keeps the cells that it is inside of on one
stack: it pushes every cell of a list when it comes to it, and forgets them all at the end of the
list. The plain writer keeps nothing. The writer always ends and writes what the sketch of the value
is laid out as; the plain writer ends on the values without cycles, and writes the same.
-/

namespace CellLisp

/-- What has been written so far, the cells that are open, and whether any was cut short. -/
structure Page where
  text : List Char
  opened : List CellId
  cut : Bool

namespace Page

def put (p : Page) (text : List Char) : Page := { p with text := p.text ++ text }

def enter (p : Page) (c : CellId) : Page := { p with opened := c :: p.opened }

/-- Only so many cells stay open, those that were opened first. -/
def leave (p : Page) (depth : Nat) : Page :=
  { p with opened := p.opened.drop (p.opened.length - depth) }

def cutShort (p : Page) (text : List Char) : Page := { p.put text with cut := true }

/-- The tree was written out as an element, and what is open is what was open before. -/
def Gains (p : Page) (t : Sketch) (q : Page) : Prop :=
  q = ⟨p.text ++ t.chars, p.opened, p.cut || t.cut⟩

/-- The tree was written out as the rest of a list. More cells are open now. -/
structure GainsRest (p : Page) (t : Sketch) (q : Page) : Prop where
  text : q.text ++ [')'] = p.text ++ t.tailChars
  opened : p.opened <:+ q.opened
  cut : q.cut = (p.cut || t.cut)

theorem leave_eq {p q : Page} (inner : p.opened <:+ q.opened) :
    (q.leave p.opened.length).opened = p.opened := by
  obtain ⟨more, same⟩ := inner
  simp [leave, ← same]

end Page

/-- So many steps inside one another are enough to write the tree. -/
def Sketch.steps : Sketch → Nat
  | leaf _ => 2
  | nil | again => 1
  | pair a d => max a.steps d.steps + 1

theorem Sketch.steps_pos (t : Sketch) : 0 < t.steps := by
  cases t <;> simp [Sketch.steps]

theorem Sketch.exists_step {t : Sketch} {fuel : Nat} (enough : t.steps ≤ fuel) :
    ∃ rest, fuel = rest + 1 :=
  Nat.exists_eq_add_one_of_ne_zero (Nat.ne_of_gt (Nat.lt_of_lt_of_le t.steps_pos enough))

namespace Store

def atomChars (s : Store) : Value → List Char
  | .number n => n.text.toList
  | .string t => t.toList
  | .boolean b => (if b then "true" else "false").toList
  | .nil => ['(', ')']
  | .lambda l => ("<lambda " ++ parameterText (s.lambda l).params ++ ">").toList
  | .cons _ => []

mutual

/-- Writes a value, in at most so many steps inside one another. -/
def write (s : Store) (p : Page) : Nat → Value → Option Page
  | 0, _ => none
  | fuel + 1, .cons c =>
    if c ∈ p.opened then some (p.cutShort ['.', '.', '.'])
    else do
      let front ← s.write ((p.enter c).put ['(']) fuel (s.car c)
      let whole ← s.writeRest front fuel (s.cdr c)
      return (whole.leave p.opened.length).put [')']
  | _, v => some (p.put (s.atomChars v))

/-- Writes what follows an element of a list. -/
def writeRest (s : Store) (p : Page) : Nat → Value → Option Page
  | 0, _ => none
  | _, .nil => some p
  | fuel + 1, .cons c =>
    if c ∈ p.opened then some (p.cutShort [' ', '.', '.', '.'])
    else do
      let front ← s.write ((p.enter c).put [' ']) fuel (s.car c)
      s.writeRest front fuel (s.cdr c)
  | fuel + 1, v => s.write (p.put [' ', '.', ' ']) fuel v

end

mutual

/-- Writes a value and keeps no account of what is open. -/
def plain (s : Store) : Nat → Value → Option (List Char)
  | 0, _ => none
  | fuel + 1, .cons c => do
    return '(' :: (← s.plain fuel (s.car c)) ++ (← s.plainRest fuel (s.cdr c))
  | _, v => some (s.atomChars v)

def plainRest (s : Store) : Nat → Value → Option (List Char)
  | 0, _ => none
  | _, .nil => some [')']
  | fuel + 1, .cons c => do
    return ' ' :: (← s.plain fuel (s.car c)) ++ (← s.plainRest fuel (s.cdr c))
  | fuel + 1, v => do return ' ' :: '.' :: ' ' :: (← s.plain fuel v) ++ [')']

end

variable {s : Store} {v : Value} {c e : CellId} {opened : List CellId} {p : Page} {fuel : Nat}

/-! Atoms. -/

theorem chars_atom (atom : ∀ c, v ≠ .cons c) :
    (s.sketchWithin opened v).chars = s.atomChars v := by
  cases v with
  | cons c => exact absurd rfl (atom c)
  | number | string | boolean | nil | lambda =>
    rw [sketchWithin]
    rfl

theorem tailChars_atom (atom : ∀ c, v ≠ .cons c) (filled : v ≠ .nil) :
    (s.sketchWithin opened v).tailChars = ' ' :: '.' :: ' ' :: s.atomChars v ++ [')'] := by
  cases v with
  | cons c => exact absurd rfl (atom c)
  | nil => exact absurd rfl filled
  | number | string | boolean | lambda =>
    rw [sketchWithin]
    rfl

theorem steps_atom (atom : ∀ c, v ≠ .cons c) (filled : v ≠ .nil) :
    (s.sketchWithin opened v).steps = 2 := by
  cases v with
  | cons c => exact absurd rfl (atom c)
  | nil => exact absurd rfl filled
  | number | string | boolean | lambda =>
    rw [sketchWithin]
    rfl

theorem write_atom (atom : ∀ c, v ≠ .cons c) (p : Page) (fuel : Nat) :
    s.write p (fuel + 1) v = some (p.put (s.atomChars v)) := by
  cases v with
  | cons c => exact absurd rfl (atom c)
  | number | string | boolean | nil | lambda => rfl

theorem writeRest_atom (atom : ∀ c, v ≠ .cons c) (filled : v ≠ .nil) (p : Page) (fuel : Nat) :
    s.writeRest p (fuel + 2) v = some (p.put (' ' :: '.' :: ' ' :: s.atomChars v)) := by
  have behind := write_atom (s := s) atom (p.put [' ', '.', ' ']) fuel
  cases v with
  | cons c => exact absurd rfl (atom c)
  | nil => exact absurd rfl filled
  | number | string | boolean | lambda =>
    refine behind.trans ?_
    simp [Page.put]

/-! Cells. -/

theorem write_open (mem : c ∈ p.opened) (fuel : Nat) :
    s.write p (fuel + 1) (.cons c) = some (p.cutShort ['.', '.', '.']) := if_pos mem

theorem writeRest_open (mem : c ∈ p.opened) (fuel : Nat) :
    s.writeRest p (fuel + 1) (.cons c) = some (p.cutShort [' ', '.', '.', '.']) := if_pos mem

theorem write_fresh {front whole : Page} (new : c ∉ p.opened)
    (car : s.write ((p.enter c).put ['(']) fuel (s.car c) = some front)
    (cdr : s.writeRest front fuel (s.cdr c) = some whole) :
    s.write p (fuel + 1) (.cons c) = some ((whole.leave p.opened.length).put [')']) := by
  refine (if_neg new).trans ?_
  rw [car]
  change (s.writeRest front fuel (s.cdr c) >>= _) = _
  rw [cdr]
  rfl

theorem writeRest_fresh {front : Page} (new : c ∉ p.opened)
    (car : s.write ((p.enter c).put [' ']) fuel (s.car c) = some front) :
    s.writeRest p (fuel + 1) (.cons c) = s.writeRest front fuel (s.cdr c) := by
  refine (if_neg new).trans ?_
  rw [car]
  rfl

/-! The writer. -/

/-- Where just these cells are open, the value is written as its sketch is laid out. -/
structure Writes (s : Store) (opened : List CellId) (v : Value) : Prop where
  item : ∀ p fuel, p.opened = opened → (s.sketchWithin opened v).steps ≤ fuel →
    ∃ q, s.write p fuel v = some q ∧ p.Gains (s.sketchWithin opened v) q
  rest : ∀ p fuel, p.opened = opened → (s.sketchWithin opened v).steps ≤ fuel →
    ∃ q, s.writeRest p fuel v = some q ∧ p.GainsRest (s.sketchWithin opened v) q

theorem writes_atom (atom : ∀ c, v ≠ .cons c) : s.Writes opened v where
  item := by
    rintro p fuel rfl enough
    obtain ⟨fuel, rfl⟩ := Sketch.exists_step enough
    refine ⟨_, write_atom atom p fuel, ?_⟩
    simp [Page.Gains, Page.put, chars_atom atom, cut_atom atom]
  rest := by
    rintro p fuel rfl enough
    by_cases empty : v = .nil
    · subst empty
      rw [sketchWithin] at enough ⊢
      obtain ⟨fuel, rfl⟩ := Nat.exists_eq_add_of_le' enough
      refine ⟨p, rfl, rfl, List.suffix_refl _, ?_⟩
      simp [Sketch.cut]
    · rw [steps_atom atom empty] at enough
      obtain ⟨fuel, rfl⟩ := Nat.exists_eq_add_of_le' enough
      refine ⟨_, writeRest_atom atom empty p fuel, ?_, List.suffix_refl _, ?_⟩
      · simp [Page.put, tailChars_atom atom empty]
      · simp [Page.put, cut_atom atom]

theorem writes_open (mem : c ∈ opened) : s.Writes opened (.cons c) where
  item := by
    rw [sketchWithin_open mem]
    rintro p fuel rfl enough
    obtain ⟨fuel, rfl⟩ := Nat.exists_eq_add_of_le' enough
    refine ⟨_, write_open mem fuel, ?_⟩
    simp [Page.Gains, Page.cutShort, Page.put, Sketch.chars, Sketch.cut]
  rest := by
    rw [sketchWithin_open mem]
    rintro p fuel rfl enough
    obtain ⟨fuel, rfl⟩ := Nat.exists_eq_add_of_le' enough
    refine ⟨_, writeRest_open mem fuel, ?_, List.suffix_refl _, ?_⟩
    · simp [Page.cutShort, Page.put, Sketch.tailChars]
    · simp [Page.cutShort, Sketch.cut]

/-- Inside of a cell the car is written as an element and the cdr as the rest of the list, whatever
is put before them. -/
theorem Writes.inside (new : c ∉ p.opened) (car : s.Writes (c :: p.opened) (s.car c))
    (cdr : s.Writes (c :: p.opened) (s.cdr c)) (before : List Char)
    (enough : (s.sketchWithin p.opened (.cons c)).steps ≤ fuel + 1) : ∃ front whole,
      s.write ((p.enter c).put before) fuel (s.car c) = some front ∧
      s.writeRest front fuel (s.cdr c) = some whole ∧
      whole.text ++ [')'] = p.text ++ before ++
        (s.sketchWithin (c :: p.opened) (s.car c)).chars ++
        (s.sketchWithin (c :: p.opened) (s.cdr c)).tailChars ∧
      p.opened <:+ whole.opened ∧
      whole.cut = (p.cut || (s.sketchWithin p.opened (.cons c)).cut) := by
  rw [sketchWithin_fresh new] at enough ⊢
  simp only [Sketch.steps] at enough
  obtain ⟨front, wroteCar, gains⟩ := car.item ((p.enter c).put before) fuel rfl (by omega)
  have still : front.opened = c :: p.opened := congrArg Page.opened gains
  obtain ⟨whole, wroteCdr, text, kept, cut⟩ := cdr.rest front fuel still (by omega)
  rw [still] at kept
  rw [gains] at text cut
  refine ⟨front, whole, wroteCar, wroteCdr, text, (List.suffix_cons c p.opened).trans kept, ?_⟩
  rw [cut, Sketch.cut, ← Bool.or_assoc]
  rfl

theorem writes_fresh (new : c ∉ opened) (car : s.Writes (c :: opened) (s.car c))
    (cdr : s.Writes (c :: opened) (s.cdr c)) : s.Writes opened (.cons c) where
  item := by
    rintro p fuel rfl enough
    obtain ⟨fuel, rfl⟩ := Sketch.exists_step enough
    obtain ⟨front, whole, wroteCar, wroteCdr, text, kept, cut⟩ := car.inside new cdr ['('] enough
    refine ⟨_, write_fresh new wroteCar wroteCdr, ?_⟩
    change (⟨whole.text ++ [')'], (whole.leave p.opened.length).opened, whole.cut⟩ : Page) = _
    rw [text, Page.leave_eq kept, cut, sketchWithin_fresh new]
    simp [Sketch.chars]
  rest := by
    rintro p fuel rfl enough
    obtain ⟨fuel, rfl⟩ := Sketch.exists_step enough
    obtain ⟨front, whole, wroteCar, wroteCdr, text, kept, cut⟩ := car.inside new cdr [' '] enough
    refine ⟨whole, (writeRest_fresh new wroteCar).trans wroteCdr, ?_, kept, cut⟩
    rw [text, sketchWithin_fresh new]
    simp [Sketch.tailChars]

/-- The cells that are open on the page are those that the sketch is drawn inside of. -/
theorem writes (s : Store) (opened : List CellId) (v : Value) : s.Writes opened v := by
  induction opened, v using s.induction_on_sketch with
  | atom opened v atom => exact writes_atom atom
  | seen opened c mem => exact writes_open mem
  | fresh opened c new ihCar ihCdr => exact writes_fresh new ihCar ihCdr

/-! The plain writer. -/

theorem plain_atom (atom : ∀ c, v ≠ .cons c) (fuel : Nat) :
    s.plain (fuel + 1) v = some (s.atomChars v) := by
  cases v with
  | cons c => exact absurd rfl (atom c)
  | number | string | boolean | nil | lambda => rfl

theorem plainRest_atom (atom : ∀ c, v ≠ .cons c) (filled : v ≠ .nil) (fuel : Nat) :
    s.plainRest (fuel + 2) v = some (' ' :: '.' :: ' ' :: s.atomChars v ++ [')']) := by
  cases v with
  | cons c => exact absurd rfl (atom c)
  | nil => exact absurd rfl filled
  | number | string | boolean | lambda => rfl

theorem plain_cons {front rest : List Char} (car : s.plain fuel (s.car c) = some front)
    (cdr : s.plainRest fuel (s.cdr c) = some rest) :
    s.plain (fuel + 1) (.cons c) = some ('(' :: front ++ rest) ∧
      s.plainRest (fuel + 1) (.cons c) = some (' ' :: front ++ rest) := by
  rw [plain, plainRest, car, cdr]
  exact ⟨rfl, rfl⟩

/-- Where nothing is cut, the plain writer writes the same. -/
theorem plain_eq (s : Store) (opened : List CellId) (v : Value)
    (whole : (s.sketchWithin opened v).cut = false) :
    ∀ fuel, (s.sketchWithin opened v).steps ≤ fuel →
      s.plain fuel v = some (s.sketchWithin opened v).chars ∧
      s.plainRest fuel v = some (s.sketchWithin opened v).tailChars := by
  induction opened, v using s.induction_on_sketch with
  | atom opened v atom =>
    intro fuel enough
    by_cases empty : v = .nil
    · subst empty
      rw [sketchWithin] at enough ⊢
      obtain ⟨fuel, rfl⟩ := Nat.exists_eq_add_of_le' enough
      exact ⟨rfl, rfl⟩
    · rw [steps_atom atom empty] at enough
      obtain ⟨fuel, rfl⟩ := Nat.exists_eq_add_of_le' enough
      rw [chars_atom atom, tailChars_atom atom empty]
      exact ⟨plain_atom atom _, plainRest_atom atom empty fuel⟩
  | seen opened c mem =>
    rw [sketchWithin_open mem] at whole
    cases whole
  | fresh opened c new ihCar ihCdr =>
    rw [sketchWithin_fresh new] at whole ⊢
    rw [Sketch.cut, Bool.or_eq_false_iff] at whole
    intro fuel enough
    obtain ⟨fuel, rfl⟩ := Sketch.exists_step enough
    simp only [Sketch.steps] at enough
    exact plain_cons (ihCar whole.1 fuel (by omega)).1 (ihCdr whole.2 fuel (by omega)).2

/-- A value with a cycle is never written by the plain writer. -/
theorem plain_of_onCycle (cycle : s.OnCycle e) (part : s.PartOf v e) (fuel : Nat) :
    s.plain fuel v = none ∧ s.plainRest fuel v = none := by
  induction fuel generalizing v with
  | zero => exact ⟨rfl, rfl⟩
  | succ fuel ih =>
    obtain ⟨c, rfl⟩ := part.exists_root
    rw [plain, plainRest]
    rcases cycle.inside part with car | cdr
    · rw [(ih car).1]
      exact ⟨rfl, rfl⟩
    · rw [(ih cdr).2]
      cases s.plain fuel (s.car c) <;> exact ⟨rfl, rfl⟩

theorem toList_shown (s : Store) (v : Value) : (s.shown v).toList = (s.sketch v).chars :=
  String.toList_ofList

theorem write_eq (s : Store) (v : Value) (enough : (s.sketch v).steps ≤ fuel) :
    s.write ⟨[], [], false⟩ fuel v = some ⟨(s.shown v).toList, [], (s.sketch v).cut⟩ := by
  obtain ⟨q, wrote, rfl⟩ := (s.writes [] v).item ⟨[], [], false⟩ fuel rfl enough
  rw [wrote, toList_shown]
  simp [sketch]

/-- However the cells refer to one another, writing a value ends, with the text that is shown for
it, and cuts it short exactly if one of its cells is on a cycle. Where none is, nothing but the text
of the plain writer is shown; where one is, the plain writer never ends. -/
theorem writing_is_total (s : Store) (v : Value) :
    (∃ cut, (∃ enough, ∀ fuel, enough ≤ fuel →
        s.write ⟨[], [], false⟩ fuel v = some ⟨(s.shown v).toList, [], cut⟩) ∧
      (cut = true ↔ ∃ c, s.PartOf v c ∧ s.OnCycle c)) ∧
    ((¬∃ c, s.PartOf v c ∧ s.OnCycle c) →
      ∃ enough, ∀ fuel, enough ≤ fuel → s.plain fuel v = some (s.shown v).toList) ∧
    ((∃ c, s.PartOf v c ∧ s.OnCycle c) → ∀ fuel, s.plain fuel v = none) := by
  refine ⟨⟨(s.sketch v).cut, ⟨(s.sketch v).steps, fun fuel enough => s.write_eq v enough⟩, cut_iff⟩,
    fun none => ?_, ?_⟩
  · have whole : (s.sketch v).cut = false := by rwa [← Bool.not_eq_true, cut_iff]
    rw [toList_shown]
    exact ⟨_, fun fuel enough => (s.plain_eq [] v whole fuel enough).1⟩
  · rintro ⟨c, part, cycle⟩ fuel
    exact (plain_of_onCycle cycle part fuel).1

end Store

end CellLisp
