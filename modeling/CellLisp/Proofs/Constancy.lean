import CellLisp.Proofs.Code
import CellLisp.Proofs.Cycles
import CellLisp.Proofs.Growth
import CellLisp.Proofs.Printing

/-!
# Code is constant

A form that is read is made of new cells, and no two parts of it share a cell. So its code can be
marked beside all code that was marked before, and from then on no cell of it changes, whatever is
evaluated and read later. Quoted data is handed out and can be changed.
-/

namespace CellLisp

variable {marked marks : CellId → Prop} {base s t : Store} {r : Position} {v : Value} {c e : CellId}
  {foreign : Prop}

namespace Store

/-! The cells of a datum that was placed: those of its car, those of its cdr, and then one more. -/

theorem size_place_pair (s : Store) (a d : Datum) :
    (s.place (.pair a d)).2.cells.size = ((s.place a).2.place d).2.cells.size + 1 := by
  simp [place]

theorem Extends.of_place_pair {a d : Datum} (kept : (s.place (.pair a d)).2.Extends t) :
    (s.place a).2.Extends t ∧ ((s.place a).2.place d).2.Extends t := by
  have last := (extends_cons ((s.place a).2.place d).2 (s.place a).1 _).trans kept
  exact ⟨(extends_place _ d).trans last, last⟩

theorem cell_place_pair {a d : Datum} (kept : (s.place (.pair a d)).2.Extends t) :
    t.cell ⟨((s.place a).2.place d).2.cells.size⟩ = ⟨(s.place a).1, ((s.place a).2.place d).1⟩ := by
  have inside : ((s.place a).2.place d).2.cells.size < (s.place (.pair a d)).2.cells.size := by
    rw [size_place_pair]
    exact Nat.lt_succ_self _
  exact (kept.cell ⟨_⟩ inside).trans ((cell_cons ..).trans (if_pos rfl))

/-- The code of a datum lies where the datum was placed. -/
theorem CodeCell.placed {d : Datum} (kept : (s.place d).2.Extends t)
    (inside : t.CodeCell r (s.place d).1 c) :
    s.cells.size ≤ c.index ∧ c.index < (s.place d).2.cells.size := by
  induction d generalizing s r with
  | number | string | boolean | nil => cases inside
  | pair a d iha ihd =>
    have first := (extends_place s a).size
    have second := (extends_place (s.place a).2 d).size
    have cell := cell_place_pair kept
    rw [size_place_pair]
    cases inside with
    | here => exact ⟨Nat.le_trans first second, Nat.lt_succ_self _⟩
    | car inside =>
      rw [Store.car, cell] at inside
      have := iha kept.of_place_pair.1 inside
      omega
    | cdr inside =>
      rw [Store.cdr, Store.car, cell] at inside
      have := ihd kept.of_place_pair.2 inside
      omega

/-! No two parts of a placed pair share a cell. -/

theorem codeCell_car_iff {a d : Datum} (kept : (s.place (.pair a d)).2.Extends t)
    (inside : c.index < (s.place a).2.cells.size) :
    t.CodeCell r (s.place (.pair a d)).1 c ↔ t.CodeCell r.item (s.place a).1 c := by
  have cell := cell_place_pair kept
  constructor
  · intro code
    cases code with
    | here => exact absurd inside (Nat.not_lt_of_le (extends_place _ d).size)
    | car code => rwa [Store.car, cell] at code
    | cdr code =>
      rw [Store.cdr, Store.car, cell] at code
      exact absurd inside (Nat.not_lt_of_le (code.placed kept.of_place_pair.2).1)
  · intro code
    refine .car ?_
    rwa [Store.car, cell]

theorem codeCell_cdr_iff {a d : Datum} (kept : (s.place (.pair a d)).2.Extends t)
    (behind : (s.place a).2.cells.size ≤ c.index)
    (inside : c.index < ((s.place a).2.place d).2.cells.size) :
    t.CodeCell r (s.place (.pair a d)).1 c ↔
      t.CodeCell (r.rest (s.place a).1) ((s.place a).2.place d).1 c := by
  have cell := cell_place_pair kept
  constructor
  · intro code
    cases code with
    | here => exact absurd inside (Nat.lt_irrefl _)
    | car code =>
      rw [Store.car, cell] at code
      exact absurd (code.placed kept.of_place_pair.1).2 (Nat.not_lt_of_le behind)
    | cdr code => rwa [Store.cdr, Store.car, cell] at code
  · intro code
    refine .cdr ?_
    rwa [Store.cdr, Store.car, cell]

/-- Where just the code of a datum is marked, it is code, and its other cells hold no code. -/
theorem code_placed {d : Datum} (kept : (s.place d).2.Extends t)
    (marks : ∀ c : CellId, s.cells.size ≤ c.index → c.index < (s.place d).2.cells.size →
      (marked c ↔ t.CodeCell r (s.place d).1 c)) :
    Code marked t r (s.place d).1 ∧ ∀ c : CellId, s.cells.size ≤ c.index →
      c.index < (s.place d).2.cells.size → ¬marked c →
        (t.car c).Free marked ∧ (t.cdr c).Free marked := by
  induction d generalizing s r with
  | number | string | boolean | nil =>
    exact ⟨.atom nofun, fun c low high => absurd high (Nat.not_lt_of_le low)⟩
  | pair a d iha ihd =>
    have first := (extends_place s a).size
    have second := (extends_place (s.place a).2 d).size
    have cell := cell_place_pair kept
    rw [size_place_pair] at marks ⊢
    obtain ⟨car, freeCar⟩ := iha (r := r.item) kept.of_place_pair.1 fun c low high =>
      (marks c low (by omega)).trans (codeCell_car_iff kept high)
    obtain ⟨cdr, freeCdr⟩ := ihd (r := r.rest (s.place a).1) kept.of_place_pair.2
      fun c low high => (marks c (by omega) (by omega)).trans (codeCell_cdr_iff kept low high)
    have last := marks ⟨((s.place a).2.place d).2.cells.size⟩ (Nat.le_trans first second)
      (Nat.lt_succ_self _)
    have parts : ∀ c : CellId, s.cells.size ≤ c.index →
        c.index < ((s.place a).2.place d).2.cells.size + 1 → ¬marked c →
        c = ⟨((s.place a).2.place d).2.cells.size⟩ ∨
          (t.car c).Free marked ∧ (t.cdr c).Free marked := by
      intro c low high other
      rcases Nat.lt_or_ge c.index (s.place a).2.cells.size with inCar | behind
      · exact .inr (freeCar c low inCar other)
      rcases Nat.lt_succ_iff_lt_or_eq.mp high with inCdr | same
      · exact .inr (freeCdr c behind inCdr other)
      · exact .inl (congrArg CellId.mk same)
    -- The last cell joins the two parts. It is code unless the pair is quoted.
    by_cases position : r = .datum
    · subst position
      have unmarked := fun mark => not_codeCell_datum (last.mp mark)
      refine ⟨.datum fun c same => ?_, fun c low high other => ?_⟩
      · cases same
        exact unmarked
      · rcases parts c low high other with rfl | free
        · rw [Store.car, Store.cdr, cell]
          exact ⟨code_datum_iff.mp car, code_datum_iff.mp cdr⟩
        · exact free
    · have mark := last.mpr (.here position)
      refine ⟨.cell position mark ?_ ?_, fun c low high other => ?_⟩
      · rwa [Store.car, cell]
      · rwa [Store.cdr, Store.car, cell]
      · exact (parts c low high other).resolve_left fun same => other (same ▸ mark)

end Store

/-! Marking the code of one more form. -/

theorem Code.mono (code : Code marked base r v) (sound : s.Sound) (known : v.KnownTo s)
    (kept : ∀ c, marked c → s.cell c = base.cell c ∧ t.cell c = base.cell c)
    (same : ∀ c : CellId, c.index < s.cells.size → (marks c ↔ marked c))
    (inside : ∀ c, marked c → c.index < s.cells.size) : Code marks t r v := by
  induction code with
  | atom atom => exact .atom atom
  | datum free =>
    refine .datum fun c isCell mark => ?_
    subst isCell
    exact free c rfl ((same c known).mp mark)
  | @cell r c code mark car cdr ihCar ihCdr =>
    obtain ⟨here, there⟩ := kept c mark
    have knownCar := sound.car c
    have knownCdr := sound.cdr c
    rw [Store.car, here] at knownCar
    rw [Store.cdr, here] at knownCdr
    refine .cell code ((same c (inside c mark)).mpr mark) ?_ ?_
    · rw [Store.car, there]
      exact ihCar knownCar
    · rw [Store.car, Store.cdr, there]
      exact ihCdr knownCdr

theorem Store.Guards.place (guards : s.Guards marked base foreign) (sound : s.Sound) (d : Datum) :
    ∃ marks : CellId → Prop, (∀ c, marked c → marks c) ∧
      (s.place d).2.Guards marks (s.place d).2 foreign ∧
      Code marks (s.place d).2 .form (s.place d).1 := by
  let marks (c : CellId) := marked c ∨ (s.place d).2.CodeCell .form (s.place d).1 c
  have kept := extends_place s d
  have same : ∀ c : CellId, c.index < s.cells.size → (marks c ↔ marked c) := fun c old =>
    or_iff_left fun code => Nat.not_lt_of_le (code.placed (.refl _)).1 old
  have free : ∀ {v : Value}, v.KnownTo s → v.Free marked → v.Free marks := by
    rintro v known free c rfl mark
    exact free c rfl ((same c known).mp mark)
  have new : ∀ c : CellId, s.cells.size ≤ c.index → c.index < (s.place d).2.cells.size →
      (marks c ↔ (s.place d).2.CodeCell .form (s.place d).1 c) := fun c behind _ =>
    or_iff_right fun mark => Nat.not_lt_of_le behind (guards.inside c mark)
  obtain ⟨form, made⟩ := code_placed (.refl _) new
  have cells : ∀ c, ¬marks c →
      ((s.place d).2.car c).Free marks ∧ ((s.place d).2.cdr c).Free marks := by
    intro c unmarked
    rcases Nat.lt_or_ge c.index s.cells.size with old | new
    · rw [Store.car, Store.cdr, kept.cell c old]
      have before : ¬marked c := fun mark => unmarked (.inl mark)
      exact ⟨free (sound.car c) (guards.car c before), free (sound.cdr c) (guards.cdr c before)⟩
    rcases Nat.lt_or_ge c.index (s.place d).2.cells.size with inside | outside
    · exact made c new inside unmarked
    · rw [Store.car, Store.cdr, cell_of_le _ outside]
      exact ⟨Value.Atomic.free trivial, Value.Atomic.free trivial⟩
  refine ⟨marks, fun c => .inl, ?_, form⟩
  exact {
    kept := fun c _ => rfl
    inside := fun c mark => mark.elim
      (fun before => Nat.lt_of_lt_of_le (guards.inside c before) kept.size)
      fun code => (code.placed (.refl _)).2
    car := fun c unmarked => (cells c unmarked).1
    cdr := fun c unmarked => (cells c unmarked).2
    body := fun l => by
      rw [lambda_congr (place_lambdas s d)]
      rcases guards.body l with code | ⟨other, unmarked⟩
      · refine .inl (code.mono sound (sound.body l) (fun c mark => ?_) same guards.inside)
        exact ⟨guards.kept c mark, (kept.cell c (guards.inside c mark)).trans (guards.kept c mark)⟩
      · exact .inr ⟨other, free (sound.body l) unmarked⟩
    bound := fun i name v found => by
      rw [scope_congr (place_scopes s d)] at found
      exact free (sound.bound i name v found) (guards.bound i name v found) }

theorem Code.mark_of_codeCell (code : Code marked base r v)
    (kept : ∀ c, marked c → s.cell c = base.cell c) (inside : s.CodeCell r v e) : marked e := by
  induction code with
  | @atom r v atom => cases inside <;> exact absurd rfl (atom _)
  | datum => exact absurd inside Store.not_codeCell_datum
  | @cell r c code mark car cdr ihCar ihCdr =>
    cases inside with
    | here => exact mark
    | car inside =>
      rw [Store.car, kept c mark] at inside
      exact ihCar inside
    | cdr inside =>
      rw [Store.cdr, Store.car, kept c mark] at inside
      exact ihCdr inside

/-- Where no cell is marked, all code is foreign. -/
theorem Store.guards_unmarked (s base : Store) : s.Guards (fun _ => False) base True where
  kept _ mark := mark.elim
  inside _ mark := mark.elim
  car _ _ _ _ := id
  cdr _ _ _ _ := id
  body _ := .inr ⟨trivial, fun _ _ => id⟩
  bound _ _ _ _ _ _ := id

theorem Store.guards_initial (base : Store) :
    Machine.initial.store.Guards (fun _ => False) base False where
  kept _ mark := mark.elim
  inside _ mark := mark.elim
  car _ _ _ _ := id
  cdr _ _ _ _ := id
  body _ := .inl (.atom nofun)
  bound _ _ _ _ _ _ := id

/-! Sessions. -/

namespace Session

open Process Discipline

variable {p q : Process} {m : Machine}

/-- A form that is read is marked as code. -/
theorem guard_readForm {n : Machine} {node : Node} {form : Value} (sound : m.Sound)
    (guards : m.store.Guards marked base foreign) (placed : readForm node m = .value form n) :
    ∃ marks : CellId → Prop, (∀ c, marked c → marks c ∧ n.store.cell c = m.store.cell c) ∧
      Code marks n.store .form form ∧
        (guard marks n.store foreign).Governs ⟨.code form, [], n⟩ := by
  obtain ⟨d, _, rfl, rfl⟩ := exists_of_readForm placed
  obtain ⟨marks, more, after, code⟩ := guards.place sound.store d
  refine ⟨marks, fun c mark => ⟨more c mark, ?_⟩, code, ⟨⟨after, fun _ _ => trivial⟩, nofun⟩,
    .inl code⟩
  exact (Store.extends_place m.store d).cell c (guards.inside c mark)

theorem Turn.guarded (turn : Turn p q) (sound : p.Sound)
    (governs : (guard marked base foreign).Governs p) : ∃ (marks : CellId → Prop) (later : Store),
      (∀ c, marked c → marks c ∧ q.machine.store.cell c = p.machine.store.cell c) ∧
        (guard marks later foreign).Governs q := by
  have guards : p.machine.store.Guards marked base foreign := governs.grounded.machine.store
  cases turn with
  | step next =>
    have after := governs.next (fun _ => trivial) next
    have guardsAfter : q.machine.store.Guards marked base foreign := after.grounded.machine.store
    exact ⟨marked, base, fun c mark =>
      ⟨mark, (guardsAfter.kept c mark).trans (guards.kept c mark).symm⟩, after⟩
  | read placed =>
    obtain ⟨marks, kept, _, after⟩ := guard_readForm sound.grounded.machine guards placed
    exact ⟨marks, _, kept, after⟩

/-- Marked cells stay marked, and are the same at every point to come. -/
theorem Course.guarded (course : Course p q) (sound : p.Sound)
    (governs : (guard marked base foreign).Governs p) : ∃ (marks : CellId → Prop) (later : Store),
      (∀ c, marked c → marks c ∧ q.machine.store.cell c = p.machine.store.cell c) ∧
        (guard marks later foreign).Governs q := by
  induction course with
  | refl => exact ⟨marked, base, fun c mark => ⟨mark, rfl⟩, governs⟩
  | tail before turn ih =>
    obtain ⟨marks, there, kept, governsThere⟩ := ih
    obtain ⟨last, later, keptLast, governsLater⟩ :=
      turn.guarded (Course.sound before sound) governsThere
    refine ⟨last, later, fun c mark => ?_, governsLater⟩
    obtain ⟨markThere, same⟩ := kept c mark
    obtain ⟨markLast, sameLast⟩ := keptLast c markThere
    exact ⟨markLast, sameLast.trans same⟩

theorem governs_start : (guard (fun _ => False) .empty False).Governs start :=
  ⟨⟨⟨Store.guards_initial _, fun _ _ => trivial⟩, nofun⟩, by
    rintro _ ⟨⟩
    exact Store.allows_datum_iff.mpr nofun⟩

/-- All code of a session is marked. -/
theorem Course.code_of_lambda (course : Course start p) (l : LambdaId) :
    ∃ (marks : CellId → Prop) (later : Store), (guard marks later False).Governs p ∧
      Code marks later .form (p.machine.store.lambda l).body := by
  obtain ⟨marks, later, _, governs⟩ := course.guarded sound_start governs_start
  have guards : p.machine.store.Guards marks later False := governs.grounded.machine.store
  exact ⟨marks, later, governs, (guards.body l).resolve_right And.left⟩

end Session

theorem Value.eq_cons_of_equal (same : v.equal (.cons c) = true) : v = .cons c := by
  cases v with
  | cons => exact congrArg Value.cons (eq_of_beq same)
  | number | string | boolean | nil | lambda => cases same

/-- What code a value is on one store, it is on the other, cell by cell. -/
structure Store.SameCode (s t : Store) (r : Position) (v : Value) : Prop where
  cell : ∀ c, s.CodeCell r v c → t.cell c = s.cell c
  code : ∀ c, t.CodeCell r v c ↔ s.CodeCell r v c

theorem Store.CodeCell.kept (inside : s.CodeCell r v e)
    (cell : ∀ c, s.CodeCell r v c → t.cell c = s.cell c) : t.CodeCell r v e := by
  induction inside with
  | here code => exact .here code
  | @car r c e inside ih =>
    have same := cell c (.here (CodeCell.car inside).ne_datum)
    refine .car ?_
    rw [Store.car, same]
    exact ih fun _ code => cell _ (.car code)
  | @cdr r c e inside ih =>
    have same := cell c (.here (CodeCell.cdr inside).ne_datum)
    refine .cdr ?_
    rw [Store.car, Store.cdr, same]
    exact ih fun _ code => cell _ (.cdr code)

/-- Where no cell of code differs, there is no further code. -/
theorem Store.CodeCell.before (inside : t.CodeCell r v e)
    (cell : ∀ c, s.CodeCell r v c → t.cell c = s.cell c) : s.CodeCell r v e := by
  induction inside with
  | here code => exact .here code
  | @car r c e inside ih =>
    have same := cell c (.here (CodeCell.car inside).ne_datum)
    rw [Store.car, same] at ih
    exact .car (ih fun _ code => cell _ (.car code))
  | @cdr r c e inside ih =>
    have same := cell c (.here (CodeCell.cdr inside).ne_datum)
    rw [Store.car, Store.cdr, same] at ih
    exact .cdr (ih fun _ code => cell _ (.cdr code))

theorem Store.sameCode_of_cell (cell : ∀ c, s.CodeCell r v c → t.cell c = s.cell c) :
    s.SameCode t r v := ⟨cell, fun _ => ⟨(·.before cell), (·.kept cell)⟩⟩

theorem Session.Course.sameCode {p q : Process} (before : Course start p) (course : Course p q)
    {l : LambdaId} (valid : l.index < p.machine.store.lambdas.size) :
    (q.machine.store.lambda l).body = (p.machine.store.lambda l).body ∧
      p.machine.store.SameCode q.machine.store .form (p.machine.store.lambda l).body := by
  obtain ⟨marks, later, governs, code⟩ := before.code_of_lambda l
  have guards : p.machine.store.Guards marks later False := governs.grounded.machine.store
  obtain ⟨_, _, kept, _⟩ := course.guarded (before.sound sound_start) governs
  have grows := course.grows (before.balanced balanced_start)
  exact ⟨grows.body l valid, Store.sameCode_of_cell fun c inside =>
    (kept c (code.mark_of_codeCell guards.kept inside)).2⟩

/-- Evaluation never changes the code that it evaluates, but for quoted data. A form that was read
stays the same code however its evaluation ends, and at each point of it and of all that the session
does later. And each lambda of a session stays the same code whatever happens, calls of it included.
-/
theorem code_is_constant :
    (∀ {m n : Machine} {node : Node} {form : Value}, m.Sound →
      Session.readForm node m = .value form n →
        (∀ depth k, (eval depth form n).machine? = some k →
          n.store.SameCode k.store .form form) ∧
        ∀ q, Session.Course ⟨.code form, [], n⟩ q →
          n.store.SameCode q.machine.store .form form) ∧
    ∀ {p q : Process}, Session.Course Session.start p → Session.Course p q →
      ∀ l : LambdaId, l.index < p.machine.store.lambdas.size →
        (q.machine.store.lambda l).body = (p.machine.store.lambda l).body ∧
        p.machine.store.SameCode q.machine.store .form (p.machine.store.lambda l).body := by
  constructor
  · intro m n node form sound placed
    -- Nothing is marked before: whatever code the machine has is foreign.
    obtain ⟨marks, _, marked, governs⟩ :=
      Session.guard_readForm sound (Store.guards_unmarked m.store m.store) placed
    have idle : Process.Sound ⟨.done (.ok .nil), [], m⟩ := ⟨⟨sound, nofun⟩, by rintro _ ⟨⟩; trivial⟩
    have placedSound := Session.Turn.sound (.read placed) idle
    have constant : ∀ q, Session.Course ⟨.code form, [], n⟩ q →
        n.store.SameCode q.machine.store .form form := by
      intro q course
      obtain ⟨_, _, kept, _⟩ := course.guarded placedSound governs
      exact Store.sameCode_of_cell fun c code =>
        (kept c (marked.mark_of_codeCell (fun _ _ => rfl) code)).2
    refine ⟨fun depth k ends => ?_, constant⟩
    obtain ⟨result, leads⟩ := (Process.eval_follows depth form [] n).leads ends
    exact constant _ (Session.course_of_leads leads)
  · intro p q before course l valid
    exact before.sameCode course valid

/-- A lambda whose calls change what it quotes and evaluate a quotation. -/
def changingText : String := "(def f (lambda (x) (block (set_car '(0) x) (eval '(list x)))))"

def callOnOne : Node := .group [.name "f", .leaf (.number (.int 1))]

theorem code_is_constant_beside_changed_data : ∃ m form n k b c e, Session.Reached m ∧
    Session.readForm callOnOne m = .value form n ∧ (eval 9 form n).machine? = some k ∧
    n.store.CodeCell .form form c ∧ k.store.cell c = n.store.cell c ∧
    m.store.CodeCell .form (m.store.lambda ⟨0⟩).body b ∧ k.store.cell b = m.store.cell b ∧
    k.store.cell e ≠ m.store.cell e := by
  obtain ⟨m, left, facts⟩ := (Option.any_eq_true _ _).mp (by decide +kernel :
    (Session.run 9 changingText Machine.initial).machine?.any (fun m =>
      decide (0 < m.store.lambdas.size) && (m.store.lambda ⟨0⟩).body.equal (.cons ⟨15⟩) &&
        !(m.store.car ⟨1⟩).equal (.int 1) && match Session.readForm callOnOne m with
          | .value form n => form.equal (.cons ⟨23⟩) && (eval 9 form n).machine?.any fun k =>
            (k.store.car ⟨1⟩).equal (.int 1)
          | _ => false) = true)
  simp only [Bool.and_eq_true, decide_eq_true_eq, Bool.not_eq_true'] at facts
  obtain ⟨⟨⟨valid, body⟩, before⟩, called⟩ := facts
  have reached : Session.Reached m := .run .initial 9 _ left
  obtain ⟨final, course⟩ := reached.course
  split at called
  · next form n placed =>
    obtain ⟨isForm, called⟩ := Bool.and_eq_true_iff.mp called
    obtain ⟨k, ends, after⟩ := (Option.any_eq_true _ _).mp called
    have code : n.store.CodeCell .form form ⟨23⟩ := by
      rw [Value.eq_cons_of_equal isForm]
      exact .here nofun
    have bodyCode : m.store.CodeCell .form (m.store.lambda ⟨0⟩).body ⟨15⟩ := by
      rw [Value.eq_cons_of_equal body]
      exact .here nofun
    obtain ⟨result, leads⟩ := (Process.eval_follows 9 form [] n).leads ends
    have later : Session.Course ⟨.done final, [], m⟩ ⟨.done result, [], k⟩ :=
      .head (.read placed) (Session.course_of_leads leads)
    obtain ⟨_, constant⟩ := code_is_constant.2 course later ⟨0⟩ valid
    have formConstant := (code_is_constant.1 reached.sound placed).1 9 k ends
    refine ⟨m, form, n, k, ⟨15⟩, ⟨23⟩, ⟨1⟩, reached, placed, ends, code,
      formConstant.cell _ code, bodyCode, constant.cell _ bodyCode, fun same => ?_⟩
    rw [Store.car, same] at after
    exact Bool.noConfusion (before.symm.trans after)
  · cases called

/-- A call of a lambda that changes the list that its body quotes. -/
def changingSource : String := "((lambda () (set_car (quote (0)) 1)))"

def changingCall : Node :=
  .group [.group [.name "lambda", .group [], .group [.name "set_car",
    .group [.name "quote", .group [.leaf (.number (.int 0))]], .leaf (.number (.int 1))]]]

theorem nodes_changingSource : Source.nodes changingSource = .ok [changingCall] := by
  have unmarked : changingCall.Unmarked := by
    refine .group (List.forall_mem_singleton.mpr (.group ?_))
    simp only [List.forall_mem_cons]
    refine ⟨Node.avoids_name _ _, .group (List.forall_mem_nil _), .group ?_, List.forall_mem_nil _⟩
    simp only [List.forall_mem_cons]
    refine ⟨Node.avoids_name _ _, .group ?_, .leaf nofun, List.forall_mem_nil _⟩
    simp only [List.forall_mem_cons]
    exact ⟨Node.avoids_name _ _, .group (List.forall_mem_singleton.mpr (.leaf nofun)),
      List.forall_mem_nil _⟩
  exact Source.nodes_of_tokens? rfl (Node.ofTokens_tokens unmarked)

theorem quoted_data_is_not_constant : ∃ form n k c,
    Source.nodes changingSource = .ok [changingCall] ∧
    Session.readForm changingCall Machine.initial = .value form n ∧
    (eval 9 form n).machine? = some k ∧ n.store.PartOf form c ∧
    n.store.PartOf (k.store.lambda ⟨0⟩).body c ∧ k.store.cell c ≠ n.store.cell c := by
  have facts : ∃ form n, Session.readForm changingCall Machine.initial = .value form n ∧
      n.store.PartOf form ⟨0⟩ ∧ n.store.PartOf (.cons ⟨5⟩) ⟨0⟩ ∧
      (n.store.car ⟨0⟩).equal (.int 1) = false ∧
      ((eval 9 form n).machine?.any fun k => (k.store.lambda ⟨0⟩).body.equal (.cons ⟨5⟩) &&
        (k.store.car ⟨0⟩).equal (.int 1)) = true := by
    refine ⟨_, _, rfl, ?_, ?_, ?_, ?_⟩
    · exact .car (.cdr (.cdr (.car (.cdr (.car (.cdr (.car (.here ⟨0⟩))))))))
    · exact .cdr (.car (.cdr (.car (.here ⟨0⟩))))
    · decide +kernel
    · decide +kernel
  obtain ⟨form, n, placed, part, partOfBody, before, ends⟩ := facts
  obtain ⟨k, ends, after⟩ := (Option.any_eq_true _ _).mp ends
  obtain ⟨body, after⟩ := Bool.and_eq_true_iff.mp after
  refine ⟨form, n, k, ⟨0⟩, nodes_changingSource, placed, ends, part, ?_, fun same => ?_⟩
  · rwa [Value.eq_cons_of_equal body]
  · rw [Store.car, same] at after
    exact Bool.noConfusion (before.symm.trans after)

end CellLisp
