import CellLisp.Proofs.Order
import CellLisp.Proofs.Vocabulary
import CellLisp.Proofs.Walking
import CellLisp.Proofs.Writing

/-!
# Sessions that change no cell

As long as no builtin that changes cells is applied, every cell stays as it is and the cells that
are made refer to older ones. So there is no cycle at any later point that was not there before,
however many texts are run and however they end. A session whose texts do not mention these builtins
never applies them, and it begins without cells: every chain that it makes ends, and every value
that it comes to is written out in full.
-/

namespace CellLisp

namespace Store

variable {s t : Store} {v : Value} {opened : List CellId}

/-- Every cell is as it was, and is on a cycle only if it was on one. -/
structure Continues (s t : Store) : Prop where
  kept : s.Extends t
  cycles : ∀ c, t.OnCycle c ↔ s.OnCycle c

theorem Follows.continues (follows : t.Follows s) (sound : s.Sound) : s.Continues t :=
  ⟨follows.kept, fun _ => follows.onCycle_iff sound⟩

theorem Continues.acyclic (continues : s.Continues t) (acyclic : s.Acyclic) : t.Acyclic :=
  fun c => mt (continues.cycles c).mp (acyclic c)

/-- A walk along the value comes to an end, and so does writing it, with nothing cut short. -/
structure Finite (s : Store) (v : Value) : Prop where
  walked : ∃ items e, s.Trail v items e ∧
    ∀ fuel, items.length < fuel → s.collect fuel (some v) = some (verdict items e)
  written : ∃ enough, ∀ fuel, enough ≤ fuel →
    s.write ⟨[], [], false⟩ fuel v = some ⟨(s.shown v).toList, [], false⟩

theorem exists_trail_of_cut_eq_false (whole : (s.sketchWithin opened v).cut = false) :
    ∃ items e, s.Trail v items e := by
  induction opened, v using s.induction_on_sketch with
  | atom opened v atom => exact ⟨[], v, .stop atom⟩
  | seen opened c mem =>
    rw [sketchWithin_open mem] at whole
    cases whole
  | fresh opened c new ihCar ihCdr =>
    rw [sketchWithin_fresh new, Sketch.cut, Bool.or_eq_false_iff] at whole
    obtain ⟨items, e, rest⟩ := ihCdr whole.2
    exact ⟨s.car c :: items, e, .cons rest⟩

theorem Acyclic.finite (acyclic : s.Acyclic) (v : Value) : s.Finite v := by
  have whole := acyclic.cut_eq_false v
  obtain ⟨items, e, trail⟩ := exists_trail_of_cut_eq_false whole
  refine ⟨⟨items, e, trail, fun fuel enough => trail.collect enough⟩, (s.sketch v).steps, ?_⟩
  intro fuel enough
  rw [s.write_eq v enough, whole]

end Store

/-- The text has no name of a builtin that changes cells. -/
def Source.Unchanging (source : String) : Prop :=
  ∀ b : Builtin, b.Mutates → b.name ∉ vocabulary source

theorem Source.unchanging_iff {source : String} : Unchanging source ↔
    Builtin.setCar.name ∉ vocabulary source ∧ Builtin.setCdr.name ∉ vocabulary source := by
  constructor
  · exact fun unchanging => ⟨unchanging _ (.inl rfl), unchanging _ (.inr rfl)⟩
  · rintro ⟨car, cdr⟩ b (rfl | rfl)
    · exact car
    · exact cdr

instance (source : String) : Decidable (Source.Unchanging source) :=
  decidable_of_iff _ Source.unchanging_iff.symm

/-- The word names no builtin that changes cells. -/
def Builtin.Harmless (word : String) : Prop := ∀ b : Builtin, b.Mutates → word ≠ b.name

theorem Source.Unchanging.usesOnly {source : String} (unchanging : Unchanging source) :
    UsesOnly source Builtin.Harmless where
  written word written b mutates same := unchanging b mutates (same ▸ written)
  quote b mutates := by rcases mutates with rfl | rfl <;> decide
  block b mutates := by rcases mutates with rfl | rfl <;> decide

theorem Process.not_mutates_of_harmless {p : Process}
    (governs : (Discipline.usesOnly Builtin.Harmless).Governs p) : ¬p.Mutates := by
  rintro ⟨b, values, applied, mutates⟩
  exact word_of_supplied governs applied b mutates rfl

namespace Session

variable {base : Store} {m n : Machine} {p q : Process} {depth : Nat} {source : String}

/-- A course on which no builtin changes a cell. -/
def Quiet : Process → Process → Prop := Through fun p => ¬p.Mutates

theorem Turn.follows (turn : Turn p q) (quiet : ¬p.Mutates) (sound : p.Sound)
    (follows : p.machine.store.Follows base) : q.machine.store.Follows base := by
  cases turn with
  | step next => exact Process.follows_of_next sound follows quiet next
  | @read result m n node form placed =>
    obtain ⟨d, _, rfl, rfl⟩ := exists_of_readForm placed
    exact follows.place sound.grounded.machine.store d

theorem Quiet.follows (quiet : Quiet p q) (sound : p.Sound)
    (follows : p.machine.store.Follows base) : q.machine.store.Follows base := by
  induction quiet with
  | refl => exact follows
  | tail before turn ih => exact turn.2.follows turn.1 ((Through.course before).sound sound) ih

theorem Quiet.continues (quiet : Quiet p q) (sound : p.Sound) :
    p.machine.store.Continues q.machine.store :=
  (quiet.follows sound (.refl _)).continues sound.grounded.machine.store

/-- Texts that may be run on the machine as it is then, one after the other and whatever they end
with. -/
inductive Ran (may : Nat → String → Machine → Prop) (m : Machine) : Machine → Prop
  | none : Ran may m m
  | run {n k : Machine} (before : Ran may m n) (depth : Nat) (source : String)
      (allowed : may depth source n) (left : (Session.run depth source n).machine? = some k) :
      Ran may m k

/-- The run applies no builtin that changes cells. -/
def RunsQuietly (depth : Nat) (source : String) (m : Machine) : Prop :=
  ∀ t, Passes depth source m t → ¬t.Mutates

theorem not_mutates_idle (result : Except Fault Value) (m : Machine) :
    ¬Process.Mutates ⟨.done result, [], m⟩ := nofun

theorem Ran.quiet (ran : Ran RunsQuietly m n) (result : Except Fault Value) :
    ∃ final, Quiet ⟨.done result, [], m⟩ ⟨.done final, [], n⟩ := by
  induction ran with
  | none => exact ⟨result, .refl⟩
  | run before depth source quiet left ih =>
    obtain ⟨between, earlier⟩ := ih
    obtain ⟨final, later⟩ := run_through not_mutates_idle between quiet left
    exact ⟨final, earlier.trans later⟩

/-- What the texts do not name they do not apply. -/
theorem Ran.harmless (ran : Ran (fun _ source _ => Source.Unchanging source) m n)
    (uses : m.store.UsesOnly Builtin.Harmless) :
    n.store.UsesOnly Builtin.Harmless ∧ Ran RunsQuietly m n := by
  induction ran with
  | none => exact ⟨uses, .none⟩
  | run before depth source unchanging left ih =>
    obtain ⟨usesThere, quietly⟩ := ih
    have text := unchanging.usesOnly
    refine ⟨usesOnly_run usesThere text left, quietly.run depth source (fun t passes => ?_) left⟩
    exact Process.not_mutates_of_harmless (passes.usesOnly usesThere text)

theorem Ran.continues (ran : Ran RunsQuietly m n) (sound : m.Sound) :
    m.store.Continues n.store := by
  obtain ⟨final, quiet⟩ := ran.quiet (.ok .nil)
  apply quiet.continues
  exact ⟨⟨sound, nofun⟩, by rintro _ ⟨⟩; trivial⟩

theorem Passes.quiet (passes : Passes depth source m q) (quietly : RunsQuietly depth source m)
    (result : Except Fault Value) : Quiet ⟨.done result, [], m⟩ q :=
  passes.through not_mutates_idle quietly result

/-- Only a builtin that changes cells closes a cycle. On a course of a session, in an evaluation and
in runs one after the other that apply none, whatever they end with, the cells stay as they are and
no cycle is added. Texts that do not name these builtins apply none: in a new session they never
make a cycle, and every value of the session is finite. -/
theorem cycles_need_changes :
    (∀ p q, p.Sound → Quiet p q →
      p.machine.store.Continues q.machine.store ∧
        (p.machine.store.Acyclic → q.machine.store.Acyclic)) ∧
    (∀ depth v m n, m.Sound → v.KnownTo m.store →
      (∀ t, Process.Leads ⟨.code v, [], m⟩ t → ¬t.Mutates) →
      (eval depth v m).machine? = some n →
        m.store.Continues n.store ∧ (m.store.Acyclic → n.store.Acyclic)) ∧
    (∀ m n, m.Sound → Ran RunsQuietly m n →
      m.store.Continues n.store ∧ (m.store.Acyclic → n.store.Acyclic)) ∧
    ∀ m, Ran (fun _ source _ => Source.Unchanging source) Machine.initial m →
      (m.store.Acyclic ∧ ∀ v, m.store.Finite v) ∧
      ∀ depth source q, Source.Unchanging source → Passes depth source m q →
        ¬q.Mutates ∧ q.machine.store.Acyclic ∧ ∀ v, q.machine.store.Finite v := by
  refine ⟨fun p q sound quiet => ?_, fun depth v m n sound known quiet ends => ?_,
    fun m n sound ran => ?_, fun m ran => ?_⟩
  · have continues := quiet.continues sound
    exact ⟨continues, continues.acyclic⟩
  · obtain ⟨result, leads⟩ := (Process.eval_follows depth v [] m).leads ends
    have course : Quiet ⟨.code v, [], m⟩ ⟨.done result, [], n⟩ := through_of_leads quiet leads
    have continues := course.continues ⟨⟨sound, nofun⟩, known⟩
    exact ⟨continues, continues.acyclic⟩
  · have continues := ran.continues sound
    exact ⟨continues, continues.acyclic⟩
  · obtain ⟨uses, quietly⟩ := ran.harmless Store.usesOnly_initial
    obtain ⟨result, quiet⟩ := quietly.quiet (.ok .nil)
    have acyclic := (quiet.continues sound_start).acyclic Store.acyclic_initial
    refine ⟨⟨acyclic, acyclic.finite⟩, fun depth source q unchanging passes => ?_⟩
    have runs : RunsQuietly depth source m := fun t passes =>
      Process.not_mutates_of_harmless (passes.usesOnly uses unchanging.usesOnly)
    have whole : Quiet start q := quiet.trans (passes.quiet runs result)
    have acyclicThere := (whole.continues sound_start).acyclic Store.acyclic_initial
    exact ⟨runs q passes, acyclicThere, acyclicThere.finite⟩

/-- Lists in lists, and a lambda in the scope that it keeps. -/
def pairing : String := "(def x '(1 (2))) (def pair (lambda (y) (cons y x)))"

/-- A list that shares another with a name and with itself, and then a fault. -/
def sharing : String := "(def z (pair x)) (car 5)"

theorem cycles_need_changes_in_sharing : ∃ m n k f,
    (run 9 pairing Machine.initial).machine? = some m ∧ run 9 sharing m = .fault f n ∧
    (eval 1 (.string "z") n).machine? = some k ∧ m.store.cells.size < n.store.cells.size ∧
    m.store.Continues n.store ∧ n.store.Continues k.store ∧ n.store.Acyclic ∧
    ∀ v, n.store.Finite v := by
  obtain ⟨m, first, facts⟩ := (Option.any_eq_true _ _).mp (by decide +kernel :
    (run 9 pairing Machine.initial).machine?.any (fun m => decide (
      (run 9 sharing m).fault?.isSome = true ∧
      (run 9 sharing m).machine?.any (fun n => decide (
        m.store.cells.size < n.store.cells.size ∧
        (eval 1 (.string "z") n).machine?.isSome = true)) = true)) = true)
  obtain ⟨failed, facts⟩ := of_decide_eq_true facts
  obtain ⟨n, ended, facts⟩ := (Option.any_eq_true _ _).mp facts
  obtain ⟨more, found⟩ := of_decide_eq_true facts
  obtain ⟨f, failed⟩ := Option.isSome_iff_exists.mp failed
  obtain ⟨k, third⟩ := Option.isSome_iff_exists.mp found
  have second : run 9 sharing m = .fault f n := by
    obtain ⟨n', outcome⟩ := Outcome.exists_of_fault? failed
    rw [outcome] at ended ⊢
    rw [Option.some.inj ended]
  obtain ⟨_, evaluations, runs, fresh⟩ := cycles_need_changes
  have unchanging : Source.Unchanging sharing := by decide +kernel
  have reached : Reached m := .run .initial 9 _ first
  have reachedThere : Reached n := .run reached 9 _ ended
  have before : Ran (fun _ source _ => Source.Unchanging source) Machine.initial m :=
    .run .none 9 _ (by decide +kernel) first
  have after := before.run 9 _ unchanging ended
  have quietly : Ran RunsQuietly m n :=
    .run .none 9 _ (fun q passes => ((fresh m before).2 9 _ q unchanging passes).1) ended
  have quiet : ∀ t, Process.Leads ⟨.code (.string "z"), [], n⟩ t → ¬t.Mutates := by
    have uses := (after.harmless Store.usesOnly_initial).1
    have known : (Value.string "z").UsesOnly Builtin.Harmless := by
      rintro _ ⟨⟩ b (rfl | rfl) <;> decide
    intro t leads
    have governs := leads.usesOnly ⟨⟨⟨uses, fun _ _ => trivial⟩, nofun⟩, known⟩
    exact Process.not_mutates_of_harmless governs
  obtain ⟨⟨acyclic, finite⟩, _⟩ := fresh n after
  have evaluated := evaluations 1 (.string "z") n k reachedThere.sound trivial quiet third
  exact ⟨m, n, k, f, first, second, third, more, (runs m n reached.sound quietly).1,
    evaluated.1, acyclic, finite⟩

end Session

end CellLisp
