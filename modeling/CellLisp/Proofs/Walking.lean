import CellLisp.Evaluation
import CellLisp.Proofs.Chains

/-!
# Walking along a chain

A chain of cells ends in nil, or in another atom, or it never ends. A walk along it yields the cars
until the chain ends, and is refused if the end is not nil. Along an endless chain it yields cars
for ever: nothing on the way tells it that it has been there before. So whatever walks a chain first
comes to a result exactly if the chain ends.
-/

namespace CellLisp

namespace Store

variable {s : Store} {v e : Value} {c : CellId} {items : List Value} {fuel : Nat}

/-- The cars that a chain passes before it ends, and what it ends in. -/
inductive Trail (s : Store) : Value → List Value → Value → Prop
  | stop {e : Value} (atom : ∀ c, e ≠ .cons c) : Trail s e [] e
  | cons {c : CellId} {items : List Value} {e : Value} (rest : Trail s (s.cdr c) items e) :
    Trail s (.cons c) (s.car c :: items) e

theorem trail_nil : s.Trail .nil [] .nil := .stop nofun

theorem trail_number (n : Number) : s.Trail (.number n) [] (.number n) := .stop nofun

/-- What stands behind so many cells of a chain, or its end if it has no more. -/
def behind (s : Store) : Nat → Value → Value
  | 0, v => v
  | n + 1, .cons c => s.behind n (s.cdr c)
  | _, v => v

def Endless (s : Store) (v : Value) : Prop := ∀ n, ∃ c, s.behind n v = .cons c

theorem Endless.exists_cell (endless : s.Endless v) :
    ∃ c, v = .cons c ∧ s.Endless (s.cdr c) := by
  obtain ⟨c, rfl⟩ := endless 0
  exact ⟨c, rfl, fun n => endless (n + 1)⟩

theorem Trail.end_atom (trail : s.Trail v items e) : ∀ c, e ≠ .cons c := by
  induction trail with
  | stop atom => exact atom
  | cons rest ih => exact ih

theorem Trail.behind (trail : s.Trail v items e) : s.behind items.length v = e := by
  induction trail with
  | stop atom => rfl
  | cons rest ih => exact ih

theorem Trail.not_endless (trail : s.Trail v items e) : ¬s.Endless v := by
  intro endless
  obtain ⟨c, more⟩ := endless items.length
  exact trail.end_atom c (trail.behind.symm.trans more)

theorem exists_trail_of_behind {n : Nat} (atom : ∀ c, s.behind n v ≠ .cons c) :
    ∃ items e, s.Trail v items e := by
  induction n generalizing v with
  | zero => exact ⟨[], v, .stop atom⟩
  | succ n ih =>
    cases v with
    | cons c =>
      obtain ⟨items, e, rest⟩ := ih atom
      exact ⟨s.car c :: items, e, .cons rest⟩
    | number | string | boolean | nil | lambda => exact ⟨[], _, .stop nofun⟩

theorem endless_iff : s.Endless v ↔ ¬∃ items e, s.Trail v items e := by
  constructor
  · rintro endless ⟨items, e, trail⟩
    exact trail.not_endless endless
  · intro none n
    apply Classical.byContradiction
    intro atom
    exact none (exists_trail_of_behind fun c same => atom ⟨c, same⟩)

theorem Trail.spine (trail : s.Trail v items e) :
    ∃ cs, s.Spine v cs ∧ cs.length = items.length := by
  induction trail with
  | stop atom => exact ⟨[], .stop atom, rfl⟩
  | @cons c items e rest ih =>
    obtain ⟨cs, spine, same⟩ := ih
    exact ⟨c :: cs, .cons spine, congrArg (· + 1) same⟩

theorem Trail.length_le (trail : s.Trail v items e) (sound : s.Sound) (known : v.KnownTo s) :
    items.length ≤ s.cells.size := by
  obtain ⟨cs, spine, same⟩ := trail.spine
  rw [← same]
  exact spine.length_le sound known

/-! The walk itself. -/

/-- Takes item after item until the walk is over or refused, at most so many. -/
def collect (s : Store) : Nat → Option Value → Option (Except EvaluationFault (List Value))
  | 0, _ => none
  | fuel + 1, position =>
    match s.next position with
    | (none, _) => some (.ok [])
    | (some (.error f), _) => some (.error f)
    | (some (.ok v), position) => (s.collect fuel position).map (·.map (v :: ·))

/-- What is made of the items, by what the chain ends in. -/
def verdict (items : List Value) : Value → Except EvaluationFault (List Value)
  | .nil => .ok items
  | _ => .error .malformedList

theorem verdict_cons (v : Value) (items : List Value) (e : Value) :
    (verdict items e).map (v :: ·) = verdict (v :: items) e := by
  cases e <;> rfl

theorem Trail.collect (trail : s.Trail v items e) (enough : items.length < fuel) :
    s.collect fuel (some v) = some (verdict items e) := by
  induction trail generalizing fuel with
  | @stop e atom =>
    obtain ⟨fuel, rfl⟩ := Nat.exists_eq_add_of_lt enough
    cases e with
    | cons c => exact absurd rfl (atom c)
    | number | string | boolean | nil | lambda => rfl
  | @cons c items e rest ih =>
    cases fuel with
    | zero => cases enough
    | succ fuel =>
      have later := ih (Nat.lt_of_succ_lt_succ enough)
      rw [← verdict_cons]
      change (s.collect fuel (some (s.cdr c))).map (·.map (s.car c :: ·)) = _
      rw [later]
      rfl

theorem Endless.collect (endless : s.Endless v) (fuel : Nat) :
    s.collect fuel (some v) = none := by
  induction fuel generalizing v with
  | zero => rfl
  | succ fuel ih =>
    obtain ⟨c, rfl, behind⟩ := endless.exists_cell
    change (s.collect fuel (some (s.cdr c))).map (·.map (s.car c :: ·)) = none
    rw [ih behind]
    rfl

theorem collect_mono {position : Option Value} {result : Except EvaluationFault (List Value)}
    (found : s.collect fuel position = some result) {more : Nat} (enough : fuel ≤ more) :
    s.collect more position = some result := by
  induction fuel generalizing position result more with
  | zero => cases found
  | succ fuel ih =>
    obtain ⟨more, rfl⟩ := Nat.exists_eq_add_of_le' enough
    rw [← Nat.add_assoc, Store.collect]
    rw [Store.collect] at found
    split at found
    · exact found
    · exact found
    · obtain ⟨rest, later, rfl⟩ := Option.map_eq_some_iff.mp found
      rw [ih later (Nat.le_add_left fuel more)]
      rfl

/-- How a walk comes out. -/
theorem exists_collect_iff {result : Except EvaluationFault (List Value)} :
    (∃ fuel, s.collect fuel (some v) = some result) ↔
      ∃ items e, s.Trail v items e ∧ result = verdict items e := by
  constructor
  · rintro ⟨fuel, found⟩
    by_cases ends : ∃ items e, s.Trail v items e
    · obtain ⟨items, e, trail⟩ := ends
      have long := collect_mono found (Nat.le_add_right fuel (items.length + 1))
      rw [trail.collect (by omega)] at long
      exact ⟨items, e, trail, (Option.some.inj long).symm⟩
    · rw [(endless_iff.mpr ends).collect] at found
      cases found
  · rintro ⟨items, e, trail, rfl⟩
    exact ⟨items.length + 1, trail.collect (Nat.lt_succ_self _)⟩

theorem exists_collect_ok_iff :
    (∃ fuel, s.collect fuel (some v) = some (.ok items)) ↔ s.Trail v items .nil := by
  rw [exists_collect_iff]
  constructor
  · rintro ⟨passed, e, trail, same⟩
    cases e with
    | nil =>
      cases same
      exact trail
    | number | string | boolean | cons | lambda => cases same
  · intro trail
    exact ⟨items, .nil, trail, rfl⟩

theorem exists_collect_error_iff {f : EvaluationFault} :
    (∃ fuel, s.collect fuel (some v) = some (.error f)) ↔
      f = .malformedList ∧ ∃ items e, s.Trail v items e ∧ e ≠ .nil := by
  rw [exists_collect_iff]
  constructor
  · rintro ⟨items, e, trail, same⟩
    cases e with
    | nil => cases same
    | number | string | boolean | cons | lambda =>
      cases same
      exact ⟨rfl, items, _, trail, nofun⟩
  · rintro ⟨rfl, items, e, trail, filled⟩
    refine ⟨items, e, trail, ?_⟩
    cases e with
    | nil => exact absurd rfl filled
    | number | string | boolean | cons | lambda => rfl

theorem collect_eq_none_iff : (∀ fuel, s.collect fuel (some v) = none) ↔ s.Endless v := by
  constructor
  · intro never
    rw [endless_iff]
    rintro ⟨items, e, trail⟩
    have ends := trail.collect (Nat.lt_succ_self _)
    rw [never] at ends
    cases ends
  · exact fun endless => endless.collect

/-! What walks a chain first. -/

/-- What `x` comes to is decided by a walk along the chain: a proper list is used, another end is
refused, and an endless chain is walked for ever. -/
structure Walked {α : Type} (s : Store) (v : Value) (x : α) (use : List Value → α)
    (refused stuck : α) : Prop where
  proper : ∀ items, s.Trail v items .nil → x = use items
  improper : ∀ items e, s.Trail v items e → e ≠ .nil → x = refused
  endless : s.Endless v → x = stuck

theorem Walked.map {α β : Type} {x : α} {use : List Value → α} {refused stuck : α}
    (walked : s.Walked v x use refused stuck) (f : α → β) :
    s.Walked v (f x) (fun items => f (use items)) (f refused) (f stuck) :=
  ⟨fun items trail => congrArg f (walked.proper items trail),
    fun items e trail filled => congrArg f (walked.improper items e trail filled),
    fun endless => congrArg f (walked.endless endless)⟩

theorem Trail.chainWithin (trail : s.Trail v items e) {limit : Nat}
    (enough : items.length ≤ limit) :
    s.chainWithin limit v = (match e with | .nil => .proper items | _ => .improper) := by
  induction trail generalizing limit with
  | @stop e atom =>
    cases e with
    | cons c => exact absurd rfl (atom c)
    | number | string | boolean | nil | lambda => cases limit <;> rfl
  | @cons c items e rest ih =>
    obtain ⟨limit, rfl⟩ := Nat.exists_eq_add_of_le' enough
    change (s.chainWithin (limit + items.length) (s.cdr c)).cons _ = _
    rw [ih (Nat.le_add_left _ _)]
    cases e <;> rfl

theorem Endless.chainWithin (endless : s.Endless v) (limit : Nat) :
    s.chainWithin limit v = .endless := by
  induction limit generalizing v with
  | zero =>
    obtain ⟨c, rfl, _⟩ := endless.exists_cell
    rfl
  | succ limit ih =>
    obtain ⟨c, rfl, behind⟩ := endless.exists_cell
    rw [Store.chainWithin, ih behind]
    rfl

theorem Sound.walked_chain (sound : s.Sound) (known : v.KnownTo s) :
    s.Walked v (s.chain v) .proper .improper .endless where
  proper items trail := trail.chainWithin (trail.length_le sound known)
  improper items e trail filled := by
    rw [chain, trail.chainWithin (trail.length_le sound known)]
    cases e with
    | nil => exact absurd rfl filled
    | number | string | boolean | cons | lambda => rfl
  endless endless := endless.chainWithin _

end Store

open Store

variable {m : Machine} {v : Value} {c : CellId} {α β : Type}

theorem Eval.items_eq {items : List Value} (walked : m.store.chain v = .proper items) :
    Eval.items v m = .value items m := by
  rw [Eval.items, Eval.read_bind, walked]
  rfl

/-- What is done after a walk makes no difference to whether the walk ends. -/
theorem Store.Walked.bind {s : Store} {x : Eval α} {f : Fault} {use : List Value → Outcome α}
    (walked : s.Walked v (x m) use (.fault f m) .unfinished) (k : α → Eval β) :
    s.Walked v ((x >>= k) m) (fun items => Eval.bind (fun _ => use items) k m) (.fault f m)
      .unfinished :=
  walked.map fun o => Eval.bind (fun _ => o) k m

/-- Applies a head to its arguments, unless they are no list. -/
def Evaluation.applyTo (rec : Value → Eval Value) (head : Value) (args : List Value) : Eval Value :=
  match head.name? with
  | some name =>
    if name ∈ Keyword.names then keywordForm rec name args
    else do
      let values ← evalEach rec args
      if name ∈ Builtin.names then Builtin.call name values else callHead rec head values
  | none => do
    let values ← evalEach rec args
    callHead rec head values

namespace Store.Sound

variable (sound : m.store.Sound)

include sound

theorem walked_items (known : v.KnownTo m.store) :
    m.store.Walked v (Eval.items v m) (.value · m) (.fault (.evaluation .malformedList) m)
      .unfinished where
  proper items trail := Eval.items_eq ((sound.walked_chain known).proper items trail)
  improper items e trail filled := by
    rw [Eval.items, Eval.read_bind, (sound.walked_chain known).improper items e trail filled]
    rfl
  endless endless := by
    rw [Eval.items, Eval.read_bind, (sound.walked_chain known).endless endless]
    rfl

theorem walked_parameters (known : v.KnownTo m.store) :
    m.store.Walked v (Evaluation.parameters v m) (fun items => Evaluation.parameterNames items m)
      (.fault (Evaluation.malformed "lambda" (.parametersNotList (m.store.shown v))) m)
      .unfinished where
  proper items trail := by
    rw [Evaluation.parameters, Eval.read_bind, (sound.walked_chain known).proper items trail]
  improper items e trail filled := by
    rw [Evaluation.parameters, Eval.read_bind,
      (sound.walked_chain known).improper items e trail filled]
    rfl
  endless endless := by
    rw [Evaluation.parameters, Eval.read_bind, (sound.walked_chain known).endless endless]
    rfl

theorem walked_length (known : (Value.cons c).KnownTo m.store) :
    m.store.Walked (.cons c) (Builtin.call "length" [.cons c] m)
      (fun items => Eval.ofExcept
        (Builtin.checked "length" ((Checked.ofInt? items.length).map .int)) m)
      (.fault (.evaluation .malformedList) m) .unfinished :=
  (sound.walked_items known).bind fun items =>
    Eval.ofExcept (Builtin.checked "length" ((Checked.ofInt? items.length).map .int))

/-- The lists before were walked already; here is the next one. -/
theorem walked_joined (known : (Value.cons c).KnownTo m.store) (name : String) (vs : List Value) :
    m.store.Walked (.cons c) (Builtin.joined name (.cons c :: vs) m)
      (fun items => (do return items ++ (← Builtin.joined name vs)) m)
      (.fault (.evaluation .malformedList) m) .unfinished :=
  (sound.walked_items known).bind fun items => do return items ++ (← Builtin.joined name vs)

theorem walked_concat (known : (Value.cons c).KnownTo m.store) (vs : List Value) :
    m.store.Walked (.cons c) (Builtin.call "concat" (.cons c :: vs) m)
      (fun items => (do
        let more ← Builtin.joined "concat" vs
        Eval.update (·.list (items ++ more))) m)
      (.fault (.evaluation .malformedList) m) .unfinished := by
  have joined := (sound.walked_joined known "concat" vs).bind fun items =>
    Eval.update fun s => s.list items
  refine ⟨fun items trail => ?_, joined.improper, joined.endless⟩
  refine (joined.proper items trail).trans ?_
  change Eval.bind (fun _ => Eval.bind (Builtin.joined "concat" vs) _ m) _ m =
    Eval.bind (Builtin.joined "concat" vs) _ m
  unfold Eval.bind
  cases Builtin.joined "concat" vs m <;> rfl

theorem walked_eval (c : CellId) (depth : Nat) :
    m.store.Walked (m.store.cdr c) (eval (depth + 1) (.cons c) m)
      (fun args => Evaluation.applyTo (eval depth) (m.store.car c) args m)
      (.fault (.evaluation .malformedList) m) .unfinished :=
  (sound.walked_items (sound.cdr c)).bind (Evaluation.applyTo (eval depth) (m.store.car c))

end Store.Sound

/-- Whatever walks along a chain comes to its end exactly if the chain has one, and then takes a
proper list and refuses any other. -/
theorem walking_ends_iff (sound : m.store.Sound) (known : v.KnownTo m.store) :
    ((∀ items, (∃ fuel, m.store.collect fuel (some v) = some (.ok items)) ↔
        m.store.Trail v items .nil) ∧
      (∀ f, (∃ fuel, m.store.collect fuel (some v) = some (.error f)) ↔
        f = .malformedList ∧ ∃ items e, m.store.Trail v items e ∧ e ≠ .nil) ∧
      ((∀ fuel, m.store.collect fuel (some v) = none) ↔ m.store.Endless v)) ∧
    m.store.Walked v (Eval.items v m) (.value · m) (.fault (.evaluation .malformedList) m)
      .unfinished ∧
    m.store.Walked v (Evaluation.parameters v m)
      (fun items => Evaluation.parameterNames items m)
      (.fault (Evaluation.malformed "lambda" (.parametersNotList (m.store.shown v))) m)
      .unfinished ∧
    ∀ c, (v = .cons c →
        m.store.Walked v (Builtin.call "length" [v] m)
          (fun items => Eval.ofExcept
            (Builtin.checked "length" ((Checked.ofInt? items.length).map .int)) m)
          (.fault (.evaluation .malformedList) m) .unfinished ∧
        ∀ vs, m.store.Walked v (Builtin.call "concat" (v :: vs) m)
          (fun items => (do
            let more ← Builtin.joined "concat" vs
            Eval.update (·.list (items ++ more))) m)
          (.fault (.evaluation .malformedList) m) .unfinished) ∧
      (m.store.cdr c = v → ∀ depth,
        m.store.Walked v (eval (depth + 1) (.cons c) m)
          (fun args => Evaluation.applyTo (eval depth) (m.store.car c) args m)
          (.fault (.evaluation .malformedList) m) .unfinished) := by
  refine ⟨⟨fun items => exists_collect_ok_iff, fun f => exists_collect_error_iff,
    collect_eq_none_iff⟩, sound.walked_items known, sound.walked_parameters known, fun c => ?_⟩
  constructor
  · rintro rfl
    exact ⟨sound.walked_length known, sound.walked_concat known⟩
  · rintro rfl depth
    exact sound.walked_eval c depth

/-- The cells of `((1 2 3) 4 5 . 6)`: a list, an improper one, and a pair of the two. -/
def twoEnds : Machine :=
  let int (n : Int64) : Datum := .number (.int n)
  let d : Datum := .pair (.list [int 1, int 2, int 3]) (.pair (int 4) (.pair (int 5) (int 6)))
  ⟨(Machine.initial.store.place d).2, Machine.initial.stack⟩

theorem walking_ends_at_two_ends :
    let proper : Value := .cons ⟨2⟩
    let improper : Value := .cons ⟨4⟩
    twoEnds.store.Sound ∧ proper.KnownTo twoEnds.store ∧ improper.KnownTo twoEnds.store ∧
      ((∃ fuel, twoEnds.store.collect fuel (some proper) = some (.ok [.int 1, .int 2, .int 3])) ∧
        Eval.items proper twoEnds = .value [.int 1, .int 2, .int 3] twoEnds ∧
        Builtin.call "length" [proper] twoEnds = .value (.int 3) twoEnds) ∧
      (∃ fuel, twoEnds.store.collect fuel (some improper) = some (.error .malformedList)) ∧
      Eval.items improper twoEnds = .fault (.evaluation .malformedList) twoEnds ∧
      Builtin.call "length" [improper] twoEnds = .fault (.evaluation .malformedList) twoEnds ∧
      ∀ depth, eval (depth + 1) (.cons ⟨5⟩) twoEnds =
        .fault (.evaluation .malformedList) twoEnds := by
  intro proper improper
  have sound : twoEnds.store.Sound := (Machine.sound_initial.store.place _).1
  have size : twoEnds.store.cells.size = 6 := rfl
  have knownProper : proper.KnownTo twoEnds.store := by simp [proper, Value.KnownTo, size]
  have knownImproper : improper.KnownTo twoEnds.store := by simp [improper, Value.KnownTo, size]
  have toNil : twoEnds.store.Trail proper [.int 1, .int 2, .int 3] .nil :=
    .cons (.cons (.cons trail_nil))
  have toSix : twoEnds.store.Trail improper [.int 4, .int 5] (.int 6) :=
    .cons (.cons (trail_number _))
  have six : Value.int 6 ≠ .nil := by simp [Value.int]
  refine ⟨sound, knownProper, knownImproper, ?_, ?_⟩
  · obtain ⟨⟨collected, _⟩, items, _, uses⟩ := walking_ends_iff sound knownProper
    obtain ⟨length, _⟩ := (uses ⟨2⟩).1 rfl
    exact ⟨(collected _).mpr toNil, items.proper _ toNil, length.proper _ toNil⟩
  · obtain ⟨⟨_, refused, _⟩, items, _, uses⟩ := walking_ends_iff sound knownImproper
    obtain ⟨length, _⟩ := (uses ⟨4⟩).1 rfl
    refine ⟨(refused _).mpr ⟨rfl, _, _, toSix, six⟩, items.improper _ _ toSix six,
      length.improper _ _ toSix six, fun depth => ?_⟩
    exact ((uses ⟨5⟩).2 rfl depth).improper _ _ toSix six

/-- A machine with one cell that is the list `(1)`. -/
def oneItem : Machine := ⟨(Machine.initial.store.cons (.int 1) .nil).2, Machine.initial.stack⟩

theorem sound_oneItem : oneItem.store.Sound :=
  Machine.sound_initial.store.cons (a := .int 1) (d := .nil) trivial trivial

/-- The same cell, but its own cdr. -/
def loop : Machine := ⟨oneItem.store.setCdr ⟨0⟩ (.cons ⟨0⟩), Machine.initial.stack⟩

theorem endless_loop : loop.store.Endless (.cons ⟨0⟩) := by
  intro n
  refine ⟨⟨0⟩, ?_⟩
  induction n with
  | zero => rfl
  | succ n ih => exact ih

theorem walking_can_go_on : loop.store.Sound ∧ (Value.cons ⟨0⟩).KnownTo loop.store ∧
    (∀ fuel, loop.store.collect fuel (some (.cons ⟨0⟩)) = none) ∧
    Builtin.call "length" [.cons ⟨0⟩] loop = .unfinished ∧
    ∀ depth, eval depth (.cons ⟨0⟩) loop = .unfinished := by
  have known : (Value.cons ⟨0⟩).KnownTo oneItem.store := Nat.zero_lt_one
  have sound : loop.store.Sound := sound_oneItem.setCdr ⟨0⟩ known
  have still : (Value.cons ⟨0⟩).KnownTo loop.store := known.mono (within_setCdr _ _ _)
  refine ⟨sound, still, endless_loop.collect, (sound.walked_length still).endless endless_loop, ?_⟩
  intro depth
  cases depth with
  | zero => rfl
  | succ depth => exact (sound.walked_eval ⟨0⟩ depth).endless endless_loop

end CellLisp
