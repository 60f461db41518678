import CellLisp.Proofs.Blind
import CellLisp.Proofs.Process.Likeness
import Mathlib.Data.List.Find

/-!
# Processes with hidden bindings

Two processes that are at the same point, on machines that differ in hidden bindings at most, take
the same step unless it has to do with a name whose bindings are hidden from a walk along the stack.
None are if hidden bindings are sheltered: in front of the first scope that may differ in what a
name is bound to there is one that binds the name and does not differ. Then a walk for the name ends
before it comes to a difference.
-/

namespace CellLisp

variable {hidden : ScopeId → String → Prop} {m n k : Machine} {p q : Process}

/-! Looking for a name. -/

namespace Machine

/-- In front of what is hidden of a name there is a scope that binds the name. -/
def Shelters (hidden : ScopeId → String → Prop) (m : Machine) : Prop :=
  ∀ i name, hidden i name → ∃ front back, m.stack = front ++ back ∧
    (∃ j ∈ front, (m.store.scope j).binds name = true) ∧ ∀ j ∈ front, ¬hidden j name

/-- The part of the stack that decides where the name is bound hides nothing of it. -/
def Reveals (hidden : ScopeId → String → Prop) (m : Machine) (name : String) : Prop :=
  ∃ front back, m.stack = front ++ back ∧ (∀ j ∈ front, ¬hidden j name) ∧
    (back = [] ∨ ∃ j ∈ front, (m.store.scope j).binds name = true)

theorem reveals_of_seen {name : String} (seen : ∀ i, ¬hidden i name) : m.Reveals hidden name :=
  ⟨m.stack, [], (List.append_nil _).symm, fun j _ => seen j, .inl rfl⟩

theorem Shelters.reveals (shelters : m.Shelters hidden) (name : String) :
    m.Reveals hidden name := by
  by_cases any : ∃ i, hidden i name
  · obtain ⟨i, held⟩ := any
    obtain ⟨front, back, stack, bound, seen⟩ := shelters i name held
    exact ⟨front, back, stack, seen, .inr bound⟩
  · exact reveals_of_seen fun i held => any ⟨i, held⟩

theorem binder?_of_front {name : String} {front back : List ScopeId}
    (stack : m.stack = front ++ back)
    (decided : back = [] ∨ ∃ j ∈ front, (m.store.scope j).binds name = true) :
    m.binder? name = front.find? fun j => (m.store.scope j).binds name := by
  unfold Machine.binder?
  rw [stack]
  rcases decided with rfl | bound
  · rw [List.append_nil]
  · obtain ⟨i, first⟩ := Option.isSome_iff_exists.mp (List.find?_isSome.mpr bound)
    rw [List.find?_append, first]
    rfl

theorem Alike.binder? {name : String} (alike : m.Alike hidden n)
    (reveals : m.Reveals hidden name) :
    n.binder? name = m.binder? name ∧ ∀ i, m.binder? name = some i → ¬hidden i name := by
  obtain ⟨front, back, stack, seen, decided⟩ := reveals
  have same : ∀ j ∈ front, (n.store.scope j).binds name = (m.store.scope j).binds name := by
    intro j mem
    unfold Scope.binds
    rw [alike.store.bindings j name (seen j mem)]
  have first := binder?_of_front stack decided
  have second : n.binder? name = front.find? fun j => (n.store.scope j).binds name := by
    refine binder?_of_front (alike.stack.trans stack) (decided.imp_right ?_)
    rintro ⟨j, mem, bound⟩
    exact ⟨j, mem, by rw [same j mem, bound]⟩
  refine ⟨?_, fun i found => seen i ?_⟩
  · rw [first, second]
    exact List.find?_congr same
  · rw [first] at found
    exact List.mem_of_find?_eq_some found

theorem Alike.lookup? {name : String} (alike : m.Alike hidden n)
    (reveals : m.Reveals hidden name) : n.lookup? name = m.lookup? name := by
  obtain ⟨binder, seen⟩ := alike.binder? reveals
  unfold Machine.lookup?
  rw [binder]
  cases found : m.binder? name with
  | none => rfl
  | some i => exact alike.store.bindings i name (seen i found)

end Machine

theorem Eval.like_lookup {name : String} (alike : m.Alike hidden n)
    (reveals : m.Reveals hidden name) :
    (lookup name m).Like (Machine.Alike hidden) (lookup name n) := by
  unfold lookup
  rw [alike.lookup? reveals]
  cases m.lookup? name with
  | none => exact .fault _ alike
  | some v => exact .value v alike

theorem Eval.like_assign {name : String} (alike : m.Alike hidden n)
    (reveals : m.Reveals hidden name) (v : Value) :
    (assign name v m).Like (Machine.Alike hidden) (assign name v n) := by
  unfold assign Machine.assign?
  rw [(alike.binder? reveals).1]
  cases m.binder? name with
  | none => exact .fault _ alike
  | some i => exact .value () ⟨alike.store.bind i name v, alike.stack⟩

/-! What begins on machines that are alike. -/

namespace Machine

theorem Alike.opened (alike : m.Alike hidden n) : m.opened.Alike hidden n.opened := by
  unfold Machine.opened Machine.locals
  rw [alike.store.places, alike.stack]
  exact ⟨(alike.store.newScope _).2, rfl⟩

theorem Alike.called (alike : m.Alike hidden n) (l : LambdaId) (args : List Value) :
    (m.called l args).Alike hidden (n.called l args) := by
  unfold Machine.called Machine.locals
  rw [alike.store.lambda l, alike.store.places, alike.stack]
  exact ⟨(alike.store.newScope _).2, rfl⟩

theorem Alike.locals (alike : m.Alike hidden n) : n.locals = m.locals :=
  congrArg ScopeId.mk alike.store.places

theorem Alike.region (alike : m.Alike hidden n) (l : LambdaId) : n.region l = m.region l := by
  unfold Machine.region
  rw [alike.store.lambda l, alike.locals]

end Machine

/-- Machines that differ in hidden bindings at most. Their scopes are the same. -/
def Likeness.hiding (hidden : ScopeId → String → Prop) : Likeness where
  region := id
  alike _ m n := m.Alike hidden n
  cells alike := alike.store.cells
  params alike l := congrArg Lambda.params (alike.store.lambda l)
  body alike l := congrArg Lambda.body (alike.store.lambda l)
  withCells alike := alike.withCells
  newLambda names body alike := (Evaluation.plain_newLambda names body).blind hidden _ _ alike
  define name v alike := Eval.blind_define name v hidden _ _ alike
  opened alike := ⟨congrArg Region.block alike.locals.symm, alike.opened⟩
  called l args alike := ⟨(alike.region l).symm, alike.called l args⟩
  leave r result alike := r.blind_leave result hidden _ _ alike

namespace Process

/-- The processes are at the same point, and their machines differ in hidden bindings at most. -/
structure Alike (hidden : ScopeId → String → Prop) (p q : Process) : Prop where
  focus : q.focus = p.focus
  frames : q.frames = p.frames
  machine : p.machine.Alike hidden q.machine

theorem matches_hiding_iff : (Likeness.hiding hidden).Matches p q ↔ p.Alike hidden q := by
  have same (frames : List Frame) : (Likeness.hiding hidden).frames frames = frames := by
    refine List.map_id'' (fun frame => ?_) frames
    cases frame <;> rfl
  constructor
  · rintro ⟨focus, frames, machine⟩
    rw [same] at frames
    exact ⟨focus, frames, machine⟩
  · rintro ⟨focus, frames, machine⟩
    refine ⟨focus, ?_, machine⟩
    rw [same, frames]

theorem Alike.next (alike : p.Alike hidden q)
    (reveals : ∀ name, p.Seeks name → p.machine.Reveals hidden name) :
    Option.Rel (Alike hidden) p.next q.next := by
  have step := (matches_hiding_iff.mpr alike).next fun name seeks =>
    ⟨Eval.like_lookup alike.machine (reveals name seeks),
      Eval.like_assign alike.machine (reveals name seeks)⟩
  exact rel_imp step fun _ _ _ _ => matches_hiding_iff.mp

end Process

/-! What is hidden stays as it is. -/

theorem Machine.Change.get?_eq {i : ScopeId} {name : String} (change : m.Change n)
    (old : i.index < m.store.scopes.size) (unassigned : m.binder? name ≠ some i)
    (undefined : m.stack.head? ≠ some i) :
    (n.store.scope i).get? name = (m.store.scope i).get? name := by
  cases change with
  | none | cons | setCar | setCdr => rfl
  | list vs => rw [Store.scope_congr (Store.list_scopes _ _)]
  | place d => rw [Store.scope_congr (Store.place_scopes _ _)]
  | assign j other v bound =>
    rw [Store.scope_bind]
    split
    · next here =>
      have different : other ≠ name := fun same => unassigned (by rw [← same, bound, here.1])
      rw [Scope.get?_insert, if_neg different]
    · rfl
  | define j other v innermost =>
    have different : j ≠ i := fun same => undefined (by rw [innermost, same])
    rw [Store.scope_bind, if_neg fun here => different here.1]
  | lambda params body =>
    change ((m.store.newScope .empty).2.scope i).get? name = _
    rw [Store.scope_newScope, if_neg (Nat.ne_of_lt old)]

namespace Process

theorem Move.get?_eq {i : ScopeId} {name : String} (move : Move p q)
    (old : i.index < p.machine.store.scopes.size)
    (unassigned : p.machine.binder? name ≠ some i) (undefined : p.machine.stack.head? ≠ some i) :
    (q.machine.store.scope i).get? name = (p.machine.store.scope i).get? name := by
  cases move with
  | change regions change => exact change.get?_eq old unassigned undefined
  | enter r content opens regions fresh store stack =>
    rw [store, Store.scope_newScope, if_neg (Nat.ne_of_lt old)]
  | leave r result before after frames store stack => rw [store, Region.scope_settle_scopes]

end Process

theorem Machine.Shelters.head?_ne {i : ScopeId} {name : String} (shelters : m.Shelters hidden)
    (held : hidden i name) : m.stack.head? ≠ some i := by
  obtain ⟨front, back, stack, ⟨j, mem, _⟩, seen⟩ := shelters i name held
  cases front with
  | nil => cases mem
  | cons first front =>
    rw [stack]
    intro innermost
    rw [← Option.some.inj innermost] at held
    exact seen first List.mem_cons_self held

/-- The hidden bindings of one machine are those of the other. -/
def Machine.HoldsOnto (hidden : ScopeId → String → Prop) (m n : Machine) : Prop :=
  ∀ i name, hidden i name → (n.store.scope i).get? name = (m.store.scope i).get? name

theorem Machine.HoldsOnto.trans (first : m.HoldsOnto hidden n) (second : n.HoldsOnto hidden k) :
    m.HoldsOnto hidden k :=
  fun i name held => (second i name held).trans (first i name held)

namespace Process

theorem Move.holdsOnto (move : Move p q)
    (old : ∀ i name, hidden i name → i.index < p.machine.store.scopes.size)
    (unassigned : ∀ i name, p.machine.binder? name = some i → ¬hidden i name)
    (undefined : ∀ i name, hidden i name → p.machine.stack.head? ≠ some i) :
    p.machine.HoldsOnto hidden q.machine := fun i name held =>
  move.get?_eq (old i name held) (fun bound => unassigned i name bound held) (undefined i name held)

/-- A process that gives what is hidden no occasion to matter. -/
structure Guarded (hidden : ScopeId → String → Prop) (p : Process) : Prop where
  balanced : p.Balanced p.machine.stack
  old : ∀ i name, hidden i name → i.index < p.machine.store.scopes.size
  shelters : ∀ q, Leads p q → q.machine.Shelters hidden

/-- Two processes that began in step and still are, with what is hidden as it was. -/
structure Linked (hidden : ScopeId → String → Prop) (p q p' q' : Process) : Prop where
  first : Leads p p'
  second : Leads q q'
  alike : p'.Alike hidden q'
  firstHolds : p.machine.HoldsOnto hidden p'.machine
  secondHolds : q.machine.HoldsOnto hidden q'.machine

variable {p' q' : Process}

theorem Linked.refl (alike : p.Alike hidden q) : Linked hidden p q p q :=
  ⟨.refl, .refl, alike, fun _ _ _ => rfl, fun _ _ _ => rfl⟩

theorem Linked.next (guarded : p.Guarded hidden) (linked : Linked hidden p q p' q') :
    Option.Rel (Linked hidden p q) p'.next q'.next := by
  have machines := linked.alike.machine
  have shelters := guarded.shelters p' linked.first
  have balanced := guarded.balanced.leads linked.first
  have balancedSecond : q'.Balanced p.machine.stack := by
    unfold Balanced Process.regions
    rw [linked.alike.frames, machines.stack]
    exact balanced
  have grown := (linked.first.grows guarded.balanced).scopes
  have old : ∀ i name, hidden i name → i.index < p'.machine.store.scopes.size :=
    fun i name held => Nat.lt_of_lt_of_le (guarded.old i name held) grown
  have step := linked.alike.next fun name _ => shelters.reveals name
  refine rel_imp step fun p'' q'' taken other alike => ?_
  refine ⟨linked.first.tail taken, linked.second.tail other, alike, linked.firstHolds.trans ?_,
    linked.secondHolds.trans ?_⟩
  · refine (balanced.move taken).holdsOnto old (fun i name => ?_) fun i name => shelters.head?_ne
    exact (machines.binder? (shelters.reveals name)).2 i
  · refine (balancedSecond.move other).holdsOnto (fun i name held => ?_) (fun i name => ?_)
      fun i name held => ?_
    · rw [machines.store.places]
      exact old i name held
    · rw [(machines.binder? (shelters.reveals name)).1]
      exact (machines.binder? (shelters.reveals name)).2 i
    · rw [machines.stack]
      exact shelters.head?_ne held

/-- Of two processes that begin in step the one comes to a result where the other does. -/
theorem Guarded.linked (guarded : p.Guarded hidden) (alike : p.Alike hidden q) :
    (∀ {p'}, Leads p p' → ∃ q', Linked hidden p q p' q') ∧
      ∀ {q'}, Leads q q' → ∃ p', Linked hidden p q p' q' := by
  constructor
  · intro p' leads
    obtain ⟨q', _, linked⟩ := leads.lockstep (Linked.refl alike) fun linked => linked.next guarded
    exact ⟨q', linked⟩
  · intro q' leads
    have back : ∀ {q' p'}, Linked hidden p q p' q' →
        Option.Rel (fun q' p' => Linked hidden p q p' q') q'.next p'.next :=
      fun linked => rel_swap (linked.next guarded)
    obtain ⟨p', _, linked⟩ := leads.lockstep (R := fun q' p' => Linked hidden p q p' q')
      (Linked.refl alike) back
    exact ⟨p', linked⟩

end Process

end CellLisp
