import CellLisp.Proofs.Growth
import Mathlib.Logic.Function.Basic

/-!
# Every lambda has a scope of its own

A scope is either shared, as the global scope and those of blocks are, or it holds the arguments of
a call that is not finished, or it belongs to one lambda. A scope changes its role once at most:
the arguments of a call become the scope of the lambda that the call returns. A lambda may come to
own many scopes that way, but never one that belongs to another.
-/

namespace CellLisp

/-- No two lambdas have the same scope. -/
def Store.Apart (s : Store) : Prop :=
  ∀ k l, k.index < s.lambdas.size → l.index < s.lambdas.size → k ≠ l →
    (s.lambda k).scope ≠ (s.lambda l).scope

inductive Role where
  | shared
  | arguments
  | kept (l : LambdaId)
  deriving DecidableEq

/-- Where one machine follows another, arguments may have come into the possession of a lambda. -/
def Role.Becomes (before after : Role) : Prop :=
  after = before ∨ before = .arguments ∧ ∃ l, after = .kept l

theorem Role.Becomes.trans {a b c : Role} (first : a.Becomes b) (second : b.Becomes c) :
    a.Becomes c := by
  rcases first with rfl | ⟨rfl, l, rfl⟩
  · exact second
  · rcases second with rfl | ⟨impossible, _⟩
    · exact .inr ⟨rfl, l, rfl⟩
    · cases impossible

/-- The roles that a region gives to its scopes. -/
def Region.Fits (role : ScopeId → Role) : Region → Prop
  | block inner => role inner = .shared
  | call callee locals owned => role locals = .arguments ∧ role owned = .kept callee

namespace Process

/-- The roles of the scopes are as they should be at this point. -/
structure Owned (role : ScopeId → Role) (p : Process) : Prop where
  kept : ∀ l, l.index < p.machine.store.lambdas.size →
    role (p.machine.store.lambda l).scope = .kept l
  entered : ∀ r ∈ p.regions, r.Fits role

variable {role : ScopeId → Role} {p q : Process} {base : List ScopeId}

/-- The scopes that a process has entered are in the store. -/
theorem Sound.entered_lt (sound : p.Sound) (balanced : p.Balanced base) {r : Region}
    (entered : r ∈ p.regions) {i : ScopeId} (mem : i ∈ r.scopes) :
    i.index < p.machine.store.scopes.size := by
  apply sound.grounded.machine.stack i
  rw [show p.machine.stack = _ from balanced]
  exact List.mem_append_left base (List.mem_flatMap.mpr ⟨r, entered, mem⟩)

end Process

namespace Region

variable {role : ScopeId → Role}

theorem Fits.update {r : Region} (fits : r.Fits role) {i : ScopeId} (apart : i ∉ r.scopes)
    (new : Role) : r.Fits (Function.update role i new) := by
  cases r with
  | block inner =>
    have other : inner ≠ i := fun same => apart (by simp [scopes, same])
    rwa [Fits, Function.update_of_ne other]
  | call callee locals owned =>
    have other : locals ≠ i := fun same => apart (by simp [scopes, same])
    have another : owned ≠ i := fun same => apart (by simp [scopes, same])
    rwa [Fits, Function.update_of_ne other, Function.update_of_ne another]

/-- Only the own scope of a call holds arguments. -/
theorem Fits.not_mem {r : Region} (fits : r.Fits role) {i : ScopeId}
    (arguments : role i = .arguments) (apart : r.own ≠ i) : i ∉ r.scopes := by
  intro mem
  cases r with
  | block inner => exact apart (List.mem_singleton.mp mem).symm
  | call callee locals owned =>
    rcases List.mem_cons.mp mem with same | mem
    · exact apart same.symm
    · rw [List.mem_singleton.mp mem, fits.2] at arguments
      cases arguments

/-- The role of the scope that is made for a region. -/
def ownRole : Region → Role
  | block _ => .shared
  | call .. => .arguments

end Region

/-- The role of the arguments of a call once it ends with a value. -/
def Value.argumentsRole (v : Value) : Role :=
  match v.lambda? with
  | some l => .kept l
  | none => .arguments

theorem Value.becomes_argumentsRole (v : Value) : Role.arguments.Becomes v.argumentsRole := by
  unfold argumentsRole
  cases v.lambda? with
  | some l => exact .inr ⟨rfl, l, rfl⟩
  | none => exact .inl rfl

theorem Role.becomes_update {role : ScopeId → Role} {i : ScopeId} {new : Role}
    (becomes : (role i).Becomes new) (j : ScopeId) :
    (role j).Becomes (Function.update role i new j) := by
  by_cases same : j = i
  · subst same
    rwa [Function.update_self]
  · rw [Function.update_of_ne same]
    exact .inl rfl

theorem Role.becomes_fresh (role : ScopeId → Role) {size : Nat} (new : Role) (i : ScopeId)
    (old : i.index < size) : (role i).Becomes (Function.update role ⟨size⟩ new i) := by
  have different : i ≠ ⟨size⟩ := by
    rintro rfl
    exact Nat.lt_irrefl _ old
  rw [Function.update_of_ne different]
  exact .inl rfl

namespace Process

variable {role : ScopeId → Role} {p q : Process} {base : List ScopeId}

/-- Where neither the lambdas nor the regions change, the roles may stay. -/
theorem Owned.same (owned : p.Owned role)
    (lambdas : q.machine.store.lambdas = p.machine.store.lambdas)
    (regions : q.regions = p.regions) : q.Owned role where
  kept l valid := by
    rw [lambdas] at valid
    rw [Store.lambda_congr lambdas]
    exact owned.kept l valid
  entered r mem := by
    rw [regions] at mem
    exact owned.entered r mem

variable (owned : p.Owned role) (sound : p.Sound) (balanced : p.Balanced base)

include owned sound balanced

/-- A new scope may get any role. -/
theorem Owned.update_fresh (new : Role) :
    p.Owned (Function.update role ⟨p.machine.store.scopes.size⟩ new) where
  kept l valid := by
    have old := sound.grounded.machine.store.owned l valid
    rw [Function.update_of_ne fun same => by rw [same] at old; exact Nat.lt_irrefl _ old]
    exact owned.kept l valid
  entered r mem := by
    refine (owned.entered r mem).update (fun fresh => ?_) new
    exact Nat.lt_irrefl _ (sound.entered_lt balanced mem fresh)

theorem Owned.change (regions : q.regions = p.regions) (change : p.machine.Change q.machine) :
    ∃ after : ScopeId → Role,
      (∀ i : ScopeId, i.index < p.machine.store.scopes.size → (role i).Becomes (after i)) ∧
      q.Owned after := by
  rcases change.lambdas_eq with lambdas | ⟨f, fresh, store⟩
  · exact ⟨role, fun _ _ => .inl rfl, owned.same lambdas regions⟩
  · -- The new scope belongs to the new lambda.
    let l : LambdaId := ⟨p.machine.store.lambdas.size⟩
    have updated := owned.update_fresh sound balanced (.kept l)
    refine ⟨_, Role.becomes_fresh role (.kept l), fun k valid => ?_, ?_⟩
    · rw [store] at valid ⊢
      rw [Store.lambda_newLambda, Store.lambdas_newScope]
      by_cases new : k.index = p.machine.store.lambdas.size
      · rw [if_pos new, fresh, Function.update_self]
        exact congrArg Role.kept (congrArg LambdaId.mk new.symm)
      · rw [if_neg new]
        apply updated.kept k
        rw [Store.size_lambdas_newLambda, Store.lambdas_newScope] at valid
        exact Nat.lt_of_le_of_ne (Nat.le_of_lt_succ valid) new
    · rw [regions]
      exact updated.entered

theorem Owned.enter {r : Region} {content : Scope}
    (opens : r.Opens p.focus p.machine.store content) (regions : q.regions = r :: p.regions)
    (fresh : r.own = ⟨p.machine.store.scopes.size⟩)
    (store : q.machine.store = (p.machine.store.newScope content).2) :
    ∃ after : ScopeId → Role,
      (∀ i : ScopeId, i.index < p.machine.store.scopes.size → (role i).Becomes (after i)) ∧
      q.Owned after := by
  have updated := owned.update_fresh sound balanced r.ownRole
  refine ⟨_, Role.becomes_fresh role r.ownRole, fun k valid => ?_, ?_⟩
  · rw [store] at valid ⊢
    exact updated.kept k valid
  · rw [regions]
    refine List.forall_mem_cons.mpr ⟨?_, updated.entered⟩
    cases r with
    | block inner =>
      rw [show inner = _ from fresh]
      exact Function.update_self _ _ _
    | call l locals below =>
      obtain ⟨args, focus, arity, rfl, _⟩ := opens
      have called := sound.focus
      rw [focus] at called
      rw [show locals = _ from fresh]
      exact ⟨Function.update_self _ _ _, updated.kept l called.1⟩

omit sound balanced

/-- The called lambda takes back a scope that is its own, and the lambda that is returned takes the
arguments, which are nobody's. -/
theorem Owned.leave {since : Nat} (dated : p.Dated since) {r : Region}
    {result : Except Fault Value} (regions : p.regions = r :: q.regions)
    (store : q.machine.store = r.settle result p.machine.store) :
    ∃ after : ScopeId → Role, (∀ i, (role i).Becomes (after i)) ∧ q.Owned after := by
  obtain ⟨fits, entered⟩ := List.forall_mem_cons.mp (regions ▸ owned.entered)
  have younger := dated.younger
  rw [regions, List.pairwise_cons] at younger
  -- Unless a call is left with a value, no lambda is given a scope.
  have idle (same : q.machine.store = p.machine.store) :
      ∃ after : ScopeId → Role, (∀ i, (role i).Becomes (after i)) ∧ q.Owned after :=
    ⟨role, fun _ => .inl rfl, by rw [same]; exact owned.kept, entered⟩
  cases r with
  | block inner => exact idle store
  | call callee locals below =>
    cases result with
    | error f => exact idle store
    | ok v =>
      obtain ⟨arguments, own⟩ := fits
      refine ⟨Function.update role locals v.argumentsRole, ?_, fun k valid => ?_,
        fun outer mem => ?_⟩
      · exact Role.becomes_update (by rw [arguments]; exact v.becomes_argumentsRole)
      · have old : k.index < p.machine.store.lambdas.size := by
          rw [store, Region.settle, Store.size_lambdas_setLambdaScope, Store.lambdas_adopt] at valid
          exact valid
        have kept := owned.kept k old
        rw [store, Region.scope_settle old]
        split
        · next called =>
          subst called
          rw [Function.update_of_ne, own]
          rintro rfl
          rw [own] at arguments
          cases arguments
        · split
          · next returned => rw [Function.update_self, Value.argumentsRole, returned]
          · rw [Function.update_of_ne, kept]
            intro same
            rw [same, arguments] at kept
            cases kept
      · refine (entered outer mem).update ((entered outer mem).not_mem arguments fun same => ?_) _
        have older := younger.1 outer mem
        rw [same] at older
        exact Nat.lt_irrefl _ older

include sound balanced

theorem Owned.move {since : Nat} (dated : p.Dated since) (move : Move p q) :
    ∃ after : ScopeId → Role,
      (∀ i : ScopeId, i.index < p.machine.store.scopes.size → (role i).Becomes (after i)) ∧
      q.Owned after := by
  cases move with
  | change regions change => exact owned.change sound balanced regions change
  | enter r content opens regions fresh store stack =>
    exact owned.enter sound balanced opens regions fresh store
  | leave r result before after frames store stack =>
    obtain ⟨after, becomes, later⟩ := owned.leave dated (regions_of_frames frames) store
    exact ⟨after, fun i _ => becomes i, later⟩

end Process

namespace Session

variable {p q : Process} {m : Machine}

theorem Course.owned {role : ScopeId → Role} {base : List ScopeId} (course : Course p q)
    (owned : p.Owned role) (sound : p.Sound) (balanced : p.Balanced base) (dated : p.Dated 0) :
    ∃ after : ScopeId → Role,
      (∀ i : ScopeId, i.index < p.machine.store.scopes.size → (role i).Becomes (after i)) ∧
      q.Owned after := by
  induction course with
  | refl => exact ⟨role, fun _ _ => .inl rfl, owned⟩
  | tail before turn ih =>
    obtain ⟨between, becomes, there⟩ := ih
    have soundThere := Course.sound before sound
    have balancedThere := Course.balanced before balanced
    have datedThere := Course.dated before balanced dated (Nat.zero_le _)
    obtain ⟨after, becomesNext, later⟩ :=
      there.move soundThere balancedThere datedThere (turn.move balancedThere)
    refine ⟨after, fun i old => (becomes i old).trans (becomesNext i ?_), later⟩
    exact Nat.lt_of_lt_of_le old (Course.grows before balanced).scopes

theorem owned_start : start.Owned fun _ => .shared := ⟨nofun, nofun⟩

/-- A point of a session has its roles, in which the global scope is shared. -/
theorem owned_of_course (course : Course start p) :
    ∃ role : ScopeId → Role, role globalScope = .shared ∧ p.Owned role := by
  obtain ⟨role, becomes, owned⟩ := course.owned owned_start sound_start balanced_start dated_start
  refine ⟨role, ?_, owned⟩
  rcases becomes globalScope Nat.zero_lt_one with same | ⟨impossible, _⟩
  · exact same
  · cases impossible

end Session

namespace Process

variable {role : ScopeId → Role} {p : Process}

theorem Owned.scope_ne_shared (owned : p.Owned role) {l : LambdaId}
    (valid : l.index < p.machine.store.lambdas.size) {i : ScopeId} (other : ∀ k, role i ≠ .kept k) :
    (p.machine.store.lambda l).scope ≠ i := by
  rintro rfl
  exact other l (owned.kept l valid)

theorem Owned.lambdas_apart (owned : p.Owned role) : p.machine.store.Apart := by
  intro k l validK validL different same
  have kept := owned.kept k validK
  rw [same, owned.kept l validL] at kept
  cases kept
  exact different rfl

end Process

/-- In every state that runs lead to, and at every point inside of evaluations, each lambda has a
scope of its own: no other lambda has it, and it is neither the global scope, nor that of a block
entered now or earlier, nor that of the arguments of a call that is not finished. -/
theorem lambdas_own_their_scopes :
    (∀ m, Session.Reached m → m.store.Apart ∧
      ∀ l, l.index < m.store.lambdas.size → (m.store.lambda l).scope ≠ Session.globalScope) ∧
    ∀ p q, Session.Course Session.start p → Session.Course p q → q.machine.store.Apart ∧
      ∀ l, l.index < q.machine.store.lambdas.size →
        (q.machine.store.lambda l).scope ≠ Session.globalScope ∧
        (∀ inner, Region.block inner ∈ p.regions → (q.machine.store.lambda l).scope ≠ inner) ∧
        ∀ callee locals owned, Region.call callee locals owned ∈ q.regions →
          (q.machine.store.lambda l).scope ≠ locals := by
  constructor
  · intro m reached
    obtain ⟨final, course⟩ := reached.course
    obtain ⟨role, shared, owned⟩ := Session.owned_of_course course
    refine ⟨owned.lambdas_apart, fun l valid => owned.scope_ne_shared valid ?_⟩
    rw [shared]
    nofun
  · intro p q before after
    obtain ⟨role, shared, owned⟩ := Session.owned_of_course before
    have sound := before.sound Session.sound_start
    have balanced := before.balanced Session.balanced_start
    have dated := before.dated Session.balanced_start Session.dated_start (Nat.zero_le _)
    obtain ⟨later, becomes, ownedLater⟩ := after.owned owned sound balanced dated
    -- A shared scope stays shared.
    have stays : ∀ i : ScopeId, i.index < p.machine.store.scopes.size → role i = .shared →
        ∀ k, later i ≠ .kept k := by
      intro i old sharedThen k kept
      rcases becomes i old with same | ⟨impossible, _⟩
      · rw [same, sharedThen] at kept
        cases kept
      · rw [sharedThen] at impossible
        cases impossible
    refine ⟨ownedLater.lambdas_apart, fun l valid => ⟨?_, ?_, ?_⟩⟩
    · refine ownedLater.scope_ne_shared valid (stays _ ?_ shared)
      exact (before.grows Session.balanced_start).scopes
    · intro inner entered
      refine ownedLater.scope_ne_shared valid (stays inner ?_ (owned.entered _ entered))
      exact sound.entered_lt balanced entered List.mem_cons_self
    · intro callee locals below pending
      apply ownedLater.scope_ne_shared valid
      intro k kept
      rw [(ownedLater.entered _ pending).1] at kept
      cases kept

def twoLambdasText : String := "(def f (lambda (x) x)) (def g (lambda (y) (f y)))"

def callInBlock : Node := .group [.name "block", .group [.name "g", .name "true"]]

set_option maxRecDepth 4000 in
theorem lambdas_own_their_scopes_in_nested_calls : ∃ m q, Session.Reached m ∧
    Session.Course Session.start q ∧
    q.regions = [.call ⟨0⟩ ⟨5⟩ ⟨1⟩, .call ⟨1⟩ ⟨4⟩ ⟨2⟩, .block ⟨3⟩] ∧
    (m.store.lambda ⟨0⟩).scope ≠ (m.store.lambda ⟨1⟩).scope ∧
    (m.store.lambda ⟨0⟩).scope ≠ Session.globalScope ∧
    (q.machine.store.lambda ⟨0⟩).scope ≠ (q.machine.store.lambda ⟨1⟩).scope ∧
    (q.machine.store.lambda ⟨0⟩).scope ≠ Session.globalScope ∧
    (q.machine.store.lambda ⟨0⟩).scope ≠ ⟨3⟩ ∧ (q.machine.store.lambda ⟨0⟩).scope ≠ ⟨4⟩ := by
  obtain ⟨m, left, facts⟩ := (Option.any_eq_true _ _).mp (by decide +kernel :
    (Session.run 9 twoLambdasText Machine.initial).machine?.any (fun m =>
      decide (1 < m.store.lambdas.size) && match Session.readForm callInBlock m with
        | .value form n => (Process.after 16 ⟨.code form, [], n⟩).any fun q => decide (
          1 < q.machine.store.lambdas.size ∧
          q.regions = [.call ⟨0⟩ ⟨5⟩ ⟨1⟩, .call ⟨1⟩ ⟨4⟩ ⟨2⟩, .block ⟨3⟩])
        | _ => false) = true)
  obtain ⟨valid, inside⟩ := Bool.and_eq_true_iff.mp facts
  have reached : Session.Reached m := .run .initial 9 _ left
  obtain ⟨final, course⟩ := reached.course
  split at inside
  · next form n placed =>
    obtain ⟨q, found, points⟩ := (Option.any_eq_true _ _).mp inside
    obtain ⟨validThere, regions⟩ := of_decide_eq_true points
    have later : Session.Course ⟨.code form, [], n⟩ q :=
      Session.course_of_leads (Process.leads_of_after found)
    have visited : Session.Course Session.start q :=
      (course.tail (.read placed)).trans later
    obtain ⟨apart, notGlobal⟩ := lambdas_own_their_scopes.1 m reached
    obtain ⟨apartThere, hidden⟩ := lambdas_own_their_scopes.2 q q visited .refl
    have here := of_decide_eq_true valid
    obtain ⟨global, blocks, calls⟩ := hidden ⟨0⟩ (Nat.lt_of_succ_lt validThere)
    refine ⟨m, q, reached, visited, regions, ?_, ?_, ?_, global, blocks _ ?_, calls ⟨1⟩ _ ⟨2⟩ ?_⟩
    · exact apart ⟨0⟩ ⟨1⟩ (Nat.lt_of_succ_lt here) here (by decide)
    · exact notGlobal ⟨0⟩ (Nat.lt_of_succ_lt here)
    · exact apartThere ⟨0⟩ ⟨1⟩ (Nat.lt_of_succ_lt validThere) validThere (by decide)
    · rw [regions]
      simp
    · rw [regions]
      simp
  · cases inside

end CellLisp
