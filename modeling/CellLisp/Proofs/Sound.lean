import CellLisp.Proofs.Change

/-!
# Sound stores

A store is sound if nothing in it refers to a cell, a lambda or a scope that it never gave out, and
a machine is if its stack does not either. Every operation keeps a sound store sound, as long as
the values that it is given are known.
-/

namespace CellLisp

/-- The store gave out what the value refers to. -/
def Value.KnownTo (s : Store) : Value → Prop
  | .cons c => c.index < s.cells.size
  | .lambda l => l.index < s.lambdas.size
  | _ => True

namespace Store

structure Sound (s : Store) : Prop where
  car : ∀ c, (s.car c).KnownTo s
  cdr : ∀ c, (s.cdr c).KnownTo s
  body : ∀ l, (s.lambda l).body.KnownTo s
  owned : ∀ l, l.index < s.lambdas.size → (s.lambda l).scope.index < s.scopes.size
  bound : ∀ i name v, (s.scope i).get? name = some v → v.KnownTo s

/-- Every place of one store is a place of the other. -/
structure Within (s t : Store) : Prop where
  cells : s.cells.size ≤ t.cells.size
  lambdas : s.lambdas.size ≤ t.lambdas.size
  scopes : s.scopes.size ≤ t.scopes.size

theorem Within.refl (s : Store) : s.Within s := ⟨Nat.le_refl _, Nat.le_refl _, Nat.le_refl _⟩

theorem Within.trans {s t u : Store} (first : s.Within t) (second : t.Within u) : s.Within u :=
  ⟨Nat.le_trans first.cells second.cells, Nat.le_trans first.lambdas second.lambdas,
    Nat.le_trans first.scopes second.scopes⟩

end Store

theorem Value.KnownTo.mono {s t : Store} {v : Value} (known : v.KnownTo s)
    (within : s.Within t) : v.KnownTo t := by
  cases v with
  | cons c => exact Nat.lt_of_lt_of_le known within.cells
  | lambda l => exact Nat.lt_of_lt_of_le known within.lambdas
  | number | string | boolean | nil => trivial

structure Machine.Sound (m : Machine) : Prop where
  store : m.store.Sound
  stack : ∀ i ∈ m.stack, i.index < m.store.scopes.size

namespace Store

variable {s : Store}

/-! Each operation. -/

theorem within_cons (s : Store) (a d : Value) : s.Within (s.cons a d).2 :=
  ⟨by simp, Nat.le_refl _, Nat.le_refl _⟩

theorem within_setCar (s : Store) (c : CellId) (v : Value) : s.Within (s.setCar c v) :=
  ⟨by simp, Nat.le_refl _, Nat.le_refl _⟩

theorem within_setCdr (s : Store) (c : CellId) (v : Value) : s.Within (s.setCdr c v) :=
  ⟨by simp, Nat.le_refl _, Nat.le_refl _⟩

theorem within_bind (s : Store) (i : ScopeId) (name : String) (v : Value) :
    s.Within (s.bind i name v) := ⟨Nat.le_refl _, Nat.le_refl _, by simp⟩

theorem within_setLambdaScope (s : Store) (l : LambdaId) (i : ScopeId) :
    s.Within (s.setLambdaScope l i) := ⟨Nat.le_refl _, by simp, Nat.le_refl _⟩

theorem within_newScope (s : Store) (content : Scope) : s.Within (s.newScope content).2 :=
  ⟨Nat.le_refl _, Nat.le_refl _, by simp⟩

theorem within_newLambda (s : Store) (f : Lambda) : s.Within (s.newLambda f).2 :=
  ⟨Nat.le_refl _, by simp, Nat.le_refl _⟩

theorem within_place (s : Store) (d : Datum) : s.Within (s.place d).2 := by
  induction d generalizing s with
  | pair a d iha ihd => exact ((iha s).trans (ihd _)).trans (within_cons _ _ _)
  | number | string | boolean | nil => exact .refl s

theorem Sound.cons (sound : s.Sound) {a d : Value} (head : a.KnownTo s) (tail : d.KnownTo s) :
    (s.cons a d).2.Sound where
  car c := by
    unfold Store.car
    rw [cell_cons]
    split
    · exact head.mono (within_cons s a d)
    · exact (sound.car c).mono (within_cons s a d)
  cdr c := by
    unfold Store.cdr
    rw [cell_cons]
    split
    · exact tail.mono (within_cons s a d)
    · exact (sound.cdr c).mono (within_cons s a d)
  body l := (sound.body l).mono (within_cons s a d)
  owned := sound.owned
  bound i name v found := (sound.bound i name v found).mono (within_cons s a d)

theorem known_cons (s : Store) (a d : Value) : (s.cons a d).1.KnownTo (s.cons a d).2 := by
  change s.cells.size < (s.cons a d).2.cells.size
  simp

theorem Sound.place (sound : s.Sound) (d : Datum) :
    (s.place d).2.Sound ∧ (s.place d).1.KnownTo (s.place d).2 := by
  induction d generalizing s with
  | pair a d iha ihd =>
    obtain ⟨soundCar, knownCar⟩ := iha sound
    obtain ⟨soundCdr, knownCdr⟩ := ihd soundCar
    exact ⟨soundCdr.cons (knownCar.mono (within_place _ _)) knownCdr, known_cons _ _ _⟩
  | number | string | boolean | nil => exact ⟨sound, trivial⟩

theorem Sound.setCar (sound : s.Sound) (c : CellId) {v : Value} (known : v.KnownTo s) :
    (s.setCar c v).Sound where
  car e := by
    unfold Store.car
    rw [cell_setCar]
    split
    · exact known.mono (within_setCar s c v)
    · exact (sound.car e).mono (within_setCar s c v)
  cdr e := by
    unfold Store.cdr
    rw [cell_setCar]
    split
    · exact (sound.cdr e).mono (within_setCar s c v)
    · exact (sound.cdr e).mono (within_setCar s c v)
  body l := (sound.body l).mono (within_setCar s c v)
  owned := sound.owned
  bound i name w found := (sound.bound i name w found).mono (within_setCar s c v)

theorem Sound.setCdr (sound : s.Sound) (c : CellId) {v : Value} (known : v.KnownTo s) :
    (s.setCdr c v).Sound where
  car e := by
    unfold Store.car
    rw [cell_setCdr]
    split
    · exact (sound.car e).mono (within_setCdr s c v)
    · exact (sound.car e).mono (within_setCdr s c v)
  cdr e := by
    unfold Store.cdr
    rw [cell_setCdr]
    split
    · exact known.mono (within_setCdr s c v)
    · exact (sound.cdr e).mono (within_setCdr s c v)
  body l := (sound.body l).mono (within_setCdr s c v)
  owned := sound.owned
  bound i name w found := (sound.bound i name w found).mono (within_setCdr s c v)

theorem Sound.bind (sound : s.Sound) (i : ScopeId) (name : String) {v : Value}
    (known : v.KnownTo s) : (s.bind i name v).Sound where
  car c := (sound.car c).mono (within_bind s i name v)
  cdr c := (sound.cdr c).mono (within_bind s i name v)
  body l := (sound.body l).mono (within_bind s i name v)
  owned l inside := by
    rw [size_scopes_bind]
    exact sound.owned l inside
  bound j other w found := by
    rw [scope_bind] at found
    split at found
    · rw [Scope.get?_insert] at found
      split at found
      · cases found
        exact known.mono (within_bind s i name v)
      · exact (sound.bound j other w found).mono (within_bind s i name v)
    · exact (sound.bound j other w found).mono (within_bind s i name v)

theorem Sound.setLambdaScope (sound : s.Sound) (l : LambdaId) {i : ScopeId}
    (inside : i.index < s.scopes.size) : (s.setLambdaScope l i).Sound where
  car c := (sound.car c).mono (within_setLambdaScope s l i)
  cdr c := (sound.cdr c).mono (within_setLambdaScope s l i)
  body k := by
    rw [lambda_setLambdaScope]
    split
    · exact (sound.body k).mono (within_setLambdaScope s l i)
    · exact (sound.body k).mono (within_setLambdaScope s l i)
  owned k valid := by
    rw [size_lambdas_setLambdaScope] at valid
    rw [lambda_setLambdaScope]
    split
    · exact inside
    · exact sound.owned k valid
  bound j name v found := (sound.bound j name v found).mono (within_setLambdaScope s l i)

theorem Sound.newScope (sound : s.Sound) {content : Scope}
    (known : ∀ name v, content.get? name = some v → v.KnownTo s) :
    (s.newScope content).2.Sound where
  car c := (sound.car c).mono (within_newScope s content)
  cdr c := (sound.cdr c).mono (within_newScope s content)
  body l := (sound.body l).mono (within_newScope s content)
  owned l valid := Nat.lt_of_lt_of_le (sound.owned l valid) (within_newScope s content).scopes
  bound j name v found := by
    rw [scope_newScope] at found
    split at found
    · exact (known name v found).mono (within_newScope s content)
    · exact (sound.bound j name v found).mono (within_newScope s content)

theorem Sound.newLambda (sound : s.Sound) {f : Lambda} (body : f.body.KnownTo s)
    (inside : f.scope.index < s.scopes.size) : (s.newLambda f).2.Sound where
  car c := (sound.car c).mono (within_newLambda s f)
  cdr c := (sound.cdr c).mono (within_newLambda s f)
  body l := by
    rw [lambda_newLambda]
    split
    · exact body.mono (within_newLambda s f)
    · exact (sound.body l).mono (within_newLambda s f)
  owned l valid := by
    rw [size_lambdas_newLambda] at valid
    rw [lambda_newLambda]
    split
    · exact inside
    · exact sound.owned l (by omega)
  bound j name v found := (sound.bound j name v found).mono (within_newLambda s f)

theorem Sound.afterHead? (sound : s.Sound) {name : String} {v rest : Value}
    (found : s.afterHead? name v = some rest) : rest.KnownTo s := by
  cases v with
  | cons c =>
    simp only [Store.afterHead?, Option.ite_none_right_eq_some, Option.some.injEq] at found
    obtain ⟨_, rfl⟩ := found
    exact sound.cdr c
  | number | string | boolean | nil | lambda => cases found

theorem sound_empty : Store.empty.Sound where
  car _ := trivial
  cdr _ := trivial
  body _ := trivial
  owned _ inside := nomatch inside
  bound _ _ _ found := nomatch found

end Store

theorem Machine.sound_initial : Machine.initial.Sound where
  store := Store.sound_empty.newScope nofun
  stack i mem := by
    cases List.mem_singleton.mp mem
    exact Nat.zero_lt_one

/-! What arguments bind. -/

/-- What holds of the empty scope, and after each binding of a parameter, holds of the scope of a
call. -/
theorem Scope.ofArguments_induction {P : Scope → Prop} {params : List String} {args : List Value}
    (empty : P .empty) (insert : ∀ s, P s → ∀ b ∈ params.zip args, P (s.insert b.1 b.2)) :
    P (ofArguments params args) := List.foldlRecOn _ _ empty insert

theorem Scope.mem_of_get?_ofArguments {params : List String} {args : List Value} {name : String}
    {v : Value} (found : (ofArguments params args).get? name = some v) : v ∈ args := by
  revert found
  refine ofArguments_induction (P := fun s => s.get? name = some v → v ∈ args) nofun ?_
  intro s held b mem found
  rw [get?_insert] at found
  split at found
  · cases found
    exact (List.of_mem_zip mem).2
  · exact held found

end CellLisp
