import CellLisp.Proofs.Process.Discipline

/-!
# Every point of an evaluation is sound

Whatever a process holds, in its focus, in what waits and on its machine, refers to places that the
store gave out. This is a discipline that makes no difference between code and data.
-/

namespace CellLisp

variable {s t : Store}

def Discipline.sound : Discipline where
  changing := True
  store := Store.Sound
  allows s _ v := v.KnownTo s
  scope s i := i.index < s.scopes.size
  later := Store.Within
  refl := Store.Within.refl
  trans := Store.Within.trans
  allows_later within known := known.mono within
  scope_later within inside := Nat.lt_of_lt_of_le inside within.scopes
  atom {_ v} atomic := by cases v <;> trivial
  lambda := id
  car sound _ := sound.car _
  cdr sound _ := sound.cdr _
  bound sound found := sound.bound _ _ _ found
  body l sound := sound.body l
  owned sound valid := sound.owned _ valid
  cons sound head tail := ⟨sound.cons head tail, Store.within_cons _ _ _, Store.known_cons _ _ _⟩
  setCar _ sound _ known := ⟨sound.setCar _ known, Store.within_setCar _ _ _⟩
  setCdr _ sound _ known := ⟨sound.setCdr _ known, Store.within_setCdr _ _ _⟩
  bind i name _ sound known := ⟨sound.bind i name known, Store.within_bind _ _ _ _⟩
  newScope sound known := ⟨sound.newScope known, Store.within_newScope _ _, by simp⟩
  newLambda {s _} sound body inside :=
    ⟨sound.newLambda body inside, Store.within_newLambda _ _, by simp [Value.KnownTo]⟩
  setLambdaScope l _ sound inside :=
    ⟨sound.setLambdaScope l inside, Store.within_setLambdaScope _ _ _⟩

def Use.KnownTo (s : Store) : Use → Prop
  | call head => head.KnownTo s
  | _ => True

def Frame.KnownTo (s : Store) : Frame → Prop
  | argument use ready rest =>
    use.KnownTo s ∧ (∀ v ∈ ready, v.KnownTo s) ∧ ∀ v ∈ rest, v.KnownTo s
  | callee args => ∀ v ∈ args, v.KnownTo s
  | statement rest => ∀ v ∈ rest, v.KnownTo s
  | branch yes no => yes.KnownTo s ∧ no.KnownTo s
  | _ => True

def Focus.KnownTo (s : Store) : Focus → Prop
  | code v => v.KnownTo s
  | supplied use values => use.KnownTo s ∧ ∀ v ∈ values, v.KnownTo s
  | call l args => (Value.lambda l).KnownTo s ∧ ∀ v ∈ args, v.KnownTo s
  | body v => v.KnownTo s
  | done result => ∀ v, result = .ok v → v.KnownTo s

theorem Frame.allowed_sound_iff {frame : Frame} :
    frame.Allowed .sound s ↔ frame.KnownTo s := by
  cases frame with
  | argument use => cases use <;> exact Iff.rfl
  | callee | statement | branch | assignment | definition | region => exact Iff.rfl

theorem Focus.allowed_sound_iff {focus : Focus} :
    focus.Allowed .sound s ↔ focus.KnownTo s := by
  cases focus with
  | supplied use => cases use <;> exact Iff.rfl
  | code | call | body | done => exact Iff.rfl

theorem Machine.on_sound_iff {m : Machine} : Discipline.sound.On m ↔ m.Sound :=
  ⟨fun ⟨store, stack⟩ => ⟨store, stack⟩, fun ⟨store, stack⟩ => ⟨store, stack⟩⟩

theorem Eval.sound_of_items {m n : Machine} {v : Value} {vs : List Value} (sound : m.Sound)
    (known : v.KnownTo m.store) (read : items v m = .value vs n) :
    n.Sound ∧ ∀ w ∈ vs, w.KnownTo n.store := by
  have items : Discipline.sound.Secures (items v) m fun vs s => ∀ w ∈ vs, w.KnownTo s :=
    Discipline.secures_items (r := .datum) (Machine.on_sound_iff.mpr sound) (fun _ => rfl) known
  unfold Discipline.Secures at items
  rw [read] at items
  exact ⟨Machine.on_sound_iff.mp items.1, items.2.2⟩

namespace Process

variable {frames : List Frame} {m : Machine} {p q : Process}

/-- The machine is sound and knows what waits on it. -/
structure Grounded (frames : List Frame) (m : Machine) : Prop where
  machine : m.Sound
  frames : ∀ frame ∈ frames, frame.KnownTo m.store

structure Sound (p : Process) : Prop where
  grounded : Grounded p.frames p.machine
  focus : p.focus.KnownTo p.machine.store

theorem Grounded.tail {frame : Frame} (grounded : Grounded (frame :: frames) m) :
    Grounded frames m :=
  ⟨grounded.machine, (List.forall_mem_cons.mp grounded.frames).2⟩

theorem governs_sound_iff : Discipline.sound.Governs p ↔ p.Sound := by
  constructor
  · rintro ⟨⟨machine, frames⟩, focus⟩
    exact ⟨⟨Machine.on_sound_iff.mp machine, fun frame mem =>
      Frame.allowed_sound_iff.mp (frames frame mem)⟩, Focus.allowed_sound_iff.mp focus⟩
  · rintro ⟨⟨machine, frames⟩, focus⟩
    exact ⟨⟨Machine.on_sound_iff.mpr machine, fun frame mem =>
      Frame.allowed_sound_iff.mpr (frames frame mem)⟩, Focus.allowed_sound_iff.mpr focus⟩

theorem Sound.next (sound : p.Sound) (step : p.next = some q) : q.Sound :=
  governs_sound_iff.mp ((governs_sound_iff.mpr sound).next (fun _ => trivial) step)

theorem Sound.leads (sound : p.Sound) (leads : Leads p q) : q.Sound := by
  induction leads with
  | refl => exact sound
  | tail _ step ih => exact ih.next step

end Process

end CellLisp
