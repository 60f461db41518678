import CellLisp.Proofs.Change
import CellLisp.Proofs.Process

/-!
# What a process comes to

From a point on, a process comes to a result with what waited around it still waiting, or it gets
stuck on an endless chain, or it goes on for as many steps as one asks for.
-/

namespace CellLisp

namespace Process

variable {α β : Type} {start middle target : Option Process} {frames : List Frame} {m : Machine}
  {depth : Nat} {p q : Process}

/-- Nothing waits for the result. -/
inductive Ended : Process → Prop
  | intro (result : Except Fault Value) (m : Machine) : Ended ⟨.done result, [], m⟩

/-- The process does not end and does not get anywhere either, because it walks an endless chain. -/
def Stuck (p : Process) : Prop := p.next = none ∧ ¬p.Ended

def Halts (start : Option Process) : Prop :=
  start = none ∨ ∃ p q, start = some p ∧ Leads p q ∧ q.Stuck

/-- From `start` the process comes to `target`, or gets stuck if there is no target. -/
def Arrives (start target : Option Process) : Prop :=
  (∃ p q, start = some p ∧ target = some q ∧ Leads p q) ∨ target = none ∧ Halts start

/-- The process goes on for so many steps, unless it gets stuck. -/
def Lasts (steps : Nat) (start : Option Process) : Prop :=
  Halts start ∨ ∃ p q, start = some p ∧ after steps p = some q

theorem Arrives.refl (start : Option Process) : Arrives start start := by
  cases start with
  | none => exact .inr ⟨rfl, .inl rfl⟩
  | some p => exact .inl ⟨p, p, rfl, rfl, .refl⟩

theorem Arrives.halts (first : Arrives start middle) (halts : Halts middle) : Halts start := by
  rcases first with ⟨p, q, rfl, rfl, leads⟩ | ⟨_, before⟩
  · rcases halts with missing | ⟨_, t, same, onward, stuck⟩
    · cases missing
    · cases same
      exact .inr ⟨p, t, rfl, leads.trans onward, stuck⟩
  · exact before

theorem Arrives.trans (first : Arrives start middle) (second : Arrives middle target) :
    Arrives start target := by
  rcases second with ⟨q, t, rfl, rfl, onward⟩ | ⟨missing, halts⟩
  · rcases first with ⟨p, _, rfl, same, leads⟩ | ⟨missing, _⟩
    · cases same
      exact .inl ⟨p, t, rfl, rfl, leads.trans onward⟩
    · cases missing
  · exact .inr ⟨missing, first.halts halts⟩

theorem Arrives.lasts {steps : Nat} (first : Arrives start middle) (lasts : Lasts steps middle) :
    Lasts steps start := by
  rcases lasts with halts | ⟨q, t, rfl, goes⟩
  · exact .inl (first.halts halts)
  · rcases first with ⟨p, _, rfl, same, leads⟩ | ⟨missing, _⟩
    · cases same
      obtain ⟨more, found⟩ := leads.exists_after
      have whole : after (more + steps) p = some t := by rw [after_add, found]; exact goes
      rw [Nat.add_comm, after_add] at whole
      obtain ⟨u, reached, _⟩ := Option.bind_eq_some_iff.mp whole
      exact .inr ⟨p, u, rfl, reached⟩
    · cases missing

theorem arrives_next (going : ¬p.Ended) : Arrives (some p) p.next := by
  cases step : p.next with
  | none => exact .inr ⟨rfl, .inr ⟨p, p, rfl, .refl, step, going⟩⟩
  | some q => exact .inl ⟨p, q, rfl, rfl, .single step⟩

theorem Lasts.succ {steps : Nat} (going : ¬p.Ended) (lasts : Lasts steps p.next) :
    Lasts (steps + 1) (some p) := by
  rcases lasts with halts | ⟨q, t, step, goes⟩
  · exact .inl ((arrives_next going).halts halts)
  · exact .inr ⟨p, t, rfl, by rw [after, step]; exact goes⟩

/-- From `start` the process comes to what `k` makes of a value, or to a fault as the result. If the
outcome is unfinished, it goes on for as many steps as the evaluation was allowed to nest. -/
def Reaches (depth : Nat) (start : Option Process) (frames : List Frame)
    (k : α → Machine → Option Process) : Outcome α → Prop
  | .value a m => Arrives start (k a m)
  | .fault f m => Arrives start (some ⟨.done (.error f), frames, m⟩)
  | .unfinished => Lasts depth start

theorem reaches_self (k : α → Machine → Option Process) (a : α) (m : Machine) :
    Reaches depth (k a m) frames k (.value a m) := Arrives.refl _

theorem reaches_perform (x : Eval α) (k : α → Machine → Option Process) :
    Reaches depth (perform frames x k m) frames k (x m) := by
  unfold perform
  cases x m with
  | value a m' => exact reaches_self k a m'
  | fault f m' => exact Arrives.refl _
  | unfinished => exact .inl (.inl rfl)

theorem reaches_reject (v : Value) (cause : String → Fault) :
    Reaches depth (perform frames (reject v cause) (yield frames) m) frames (yield frames)
      (reject v cause m) := reaches_perform (reject v cause) (yield frames)

theorem Reaches.after {k : α → Machine → Option Process} {o : Outcome α}
    (first : Arrives start middle) (later : Reaches depth middle frames k o) :
    Reaches depth start frames k o := by
  cases o with
  | value a m => exact first.trans later
  | fault f m => exact first.trans later
  | unfinished => exact first.lasts later

theorem Reaches.bind {k : α → Machine → Option Process} {l : β → Machine → Option Process}
    {x : Eval α} {f : α → Eval β} (first : Reaches depth start frames k (x m))
    (second : ∀ a m', Reaches depth (k a m') frames l (f a m')) :
    Reaches depth start frames l ((x >>= f) m) := by
  change Reaches depth start frames l (Eval.bind x f m)
  unfold Eval.bind
  cases outcome : x m with
  | unfinished => rwa [outcome] at first
  | fault e m' => rwa [outcome] at first
  | value a m' =>
    rw [outcome] at first
    exact Reaches.after first (second a m')

theorem Reaches.of_next {k : α → Machine → Option Process} {o : Outcome α} (going : ¬p.Ended)
    (later : Reaches depth p.next frames k o) : Reaches depth (some p) frames k o :=
  Reaches.after (arrives_next going) later

theorem Reaches.succ {k : α → Machine → Option Process} {o : Outcome α} (going : ¬p.Ended)
    (later : Reaches depth p.next frames k o) : Reaches (depth + 1) (some p) frames k o := by
  cases o with
  | value a m => exact (arrives_next going).trans later
  | fault f m => exact (arrives_next going).trans later
  | unfinished => exact Lasts.succ going later

/-- A frame that is no region passes faults on, and makes what it makes of a value. -/
theorem Reaches.resumed {x : Eval Value} {frame : Frame}
    (inner : Reaches depth start (frame :: frames) (yield (frame :: frames)) (x m))
    (passes : ∀ f, resume frames frame (.error f) = goOn frames (.done (.error f))) :
    Reaches depth start frames (fun v => resume frames frame (.ok v)) (x m) := by
  cases outcome : x m with
  | unfinished => rwa [outcome] at inner
  | value v m' =>
    rw [outcome] at inner
    exact Arrives.trans inner (arrives_next nofun)
  | fault f m' =>
    rw [outcome] at inner
    have step := arrives_next (p := ⟨.done (.error f), frame :: frames, m'⟩) nofun
    change Arrives _ (resume frames frame (.error f) m') at step
    rw [passes] at step
    exact Arrives.trans inner step

theorem Reaches.left {x : Eval Value} {r : Region}
    (inner : Reaches depth start (.region r :: frames) (yield (.region r :: frames)) (x m)) :
    Reaches depth start frames (yield frames) ((Eval.attempt x >>= r.leave) m) := by
  have leaves (result : Except Fault Value) (m' : Machine) :
      Reaches depth (some ⟨.done result, .region r :: frames, m'⟩) frames (yield frames)
        (r.leave result m') :=
    Reaches.of_next nofun (reaches_perform (r.leave result) (yield frames))
  refine Reaches.bind (k := fun result => goOn (.region r :: frames) (.done result)) ?_ leaves
  unfold Eval.attempt
  cases outcome : x m with
  | unfinished => rwa [outcome] at inner
  | value v m' => rwa [outcome] at inner
  | fault f m' => rwa [outcome] at inner

theorem leads_of_arrives (arrives : Arrives (some p) (some q)) : Leads p q := by
  rcases arrives with ⟨_, _, source, target, leads⟩ | ⟨missing, _⟩
  · cases source
    cases target
    exact leads
  · cases missing

theorem Reaches.leads_value {v : Value} {n : Machine}
    (reached : Reaches depth (some p) frames (yield frames) (.value v n)) :
    Leads p ⟨.done (.ok v), frames, n⟩ := leads_of_arrives reached

theorem Reaches.leads_fault {f : Fault} {n : Machine}
    (reached : Reaches depth (some p) frames (yield frames) (.fault f n)) :
    Leads p ⟨.done (.error f), frames, n⟩ := leads_of_arrives reached

theorem Reaches.leads {o : Outcome Value} {n : Machine}
    (reached : Reaches depth (some p) frames (yield frames) o) (ends : o.machine? = some n) :
    ∃ result, Leads p ⟨.done result, frames, n⟩ := by
  cases o with
  | value v m' =>
    cases ends
    exact ⟨_, reached.leads_value⟩
  | fault f m' =>
    cases ends
    exact ⟨_, reached.leads_fault⟩
  | unfinished => cases ends

theorem Reaches.leads_ofExcept {result : Except Fault Value} {n : Machine}
    (reached : Reaches depth (some p) frames (yield frames) (Eval.ofExcept result n)) :
    Leads p ⟨.done result, frames, n⟩ := by
  cases result with
  | ok v => exact reached.leads_value
  | error f => exact reached.leads_fault

/-- A process that ends goes on for no longer than it takes to its end. -/
theorem not_lasts_of_after {result : Except Fault Value} {n : Machine} {steps : Nat}
    (found : after steps p = some ⟨.done result, [], n⟩) : ¬Lasts (steps + 1) (some p) := by
  have leads := leads_of_after found
  rintro (missing | ⟨_, q, same, goes⟩)
  · rcases missing with missing | ⟨_, q, same, reached, stuck, going⟩
    · cases missing
    · cases same
      have final := reached.unique leads stuck rfl
      rw [final] at going
      exact going (.intro result n)
  · cases same
    rw [after_add, found] at goes
    cases goes

end Process

end CellLisp
