import CellLisp.Proofs.Sound
import Mathlib.Data.List.Nodup
import Mathlib.Data.List.Perm.Subperm

/-!
# Chains that end

A chain that ends passes no cell twice. On a sound store all of its cells are cells of the store, so
there are no more of them than the store has, and a walk that may go on for longer comes to the
same.
-/

namespace CellLisp.Store

variable {s t : Store} {v : Value} {c : CellId} {cs ds : List CellId}

/-- The cells that a chain passes before it ends. -/
inductive Spine (s : Store) : Value → List CellId → Prop
  | stop {v : Value} (atom : ∀ c, v ≠ .cons c) : Spine s v []
  | cons {c : CellId} {cs : List CellId} (rest : Spine s (s.cdr c) cs) : Spine s (.cons c) (c :: cs)

theorem Spine.unique (first : s.Spine v cs) (second : s.Spine v ds) : cs = ds := by
  induction first generalizing ds with
  | stop atom =>
    cases second with
    | stop => rfl
    | @cons c _ rest => exact absurd rfl (atom c)
  | @cons c cs rest ih =>
    cases second with
    | stop atom => exact absurd rfl (atom c)
    | cons other => rw [ih other]

/-- What lies behind a cell of the chain is no longer than the chain. -/
theorem Spine.exists_of_mem (spine : s.Spine v cs) (mem : c ∈ cs) :
    ∃ ds, s.Spine (.cons c) ds ∧ ds.length ≤ cs.length := by
  induction spine with
  | stop => cases mem
  | @cons d cs rest ih =>
    rcases List.mem_cons.mp mem with rfl | later
    · exact ⟨c :: cs, .cons rest, Nat.le_refl _⟩
    · obtain ⟨ds, behind, shorter⟩ := ih later
      exact ⟨ds, behind, Nat.le_succ_of_le shorter⟩

theorem Spine.nodup (spine : s.Spine v cs) : cs.Nodup := by
  induction spine with
  | stop => exact List.nodup_nil
  | @cons c cs rest ih =>
    refine List.nodup_cons.mpr ⟨fun again => ?_, ih⟩
    -- What lies behind the cell is given by the cell, so its length is.
    obtain ⟨ds, behind, shorter⟩ := rest.exists_of_mem again
    rw [← (Spine.cons rest).unique behind] at shorter
    exact Nat.not_succ_le_self _ shorter

/-- A chain that starts in a sound store stays in it, whatever has been made since. -/
theorem Spine.inside (sound : s.Sound) (kept : s.Extends t) (known : v.KnownTo s)
    (spine : t.Spine v cs) : ∀ c ∈ cs, c.index < s.cells.size := by
  induction spine with
  | stop => exact List.forall_mem_nil _
  | @cons c cs rest ih =>
    have same : t.cdr c = s.cdr c := congrArg Cell.cdr (kept.cell c known)
    exact List.forall_mem_cons.mpr ⟨known, ih (by rw [same]; exact sound.cdr c)⟩

theorem Spine.length_le_of_inside (spine : s.Spine v cs)
    (inside : ∀ c ∈ cs, c.index < s.cells.size) : cs.length ≤ s.cells.size := by
  have injective : Function.Injective CellId.index := fun ⟨_⟩ ⟨_⟩ same => congrArg CellId.mk same
  have distinct : (cs.map CellId.index).Nodup := (List.nodup_map_iff injective).mpr spine.nodup
  have among : cs.map CellId.index ⊆ List.range s.cells.size := fun i mem => by
    obtain ⟨c, passed, rfl⟩ := List.mem_map.mp mem
    exact List.mem_range.mpr (inside c passed)
  simpa using (List.subperm_of_subset distinct among).length_le

theorem Spine.length_le (sound : s.Sound) (known : v.KnownTo s) (spine : s.Spine v cs) :
    cs.length ≤ s.cells.size := spine.length_le_of_inside (spine.inside sound (.refl s) known)

/-! Walks along a chain. -/

theorem Spine.chainWithin (spine : s.Spine v cs) {limit : Nat} (enough : cs.length ≤ limit) :
    s.chainWithin limit v = s.chainWithin cs.length v := by
  induction spine generalizing limit with
  | @stop v atom =>
    cases v with
    | cons c => exact absurd rfl (atom c)
    | number | string | boolean | nil | lambda => cases limit <;> rfl
  | @cons c cs rest ih =>
    obtain ⟨limit, rfl⟩ := Nat.exists_eq_add_of_le' enough
    change (s.chainWithin (limit + cs.length) (s.cdr c)).cons _ = (s.chainWithin _ _).cons _
    rw [ih (Nat.le_add_left _ _)]

theorem endless_or_spine (s : Store) (limit : Nat) (v : Value) :
    s.chainWithin limit v = .endless ∨ ∃ cs, s.Spine v cs ∧ cs.length ≤ limit := by
  induction limit generalizing v with
  | zero =>
    cases v with
    | cons c => exact .inl rfl
    | number | string | boolean | nil | lambda => exact .inr ⟨[], .stop nofun, Nat.le_refl _⟩
  | succ limit ih =>
    cases v with
    | cons c =>
      rcases ih (s.cdr c) with endless | ⟨cs, rest, short⟩
      · exact .inl (by rw [Store.chainWithin, endless]; rfl)
      · exact .inr ⟨c :: cs, .cons rest, Nat.succ_le_succ short⟩
    | number | string | boolean | nil | lambda => exact .inr ⟨[], .stop nofun, Nat.zero_le _⟩

/-- A walk that may pass more cells than there are comes to the same as one that may not. -/
theorem Sound.chainWithin_eq (sound : s.Sound) (known : v.KnownTo s) {limit : Nat}
    (enough : s.cells.size ≤ limit) : s.chainWithin limit v = s.chain v := by
  rcases s.endless_or_spine limit v with endless | ⟨cs, spine, _⟩
  · rcases s.endless_or_spine s.cells.size v with same | ⟨cs, spine, short⟩
    · rw [endless, Store.chain, same]
    · rw [Store.chain, spine.chainWithin (Nat.le_trans short enough), spine.chainWithin short]
  · have short := spine.length_le sound known
    rw [Store.chain, spine.chainWithin (Nat.le_trans short enough), spine.chainWithin short]

end CellLisp.Store
