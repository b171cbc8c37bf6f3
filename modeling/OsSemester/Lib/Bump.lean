import Mathlib

/-!
# Numbers given out one after the other

An allocator that never takes anything back hands out the numbers from `lo` on.  `Bump lo hi place`
says that those below `hi` have been given out, each of them to exactly one place.
-/

namespace OsSemester

/-- The places that have a number have those from `lo` up to `hi`, each a different one. -/
structure Bump {κ : Type*} (lo hi : ℕ) (place : κ → Option ℕ) : Prop where
  mem : ∀ u a, place u = some a → lo ≤ a ∧ a < hi
  inj : ∀ u v a, place u = some a → place v = some a → u = v
  onto : ∀ a, lo ≤ a → a < hi → ∃ u, place u = some a

namespace Bump

variable {κ : Type*} {lo hi : ℕ} {place : κ → Option ℕ} {u v : κ} {a : ℕ}

theorem empty (lo : ℕ) : Bump lo lo fun _ : κ => none where
  mem := nofun
  inj := nofun
  onto := fun _ h1 h2 => absurd h2 (not_lt.mpr h1)

/-- The number at the end is new. -/
theorem fresh (h : Bump lo hi place) (ha : hi ≤ a) : place u ≠ some a := by
  intro hu
  exact absurd (h.mem u a hu).2 (not_lt.mpr ha)

/-- The next number is given to a place that has none. -/
theorem take [DecidableEq κ] (h : Bump lo hi place) (hle : lo ≤ hi) (hu : place u = none) :
    Bump lo (hi + 1) (Function.update place u (some hi)) where
  mem := by
    intro v a hv
    rw [Function.update_apply] at hv
    split_ifs at hv with he
    · cases hv
      exact ⟨hle, Nat.lt_succ_self _⟩
    · obtain ⟨h1, h2⟩ := h.mem v a hv
      exact ⟨h1, Nat.lt_succ_of_lt h2⟩
  inj := by
    intro v w a hv hw
    rw [Function.update_apply] at hv hw
    split_ifs at hv hw with h1 h2 h2
    · rw [h1, h2]
    · cases hv
      exact absurd hw (h.fresh le_rfl)
    · cases hw
      exact absurd hv (h.fresh le_rfl)
    · exact h.inj v w a hv hw
  onto := by
    intro a h1 h2
    rcases Nat.lt_succ_iff_lt_or_eq.mp h2 with hlt | rfl
    · obtain ⟨v, hv⟩ := h.onto a h1 hlt
      refine ⟨v, ?_⟩
      have hne : v ≠ u := by
        rintro rfl
        rw [hu] at hv
        cases hv
      rw [Function.update_of_ne hne, hv]
    · exact ⟨u, Function.update_self ..⟩

end Bump

end OsSemester
