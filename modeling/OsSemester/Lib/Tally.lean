import Mathlib

/-!
# Tallies

Finitely many parties, each in some local state with a weight.  The `tally` is the total weight: the
number of parties at a point of a program, or what they hold of a resource together.  A step of one
party changes the tally by the difference of two weights.
-/

namespace OsSemester

variable {ι β : Type*} [Fintype ι] {w : β → ℕ} {f : ι → β} {i j : ι} {b : β}

/-- The total weight of the parties. -/
def tally (w : β → ℕ) (f : ι → β) : ℕ := ∑ i, w (f i)

theorem le_tally (i : ι) : w (f i) ≤ tally w f :=
  Finset.single_le_sum (f := fun i => w (f i)) (fun _ _ => Nat.zero_le _) (Finset.mem_univ i)

/-- Two parties together weigh at most as much as all. -/
theorem add_le_tally [DecidableEq ι] (h : i ≠ j) : w (f i) + w (f j) ≤ tally w f := by
  have hsub : ({i, j} : Finset ι) ⊆ Finset.univ := Finset.subset_univ _
  have hle := Finset.sum_le_sum_of_subset (f := fun i => w (f i)) hsub
  rwa [Finset.sum_pair h] at hle

/-- A step of one party. -/
theorem tally_update [DecidableEq ι] (w : β → ℕ) (f : ι → β) (i : ι) (b : β) :
    tally w (Function.update f i b) + w (f i) = tally w f + w b := by
  have h1 : tally w (Function.update f i b) = w b + ∑ j ∈ Finset.univ.erase i, w (f j) := by
    unfold tally
    rw [← Finset.add_sum_erase _ _ (Finset.mem_univ i), Function.update_self]
    congr 1
    refine Finset.sum_congr rfl fun j hj => ?_
    rw [Function.update_of_ne (Finset.ne_of_mem_erase hj)]
  have h2 : tally w f = w (f i) + ∑ j ∈ Finset.univ.erase i, w (f j) :=
    (Finset.add_sum_erase _ _ (Finset.mem_univ i)).symm
  omega

/-- A tally at most one is the weight of a single party. -/
theorem tally_le_one [DecidableEq ι] (h : tally w f ≤ 1) (hi : w (f i) = 1) (hj : j ≠ i) :
    w (f j) = 0 := by
  have := add_le_tally (w := w) (f := f) hj
  omega

theorem tally_le_mul {w' : β → ℕ} (k : ℕ) (h : ∀ b, w b ≤ k * w' b) :
    tally w f ≤ k * tally w' f := by
  unfold tally
  rw [Finset.mul_sum]
  exact Finset.sum_le_sum fun i _ => h (f i)

end OsSemester
