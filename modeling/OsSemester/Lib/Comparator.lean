import Mathlib

/-!
# Sorting with a comparator

A comparator tells by the sign of a number which of two elements comes first.  What a library's sort
promises, it promises for comparators that are consistent on the elements of the list.

`Consistent` is the condition, `Sorts` the promise, `sorts_mergeSort` says that the promise can be
kept, and `Sorts.precedes` what it says about two elements: one that compares as smaller comes
first, whatever other order the output may be in as well.
-/

namespace OsSemester

variable {α : Type*}

/-- The comparator is a total order on the elements of `s`. -/
structure Consistent (cmp : α → α → ℤ) (s : Set α) : Prop where
  sign : ∀ a ∈ s, ∀ b ∈ s, (cmp a b).sign = -(cmp b a).sign
  trans : ∀ a ∈ s, ∀ b ∈ s, ∀ c ∈ s, cmp a b ≤ 0 → cmp b c ≤ 0 → cmp a c ≤ 0
  eq_of_zero : ∀ a ∈ s, ∀ b ∈ s, cmp a b = 0 → a = b

/-- The sort orders every list on whose elements the comparator is consistent. -/
def Sorts (sort : (α → α → ℤ) → List α → List α) : Prop :=
  ∀ cmp l, Consistent cmp {x | x ∈ l} →
    (sort cmp l).Perm l ∧ (sort cmp l).Pairwise fun a b => cmp a b ≤ 0

namespace Consistent

variable {cmp : α → α → ℤ} {s : Set α}

theorem total (h : Consistent cmp s) {a b : α} (ha : a ∈ s) (hb : b ∈ s) :
    cmp a b ≤ 0 ∨ cmp b a ≤ 0 := by
  have hs := h.sign a ha b hb
  rcases le_or_gt (cmp a b) 0 with hab | hab
  · exact .inl hab
  · right
    rw [Int.sign_eq_one_of_pos hab] at hs
    have hneg : (cmp b a).sign = -1 := by omega
    exact (Int.sign_eq_neg_one_iff_neg.1 hneg).le

end Consistent

/-- Merge sort keeps the promise: the comparator need only be an order on the list's elements. -/
theorem sorts_mergeSort :
    Sorts fun (cmp : α → α → ℤ) l => l.mergeSort fun a b => cmp a b ≤ 0 := by
  intro cmp l h
  refine ⟨List.mergeSort_perm _ _, ?_⟩
  -- The library's lemma wants an order on a whole type: that of the elements of `l`.
  have hsub := @List.pairwise_mergeSort {x // x ∈ l} (fun a b => cmp a.1 b.1 ≤ 0)
    (fun a b c hab hbc => by
      simpa using h.trans a a.2 b b.2 c c.2 (by simpa using hab) (by simpa using hbc))
    (fun a b => by simpa using h.total a.2 b.2) l.attach
  have hmap : (l.attach.mergeSort fun a b => decide (cmp a.1 b.1 ≤ 0)).map Subtype.val =
      l.mergeSort fun a b => decide (cmp a b ≤ 0) := by
    simpa using List.map_mergeSort (s := fun a b => decide (cmp a b ≤ 0)) (l := l.attach)
      (f := Subtype.val) fun a _ b _ => rfl
  show (l.mergeSort fun a b => decide (cmp a b ≤ 0)).Pairwise _
  rw [← hmap]
  exact List.pairwise_map.2 (hsub.imp fun hab => by simpa using hab)

/-- Of two elements of a sorted list that differ, one comes before the other. -/
theorem rel_or_rel {R : α → α → Prop} {l : List α} (h : l.Pairwise R) {a b : α} (ha : a ∈ l)
    (hb : b ∈ l) (hne : a ≠ b) : R a b ∨ R b a := by
  have hsymm : Std.Symm fun x y => R x y ∨ R y x := ⟨fun _ _ => Or.symm⟩
  have hpair : l.Pairwise fun x y => R x y ∨ R y x := h.imp Or.inl
  exact hpair.forall ha hb hne

/-- An order that the sorted list is in as well agrees with the comparator. -/
theorem Sorts.precedes {sort : (α → α → ℤ) → List α → List α} (hsort : Sorts sort)
    {cmp : α → α → ℤ} {l : List α} (h : Consistent cmp {x | x ∈ l}) {R : α → α → Prop}
    (hR : (sort cmp l).Pairwise R) {a b : α} (ha : a ∈ l) (hb : b ∈ l) (hab : cmp a b < 0) :
    R a b := by
  obtain ⟨hperm, hsorted⟩ := hsort cmp l h
  have hs := h.sign a ha b hb
  rw [Int.sign_eq_neg_one_of_neg hab] at hs
  have hba : 0 < cmp b a := Int.sign_eq_one_iff_pos.1 (by omega)
  have hne : a ≠ b := by
    rintro rfl
    omega
  rcases rel_or_rel (hsorted.and hR) (hperm.mem_iff.2 ha) (hperm.mem_iff.2 hb) hne with hr | hr
  · exact hr.2
  · exact absurd hr.1 (by omega)

end OsSemester
