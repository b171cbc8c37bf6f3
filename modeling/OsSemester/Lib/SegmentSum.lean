import Mathlib

/-!
# Sums of contiguous parts of a list

The sums of the suffixes and of the segments of a list, the empty ones included, and how the greatest
of them change when the list grows at its end.
-/

namespace OsSemester

variable {α : Type*} [AddCommMonoid α]

/-- The sums of the suffixes of a list. -/
def suffixSums (p : List α) : Set α := List.sum '' {s | s <:+ p}

/-- The sums of the contiguous parts of a list. -/
def segmentSums (p : List α) : Set α := List.sum '' {s | s <:+: p}

variable {p : List α} {x c m : α}

theorem suffixSums_nil : suffixSums ([] : List α) = {0} := by
  simp only [suffixSums, List.suffix_nil, Set.ofPred_eq_eq_singleton, Set.image_singleton,
    List.sum_nil]

theorem segmentSums_nil : segmentSums ([] : List α) = {0} := by
  simp only [segmentSums, List.infix_nil, Set.ofPred_eq_eq_singleton, Set.image_singleton,
    List.sum_nil]

/-- A suffix of a longer list is empty, or it ends with the new element. -/
theorem suffixSums_concat (p : List α) (x : α) :
    suffixSums (p ++ [x]) = insert 0 ((fun c => c + x) '' suffixSums p) := by
  ext v
  simp only [suffixSums, List.suffix_concat_iff, Set.mem_image, Set.mem_ofPred_eq, Set.mem_insert_iff]
  constructor
  · rintro ⟨s, rfl | ⟨t, rfl, ht⟩, rfl⟩
    · exact Or.inl List.sum_nil
    · exact Or.inr ⟨t.sum, ⟨t, ht, rfl⟩, by rw [List.sum_append, List.sum_singleton]⟩
  · rintro (rfl | ⟨c, ⟨t, ht, rfl⟩, rfl⟩)
    · exact ⟨[], Or.inl rfl, List.sum_nil⟩
    · exact ⟨t ++ [x], Or.inr ⟨t, rfl, ht⟩, by rw [List.sum_append, List.sum_singleton]⟩

/-- A segment of a longer list is a suffix of it, or a segment of the old one. -/
theorem segmentSums_concat (p : List α) (x : α) :
    segmentSums (p ++ [x]) = suffixSums (p ++ [x]) ∪ segmentSums p := by
  simp only [segmentSums, suffixSums, List.infix_concat_iff, Set.ofPred_or, Set.image_union]

theorem isGreatest_suffixSums_concat [LinearOrder α] [IsOrderedAddMonoid α]
    (h : IsGreatest (suffixSums p) c) : IsGreatest (suffixSums (p ++ [x])) (max 0 (c + x)) := by
  rw [suffixSums_concat]
  have hmono : Monotone fun c => c + x := fun _ _ hab => add_le_add_left hab x
  exact (hmono.map_isGreatest h).insert 0

theorem isGreatest_segmentSums_concat [LinearOrder α] (hc : IsGreatest (suffixSums (p ++ [x])) c)
    (hm : IsGreatest (segmentSums p) m) : IsGreatest (segmentSums (p ++ [x])) (max c m) := by
  rw [segmentSums_concat]
  exact hc.union hm

end OsSemester
