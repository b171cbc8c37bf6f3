import Mathlib

/-!
# Histories of several writers

A history that several writers append to is a list of pairs: who, and what.  `byTag l i` is what `i`
has contributed, in order.
-/

namespace OsSemester

variable {ι α : Type*} [DecidableEq ι] {l l' : List (ι × α)} {i j : ι}

/-- What the writer `i` has contributed. -/
def byTag (l : List (ι × α)) (i : ι) : List α := (l.filter fun x => x.1 = i).map Prod.snd

theorem byTag_append : byTag (l ++ l') i = byTag l i ++ byTag l' i := by
  rw [byTag, List.filter_append, List.map_append, byTag, byTag]

@[simp] theorem byTag_nil : byTag ([] : List (ι × α)) i = [] := rfl

theorem byTag_of_notMem (h : ∀ x ∈ l, x.1 ≠ i) : byTag l i = [] := by
  rw [byTag, List.map_eq_nil_iff, List.filter_eq_nil_iff]
  intro x hx
  simpa using h x hx

@[simp] theorem byTag_singleton_self (a : α) : byTag [(i, a)] i = [a] := by simp [byTag]

/-- What others append is not what `i` has contributed. -/
theorem byTag_append_of_ne (h : ∀ x ∈ l', x.1 = j) (hij : i ≠ j) :
    byTag (l ++ l') i = byTag l i := by
  rw [byTag_append, byTag_of_notMem fun x hx he => hij (he.symm.trans (h x hx)), List.append_nil]

end OsSemester
