import OsSemester.Hw5.MergeTree
import OsSemester.Lib.Comparator

/-!
# The order of `out.dat`

The parent sorts the 800 numbers it has read with the library's `qsort` and its own `compare`, which
subtracts.  The difference of two `int`s wraps around when they are `2 ^ 31` or more apart, so the
file is in ascending order just when no two of the numbers are.
-/

namespace OsSemester.Hw5

/-- What the parent prints to `out.dat` after its last `read`. -/
def outDat (qsort : (CInt → CInt → ℤ) → List CInt → List CInt) (num : Vector CInt 800) :
    List CInt :=
  (qsort compare num.toList).take 800

/-- **The parent of the process tree prints this**, with its own choice of a `qsort`. -/
theorem outDat_exec (num : Vector CInt 800) (l r l' r' : Tree) (e e' : Env) (p : Process)
    (hnum : p.num = num.toList) (hcode : p.code = [.qsort 800, .fprintf 800]) (c c' : Bool) :
    ∃ q, p.exec l r e c = some (.proc q l r, e) ∧
      (q.exec l' r' e' c').map (fun x => x.2.out) =
        some (some (outDat (fun cmp s => s.mergeSort fun a b => cmp a b ≤ 0) num)) := by
  refine ⟨{ p with num := qsort 800 p.num, code := [.fprintf 800] }, by simp [Process.exec, hcode],
    ?_⟩
  have hlen : num.toList.length = 800 := by simp
  simp only [Process.exec, Option.map_some, outDat, qsort, hnum]
  rw [List.take_of_length_le hlen.le, List.drop_eq_nil_of_le hlen.le, List.append_nil]

/-- `compare` orders the numbers, and with any `qsort` that sorts by such comparators the file is in
ascending order. -/
def OutputSorted (num : Vector CInt 800) : Prop :=
  Consistent compare {x | x ∈ num.toList} ∧
    ∀ qsort, Sorts qsort → (outDat qsort num).Pairwise fun a b => a.toInt ≤ b.toInt

theorem compare_eq_bmod (a b : CInt) : compare a b = (a.toInt - b.toInt).bmod (2 ^ 32) :=
  BitVec.toInt_sub

/-- Two numbers less than `2 ^ 31` apart are compared by their difference. -/
theorem compare_eq_sub {a b : CInt} (hab : a.toInt - b.toInt < 2 ^ 31)
    (hba : b.toInt - a.toInt < 2 ^ 31) : compare a b = a.toInt - b.toInt := by
  rw [compare_eq_bmod]
  exact Int.bmod_eq_of_le (by omega) (by omega)

/-- The larger of two numbers `2 ^ 31` or more apart is compared as the smaller one. -/
theorem compare_far {a b : CInt} (hab : 2 ^ 31 ≤ a.toInt - b.toInt) :
    compare a b = a.toInt - b.toInt - 2 ^ 32 := by
  have ha := a.toInt_lt
  have hb := b.le_toInt
  rw [compare_eq_bmod, Int.bmod_def]
  omega

theorem outDat_eq {qsort : (CInt → CInt → ℤ) → List CInt → List CInt} (hsort : Sorts qsort)
    {num : Vector CInt 800} (h : Consistent compare {x | x ∈ num.toList}) :
    outDat qsort num = qsort compare num.toList := by
  have hlen := (hsort _ _ h).1.length_eq
  exact List.take_of_length_le (by simp [hlen])

theorem consistent_of_near {s : Set CInt} (h : ∀ a ∈ s, ∀ b ∈ s, a.toInt - b.toInt < 2 ^ 31) :
    Consistent compare s := by
  have hsub : ∀ a ∈ s, ∀ b ∈ s, compare a b = a.toInt - b.toInt := fun a ha b hb =>
    compare_eq_sub (h a ha b hb) (h b hb a ha)
  refine ⟨fun a ha b hb => ?_, fun a ha b hb c hc hab hbc => ?_, fun a ha b hb hab => ?_⟩
  · rw [hsub a ha b hb, hsub b hb a ha, ← Int.sign_neg, Int.neg_sub]
  · rw [hsub a ha b hb] at hab
    rw [hsub b hb c hc] at hbc
    rw [hsub a ha c hc]
    omega
  · rw [hsub a ha b hb] at hab
    exact BitVec.eq_of_toInt_eq (by omega)

/-- With two numbers too far apart the file is out of order, if `compare` orders the numbers at
all. -/
theorem not_ascending {num : Vector CInt 800} (h : Consistent compare {x | x ∈ num.toList})
    {a b : CInt} (ha : a ∈ num.toList) (hb : b ∈ num.toList)
    (hab : 2 ^ 31 ≤ a.toInt - b.toInt)
    {qsort : (CInt → CInt → ℤ) → List CInt → List CInt} (hsort : Sorts qsort) :
    ¬ (outDat qsort num).Pairwise fun x y => x.toInt ≤ y.toInt := by
  intro hasc
  rw [outDat_eq hsort h] at hasc
  have hfar := compare_far hab
  have ha' := a.toInt_lt
  have hb' := b.le_toInt
  have hle := hsort.precedes h hasc ha hb (by omega)
  omega

/-- **The file is in ascending order exactly when no two of the numbers are `2 ^ 31` or more
apart.** -/
theorem output_sorted (num : Vector CInt 800) :
    OutputSorted num ↔
      ∀ a ∈ num.toList, ∀ b ∈ num.toList, a.toInt - b.toInt < 2 ^ 31 := by
  constructor
  · rintro ⟨hcons, hasc⟩ a ha b hb
    by_contra hfar
    exact not_ascending hcons ha hb (by omega) sorts_mergeSort (hasc _ sorts_mergeSort)
  · intro hnear
    have hcons : Consistent compare {x | x ∈ num.toList} := consistent_of_near hnear
    refine ⟨hcons, fun qsort hsort => ?_⟩
    obtain ⟨hperm, hsorted⟩ := hsort _ _ hcons
    rw [outDat_eq hsort hcons]
    refine hsorted.imp_of_mem fun {a b} ha hb hab => ?_
    rw [compare_eq_sub (hnear a (hperm.mem_iff.1 ha) b (hperm.mem_iff.1 hb))
      (hnear b (hperm.mem_iff.1 hb) a (hperm.mem_iff.1 ha))] at hab
    omega

/-- 799 times the number 1, and the least `int`. -/
def farApart : Vector CInt 800 := (Vector.replicate 799 1#32).push (BitVec.intMin 32)

/-- Here `compare` orders the two numbers, and the parent prints the least one last. -/
theorem output_sorted_counterexample :
    ¬ OutputSorted farApart ∧
      ∀ qsort, Sorts qsort → ¬ (outDat qsort farApart).Pairwise fun a b => a.toInt ≤ b.toInt := by
  have hmem : ∀ x ∈ farApart.toList, x = 1#32 ∨ x = BitVec.intMin 32 := by
    intro x hx
    simpa [farApart, or_comm] using hx
  have hcons : Consistent compare {x | x ∈ farApart.toList} := by
    refine ⟨fun a ha b hb => ?_, fun a ha b hb c hc => ?_, fun a ha b hb => ?_⟩
    · rcases hmem a ha with rfl | rfl <;> rcases hmem b hb with rfl | rfl <;> decide
    · rcases hmem a ha with rfl | rfl <;> rcases hmem b hb with rfl | rfl <;>
        rcases hmem c hc with rfl | rfl <;> decide
    · rcases hmem a ha with rfl | rfl <;> rcases hmem b hb with rfl | rfl <;> decide
  have hout : ∀ qsort, Sorts qsort →
      ¬ (outDat qsort farApart).Pairwise fun a b => a.toInt ≤ b.toInt := fun qsort hsort =>
    not_ascending (a := 1#32) (b := BitVec.intMin 32) hcons (by simp [farApart])
      (by simp [farApart]) (by decide) hsort
  exact ⟨fun h => hout _ sorts_mergeSort (h.2 _ sorts_mergeSort), hout⟩

end OsSemester.Hw5
