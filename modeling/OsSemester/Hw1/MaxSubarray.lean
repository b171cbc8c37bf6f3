import OsSemester.Lib.SegmentSum

/-!
# The largest sum (`1/1.c`)

`main` reads `n` numbers and goes through them once, with the largest sum that ends at the place it
has come to and the largest one so far.  An `int` that overflows is undefined behaviour, `none` here;
`max_subarray` shows that it never does, and that the number printed is the largest sum of all.
-/

namespace OsSemester.Hw1.MaxSubarray

/-- A number that is an `int`. -/
def IsInt (x : ℤ) : Prop := -2 ^ 31 ≤ x ∧ x < 2 ^ 31

instance (x : ℤ) : Decidable (IsInt x) := inferInstanceAs (Decidable (_ ∧ _))

/-- The sum of two `int`s. -/
def addInt (x y : ℤ) : Option ℤ := if IsInt (x + y) then some (x + y) else none

/-- `scanf("%d", &x)`: the variable, and the numbers left to read. -/
def scanf (stdin : List ℤ) (x : ℤ) : ℤ × List ℤ :=
  match stdin with
  | [] => (x, [])
  | v :: stdin => (v, stdin)

/-- `arr[i] = v;` for `int arr[1000]`. -/
def setArr (arr : ℕ → ℤ) (i : ℕ) (v : ℤ) : Option (ℕ → ℤ) :=
  if i < 1000 then some (Function.update arr i v) else none

/-- `arr[i]` -/
def getArr (arr : ℕ → ℤ) (i : ℕ) : Option ℤ := if i < 1000 then some (arr i) else none

/-- The first loop of `main`, with `k` numbers to read. -/
def readLoop : ℕ → ℕ → List ℤ → ℤ → (ℕ → ℤ) → Option (ℕ → ℤ)
  | 0, _, _, _, arr => some arr
  | k + 1, i, stdin, tmp, arr => do
    let (tmp', stdin') := scanf stdin tmp
    let arr' ← setArr arr i tmp'
    readLoop k (i + 1) stdin' tmp' arr'

/-- The second loop of `main`, with `k` numbers to go through; `min` is the largest sum so far. -/
def sumLoop (arr : ℕ → ℤ) : ℕ → ℕ → ℤ → ℤ → Option ℤ
  | 0, _, min, _ => some min
  | k + 1, i, min, now => do
    let x ← getArr arr i
    let now ← addInt now x
    let now' := if 0 > now then 0 else now
    let min' := if now' > min then now' else min
    sumLoop arr k (i + 1) min' now'

/-- `main`: the number it prints.  `arr` is what the array holds before it is filled. -/
def main (stdin : List ℤ) (arr : ℕ → ℤ) : Option ℤ := do
  let (n, stdin') := scanf stdin 0
  let arr' ← readLoop n.toNat 0 stdin' 0 arr
  let min ← sumLoop arr' n.toNat 0 (-1000) 0
  return if min ≥ 0 then min else 0

variable {a p q rest : List ℤ} {arr : ℕ → ℤ} {i k n : ℕ} {min now tmp x : ℤ}

/-! ### The first loop -/

/-- The numbers of a list are read to the places from `i` on. -/
theorem readLoop_eq (rest : List ℤ) (tmp : ℤ) (arr : ℕ → ℤ) (hi : i + a.length ≤ 1000) : ∃ arr',
    readLoop a.length i (a ++ rest) tmp arr = some arr' ∧ (∀ j, j < i → arr' j = arr j) ∧
      ∀ j (hj : j < a.length), arr' (i + j) = a[j] := by
  induction a generalizing i tmp arr with
  | nil => exact ⟨arr, rfl, fun _ _ => rfl, nofun⟩
  | cons x a ih =>
    rw [List.length_cons] at hi
    obtain ⟨arr', hrun, hlow, hget⟩ := ih x (Function.update arr i x)
      (by omega : i + 1 + a.length ≤ 1000)
    have hset : setArr arr i x = some (Function.update arr i x) := if_pos (by omega)
    refine ⟨arr', ?_, fun j hj => ?_, fun j hj => ?_⟩
    · show (setArr arr i x).bind _ = _
      rw [hset]
      exact hrun
    · rw [hlow j (by omega), Function.update_of_ne hj.ne]
    · cases j with
      | zero =>
        show arr' i = x
        rw [hlow i (Nat.lt_succ_self i), Function.update_self]
      | succ j =>
        have hj' : j < a.length := by simpa using hj
        rw [List.getElem_cons_succ, ← hget j hj', Nat.add_assoc, Nat.add_comm 1]

/-! ### The second loop -/

/-- The values of the loop after the numbers in `p`: the largest sums of a suffix and of a segment. -/
structure Sums (p : List ℤ) (min now : ℤ) : Prop where
  suffix : IsGreatest (suffixSums p) now
  segment : if p = [] then min = -1000 else IsGreatest (segmentSums p) min

theorem Sums.init : Sums [] (-1000) 0 where
  suffix := by
    rw [suffixSums_nil]
    exact isGreatest_singleton
  segment := rfl

/-- One number more. -/
theorem Sums.step (h : Sums p min now) :
    Sums (p ++ [x]) (max (max 0 (now + x)) min) (max 0 (now + x)) := by
  have hsuffix : IsGreatest (suffixSums (p ++ [x])) (max 0 (now + x)) :=
    isGreatest_suffixSums_concat h.suffix
  refine ⟨hsuffix, ?_⟩
  rw [if_neg (List.concat_ne_nil _ _)]
  have hseg := h.segment
  split_ifs at hseg with hp
  · -- the start value is below every sum
    have hle : min ≤ max 0 (now + x) := by omega
    have hnil : IsGreatest (segmentSums ([] : List ℤ)) 0 := by
      rw [segmentSums_nil]
      exact isGreatest_singleton
    have hmax : max (max 0 (now + x)) min = max (max 0 (now + x)) 0 := by omega
    rw [hmax]
    rw [hp] at hsuffix ⊢
    exact isGreatest_segmentSums_concat hsuffix hnil
  · exact isGreatest_segmentSums_concat hsuffix hseg

/-- The loop goes on over the numbers in `q` and does not overflow. -/
theorem sumLoop_eq (hS : Sums p min now) (hlen : p.length + q.length ≤ 1000)
    (harr : ∀ j (hj : j < q.length), arr (p.length + j) = q[j])
    (hint : ∀ v ∈ segmentSums (p ++ q), IsInt v) : ∃ min' now',
    sumLoop arr q.length p.length min now = some min' ∧ Sums (p ++ q) min' now' := by
  induction q generalizing p min now with
  | nil => exact ⟨min, now, rfl, by rwa [List.append_nil]⟩
  | cons x q ih =>
    rw [List.length_cons] at hlen
    have hx : getArr arr p.length = some x := by
      have h0 := harr 0 (Nat.succ_pos _)
      rw [Nat.add_zero, List.getElem_cons_zero] at h0
      rw [getArr, if_pos (by omega), h0]
    -- the sum that ends at the new number is one of a segment
    have hsum : now + x ∈ segmentSums (p ++ x :: q) := by
      obtain ⟨⟨s, hs, rfl⟩, -⟩ := hS.suffix
      refine ⟨s ++ [x], ?_, by rw [List.sum_append, List.sum_singleton]⟩
      obtain ⟨t, rfl⟩ := hs
      exact ⟨t, q, by simp⟩
    have hadd : addInt now x = some (now + x) := if_pos (hint _ hsum)
    have hnow : (if 0 > now + x then 0 else now + x) = max 0 (now + x) := by
      split_ifs <;> omega
    have hmin : (if max 0 (now + x) > min then max 0 (now + x) else min) =
        max (max 0 (now + x)) min := by
      split_ifs <;> omega
    have happ : p ++ x :: q = p ++ [x] ++ q := by simp
    rw [happ] at hint ⊢
    have hlen' : (p ++ [x]).length = p.length + 1 := by simp
    obtain ⟨min', now', hrun, hS'⟩ := ih hS.step (by omega) (fun j hj => by
      have hj' := harr (j + 1) (Nat.succ_lt_succ hj)
      rw [List.getElem_cons_succ] at hj'
      rw [← hj', hlen', Nat.add_assoc, Nat.add_comm 1]) hint
    refine ⟨min', now', ?_, hS'⟩
    simp only [List.length_cons, sumLoop, hx, hadd, Option.bind_eq_bind, Option.bind_some, hnow, hmin]
    rwa [hlen'] at hrun

/-! ### The main result -/

/-- **The number printed is the largest sum** of a contiguous part of the sequence, the empty one
included. -/
theorem max_subarray (a rest : List ℤ) (arr : ℕ → ℤ) (hlen : a.length ≤ 1000)
    (hint : ∀ s, s <:+: a → IsInt s.sum) :
    ∃ m, main (a.length :: (a ++ rest)) arr = some m ∧ IsGreatest {v | ∃ s, s <:+: a ∧ s.sum = v} m := by
  obtain ⟨arr', hread, -, harr⟩ := readLoop_eq rest 0 arr (by omega : 0 + a.length ≤ 1000)
  have harr' : ∀ j (hj : j < a.length), arr' (([] : List ℤ).length + j) = a[j] := harr
  obtain ⟨min, now, hrun, hS⟩ := sumLoop_eq Sums.init (by simpa using hlen) harr' (by
    rintro _ ⟨s, hs, rfl⟩
    exact hint s hs)
  have hmain : main (a.length :: (a ++ rest)) arr = some (if min ≥ 0 then min else 0) := by
    show (readLoop a.length 0 (a ++ rest) 0 arr).bind _ = _
    rw [hread, Option.bind_some]
    show (sumLoop arr' a.length 0 (-1000) 0).bind _ = _
    rw [show ([] : List ℤ).length = 0 from rfl] at hrun
    rw [hrun]
    rfl
  refine ⟨_, hmain, ?_⟩
  have hseg := hS.segment
  rw [List.nil_append] at hseg
  show IsGreatest (segmentSums a) _
  split_ifs at hseg with hnil
  · -- without a number the start value is left
    rw [hnil, hseg, segmentSums_nil]
    exact isGreatest_singleton
  · have h0 : 0 ≤ min := hseg.2 ⟨[], List.nil_infix, rfl⟩
    rwa [if_pos h0]

theorem max_subarray_three : ∃ m, main [3, 2, -5, 4] (fun _ => 7) = some m ∧
    IsGreatest {v | ∃ s, s <:+: [2, -5, 4] ∧ s.sum = v} m := by
  refine max_subarray [2, -5, 4] [] (fun _ => 7) (by decide) fun s hs => ?_
  have hmem : s ∈ [[], [2], [-5], [4], [2, -5], [-5, 4], ([2, -5, 4] : List ℤ)] := by
    simp only [List.infix_cons_iff, List.prefix_cons_iff, List.prefix_nil, List.infix_nil] at hs
    grind
  have hall : ∀ s ∈ [[], [2], [-5], [4], [2, -5], [-5, 4], ([2, -5, 4] : List ℤ)], IsInt s.sum := by
    decide
  exact hall s hmem

end OsSemester.Hw1.MaxSubarray
