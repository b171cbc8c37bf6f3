import OsSemester.Hw1.PointerHeap

/-!
# When `main` builds a heap

The loop orders the pointers, of which the last half are made of places behind the numbers.  What they
hold comes up to the front: with zeros there, the numbers that go down are replaced by zeros.  So the
array is a heap of the numbers, whatever is behind them, only if they are zeros already.
-/

namespace OsSemester.Hw1.Heap

open Memory

variable {m m' m₀ : Memory} {n k c j : ℕ} {input : List CInt} {rest : Memory}
variable {w : BitVec 64}

/-! ### Which pointers a call changes -/

/-- A call at `k` changes pointers at `k` and below it. -/
theorem Sift.frame (h : Sift n m k m') (hj : j ≠ k) (hp : j ≤ 2 * k) :
    m'.word j = m.word j := by
  induction h with
  | stop => rfl
  | @swap m k c m' hc hlt hmin hs ih =>
    have hkc : 2 * k < c := by
      rcases hc.2 with h | h <;> omega
    have hjc : j ≠ c := by omega
    rw [ih hjc (by omega), word_swap, Function.update_of_ne hjc, Function.update_of_ne hj]

/-- A zero comes up. -/
theorem Sift.value_root (h : Sift n m k m') (hc : Child n k c) (h0 : m.value c = 0) :
    m'.value k = 0 := by
  cases h with
  | stop hle => exact Nat.le_zero.mp (h0 ▸ hle c hc)
  | @swap _ _ d _ hd hlt hmin hs =>
    have hkd : k < d := by
      rcases hd.2 with h | h <;> omega
    have hword : (m.swap k d).word k = m.word d := by
      rw [word_swap, Function.update_of_ne hkd.ne, Function.update_self]
    rw [value, hs.frame hkd.ne (by omega), hword]
    exact Nat.le_zero.mp (h0 ▸ hmin c hc)

/-! ### The first half of the pointers becomes zero -/

/-- The pointers from `k` on whose parents come before `k` are zero, apart from the one that holds the
last of an odd number of numbers. -/
def ZeroTop (n k : ℕ) (m : Memory) : Prop :=
  ∀ j, k ≤ j → j < n → j ≤ 2 * k → 2 * j + 1 ≠ n → m.value j = 0

/-- Every place with a child has one with no number in it, or one with two. -/
theorem exists_child (hk : k < n / 2) : ∃ c, Child n k c ∧ 2 * c + 1 ≠ n := by
  by_cases h : 2 * (2 * k + 1) + 1 = n
  · exact ⟨2 * k + 2, ⟨by omega, Or.inr rfl⟩, by omega⟩
  · exact ⟨2 * k + 1, ⟨by omega, Or.inl rfl⟩, h⟩

theorem ZeroTop.step (h : ZeroTop n (k + 1) m) (hs : Sift n m k m') (hk : k < n / 2) :
    ZeroTop n k m' := by
  intro j hkj hjn hjk hodd
  by_cases hj : j = k
  · obtain ⟨c, hc, hc'⟩ := exists_child hk
    have hzero : m.value c = 0 := by
      refine h c ?_ hc.1 ?_ hc' <;> rcases hc.2 with h | h <;> omega
    rw [hj]
    exact hs.value_root hc hzero
  · rw [value, hs.frame hj hjk]
    exact h j (by omega) hjn (by omega) hodd

/-! ### The order of the pointers -/

/-- What the loop keeps when no number is negative: the pointers hold numbers that are not negative,
apart from the one with the last of an odd number of them, which is larger than all others. -/
structure Small (n : ℕ) (w : BitVec 64) (m : Memory) : Prop where
  small : ∀ j, j < n → 2 * j + 1 ≠ n → low (m.word j) < 2 ^ 31 ∧ high (m.word j) < 2 ^ 31
  last : ∀ j, 2 * j + 1 = n → m.word j = w ∧ high w = 2 ^ 32 - 1

/-- The pointers are in order between the place `j` and its children. -/
def OrderedAt (n : ℕ) (m : Memory) (j : ℕ) : Prop := ∀ d, Child n j d → m.value j ≤ m.value d

theorem value_eq (m : Memory) (j : ℕ) : m.value j = low (m.word j) + 2 ^ 32 * high (m.word j) := by
  unfold value low high
  omega

/-- The pointer that comes up is not the last one. -/
theorem Small.ne_last (h : Small n w m) (hk : 2 * k + 1 ≠ n) (hkn : k < n)
    (hlt : m.value c < m.value k) : 2 * c + 1 ≠ n := by
  intro hc
  have h1 := h.small k hkn hk
  obtain ⟨h2, hw⟩ := h.last c hc
  rw [← h2] at hw
  have h3 := value_eq m k
  have h4 := value_eq m c
  omega

theorem Small.swap (h : Small n w m) (hc : Child n k c) (hlt : m.value c < m.value k) :
    Small n w (m.swap k c) := by
  have hk : 2 * k + 1 ≠ n ∧ k < n ∧ k ≠ c := by
    have := hc.1
    rcases hc.2 with h | h <;> omega
  have hc' := h.ne_last hk.1 hk.2.1 hlt
  have hksmall := h.small k hk.2.1 hk.1
  constructor
  · intro j hj hodd
    rw [word_swap, Function.update_apply, Function.update_apply]
    split_ifs with h1 h2
    · have hthrough := throughInt_of_low hksmall.1
      have hself : low (throughInt (m.word k)) = low (m.word k) ∧ high (throughInt (m.word k)) = 0 := by
        unfold low high at *
        omega
      rw [hself.1, hself.2]
      exact ⟨hksmall.1, by decide⟩
    · exact h.small c hc.1 hc'
    · exact h.small j hj hodd
  · intro j hj
    have h1 : j ≠ c := by
      rintro rfl
      exact hc' hj
    have h2 : j ≠ k := by
      rintro rfl
      exact hk.1 hj
    rw [word_swap, Function.update_of_ne h1, Function.update_of_ne h2]
    exact h.last j hj

theorem Sift.small (h : Sift n m k m') (hm : Small n w m) : Small n w m' := by
  induction h with
  | stop => exact hm
  | swap hc hlt hmin hs ih => exact ih (hm.swap hc hlt)

theorem value_swap (m : Memory) (k c j : ℕ) : (m.swap k c).value j =
    if j = c then (throughInt (m.word k)).toNat else if j = k then m.value c else m.value j := by
  rw [value, word_swap, Function.update_apply, Function.update_apply]
  split_ifs <;> rfl

/-- The standard argument, for a number that fits into an `int`: the pointers are in order but at `c`,
and the parent of `c` is in order with the children of `c`. -/
theorem Sift.ordered_of_low (h : Sift n m c m') (hm : Small n w m) (hv : m.value c < 2 ^ 31)
    (hkc : k ≤ c) (hord : ∀ j, k ≤ j → j ≠ c → OrderedAt n m j)
    (hpar : ∀ p, k ≤ p → Child n p c → ∀ d, Child n c d → m.value p ≤ m.value d) :
    ∀ j, k ≤ j → OrderedAt n m' j := by
  induction h with
  | @stop m c hle =>
    intro j hj
    by_cases hjc : j = c
    · rw [hjc]
      exact hle
    · exact hord j hj hjc
  | @swap m c d m' hd hlt hmin hs ih =>
    have hcd : c < d := by
      rcases hd.2 with h | h <;> omega
    have hlow : low (m.word c) = m.value c := by
      have h1 := value_eq m c
      unfold high low at *
      unfold value at *
      omega
    have hthrough : (throughInt (m.word c)).toNat = m.value c := by
      rw [throughInt_of_low (by omega), hlow]
    -- the values after the exchange
    have hval : ∀ j, (m.swap c d).value j =
        if j = d then m.value c else if j = c then m.value d else m.value j := by
      intro j
      rw [value_swap, hthrough]
    refine ih (hm.swap hd hlt) (by rw [hval, if_pos rfl]; exact hv) (by omega) ?_ ?_
    · intro j hj hjd e he
      rw [hval j, hval e, if_neg hjd]
      by_cases hjc : j = c
      · rw [if_pos hjc]
        have he' : Child n c e := hjc ▸ he
        have hec : e ≠ c := by
          rcases he'.2 with h | h <;> omega
        split_ifs
        · exact hlt.le
        · exact hmin e he'
      · rw [if_neg hjc]
        have hed : e ≠ d := by
          rcases he.2 with h | h <;> rcases hd.2 with h' | h' <;> omega
        rw [if_neg hed]
        split_ifs with hec
        · exact hpar j hj (hec ▸ he) d hd
        · exact hord j hj hjc e he
    · intro p hp hpd e he
      have hpc : p = c := by
        rcases hpd.2 with h | h <;> rcases hd.2 with h' | h' <;> omega
      have hde : d < e := by
        rcases he.2 with h | h <;> omega
      rw [hval p, hval e, hpc, if_neg hcd.ne, if_pos rfl, if_neg (by omega), if_neg (by omega)]
      exact hord d (by omega) (by omega) e he

/-- What the loop keeps: the zeros on top, and the order from `k` on. -/
structure Ordered (n : ℕ) (w : BitVec 64) (k : ℕ) (m : Memory) : Prop where
  zeroTop : ZeroTop n k m
  small : Small n w m
  order : ∀ j, k ≤ j → OrderedAt n m j

/-- A call of the loop: the pointer at `k` goes below a zero, and is small then. -/
theorem Ordered.step (h : Ordered n w (k + 1) m) (hs : Sift n m k m') (hk : k < n / 2) :
    Ordered n w k m' := by
  refine ⟨h.zeroTop.step hs hk, hs.small h.small, ?_⟩
  cases hs with
  | stop hle =>
    intro j hj
    by_cases hjk : j = k
    · rw [hjk]
      exact hle
    · exact h.order j (by omega)
  | @swap _ _ c _ hc hlt hmin hs =>
    have hkc : k < c := by
      rcases hc.2 with h | h <;> omega
    have hzero : m.value c = 0 := by
      obtain ⟨d, hd, hd'⟩ := exists_child hk
      have hd0 : m.value d = 0 := by
        refine h.zeroTop d ?_ hd.1 ?_ hd' <;> rcases hd.2 with h | h <;> omega
      exact Nat.le_zero.mp (hd0 ▸ hmin d hd)
    have hlow := (h.small.small k (by omega) (by omega)).1
    have hthrough := throughInt_of_low hlow
    refine hs.ordered_of_low (h.small.swap hc hlt) ?_ hkc.le ?_ ?_
    · rw [value_swap, if_pos rfl, hthrough]
      exact hlow
    · intro j hj hjc d hd
      by_cases hjk : j = k
      · rw [value_swap, if_neg hjc, if_pos hjk, hzero]
        exact Nat.zero_le _
      · have hdc : d ≠ c := by
          rcases hd.2 with h | h <;> rcases hc.2 with h' | h' <;> omega
        have hdk : d ≠ k := by
          rcases hd.2 with h | h <;> omega
        rw [value_swap, value_swap, if_neg hjc, if_neg hjk, if_neg hdc, if_neg hdk]
        exact h.order j (by omega) d hd
    · intro p hp hpc d hd
      have hpk : p = k := by
        rcases hpc.2 with h | h <;> rcases hc.2 with h' | h' <;> omega
      rw [value_swap, hpk, if_neg hkc.ne, if_pos rfl, hzero]
      exact Nat.zero_le _

/-! ### The numbers that are lost -/

/-- The sum of the halves of all pointers. -/
def total (n : ℕ) (m : Memory) : ℕ := ∑ j ∈ Finset.range n, (low (m.word j) + high (m.word j))

theorem total_eq (n : ℕ) (m : Memory) : total n m = ∑ i ∈ Finset.range (2 * n), (m i).toNat := by
  induction n with
  | zero => rfl
  | succ n ih =>
    rw [total, Finset.sum_range_succ, ← total, ih, low_word, high_word, Nat.mul_succ,
      Finset.sum_range_succ, Finset.sum_range_succ, Nat.add_assoc]

/-- A sum after one term has taken the place of another and has got a new value itself. -/
theorem sum_update_update {s : Finset ℕ} (hk : k ∈ s) (hc : c ∈ s) (hkc : k ≠ c) (g : ℕ → ℕ)
    (a : ℕ) : ∑ j ∈ s, Function.update (Function.update g k (g c)) c a j + g k = ∑ j ∈ s, g j + a := by
  have hk' : k ∈ s \ {c} := by simp [hk, hkc]
  have hsum : ∑ j ∈ s, g j = g c + (g k + ∑ j ∈ (s \ {c}) \ {k}, g j) := by
    conv_lhs => rw [← Function.update_eq_self c g]
    rw [Finset.sum_update_of_mem hc]
    conv_lhs => rw [← Function.update_eq_self k g]
    rw [Finset.sum_update_of_mem hk', Function.update_eq_self]
  rw [Finset.sum_update_of_mem hc, Finset.sum_update_of_mem hk', hsum]
  omega

theorem Small.total_swap (h : Small n w m) (hc : Child n k c) : total n (m.swap k c) ≤ total n m := by
  have hk : 2 * k + 1 ≠ n ∧ k < n ∧ k ≠ c := by
    have := hc.1
    rcases hc.2 with h | h <;> omega
  have hlow := (h.small k hk.2.1 hk.1).1
  have hthrough := throughInt_of_low hlow
  obtain ⟨g, hg⟩ : ∃ g : ℕ → ℕ, g = fun j => low (m.word j) + high (m.word j) := ⟨_, rfl⟩
  obtain ⟨a, ha⟩ : ∃ a, a = low (throughInt (m.word k)) + high (throughInt (m.word k)) := ⟨_, rfl⟩
  have hswap : total n (m.swap k c) =
      ∑ j ∈ Finset.range n, Function.update (Function.update g k (g c)) c a j := by
    refine Finset.sum_congr rfl fun j _ => ?_
    rw [word_swap, hg, ha]
    simp only [Function.update_apply]
    split_ifs <;> rfl
  have hsum := sum_update_update (Finset.mem_range.mpr hk.2.1) (Finset.mem_range.mpr hc.1) hk.2.2 g a
  have hgk : g k = low (m.word k) + high (m.word k) := by rw [hg]
  have hle : a ≤ g k := by
    rw [ha, hgk]
    unfold low high at *
    omega
  have htotal : total n m = ∑ j ∈ Finset.range n, g j := by rw [hg, total]
  omega

theorem Sift.total_le (h : Sift n m k m') (hm : Small n w m) : total n m' ≤ total n m := by
  induction h with
  | stop => exact le_rfl
  | swap hc hlt hmin hs ih => exact (ih (hm.swap hc hlt)).trans (hm.total_swap hc)

/-! ### The loop -/

/-- What every call keeps holds after the loop, which returns. -/
theorem heapLoop_run {P : ℕ → Memory → Prop} (hn : n ≤ 50) (hk : k ≤ n / 2)
    (hstep : ∀ k m m', k < n / 2 → P (k + 1) m → Sift n m k m' → P k m') (h : P k m) :
    ∃ m', heapLoop n k m = some m' ∧ P 0 m' := by
  induction k generalizing m with
  | zero => exact ⟨m, rfl, h⟩
  | succ k ih =>
    obtain ⟨m₁, hrun, hs⟩ := heap_sift hn (by omega : k < n) (Nat.le_add_left n k)
    obtain ⟨m', hloop, hP⟩ := ih (by omega) (hstep k m m₁ hk h hs)
    refine ⟨m', ?_, hP⟩
    rw [heapLoop, hrun]
    exact hloop

/-! ### The main result -/

/-- The first `n` numbers. -/
def numbers (n : ℕ) (m : Memory) : List CInt := (List.range n).map m

/-- `main` touches nothing outside of `arr`, and leaves a heap of the numbers it has read. -/
def Built (input : List CInt) (rest : Memory) : Prop :=
  ∃ m, main input rest = some m ∧ (numbers input.length m).Perm input ∧
    ∀ k, (2 * k + 1 < input.length → (m k).toInt ≤ (m (2 * k + 1)).toInt) ∧
      (2 * k + 2 < input.length → (m k).toInt ≤ (m (2 * k + 2)).toInt)

/-- So it does, whatever the array held before. -/
def HeapConstruction (input : List CInt) : Prop := ∀ rest, Built input rest

theorem filled_of_lt (h : j < input.length) : filled input rest j = input[j] := by
  rw [filled, List.getD_eq_getElem _ _ h]

theorem filled_of_le (h : input.length ≤ j) : filled input rest j = rest j := by
  rw [filled, List.getD_eq_default _ _ h]

theorem numbers_filled : numbers input.length (filled input rest) = input := by
  refine List.ext_getElem (by simp [numbers]) fun i h1 h2 => ?_
  simp only [numbers, List.getElem_map, List.getElem_range]
  exact filled_of_lt h2

theorem sum_numbers (n : ℕ) (m : Memory) :
    ((numbers n m).map BitVec.toNat).sum = ∑ i ∈ Finset.range n, (m i).toNat := by
  induction n with
  | zero => rfl
  | succ n ih =>
    rw [numbers, List.range_succ, List.map_append, List.map_append, List.sum_append, ← numbers, ih,
      Finset.sum_range_succ]
    rfl

/-- From 51 numbers on the last pointers do not lie in the array. -/
theorem heapLoop_none (hn : 50 < n) : heapLoop n (n / 2) m = none := by
  obtain ⟨k, hk⟩ : ∃ k, n / 2 = k + 1 := ⟨n / 2 - 1, by omega⟩
  obtain ⟨f, hf⟩ : ∃ f, n = f + 1 := ⟨n - 1, by omega⟩
  have hheap : heap n m k n = none := by
    rw [hf, heap, ← hf]
    by_cases h50 : 2 * k + 1 < 50
    · -- the left child is the pointer 49, and the right one is behind the end
      obtain ⟨s, hs⟩ : ∃ s, smaller m n (2 * k + 1) k = some s := by
        rw [smaller, if_pos (by omega), less_of_lt h50 (by omega)]
        exact ⟨_, rfl⟩
      have hright : smaller m n (2 * k + 2) s = none := by
        have hload : m.load (2 * k + 2) = none := if_neg (by omega)
        rw [smaller, if_pos (by omega), less, hload]
        rfl
      rw [hs]
      show (smaller m n (2 * k + 2) s).bind _ = none
      rw [hright]
      rfl
    · have hleft : smaller m n (2 * k + 1) k = none := by
        have hload : m.load (2 * k + 1) = none := if_neg (by omega)
        rw [smaller, if_pos (by omega), less, hload]
        rfl
      rw [hleft]
      rfl
  rw [hk, heapLoop, hheap]
  rfl

/-- Zeros, and one number more that is not negative. -/
def Zeros (input : List CInt) : Prop :=
  (∀ i (h : i < input.length), i < 2 * (input.length / 2) → input[i] = 0) ∧
    ∀ x ∈ input, 0 ≤ x.toInt

/-- On zeros the loop does nothing. -/
theorem Zeros.built (h : Zeros input) (hlen : input.length ≤ 50) : Built input rest := by
  have hzero : ∀ j, j < 2 * (input.length / 2) → filled input rest j = 0 := fun j hj => by
    rw [filled_of_lt (by omega), h.1 j (by omega) hj]
  obtain ⟨m, hrun, hm⟩ := heapLoop_run (P := fun _ m => m = filled input rest) hlen le_rfl
    (fun k m m' hk hm hs => by
      -- the pointer is zero, and nothing is smaller
      have h0 : m.value k = 0 := by
        rw [value, hm, word_toNat, hzero _ (by omega), hzero _ (by omega)]
        rfl
      cases hs with
      | stop => exact hm
      | swap hc hlt => omega) rfl
  refine ⟨m, hrun, ?_, fun k => ?_⟩
  · rw [hm, numbers_filled]
  · have hnonneg : ∀ j, j < input.length → 0 ≤ (m j).toInt := fun j hj => by
      rw [hm, filled_of_lt hj]
      exact h.2 _ (List.getElem_mem hj)
    have hk : 2 * k + 1 < input.length → (m k).toInt = 0 := fun hk => by
      rw [hm, hzero k (by omega)]
      rfl
    exact ⟨fun h1 => hk h1 ▸ hnonneg _ h1, fun h2 => hk (by omega) ▸ hnonneg _ h2⟩

/-- What the array holds behind the numbers in the bad case: zeros, and a number with all bits set next
to the last of an odd number. -/
def behind (n : ℕ) : Memory := fun i => if i = n ∧ n % 2 = 1 then -1 else 0

theorem filled_behind (hj : input.length ≤ j) (hodd : j ≠ input.length ∨ input.length % 2 = 0) :
    filled input (behind input.length) j = 0 := by
  rw [filled_of_le hj, behind, if_neg (by omega)]

theorem zeroTop_filled :
    ZeroTop input.length (input.length / 2) (filled input (behind input.length)) := by
  intro j hj hjn _ hodd
  rw [value, word_toNat, filled_behind (by omega) (by omega), filled_behind (by omega) (by omega)]
  rfl

/-- All numbers of a heap with a zero at its top are zero or more. -/
theorem nonneg_of_heap (h0 : m 0 = 0)
    (hheap : ∀ k, (2 * k + 1 < n → (m k).toInt ≤ (m (2 * k + 1)).toInt) ∧
      (2 * k + 2 < n → (m k).toInt ≤ (m (2 * k + 2)).toInt)) (hj : j < n) : 0 ≤ (m j).toInt := by
  induction j using Nat.strong_induction_on with
  | _ j ih =>
    rcases Nat.eq_zero_or_pos j with rfl | hpos
    · rw [h0]
      exact le_rfl
    · have hp := ih ((j - 1) / 2) (by omega) (by omega)
      rcases Nat.mod_two_eq_zero_or_one j with hmod | hmod
      · have hj2 : 2 * ((j - 1) / 2) + 2 = j := by omega
        have hle := (hheap ((j - 1) / 2)).2
        rw [hj2] at hle
        exact hp.trans (hle hj)
      · have hj1 : 2 * ((j - 1) / 2) + 1 = j := by omega
        have hle := (hheap ((j - 1) / 2)).1
        rw [hj1] at hle
        exact hp.trans (hle hj)

theorem toNat_lt_of_nonneg {x : CInt} (h : 0 ≤ x.toInt) : x.toNat < 2 ^ 31 := by
  rw [BitVec.toInt_eq_toNat_cond] at h
  split_ifs at h with h1 <;> omega

/-- The start of the loop, when no number is negative. -/
theorem ordered_filled (hnonneg : ∀ x ∈ input, 0 ≤ x.toInt) :
    Ordered input.length ((filled input (behind input.length)).word (input.length / 2))
      (input.length / 2) (filled input (behind input.length)) where
  zeroTop := zeroTop_filled
  small := by
    have hlt : ∀ i, i ≠ input.length ∨ input.length % 2 = 0 →
        (filled input (behind input.length) i).toNat < 2 ^ 31 := by
      intro i hi
      by_cases hin : i < input.length
      · rw [filled_of_lt hin]
        exact toNat_lt_of_nonneg (hnonneg _ (List.getElem_mem hin))
      · rw [filled_behind (not_lt.mp hin) hi]
        decide
    constructor
    · intro j hj hodd
      rw [low_word, high_word]
      exact ⟨hlt _ (by omega), hlt _ (by omega)⟩
    · intro j hj
      have hj' : j = input.length / 2 := by omega
      refine ⟨by rw [hj'], ?_⟩
      rw [high_word, ← hj', hj, filled_of_le le_rfl, behind, if_pos ⟨rfl, by omega⟩]
      rfl
  order := by
    rintro j hj d ⟨hd, h | h⟩ <;> omega

/-- The pointers are all zero when the last ones are and the order holds. -/
theorem value_zero_of_leaves (hord : ∀ j, OrderedAt n m j)
    (hleaf : ∀ j, n / 2 ≤ j → j < n → 2 * j + 1 ≠ n → m.value j = 0) (hj : j < n)
    (hodd : 2 * j + 1 ≠ n) : m.value j = 0 := by
  induction hd : n - j using Nat.strong_induction_on generalizing j with
  | _ d ih =>
    by_cases hjn : n / 2 ≤ j
    · exact hleaf j hjn hj hodd
    · obtain ⟨c, hc, hc'⟩ := exists_child (not_le.mp hjn)
      have hjc : j < c := by
        rcases hc.2 with h | h <;> omega
      have hcn := hc.1
      have h0 := ih (n - c) (by omega) hcn hc' rfl
      exact Nat.le_zero.mp (h0 ▸ hord j c hc)

theorem eq_zero_of_toNat {x : CInt} (h : x.toNat = 0) : x = 0 := BitVec.eq_of_toNat_eq h

theorem toNat_zero : (0 : CInt).toNat = 0 := rfl

theorem eq_zero_of_value (h : m.value (j / 2) = 0) : m j = 0 := by
  rw [value, word_toNat] at h
  apply eq_zero_of_toNat
  rcases Nat.mod_two_eq_zero_or_one j with hmod | hmod
  · have hj : 2 * (j / 2) = j := by omega
    rw [hj] at h
    omega
  · have hj : 2 * (j / 2) + 1 = j := by omega
    rw [hj] at h
    omega

theorem Built.zeros (h : Built input (behind input.length)) (h2 : 2 ≤ input.length)
    (h50 : input.length ≤ 50) : Zeros input := by
  obtain ⟨m, hrun, hperm, hheap⟩ := h
  obtain ⟨n, hn⟩ : ∃ n, n = input.length := ⟨_, rfl⟩
  obtain ⟨m₀, hm₀⟩ : ∃ m₀, m₀ = filled input (behind n) := ⟨_, rfl⟩
  have hfront : ∀ i (hi : i < input.length), m₀ i = input[i] := fun i hi => hm₀ ▸ filled_of_lt hi
  have hbehind : ∀ i, n ≤ i → i ≠ n ∨ n % 2 = 0 → m₀ i = 0 := fun i hi hodd => by
    rw [hm₀, hn]
    exact filled_behind (hn ▸ hi) (hn ▸ hodd)
  -- the zero that comes up makes all numbers zero or more
  have hnonneg : ∀ x ∈ input, 0 ≤ x.toInt := by
    obtain ⟨m', hrun', hzero⟩ := heapLoop_run (P := ZeroTop input.length) h50 le_rfl
      (fun k m m' hk h hs => h.step hs hk) zeroTop_filled
    obtain rfl : m = m' := Option.some.inj (hrun.symm.trans hrun')
    have h0 : m.value 0 = 0 := hzero 0 le_rfl (by omega) le_rfl (by omega)
    intro x hx
    obtain ⟨i, hi, rfl⟩ := List.mem_map.mp (hperm.mem_iff.mpr hx)
    exact nonneg_of_heap (eq_zero_of_value h0) hheap (List.mem_range.mp hi)
  obtain ⟨m', hrun', hord, htotal⟩ := heapLoop_run
    (P := fun k m => Ordered input.length
      ((filled input (behind input.length)).word (input.length / 2)) k m ∧
      total input.length m ≤ total input.length (filled input (behind input.length))) h50 le_rfl
    (fun k m m' hk h hs => ⟨h.1.step hs hk, (hs.total_le h.1.small).trans h.2⟩)
    ⟨ordered_filled hnonneg, le_rfl⟩
  obtain rfl : m = m' := Option.some.inj (hrun.symm.trans hrun')
  rw [← hn] at hord htotal h2 hperm
  rw [← hm₀] at hord htotal
  have hsum : ∑ i ∈ Finset.range n, (m i).toNat = ∑ i ∈ Finset.range n, (m₀ i).toNat := by
    have hinput : numbers n m₀ = input := by rw [hm₀, hn, numbers_filled]
    rw [← sum_numbers, ← sum_numbers, hinput]
    exact (hperm.map _).sum_eq
  have hlast : ∀ j, 2 * j + 1 = n → m.word j = m₀.word j := fun j hj => by
    have hj' : j = n / 2 := by omega
    rw [(hord.small.last j hj).1, hj']
  -- nothing has been moved behind the numbers
  have hback : ∀ i, n ≤ i → i < 2 * n → i ≠ n ∨ n % 2 = 0 → m i = 0 := by
    rw [total_eq, total_eq, Nat.two_mul, Finset.sum_range_add, Finset.sum_range_add, hsum] at htotal
    obtain ⟨n', hn'⟩ : ∃ n', n = n' + 1 := ⟨n - 1, by omega⟩
    have hstart : ∑ i ∈ Finset.range n', (m₀ (n + (i + 1))).toNat = 0 :=
      Finset.sum_eq_zero fun i _ => by rw [hbehind _ (by omega) (by omega), toNat_zero]
    have hnext : (m₀ (n + 0)).toNat ≤ (m (n + 0)).toNat := by
      rcases Nat.mod_two_eq_zero_or_one n with hmod | hmod
      · rw [Nat.add_zero, hbehind _ le_rfl (Or.inr hmod)]
        exact Nat.zero_le _
      · have hj : 2 * (n / 2) + 1 = n := by omega
        have hw := congrArg high (hlast _ hj)
        rw [high_word, high_word, hj] at hw
        exact hw.ge
    have hle := Nat.le_of_add_le_add_left htotal
    rw [show Finset.range n = Finset.range (n' + 1) from hn' ▸ rfl, Finset.sum_range_succ',
      Finset.sum_range_succ', hstart] at hle
    have hrest : ∑ i ∈ Finset.range n', (m (n + (i + 1))).toNat = 0 := by omega
    intro i h1 h2 hodd
    apply eq_zero_of_toNat
    by_cases hin : i = n
    · have h0 := hbehind n le_rfl (Or.inr (by omega))
      rw [Nat.add_zero, h0, toNat_zero] at hle
      rw [hin]
      omega
    · have h0 := Finset.sum_eq_zero_iff.mp hrest (i - n - 1) (Finset.mem_range.mpr (by omega))
      rwa [show n + (i - n - 1 + 1) = i by omega] at h0
  have hzero : ∀ i, i < 2 * (n / 2) → m i = 0 := by
    intro i hi
    refine eq_zero_of_value (value_zero_of_leaves (fun j => hord.order j (Nat.zero_le j)) ?_
      (by omega) (by omega))
    intro j h1 h2 hodd
    rw [value, word_toNat, hback _ (by omega) (by omega) (by omega),
      hback _ (by omega) (by omega) (by omega)]
    rfl
  -- so the numbers have been zeros, apart from the last of an odd number
  have hsplit : n = 2 * (n / 2) + n % 2 := by omega
  have hodd : ∑ i ∈ Finset.range (n % 2), (m (2 * (n / 2) + i)).toNat =
      ∑ i ∈ Finset.range (n % 2), (m₀ (2 * (n / 2) + i)).toNat := by
    refine Finset.sum_congr rfl fun i hi => ?_
    have hi' := Finset.mem_range.mp hi
    have hi0 : i = 0 := by omega
    have hw := congrArg low (hlast (n / 2) (by omega))
    rw [low_word, low_word] at hw
    rw [hi0, Nat.add_zero, hw]
  have hfirst : ∑ i ∈ Finset.range (2 * (n / 2)), (m₀ i).toNat = 0 := by
    have h0 : ∑ i ∈ Finset.range (2 * (n / 2)), (m i).toNat = 0 :=
      Finset.sum_eq_zero fun i hi => by
        rw [hzero i (Finset.mem_range.mp hi), toNat_zero]
    rw [hsplit, Finset.sum_range_add, Finset.sum_range_add, hodd, h0] at hsum
    omega
  refine ⟨fun i hi h => ?_, hnonneg⟩
  rw [← hfront i hi]
  apply eq_zero_of_toNat
  exact Finset.sum_eq_zero_iff.mp hfirst i (Finset.mem_range.mpr (hn ▸ h))

/-- **`main` builds a heap** of 0 or 1 numbers, and of at most 50 numbers that are all zero but the last
of an odd number of them, which is not negative; of no other numbers does it do so without relying on
what the array held before. -/
theorem heap_construction (input : List CInt) (hlen : input.length ≤ 100) :
    HeapConstruction input ↔ input.length ≤ 1 ∨ input.length ≤ 50 ∧ Zeros input := by
  constructor
  · intro h
    by_cases h1 : input.length ≤ 1
    · exact Or.inl h1
    · by_cases h50 : input.length ≤ 50
      · exact Or.inr ⟨h50, (h _).zeros (by omega) h50⟩
      · obtain ⟨m, hrun, -⟩ := h 0
        rw [main, heapLoop_none (not_le.mp h50)] at hrun
        cases hrun
  · rintro (h1 | ⟨h50, hz⟩) rest
    · have h0 : input.length / 2 = 0 := by omega
      refine ⟨filled input rest, ?_, ?_, fun k => ⟨fun h => by omega, fun h => by omega⟩⟩
      · rw [main, h0]
        rfl
      · rw [numbers_filled]
    · exact hz.built h50

theorem heap_construction_three : HeapConstruction [0, 0, 7] := by
  have hnonneg : ∀ x ∈ ([0, 0, 7] : List CInt), 0 ≤ x.toInt := by simp
  refine (heap_construction [0, 0, 7] (by decide)).mpr (Or.inr ⟨by decide, fun i h hi => ?_, hnonneg⟩)
  have hi' : i < 2 := hi
  obtain rfl | rfl : i = 0 ∨ i = 1 := by omega
  · rfl
  · rfl

/-- With zeros behind them, `main` turns the numbers 1 and 2 into two zeros. -/
theorem heap_construction_counterexample : ∃ input : List CInt, input = [1, 2] ∧
    input.length ≤ 100 ∧ (∃ m, main input (fun _ => 0) = some m ∧ numbers 2 m = [0, 0]) ∧
    ¬ HeapConstruction input := by
  have hrun : main [1, 2] (fun _ => 0) = some ((filled [1, 2] fun _ => 0).swap 0 1) := rfl
  have hnum : numbers 2 ((filled [1, 2] fun _ => 0).swap 0 1) = [0, 0] := rfl
  refine ⟨[1, 2], rfl, Nat.le_of_ble_eq_true rfl, ⟨_, hrun, hnum⟩, fun h => ?_⟩
  obtain ⟨m, hm, hperm, -⟩ := h fun _ => 0
  obtain rfl := Option.some.inj (hrun.symm.trans hm)
  have hlen : ([1, 2] : List CInt).length = 2 := rfl
  rw [hlen, hnum] at hperm
  have hmem : (1 : CInt) ∈ ([0, 0] : List CInt) := hperm.mem_iff.mpr (List.mem_cons_self ..)
  simp at hmem

end OsSemester.Hw1.Heap
