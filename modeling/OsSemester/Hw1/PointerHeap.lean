import Mathlib

/-!
# Heap construction (`5/main.c`)

`main` keeps its numbers in `int arr[100]`, but `heap` is declared with an `int **`, so that its
elements are pointers: eight bytes each, two numbers of the caller.  `Sift` describes what a call of
`heap` does to them.
-/

namespace OsSemester.Hw1.Heap

/-- A C `int`. -/
abbrev CInt := BitVec 32

/-- The numbers in `arr`; only the places below 100 are its own. -/
abbrev Memory := ℕ → CInt

namespace Memory

/-- The pointer that lies at the place `i` of an array of pointers. -/
def word (m : Memory) (i : ℕ) : BitVec 64 := m (2 * i + 1) ++ m (2 * i)

/-- The pointer as the number by which it is compared. -/
def value (m : Memory) (i : ℕ) : ℕ := (m.word i).toNat

/-- The memory after a pointer has been stored. -/
def setWord (m : Memory) (i : ℕ) (v : BitVec 64) : Memory :=
  Function.update (Function.update m (2 * i) (v.setWidth 32)) (2 * i + 1) (v.extractLsb' 32 32)

/-- `arr[i]`; nothing can be read outside of the array. -/
def load (m : Memory) (i : ℕ) : Option (BitVec 64) := if 2 * i + 1 < 100 then some (m.word i) else none

/-- `arr[i] = v;` -/
def store (m : Memory) (i : ℕ) (v : BitVec 64) : Option Memory :=
  if 2 * i + 1 < 100 then some (m.setWord i v) else none

/-- `arr[left] < arr[k]` -/
def less (m : Memory) (left k : ℕ) : Option Bool := do
  let a ← m.load left
  let b ← m.load k
  return a < b

end Memory

/-- `if(child < n && arr[child] < arr[smallest]) smallest = child;` -/
def smaller (m : Memory) (n child smallest : ℕ) : Option ℕ :=
  if child < n then (m.less child smallest).map fun lt => if lt then child else smallest
  else some smallest

/-- `heap`, with room for a recursion as deep as the first argument. -/
def heap : ℕ → Memory → ℕ → ℕ → Option Memory
  | 0, _, _, _ => none
  | fuel + 1, m, k, n => do
    let left := 2 * k + 1
    let right := 2 * k + 2
    let smallest ← smaller m n left k
    let smallest' ← smaller m n right smallest
    if smallest' = k then some m
    else
      -- `tmp` is an `int`: half of the pointer is lost, and the sign fills it up again
      let tmp := (← m.load k).setWidth 32
      let m' ← m.store k (← m.load smallest')
      let m'' ← m'.store smallest' (tmp.signExtend 64)
      heap fuel m'' smallest' n

/-- The loop of `main` from `i = k - 1` down to 0. -/
def heapLoop (n : ℕ) : ℕ → Memory → Option Memory
  | 0, m => some m
  | k + 1, m => do
    let m' ← heap n m k n
    heapLoop n k m'

/-- The array when the numbers have been read; the places behind them hold what they held before. -/
def filled (input : List CInt) (rest : Memory) : Memory := fun i => input.getD i (rest i)

/-- `main`: the array after the loop. -/
def main (input : List CInt) (rest : Memory) : Option Memory :=
  heapLoop input.length (input.length / 2) (filled input rest)

/-! ### Words -/

namespace Memory

variable {m : Memory} {i j : ℕ} {v : BitVec 64}

/-- The halves of a pointer. -/
def low (v : BitVec 64) : ℕ := v.toNat % 2 ^ 32
def high (v : BitVec 64) : ℕ := v.toNat / 2 ^ 32

theorem word_toNat (m : Memory) (i : ℕ) :
    (m.word i).toNat = (m (2 * i)).toNat + 2 ^ 32 * (m (2 * i + 1)).toNat := by
  have hlow := (m (2 * i)).isLt
  rw [word, BitVec.toNat_append, Nat.shiftLeft_eq, ← Nat.shiftLeft_eq,
    ← Nat.shiftLeft_add_eq_or_of_lt hlow, Nat.shiftLeft_eq]
  omega

theorem low_word (m : Memory) (i : ℕ) : low (m.word i) = (m (2 * i)).toNat := by
  have h1 := word_toNat m i
  have h2 := (m (2 * i)).isLt
  unfold low
  omega

theorem high_word (m : Memory) (i : ℕ) : high (m.word i) = (m (2 * i + 1)).toNat := by
  have h1 := word_toNat m i
  have h2 := (m (2 * i)).isLt
  unfold high
  omega

theorem word_setWord (m : Memory) (i : ℕ) (v : BitVec 64) :
    (m.setWord i v).word = Function.update m.word i v := by
  funext j
  apply BitVec.eq_of_toNat_eq
  rw [word_toNat]
  by_cases hj : j = i
  · have h1 := v.isLt
    rw [hj, Function.update_self, setWord, Function.update_self,
      Function.update_of_ne (by omega : 2 * i ≠ 2 * i + 1), Function.update_self, BitVec.toNat_setWidth,
      BitVec.extractLsb'_toNat, Nat.shiftRight_eq_div_pow]
    omega
  · rw [Function.update_of_ne hj, setWord, Function.update_of_ne (by omega),
      Function.update_of_ne (by omega), Function.update_of_ne (by omega),
      Function.update_of_ne (by omega), word_toNat]

/-- What a pointer becomes when it goes through an `int`. -/
def throughInt (v : BitVec 64) : BitVec 64 := (v.setWidth 32).signExtend 64

theorem throughInt_of_low (h : low v < 2 ^ 31) : (throughInt v).toNat = low v := by
  have hmsb : (v.setWidth 32).msb = false := by
    rw [BitVec.msb_eq_false_iff_two_mul_lt, BitVec.toNat_setWidth]
    unfold low at h
    omega
  rw [throughInt, BitVec.signExtend_eq_setWidth_of_msb_false hmsb, BitVec.toNat_setWidth,
    BitVec.toNat_setWidth]
  unfold low at *
  omega

/-- The exchange of two pointers in `heap`. -/
def swap (m : Memory) (k c : ℕ) : Memory := (m.setWord k (m.word c)).setWord c (throughInt (m.word k))

theorem word_swap (m : Memory) (k c : ℕ) : (m.swap k c).word =
    Function.update (Function.update m.word k (m.word c)) c (throughInt (m.word k)) := by
  rw [swap, word_setWord, word_setWord]

end Memory

/-! ### What a call does -/

/-- `c` is the place of a child of `k`. -/
def Child (n k c : ℕ) : Prop := c < n ∧ (c = 2 * k + 1 ∨ c = 2 * k + 2)

/-- The call of `heap` at the place `k` turns `m` into `m'`. -/
inductive Sift (n : ℕ) : Memory → ℕ → Memory → Prop
  | stop {m k} : (∀ d, Child n k d → m.value k ≤ m.value d) → Sift n m k m
  | swap {m k c m'} : Child n k c → m.value c < m.value k → (∀ d, Child n k d → m.value c ≤ m.value d) →
      Sift n (m.swap k c) c m' → Sift n m k m'

section Spec

variable {m : Memory} {n k c fuel : ℕ}

theorem Memory.load_of_lt (h : k < 50) : m.load k = some (m.word k) := if_pos (by omega)

theorem Memory.less_of_lt (hc : c < 50) (hk : k < 50) :
    m.less c k = some (decide (m.value c < m.value k)) := by
  rw [Memory.less, load_of_lt hc, load_of_lt hk]
  rfl

theorem smaller_spec {s : ℕ} (hn : n ≤ 50) (hs : s < n) : ∃ t, smaller m n c s = some t ∧ t < n ∧
    (t = s ∨ t = c ∧ m.value c < m.value s) ∧ m.value t ≤ m.value s ∧ (c < n → m.value t ≤ m.value c) := by
  unfold smaller
  by_cases hc : c < n
  · rw [if_pos hc, Memory.less_of_lt (by omega) (by omega)]
    by_cases hlt : m.value c < m.value s
    · exact ⟨c, by simp [hlt], hc, Or.inr ⟨rfl, hlt⟩, Nat.le_of_lt hlt, fun _ => Nat.le_refl _⟩
    · exact ⟨s, by simp [hlt], hs, Or.inl rfl, le_rfl, fun _ => not_lt.mp hlt⟩
  · exact ⟨s, if_neg hc, hs, Or.inl rfl, le_rfl, fun h => absurd h hc⟩

/-- The place that `heap` finds: `k` itself, or the child with the smaller pointer. -/
theorem heap_smallest (hn : n ≤ 50) (hk : k < n) : ∃ c,
    (∀ fuel, heap (fuel + 1) m k n = if c = k then some m else heap fuel (m.swap k c) c n) ∧
    (c = k ∨ Child n k c ∧ m.value c < m.value k) ∧ ∀ d, Child n k d → m.value c ≤ m.value d := by
  obtain ⟨s, hs, hsn, hsk, hsle, hleft⟩ := smaller_spec (m := m) (c := 2 * k + 1) hn hk
  obtain ⟨c, hc, hcn, hcs, hcle, hright⟩ := smaller_spec (m := m) (c := 2 * k + 2) hn hsn
  have hstore : ∀ (m : Memory) i v, i < n → m.store i v = some (m.setWord i v) :=
    fun m i v hi => if_pos (by omega)
  refine ⟨c, fun fuel => ?_, ?_, ?_⟩
  · simp only [heap, hs, hc, Option.bind_eq_bind, Option.bind_some,
      Memory.load_of_lt (lt_of_lt_of_le hk hn), Memory.load_of_lt (lt_of_lt_of_le hcn hn),
      hstore _ _ _ hk, hstore _ _ _ hcn]
    rfl
  · rcases hcs with rfl | ⟨rfl, hlt⟩
    · rcases hsk with rfl | ⟨rfl, hlt⟩
      · exact Or.inl rfl
      · exact Or.inr ⟨⟨hcn, Or.inl rfl⟩, hlt⟩
    · exact Or.inr ⟨⟨hcn, Or.inr rfl⟩, lt_of_lt_of_le hlt hsle⟩
  · rintro d ⟨hd, rfl | rfl⟩
    · exact Nat.le_trans hcle (hleft hd)
    · exact hright hd

/-- **A call returns**, with the array as `Sift` says, when all `n` pointers lie inside of it. -/
theorem heap_sift (hn : n ≤ 50) (hk : k < n) (hfuel : n ≤ k + fuel) :
    ∃ m', heap fuel m k n = some m' ∧ Sift n m k m' := by
  induction fuel generalizing m k with
  | zero => omega
  | succ fuel ih =>
    obtain ⟨c, hrun, hc, hmin⟩ := heap_smallest (m := m) hn hk
    rw [hrun fuel]
    rcases hc with rfl | ⟨hchild, hlt⟩
    · exact ⟨m, if_pos rfl, .stop hmin⟩
    · have hck : c ≠ k := by
        rintro rfl
        exact lt_irrefl _ hlt
      have hkc : k < c := by
        rcases hchild.2 with h | h <;> omega
      obtain ⟨m', hm', hs⟩ := ih (m := m.swap k c) hchild.1 (by omega)
      exact ⟨m', by rw [if_neg hck, hm'], .swap hchild hlt hmin hs⟩

end Spec

end OsSemester.Hw1.Heap
