import Mathlib

/-!
# Ring buffers with free-running indices

The elements between two indices of a ring buffer lie in an array of `size` places.  The indices are
machine integers that only count upwards and wrap around; the place of an index is its remainder by
`size`, which is well defined as `size` divides the number of values of an index.

`Ring.Queued data size r w q`: the elements from index `r` to index `w` are the queue `q`.  Putting
an element in at `w`, taking one out at `r` or at `w` and putting one back keeps this, the indices
are equal just when the queue is empty, and `size` apart just when it is full.
-/

namespace OsSemester.Ring

variable {α : Type*} {n : ℕ}

/-- The elements of the ring from the index `r` to the index `w`. -/
structure Queued (data : ℕ → α) (size : ℕ) (r w : BitVec n) (q : List α) : Prop where
  room : q.length ≤ size
  next : w = r + BitVec.ofNat n q.length
  get : ∀ i (h : i < q.length), data ((r.toNat + i) % size) = q[i]

variable {data : ℕ → α} {size : ℕ} {r w : BitVec n} {q : List α} {x : α}

/-- Places are counted on over the end of the indices. -/
theorem place_add (hd : size ∣ 2 ^ n) (r : BitVec n) (k : ℕ) :
    (r + BitVec.ofNat n k).toNat % size = (r.toNat + k) % size := by
  rw [BitVec.toNat_add, BitVec.toNat_ofNat, Nat.add_mod_mod, Nat.mod_mod_of_dvd _ hd]

theorem place_succ (hd : size ∣ 2 ^ n) (r : BitVec n) (i : ℕ) :
    ((r + 1).toNat + i) % size = (r.toNat + (i + 1)) % size := by
  have hone := place_add hd r 1
  rw [Nat.add_mod, show r + 1 = r + BitVec.ofNat n 1 from rfl, hone, ← Nat.add_mod]
  congr 1
  omega

/-- Different elements of a queue have different places. -/
theorem place_ne {a i j : ℕ} (hij : i < j) (hj : j < i + size) :
    (a + i) % size ≠ (a + j) % size := by
  intro h
  obtain ⟨k, hk⟩ : size ∣ j - i := by
    have hdvd := (Nat.modEq_iff_dvd' (by omega : a + i ≤ a + j)).1 h
    rwa [Nat.add_sub_add_left] at hdvd
  rcases k with _ | k
  · omega
  · have hle : size ≤ size * (k + 1) := Nat.le_mul_of_pos_right _ k.succ_pos
    omega

namespace Queued

theorem empty (data : ℕ → α) (size : ℕ) (r : BitVec n) : Queued data size r r [] :=
  ⟨Nat.zero_le _, by simp, fun i h => absurd h (Nat.not_lt_zero i)⟩

theorem toNat_sub (hs : size < 2 ^ n) (h : Queued data size r w q) :
    (w - r).toNat = q.length := by
  have hlt : q.length < 2 ^ n := Nat.lt_of_le_of_lt h.room hs
  rw [h.next, BitVec.add_comm, BitVec.add_sub_cancel, BitVec.toNat_ofNat, Nat.mod_eq_of_lt hlt]

theorem eq_add_iff (hs : size < 2 ^ n) (h : Queued data size r w q) {k : ℕ} (hk : k ≤ size) :
    w = r + BitVec.ofNat n k ↔ q.length = k := by
  constructor
  · intro hw
    have hsub := h.toNat_sub hs
    rw [hw, BitVec.add_comm, BitVec.add_sub_cancel, BitVec.toNat_ofNat,
      Nat.mod_eq_of_lt (by omega)] at hsub
    exact hsub.symm
  · rintro rfl
    exact h.next

theorem eq_iff (hs : size < 2 ^ n) (h : Queued data size r w q) : r = w ↔ q = [] := by
  have hadd := h.eq_add_iff hs (Nat.zero_le size)
  rw [BitVec.add_zero, List.length_eq_zero_iff] at hadd
  rw [← hadd, eq_comm]

/-- An element goes in at the end. -/
theorem push (hd : size ∣ 2 ^ n) (h : Queued data size r w q) (hq : q.length < size) (x : α) :
    Queued (Function.update data (w.toNat % size) x) size r (w + 1) (q ++ [x]) := by
  refine ⟨by rw [List.length_append]; exact hq, ?_, fun i hi => ?_⟩
  · rw [h.next, List.length_append, List.length_singleton, BitVec.ofNat_add, BitVec.add_assoc]
    rfl
  · rw [h.next, place_add hd]
    rw [List.length_append, List.length_singleton] at hi
    rcases Nat.lt_succ_iff_lt_or_eq.1 hi with hlt | rfl
    · rw [Function.update_of_ne (place_ne hlt (by omega)), h.get i hlt,
        List.getElem_append_left hlt]
    · simp

/-- The first element comes out. -/
theorem pop (hd : size ∣ 2 ^ n) (h : Queued data size r w (x :: q)) :
    data (r.toNat % size) = x ∧ Queued data size (r + 1) w q := by
  refine ⟨h.get 0 (Nat.succ_pos _), ?_, ?_, fun i hi => ?_⟩
  · have hroom := h.room
    rw [List.length_cons] at hroom
    omega
  · rw [h.next, List.length_cons, Nat.add_comm, BitVec.ofNat_add, BitVec.add_assoc]
    rfl
  · have hget := h.get (i + 1) (by simpa using hi)
    rw [place_succ hd, hget, List.getElem_cons_succ]

/-- The elements up to an index in between. -/
theorem take {a b : List α} (h : Queued data size r w (a ++ b)) :
    Queued data size r (r + BitVec.ofNat n a.length) a := by
  have hroom := h.room
  rw [List.length_append] at hroom
  refine ⟨by omega, rfl, fun i hi => ?_⟩
  rw [h.get i (by rw [List.length_append]; omega), List.getElem_append_left hi]

/-- The last element is taken back. -/
theorem dropLast (h : Queued data size r w (q ++ [x])) : Queued data size r (w - 1) q := by
  have hroom := h.room
  rw [List.length_append, List.length_singleton] at hroom
  refine ⟨by omega, ?_, fun i hi => ?_⟩
  · rw [h.next, List.length_append, List.length_singleton, BitVec.ofNat_add, ← BitVec.add_assoc]
    exact BitVec.add_sub_cancel _ _
  · rw [h.get i (by rw [List.length_append]; omega), List.getElem_append_left hi]

/-- The last element. -/
theorem last (hd : size ∣ 2 ^ n) (h : Queued data size r w (q ++ [x])) :
    data ((w - 1).toNat % size) = x := by
  rw [h.dropLast.next, place_add hd, h.get q.length (by simp)]
  simp

end Queued

end OsSemester.Ring
