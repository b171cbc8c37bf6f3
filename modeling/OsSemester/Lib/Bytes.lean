import Mathlib

/-!
# Little-endian fields in an array of bytes

`field off len` reads the `len` bytes from `off` on as a number and `setField` writes one.  A field
read after it has been written has the value written, and other fields keep theirs.
-/

namespace OsSemester

/-- An array of `N` bytes. -/
abbrev Bytes (N : ℕ) := Fin N → UInt8

namespace Bytes

variable {N : ℕ} {d d' : Bytes N} {off off' len len' i v : ℕ}

/-- The byte at `i`, and 0 behind the end. -/
def get (d : Bytes N) (i : ℕ) : UInt8 := if h : i < N then d ⟨i, h⟩ else 0

/-- The number in the `len` bytes from `off` on. -/
def field (d : Bytes N) (off : ℕ) : ℕ → ℕ
  | 0 => 0
  | len + 1 => (d.get off).toNat + 256 * d.field (off + 1) len

/-- The array with `v` in the `len` bytes from `off` on. -/
def setField (d : Bytes N) (off len v : ℕ) : Bytes N := fun j =>
  if off ≤ j ∧ j < off + len then UInt8.ofNat (v / 256 ^ ((j : ℕ) - off)) else d j

theorem get_setField (hi : i < N) : (d.setField off len v).get i =
    if off ≤ i ∧ i < off + len then UInt8.ofNat (v / 256 ^ (i - off)) else d.get i := by
  simp only [get, setField, dif_pos hi]

theorem field_lt (d : Bytes N) (off len : ℕ) : d.field off len < 256 ^ len := by
  induction len generalizing off with
  | zero => exact Nat.one_pos
  | succ len ih =>
    have h1 := (d.get off).toNat_lt
    have h2 := ih (off + 1)
    rw [field, pow_succ]
    omega

/-- A field depends on its own bytes. -/
theorem field_congr (h : ∀ i, off ≤ i → i < off + len → d.get i = d'.get i) :
    d.field off len = d'.field off len := by
  induction len generalizing off with
  | zero => rfl
  | succ len ih =>
    rw [field, field, h off le_rfl (by omega),
      ih fun i h1 h2 => h i (by omega) (by omega)]

theorem field_zero (off len : ℕ) : (0 : Bytes N).field off len = 0 := by
  induction len generalizing off with
  | zero => rfl
  | succ len ih =>
    have h0 : (0 : Bytes N).get off = 0 := by
      unfold get
      split_ifs <;> rfl
    rw [field, ih, h0]
    rfl

/-- A field that has been written. -/
theorem field_setField (h : off + len ≤ N) (hv : v < 256 ^ len) :
    (d.setField off len v).field off len = v := by
  induction len generalizing off v d with
  | zero =>
    rw [pow_zero, Nat.lt_one_iff] at hv
    rw [hv, field]
  | succ len ih =>
    have hv' : v / 256 < 256 ^ len := by
      rw [pow_succ] at hv
      exact Nat.div_lt_of_lt_mul (by omega)
    -- the other bytes are those of the quotient
    have hrest : (d.setField off (len + 1) v).field (off + 1) len =
        (d.setField (off + 1) len (v / 256)).field (off + 1) len := by
      refine field_congr fun i h1 h2 => ?_
      rw [get_setField (by omega), get_setField (by omega), if_pos ⟨by omega, by omega⟩,
        if_pos ⟨h1, h2⟩, Nat.div_div_eq_div_mul, ← pow_succ']
      congr 4
      omega
    rw [field, hrest, ih (by omega) hv', get_setField (by omega), if_pos ⟨le_rfl, by omega⟩,
      Nat.sub_self, pow_zero, Nat.div_one, UInt8.toNat_ofNat']
    omega

/-- A field besides the one that has been written. -/
theorem field_setField_of_disjoint (h : off' + len' ≤ off ∨ off + len ≤ off') (hN : off' + len' ≤ N) :
    (d.setField off len v).field off' len' = d.field off' len' := by
  refine field_congr fun i h1 h2 => ?_
  rw [get_setField (by omega), if_neg (by omega)]

end Bytes

end OsSemester
