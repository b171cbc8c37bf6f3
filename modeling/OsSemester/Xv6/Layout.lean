import OsSemester.Xv6.Block

/-!
# The layout of the file system (`fs.h`, `stat.h`)

Where the inodes and the bits of the free map lie, the bytes of `struct dinode`, and the blocks of a
file: the first `NDIRECT` of them are listed in the inode, the next `NINDIRECT` in its indirect block.
-/

namespace OsSemester

namespace Bytes

variable {N : ℕ} {d : Bytes N} {off len v : ℕ}

/-- The bytes of a number, the lowest first, are a field. -/
theorem field_of_get (h : ∀ k, k < len → d.get (off + k) = UInt8.ofNat (v / 256 ^ k))
    (hv : v < 256 ^ len) : d.field off len = v := by
  induction len generalizing off v with
  | zero =>
    rw [pow_zero, Nat.lt_one_iff] at hv
    rw [hv, field]
  | succ len ih =>
    have hv' : v / 256 < 256 ^ len := by
      rw [pow_succ] at hv
      exact Nat.div_lt_of_lt_mul (by omega)
    have hrest : d.field (off + 1) len = v / 256 := by
      refine ih (fun k hk => ?_) hv'
      rw [Nat.add_assoc, Nat.add_comm 1, h (k + 1) (by omega), Nat.div_div_eq_div_mul, pow_succ']
    rw [field, hrest, ← Nat.add_zero off, h 0 (by omega), pow_zero, Nat.div_one,
      UInt8.toNat_ofNat']
    omega

/-- `memmove` of `len` bytes from `src` to the place `off`. -/
def move (d : Bytes N) (off : ℕ) (src : ℕ → UInt8) (len : ℕ) : Bytes N := fun j =>
  if off ≤ j ∧ (j : ℕ) < off + len then src (j - off) else d j

theorem get_move {src : ℕ → UInt8} {i : ℕ} (hi : i < N) : (d.move off src len).get i =
    if off ≤ i ∧ i < off + len then src (i - off) else d.get i := by
  simp only [get, move, dif_pos hi]

end Bytes

namespace Xv6

/-! ### `fs.h`, `stat.h` -/

abbrev NDIRECT : ℕ := 12
abbrev NINDIRECT : ℕ := BSIZE / 4
abbrev MAXFILE : ℕ := NDIRECT + NINDIRECT

/-- Inodes per block. -/
abbrev IPB : ℕ := BSIZE / 64

/-- Bitmap bits per block. -/
abbrev BPB : ℕ := BSIZE * 8

abbrev T_DIR : ℕ := 1
abbrev T_FILE : ℕ := 2
abbrev T_DEV : ℕ := 3

/-- Block containing inode `i`. -/
def IBLOCK (i : ℕ) (sb : Superblock) : Blockno := (i / IPB + sb.inodestart) % 2 ^ 32

/-- Block of free map containing bit for block `b`. -/
def BBLOCK (b : ℕ) (sb : Superblock) : Blockno := (b / BPB + sb.bmapstart) % 2 ^ 32

/-- `struct dinode`; the words in `addrs` are the blocks listed in the inode and the indirect block. -/
@[ext]
structure Dinode where
  type : ℕ
  major : ℕ
  minor : ℕ
  nlink : ℕ
  size : ℕ
  addrs : Fin (NDIRECT + 1) → ℕ

namespace Dinode

/-- The fields have the sizes of their types. -/
structure Fits (din : Dinode) : Prop where
  type : din.type < 2 ^ 16
  major : din.major < 2 ^ 16
  minor : din.minor < 2 ^ 16
  nlink : din.nlink < 2 ^ 16
  size : din.size < 2 ^ 32
  addrs : ∀ k, din.addrs k < 2 ^ 32

/-- The byte `k` of the structure. -/
def byte (din : Dinode) (k : ℕ) : UInt8 :=
  if k < 2 then UInt8.ofNat (din.type / 256 ^ k)
  else if k < 4 then UInt8.ofNat (din.major / 256 ^ (k - 2))
  else if k < 6 then UInt8.ofNat (din.minor / 256 ^ (k - 4))
  else if k < 8 then UInt8.ofNat (din.nlink / 256 ^ (k - 6))
  else if k < 12 then UInt8.ofNat (din.size / 256 ^ (k - 8))
  else UInt8.ofNat (din.addrs (Fin.ofNat _ ((k - 12) / 4)) / 256 ^ ((k - 12) % 4))

/-- `addrs[bn]` of one of the first `NDIRECT` blocks. -/
def direct (din : Dinode) (bn : ℕ) : Blockno := din.addrs (Fin.ofNat _ bn)

/-- `addrs[NDIRECT]` -/
def indirect (din : Dinode) : Blockno := din.addrs (Fin.ofNat _ NDIRECT)

/-- `addrs[k] = a;` -/
def setAddr (din : Dinode) (k a : ℕ) : Dinode :=
  { din with addrs := Function.update din.addrs (Fin.ofNat _ k) a }

variable {din : Dinode} {k bn a : ℕ}

theorem ofNat_inj (hk : k ≤ NDIRECT) (hbn : bn ≤ NDIRECT) :
    (Fin.ofNat (NDIRECT + 1) k = Fin.ofNat (NDIRECT + 1) bn) ↔ k = bn := by
  rw [Fin.ext_iff, Fin.val_ofNat, Fin.val_ofNat]
  simp only [NDIRECT] at *
  omega

theorem direct_setAddr (hk : k ≤ NDIRECT) (hbn : bn < NDIRECT) :
    (din.setAddr k a).direct bn = if bn = k then a else din.direct bn := by
  simp only [direct, setAddr, Function.update_apply, ofNat_inj hbn.le hk]

theorem indirect_setAddr (hk : k ≤ NDIRECT) :
    (din.setAddr k a).indirect = if k = NDIRECT then a else din.indirect := by
  simp only [indirect, setAddr, Function.update_apply, ofNat_inj le_rfl hk, eq_comm]

@[simp] theorem size_setAddr : (din.setAddr k a).size = din.size := rfl
@[simp] theorem type_setAddr : (din.setAddr k a).type = din.type := rfl

end Dinode

namespace Block

variable {d : Block} {i j : ℕ} {din : Dinode}

/-- `((struct dinode*)d)[i]` -/
def dinode (d : Block) (i : ℕ) : Dinode where
  type := d.field (64 * i) 2
  major := d.field (64 * i + 2) 2
  minor := d.field (64 * i + 4) 2
  nlink := d.field (64 * i + 6) 2
  size := d.field (64 * i + 8) 4
  addrs := fun k => d.field (64 * i + 12 + 4 * k) 4

/-- `((struct dinode*)d)[i] = din;` -/
def setDinode (d : Block) (i : ℕ) (din : Dinode) : Block := d.move (64 * i) din.byte 64

theorem dinode_setDinode (hi : i < IPB) (h : din.Fits) : (d.setDinode i din).dinode i = din := by
  have hbyte : ∀ k, k < 64 → (d.setDinode i din).get (64 * i + k) = din.byte k := by
    intro k hk
    simp only [IPB, BSIZE] at hi
    rw [setDinode, Bytes.get_move (by simp only [BSIZE]; omega), if_pos ⟨by omega, by omega⟩,
      Nat.add_sub_cancel_left]
  ext
  case addrs k =>
    have hk := k.isLt
    refine Bytes.field_of_get (fun j hj => ?_) (h.addrs k)
    have hoff : 64 * i + 12 + 4 * k + j = 64 * i + (12 + 4 * k + j) := by omega
    have hpos : Fin.ofNat (NDIRECT + 1) ((12 + 4 * (k : ℕ) + j - 12) / 4) = k := by
      rw [Fin.ext_iff, Fin.val_ofNat]
      simp only [NDIRECT] at *
      omega
    have hmod : (12 + 4 * (k : ℕ) + j - 12) % 4 = j := by omega
    rw [hoff, hbyte _ (by simp only [NDIRECT] at hk; omega), Dinode.byte, if_neg (by omega),
      if_neg (by omega), if_neg (by omega), if_neg (by omega), if_neg (by omega), hpos, hmod]
  case type =>
    refine Bytes.field_of_get (fun j hj => ?_) h.type
    rw [hbyte _ (by omega), Dinode.byte, if_pos hj]
  case major =>
    refine Bytes.field_of_get (fun j hj => ?_) h.major
    rw [Nat.add_assoc, hbyte _ (by omega), Dinode.byte, if_neg (by omega), if_pos (by omega),
      Nat.add_sub_cancel_left]
  case minor =>
    refine Bytes.field_of_get (fun j hj => ?_) h.minor
    rw [Nat.add_assoc, hbyte _ (by omega), Dinode.byte, if_neg (by omega), if_neg (by omega),
      if_pos (by omega), Nat.add_sub_cancel_left]
  case nlink =>
    refine Bytes.field_of_get (fun j hj => ?_) h.nlink
    rw [Nat.add_assoc, hbyte _ (by omega), Dinode.byte, if_neg (by omega), if_neg (by omega),
      if_neg (by omega), if_pos (by omega), Nat.add_sub_cancel_left]
  case size =>
    refine Bytes.field_of_get (fun j hj => ?_) h.size
    rw [Nat.add_assoc, hbyte _ (by omega), Dinode.byte, if_neg (by omega), if_neg (by omega),
      if_neg (by omega), if_neg (by omega), if_pos (by omega), Nat.add_sub_cancel_left]

/-- The other inodes of the block. -/
theorem dinode_setDinode_of_ne (hij : j ≠ i) (hj : j < IPB) :
    (d.setDinode i din).dinode j = d.dinode j := by
  have hget : ∀ k, k < 64 → (d.setDinode i din).get (64 * j + k) = d.get (64 * j + k) := by
    intro k hk
    simp only [IPB, BSIZE] at hj
    rw [setDinode, Bytes.get_move (by simp only [BSIZE]; omega), if_neg (by omega)]
  have hfield : ∀ off len, off + len ≤ 64 →
      (d.setDinode i din).field (64 * j + off) len = d.field (64 * j + off) len := by
    intro off len hlen
    refine Bytes.field_congr fun k h1 h2 => ?_
    obtain ⟨c, rfl⟩ : ∃ c, k = 64 * j + c := ⟨k - 64 * j, by omega⟩
    exact hget c (by omega)
  ext
  case addrs k =>
    have hk := k.isLt
    show (d.setDinode i din).field (64 * j + 12 + 4 * k) 4 = d.field (64 * j + 12 + 4 * k) 4
    rw [Nat.add_assoc]
    exact hfield _ 4 (by simp only [NDIRECT] at hk; omega)
  case type => exact hfield 0 2 (by omega)
  case major => exact hfield 2 2 (by omega)
  case minor => exact hfield 4 2 (by omega)
  case nlink => exact hfield 6 2 (by omega)
  case size => exact hfield 8 4 (by omega)

/-- `d[i/8] & (1 << (i%8))` -/
def bit (d : Block) (i : ℕ) : Bool := (d.get (i / 8)).toNat.testBit (i % 8)

/-- `d[i/8] |= 1 << (i%8);` -/
def setBit (d : Block) (i : ℕ) : Block := fun j =>
  if (j : ℕ) = i / 8 then UInt8.ofNat ((d j).toNat ||| 2 ^ (i % 8)) else d j

theorem bit_setBit (hi : i < BPB) : (d.setBit i).bit j = (decide (j = i) || d.bit j) := by
  have hi' : i / 8 < BSIZE := by
    simp only [BPB, BSIZE] at *
    omega
  have hlt : (d ⟨i / 8, hi'⟩).toNat ||| 2 ^ (i % 8) < 2 ^ 8 :=
    Nat.or_lt_two_pow (UInt8.toNat_lt _) (Nat.pow_lt_pow_right (by decide) (Nat.mod_lt _ (by decide)))
  unfold bit Bytes.get
  by_cases hj : j / 8 < BSIZE
  · rw [dif_pos hj, dif_pos hj]
    by_cases hb : j / 8 = i / 8
    · have hiff : (i % 8 = j % 8) ↔ j = i := by omega
      simp only [setBit, hb, if_true, UInt8.toNat_ofNat', Nat.mod_eq_of_lt hlt, Nat.testBit_or,
        Nat.testBit_two_pow, hiff]
      exact Bool.or_comm _ _
    · have hne : j ≠ i := by
        rintro rfl
        exact hb rfl
      simp only [setBit, if_neg hb, hne, decide_false, Bool.false_or]
  · have hne : j ≠ i := by
      rintro rfl
      exact hj hi'
    rw [dif_neg hj, dif_neg hj, decide_eq_false hne, Bool.false_or]

theorem bit_zero : bit 0 i = false := by
  unfold bit Bytes.get
  split_ifs <;> exact Nat.zero_testBit _

end Block

/-! ### The blocks of a file -/

/-- The block that holds block `bn` of a file, 0 when there is none. -/
def Dinode.addr (din : Dinode) (disk : Blockno → Block) (bn : ℕ) : Blockno :=
  if bn < NDIRECT then din.direct bn
  else if din.indirect = 0 then 0
  else (disk din.indirect).word (bn - NDIRECT)

/-- The number of blocks for `size` bytes. -/
def blocksFor (size : ℕ) : ℕ := (size + (BSIZE - 1)) / BSIZE

/-- The byte at an offset in a file. -/
def Dinode.fileByte (din : Dinode) (disk : Blockno → Block) (off : ℕ) : UInt8 :=
  (disk (din.addr disk (off / BSIZE))).get (off % BSIZE)

namespace Dinode

variable {din : Dinode} {disk : Blockno → Block} {bn a k : ℕ}

theorem setAddr_self (din : Dinode) (h : a = din.addrs (Fin.ofNat _ k)) : din.setAddr k a = din := by
  rw [h, setAddr, Function.update_eq_self]

theorem addr_of_lt (h : bn < NDIRECT) : din.addr disk bn = din.direct bn := if_pos h

theorem addr_of_indirect_zero (h : NDIRECT ≤ bn) (h0 : din.indirect = 0) :
    din.addr disk bn = 0 := by
  rw [addr, if_neg (not_lt.mpr h), if_pos h0]

theorem addr_of_indirect (h : NDIRECT ≤ bn) (h0 : din.indirect ≠ 0) :
    din.addr disk bn = (disk din.indirect).word (bn - NDIRECT) := by
  rw [addr, if_neg (not_lt.mpr h), if_neg h0]

end Dinode

end Xv6

end OsSemester
