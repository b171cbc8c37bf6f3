import OsSemester.Lib.FreeMap
import OsSemester.Xv6.Inode
import OsSemester.Xv6.MkfsWellFormed
import OsSemester.Xv6.WriteBudget

/-!
# The blocks of the files on a disk (`balloc`, `bmap` in `fs.c`)

`Stored` says which blocks the inodes of a disk have and what is in them: the bitmap marks the blocks in
front of the data and those that an inode or its indirect block lists, each of which is listed once.
`bmap` takes a block where the file has none, and it fails only when the disk is full.
-/

namespace OsSemester.Xv6

/-! ### The layout -/

namespace Superblock

/-- The first block behind the bitmap. -/
def dataStart (sb : Superblock) : ℕ := sb.bmapstart + (sb.size / BPB + 1)

theorem dataStart_pos (sb : Superblock) : 0 < sb.dataStart := Nat.succ_pos _

/-- The blocks of the files. -/
def capacity (sb : Superblock) : ℕ := sb.size - sb.dataStart

/-- The blocks of inodes are followed by the bitmap, and the bitmap by the data. -/
structure Ordered (sb : Superblock) : Prop where
  inodes : sb.inodestart + (sb.ninodes / IPB + 1) ≤ sb.bmapstart
  data : sb.dataStart ≤ sb.size
  size : sb.size < 2 ^ 31

end Superblock

namespace Store

variable {sb : Superblock} {a b k : ℕ}

theorem IBLOCK_eq (hv : sb.Ordered) (hk : k < sb.inodeCount) :
    @Eq ℕ (IBLOCK k sb) (k / IPB + sb.inodestart) ∧ IBLOCK k sb < sb.bmapstart := by
  have h1 := hv.inodes
  have h2 := hv.data
  have h3 := hv.size
  have h4 : k / IPB < sb.ninodes / IPB + 1 := Nat.div_lt_of_lt_mul (by
    rw [Superblock.inodeCount, Nat.mul_comm] at hk
    exact hk)
  have h5 : sb.bmapstart ≤ sb.dataStart := Nat.le_add_right _ _
  have h6 : @Eq ℕ (IBLOCK k sb) (k / IPB + sb.inodestart) := Nat.mod_eq_of_lt (by omega)
  refine ⟨h6, ?_⟩
  rw [h6]
  show k / IPB + sb.inodestart < sb.bmapstart
  omega

/-- The bits of the blocks of the disk lie between the inodes and the data. -/
theorem BBLOCK_bounds (hv : sb.Ordered) (ha : a < sb.size) :
    sb.bmapstart ≤ BBLOCK a sb ∧ BBLOCK a sb < sb.dataStart := by
  have h1 := hv.data
  have h2 := hv.size
  have h3 : a / BPB ≤ sb.size / BPB := Nat.div_le_div_right ha.le
  have h4 : sb.dataStart = sb.bmapstart + (sb.size / BPB + 1) := rfl
  have h5 : @Eq ℕ (BBLOCK a sb) (a / BPB + sb.bmapstart) := Nat.mod_eq_of_lt (by omega)
  rw [h5, h4]
  show sb.bmapstart ≤ a / BPB + sb.bmapstart ∧ a / BPB + sb.bmapstart < _
  exact ⟨Nat.le_add_left .., by omega⟩

/-- A block that is not one of the bitmap. -/
def Outside (sb : Superblock) (b : ℕ) : Prop := b < sb.bmapstart ∨ sb.dataStart ≤ b

theorem Outside.ne_BBLOCK (h : Outside sb b) (hv : sb.Ordered) (ha : a < sb.size) : b ≠ BBLOCK a sb := by
  rintro rfl
  obtain ⟨h1, h2⟩ := BBLOCK_bounds hv ha
  rcases h with h | h
  · exact absurd h (not_lt.mpr h1)
  · exact absurd h2 (not_lt.mpr h)

/-- The bitmap has the block as one in use. -/
def Marked (sb : Superblock) (blk : Blockno → Block) (a : ℕ) : Prop :=
  (blk (BBLOCK a sb)).bit (a % BPB) = true

instance (sb : Superblock) (blk : Blockno → Block) : DecidablePred (Marked sb blk) := fun _ =>
  inferInstanceAs (Decidable (_ = true))

/-! ### What is stored -/

/-- The state of the files: how many blocks each has, whether it has an indirect block, and the bytes
in its blocks. -/
structure Stored (sb : Superblock) (tab : ℕ → Dinode) (blk : Blockno → Block) (cnt : ℕ → ℕ)
    (ind : ℕ → Bool) (data : ℕ → ℕ → UInt8) : Prop where
  map : FreeMap sb.dataStart sb.size (Marked sb blk) (Mkfs.place tab blk)
  /-- The blocks in front of the data are not offered. -/
  front : ∀ a, a < sb.dataStart → Marked sb blk a
  alloc : ∀ k bn, bn < MAXFILE → ((tab k).addr blk bn ≠ 0 ↔ bn < cnt k)
  indirect : ∀ k, (tab k).indirect ≠ 0 ↔ ind k = true
  cnt_le : ∀ k, cnt k ≤ MAXFILE
  bytes : ∀ k bn j, bn < cnt k → j < BSIZE →
    (blk ((tab k).addr blk bn)).get j = data k (bn * BSIZE + j)
  beyond : ∀ k off, cnt k * BSIZE ≤ off → data k off = 0

variable {tab tab' : ℕ → Dinode} {blk blk' : Blockno → Block} {cnt cnt' : ℕ → ℕ} {ind : ℕ → Bool}
  {data data' : ℕ → ℕ → UInt8} {k' bn bn' n m off tot : ℕ} {buf : Block} {s s' : OpDisk} {din din' : Dinode}

namespace Stored

theorem place_data (hs : Stored sb tab blk cnt ind data) (hbn : bn < cnt k) :
    Mkfs.place tab blk (.data k bn) = some ((tab k).addr blk bn) := by
  have hlt : bn < MAXFILE := hbn.trans_le (hs.cnt_le k)
  exact Mkfs.place_data.mpr ⟨hlt, (hs.alloc k bn hlt).mpr hbn, rfl⟩

theorem place_indirect (_ : Stored sb tab blk cnt ind data) (hk : (tab k).indirect ≠ 0) :
    Mkfs.place tab blk (.indirect k) = some (tab k).indirect := Mkfs.nonzero_of_ne hk

theorem data_bounds (hs : Stored sb tab blk cnt ind data) (hbn : bn < cnt k) :
    sb.dataStart ≤ (tab k).addr blk bn ∧ (tab k).addr blk bn < sb.size :=
  hs.map.mem _ _ (hs.place_data hbn)

theorem indirect_bounds (hs : Stored sb tab blk cnt ind data) (hk : (tab k).indirect ≠ 0) :
    sb.dataStart ≤ (tab k).indirect ∧ (tab k).indirect < sb.size :=
  hs.map.mem _ _ (hs.place_indirect hk)

/-- An indirect block is no block of a file. -/
theorem indirect_ne_data (hs : Stored sb tab blk cnt ind data) (hbn : bn < cnt k)
    (hk : (tab k').indirect ≠ 0) : (tab k').indirect ≠ (tab k).addr blk bn := by
  intro h
  have h1 := hs.place_indirect hk
  rw [h] at h1
  have h2 := hs.map.inj _ _ _ h1 (hs.place_data hbn)
  cases h2

theorem data_inj (hs : Stored sb tab blk cnt ind data) (hbn : bn < cnt k) (hbn' : bn' < cnt k')
    (h : (tab k).addr blk bn = (tab k').addr blk bn') : k = k' ∧ bn = bn' := by
  have h1 := hs.map.inj _ _ _ (h ▸ hs.place_data hbn) (hs.place_data hbn')
  cases h1
  exact ⟨rfl, rfl⟩

theorem indirect_inj (hs : Stored sb tab blk cnt ind data) (hk : (tab k).indirect ≠ 0)
    (h : (tab k').indirect = (tab k).indirect) : k' = k := by
  have h1 := hs.place_indirect hk
  have h2 := hs.place_indirect (h.symm ▸ hk)
  rw [h] at h2
  exact Mkfs.Slot.indirect.inj (hs.map.inj _ _ _ h2 h1)

/-- The addresses that an inode lists are those of the first blocks and of the indirect block. -/
theorem addrs_cases (din : Dinode) (blk : Blockno → Block) (i : Fin (NDIRECT + 1)) :
    (∃ bn, bn < NDIRECT ∧ din.addr blk bn = din.addrs i) ∨ din.indirect = din.addrs i := by
  obtain hi | hi := Nat.lt_or_ge (i : ℕ) NDIRECT
  · have hdir : din.direct i = din.addrs i := congrArg din.addrs (Fin.ofNat_val_eq_self i)
    exact .inl ⟨i, hi, (Dinode.addr_of_lt hi).trans hdir⟩
  · have hi' : i = Fin.ofNat (NDIRECT + 1) NDIRECT := by
      have := i.isLt
      rw [Fin.ext_iff, Fin.val_ofNat]
      simp only [NDIRECT] at *
      omega
    exact .inr (congrArg din.addrs hi'.symm)

theorem addrs_lt (hv : sb.Ordered) (hs : Stored sb tab blk cnt ind data) (i : Fin (NDIRECT + 1)) :
    (tab k).addrs i < 2 ^ 32 := by
  have hlt : sb.size < 2 ^ 32 := hv.size.trans (by decide)
  by_cases h0 : (tab k).addrs i = 0
  · rw [h0]
    decide
  · obtain ⟨bn, hbn, haddr⟩ | haddr := addrs_cases (tab k) blk i
    · have hmax : bn < MAXFILE := hbn.trans (by decide)
      rw [← haddr] at h0 ⊢
      exact Nat.lt_trans (hs.data_bounds ((hs.alloc k bn hmax).mp h0)).2 hlt
    · rw [← haddr] at h0 ⊢
      exact Nat.lt_trans (hs.indirect_bounds h0).2 hlt

/-- A file without blocks has no addresses. -/
theorem addrs_eq_zero (hs : Stored sb tab blk cnt (Mkfs.large cnt) data) (hk : cnt k = 0)
    (i : Fin (NDIRECT + 1)) : (tab k).addrs i = 0 := by
  by_contra h0
  obtain ⟨bn, hbn, haddr⟩ | haddr := addrs_cases (tab k) blk i
  · rw [← haddr] at h0
    have h1 := (hs.alloc k bn (hbn.trans (by decide))).mp h0
    rw [hk] at h1
    exact absurd h1 (Nat.not_lt_zero _)
  · rw [← haddr] at h0
    have h1 : NDIRECT < cnt k := of_decide_eq_true ((hs.indirect k).mp h0)
    rw [hk] at h1
    exact absurd h1 (Nat.not_lt_zero _)

/-- Other blocks may change. -/
theorem congr (hs : Stored sb tab blk cnt ind data) (haddrs : ∀ k, (tab' k).addrs = (tab k).addrs)
    (hmark : ∀ a, a < sb.size → (Marked sb blk' a ↔ Marked sb blk a)) (hle : sb.dataStart ≤ sb.size)
    (hblk : ∀ b, sb.dataStart ≤ b → blk' b = blk b) : Stored sb tab' blk' cnt ind data := by
  have hind : ∀ k, (tab' k).indirect = (tab k).indirect := fun k => congrFun (haddrs k) _
  have haddr : ∀ k bn, (tab' k).addr blk' bn = (tab k).addr blk bn := by
    intro k bn
    unfold Dinode.addr
    rw [hind, Dinode.direct, Dinode.direct, haddrs]
    split_ifs with h1 h2
    · rfl
    · rfl
    · rw [hblk _ (hs.indirect_bounds h2).1]
  have hplace : Mkfs.place tab' blk' = Mkfs.place tab blk := by
    funext u
    cases u with
    | indirect k => rw [Mkfs.place, Mkfs.place, hind]
    | data k bn => rw [Mkfs.place, Mkfs.place, haddr]
  refine ⟨?_, fun a ha => (hmark a (ha.trans_le hle)).mpr (hs.front a ha), ?_, ?_, hs.cnt_le, ?_, hs.beyond⟩
  · rw [hplace]
    exact hs.map.congr fun b _ hb => hmark b hb
  · intro k bn hbn
    rw [haddr]
    exact hs.alloc k bn hbn
  · intro k
    rw [hind]
    exact hs.indirect k
  · intro k bn j hbn hj
    rw [haddr, hblk _ (hs.data_bounds hbn).1]
    exact hs.bytes k bn j hbn hj

/-- Only the addresses in the inodes matter. -/
theorem congr_tab (hv : sb.Ordered) (hs : Stored sb tab blk cnt ind data)
    (haddrs : ∀ k, (tab' k).addrs = (tab k).addrs) : Stored sb tab' blk cnt ind data :=
  hs.congr haddrs (fun _ _ => Iff.rfl) hv.data fun _ _ => rfl

/-- A block that is not one of the bitmap and belongs to no file is written. -/
theorem write_front (hv : sb.Ordered) (hs : Stored sb tab blk cnt ind data) (hb : b < sb.bmapstart) :
    Stored sb tab (Function.update blk b buf) cnt ind data := by
  refine hs.congr (fun _ => rfl) (fun a ha => ?_) hv.data fun c hc => Function.update_of_ne ?_ ..
  · have hne : BBLOCK a sb ≠ b := (Outside.ne_BBLOCK (Or.inl hb) hv ha).symm
    rw [Marked, Marked, Function.update_of_ne hne]
  · rintro rfl
    exact absurd (hc.trans_lt hb) (not_lt.mpr (Nat.le_add_right _ _))

/-- Bytes of a file are written. -/
theorem write (hv : sb.Ordered) (hs : Stored sb tab blk cnt ind data) (hbn : bn < cnt k)
    (hbuf : ∀ j, j < BSIZE → buf.get j = data' k (bn * BSIZE + j))
    (hother : ∀ k' off, (k' = k → off / BSIZE ≠ bn) → data' k' off = data k' off) :
    Stored sb tab (Function.update blk ((tab k).addr blk bn) buf) cnt ind data' := by
  set x := (tab k).addr blk bn with hx
  have hout : Outside sb x := Or.inr (hs.data_bounds hbn).1
  have haddr : ∀ k' bn', (tab k').addr (Function.update blk x buf) bn' = (tab k').addr blk bn' :=
    fun k' bn' => Mkfs.addr_update fun h => hs.indirect_ne_data hbn h
  have hplace : Mkfs.place tab (Function.update blk x buf) = Mkfs.place tab blk := by
    funext u
    cases u with
    | indirect k' => rfl
    | data k' bn' => rw [Mkfs.place, Mkfs.place, haddr]
  have hmark : ∀ a, a < sb.size → (Marked sb (Function.update blk x buf) a ↔ Marked sb blk a) := by
    intro a ha
    rw [Marked, Marked, Function.update_of_ne (hout.ne_BBLOCK hv ha).symm]
  refine ⟨?_, fun a ha => (hmark a (ha.trans_le hv.data)).mpr (hs.front a ha), ?_, hs.indirect, hs.cnt_le, ?_, ?_⟩
  · rw [hplace]
    exact hs.map.congr fun b _ hb => hmark b hb
  · intro k' bn' h
    rw [haddr]
    exact hs.alloc k' bn' h
  · intro k' bn' j hbn' hj
    rw [haddr]
    by_cases he : k' = k ∧ bn' = bn
    · rw [he.1, he.2, Function.update_self, hbuf j hj]
    · rw [Function.update_of_ne fun h => he (hs.data_inj hbn' hbn h), hs.bytes k' bn' j hbn' hj, hother]
      intro hk hdiv
      refine he ⟨hk, ?_⟩
      rw [← hdiv]
      simp only [BSIZE] at hj ⊢
      omega
  · intro k' off hoff
    rw [hother k' off, hs.beyond k' off hoff]
    rintro rfl hdiv
    simp only [BSIZE] at hoff hdiv
    omega

end Stored

/-! ### `balloc` -/

/-- A free block is taken: it is marked and cleared. -/
structure Took (sb : Superblock) (s : OpDisk) (a : ℕ) (s' : OpDisk) : Prop where
  lo : sb.dataStart ≤ a
  hi : a < sb.size
  free : ¬ Marked sb s.block a
  marked : ∀ b, b < sb.size → (Marked sb s'.block b ↔ b = a ∨ Marked sb s.block b)
  zero : s'.block a = 0
  kept : ∀ b, Outside sb b → b ≠ a → s'.block b = s.block b

theorem freeBit_none {d : Block} (h : freeBit sb d b = none) {bi : ℕ} (hbi : bi < BPB)
    (hsize : b + bi < sb.size) : d.bit bi = true := by
  unfold freeBit at h
  have h1 := List.find?_eq_none.mp h bi (List.mem_range.mpr hbi)
  simpa [hsize] using h1

/-- When `balloc` finds no block, all of them are marked. -/
theorem ballocLoop_error {e : FsPanic} (hb : b % BPB = 0) (hn : sb.size ≤ b + n * BPB)
    (h : ballocLoop sb s n b = .error e) (ha : b ≤ a) (hlt : a < sb.size) : Marked sb s.block a := by
  induction n generalizing b with
  | zero =>
    rw [Nat.zero_mul] at hn
    omega
  | succ n ih =>
    rw [ballocLoop, if_pos (ha.trans_lt hlt)] at h
    cases hf : freeBit sb (s.block (BBLOCK b sb)) b with
    | some bi =>
      simp only [hf] at h
      cases h
    | none =>
      simp only [hf] at h
      by_cases hnext : b + BPB ≤ a
      · refine ih (by rw [Nat.add_mod_right, hb]) ?_ h hnext
        rw [Nat.succ_mul] at hn
        omega
      · -- the bit is in this block of the bitmap
        have hdiv : a / BPB = b / BPB ∧ a % BPB = a - b := by
          simp only [BPB, BSIZE] at *
          omega
        have hlast : b + (a - b) < sb.size := by omega
        have hbit := freeBit_none hf (by omega) hlast
        rw [Marked, BBLOCK, hdiv.1, hdiv.2]
        exact hbit

theorem balloc_spec (hv : sb.Ordered) (hfront : ∀ a, a < sb.dataStart → Marked sb s.block a) :
    (balloc sb s = .error ⟨"balloc: out of blocks", s.logged⟩ ∧ ∀ a, a < sb.size → Marked sb s.block a) ∨
      ∃ a s', balloc sb s = .ok (a, s') ∧ Took sb s a s' := by
  have hn : sb.size ≤ 0 + (sb.size / BPB + 1) * BPB := by
    simp only [BPB, BSIZE]
    omega
  rcases ballocLoop_spec sb s (sb.size / BPB + 1) (Nat.zero_mod BPB) with he | ⟨a, ha, hbit, hok⟩
  · exact Or.inl ⟨he, fun a ha => ballocLoop_error (Nat.zero_mod _) hn he (Nat.zero_le a) ha⟩
  have hfree : ¬ Marked sb s.block a := by
    rw [Marked, hbit]
    exact Bool.false_ne_true
  have hlo : sb.dataStart ≤ a := not_lt.mp fun h => hfree (hfront a h)
  set s' := (s.write (BBLOCK a sb) ((s.block (BBLOCK a sb)).setBit (a % BPB))).write a 0 with hs'
  have hblock : ∀ b, s'.block b = if b = a then 0 else
      if b = BBLOCK a sb then (s.block (BBLOCK a sb)).setBit (a % BPB) else s.block b := by
    intro b
    rw [hs']
    simp only [OpDisk.write, Function.update_apply]
  refine Or.inr ⟨a, s', hok, hlo, ha, hfree, fun b hb => ?_, ?_, fun b hout hne => ?_⟩
  · have h1 : BBLOCK b sb ≠ a := (Outside.ne_BBLOCK (Or.inr hlo) hv hb).symm
    have hsize := hv.size
    have hiff := BBLOCK_eq_iff sb (hb.trans (by omega)) (ha.trans (show sb.size < 2 ^ 32 by omega))
    rw [Marked, Marked, hblock, if_neg h1]
    by_cases he : BBLOCK b sb = BBLOCK a sb
    · have hab : b % BPB = a % BPB ↔ b = a := by
        have := hiff.mp he
        simp only [BPB, BSIZE] at *
        omega
      rw [if_pos he, Block.bit_setBit (Nat.mod_lt _ (by decide)), he, Bool.or_eq_true,
        decide_eq_true_iff, hab]
    · have hne : b ≠ a := by
        rintro rfl
        exact he rfl
      rw [if_neg he, or_iff_right hne]
  · rw [hblock, if_pos rfl]
  · rw [hblock, if_neg hne, if_neg (hout.ne_BBLOCK hv ha)]

/-! ### Taking blocks -/

namespace Stored

/-- What is true when a block that has been taken is block `bn` of the file. -/
theorem extend (hs : Stored sb tab blk cnt ind data) (hbn : cnt k = bn) (hmax : bn < MAXFILE)
    (hlo : sb.dataStart ≤ a) (hhi : a < sb.size) (hfree : ¬ Marked sb blk a) (hle : sb.dataStart ≤ sb.size)
    (hmark : ∀ b, b < sb.size → (Marked sb blk' b ↔ b = a ∨ Marked sb blk b))
    (hind : ∀ k', (tab' k').indirect = (tab k').indirect)
    (haddr : ∀ k' bn', bn' < MAXFILE →
      (tab' k').addr blk' bn' = if k' = k ∧ bn' = bn then a else (tab k').addr blk bn')
    (hzero : blk' a = 0)
    (hkept : ∀ k' bn', bn' < cnt k' → blk' ((tab k').addr blk bn') = blk ((tab k').addr blk bn')) :
    Stored sb tab' blk' (Function.update cnt k (bn + 1)) ind data := by
  have h0 : a ≠ 0 := Nat.ne_of_gt (sb.dataStart_pos.trans_le hlo)
  -- exactly one use has got a block
  have hplace : Mkfs.place tab' blk' = Function.update (Mkfs.place tab blk) (.data k bn) (some a) := by
    funext u
    cases u with
    | indirect k' =>
      have hne : Mkfs.Slot.indirect k' ≠ Mkfs.Slot.data k bn := fun h => by cases h
      rw [Function.update_of_ne hne, Mkfs.place, Mkfs.place, hind]
    | data k' bn' =>
      by_cases he : k' = k ∧ bn' = bn
      · obtain ⟨rfl, rfl⟩ := he
        rw [Function.update_self, Mkfs.place, if_pos hmax, haddr _ _ hmax, if_pos ⟨rfl, rfl⟩,
          Mkfs.nonzero_of_ne h0]
      · rw [Function.update_of_ne (fun h => he (by cases h; exact ⟨rfl, rfl⟩)), Mkfs.place, Mkfs.place]
        by_cases hbn' : bn' < MAXFILE
        · rw [if_pos hbn', if_pos hbn', haddr _ _ hbn', if_neg he]
        · rw [if_neg hbn', if_neg hbn']
  -- the file is one block longer
  have hcnt : ∀ k' bn', bn' < Function.update cnt k (bn + 1) k' ↔ k' = k ∧ bn' = bn ∨ bn' < cnt k' := by
    intro k' bn'
    by_cases hk : k' = k
    · rw [hk, Function.update_self, hbn]
      omega
    · rw [Function.update_of_ne hk]
      simp [hk]
  refine ⟨?_, fun b hb => (hmark b (hb.trans_le hle)).mpr (Or.inr (hs.front b hb)), ?_, ?_, ?_, ?_, ?_⟩
  · rw [hplace]
    refine hs.map.take hlo hhi hfree ?_ fun b _ hb => hmark b hb
    have h1 : (tab k).addr blk bn = 0 := by
      by_contra h
      exact absurd ((hs.alloc k bn hmax).mp h) (by omega)
    rw [Mkfs.place, if_pos hmax, h1]
    rfl
  · intro k' bn' hbn'
    rw [haddr k' bn' hbn', hcnt]
    split_ifs with he
    · exact iff_of_true h0 (.inl he)
    · rw [hs.alloc k' bn' hbn', or_iff_right he]
  · intro k'
    rw [hind]
    exact hs.indirect k'
  · intro k'
    by_cases hk : k' = k
    · rw [hk, Function.update_self]
      exact hmax
    · rw [Function.update_of_ne hk]
      exact hs.cnt_le k'
  -- a new block is zero, and the file ended in front of it
  · intro k' bn' j hbn' hj
    obtain ⟨rfl, rfl⟩ | h := (hcnt k' bn').mp hbn'
    · rw [haddr _ _ hmax, if_pos ⟨rfl, rfl⟩, hzero, Mkfs.get_zero, hs.beyond]
      rw [hbn]
      exact Nat.le_add_right _ _
    · have he : ¬ (k' = k ∧ bn' = bn) := by
        rintro ⟨rfl, rfl⟩
        omega
      rw [haddr _ _ (h.trans_le (hs.cnt_le k')), if_neg he, hkept _ _ h]
      exact hs.bytes k' bn' j h hj
  · intro k' off hoff
    apply hs.beyond
    by_cases hk : k' = k
    · rw [hk, Function.update_self] at hoff
      rw [hk, hbn]
      exact (Nat.mul_le_mul_right _ (Nat.le_succ bn)).trans hoff
    · rwa [Function.update_of_ne hk] at hoff

/-- A block with a use is not touched when another one is taken. -/
theorem kept (hs : Stored sb tab s.block cnt ind data) (hT : Took sb s a s') {u : Mkfs.Slot}
    (hu : Mkfs.place tab s.block u = some b) : s'.block b = s.block b := by
  have hb := (hs.map.mem u b hu).1
  refine hT.kept b (Or.inr hb) ?_
  rintro rfl
  exact hs.map.fresh hT.free hu

/-- The addresses are as before. -/
theorem addr_took (hs : Stored sb tab s.block cnt ind data) (hT : Took sb s a s') (k bn : ℕ) :
    (tab k).addr s'.block bn = (tab k).addr s.block bn := by
  unfold Dinode.addr
  split_ifs with h1 h2
  · rfl
  · rfl
  · rw [hs.kept hT (hs.place_indirect h2)]

/-- The block becomes a block that the inode lists. -/
theorem takeDirect (hv : sb.Ordered) (hs : Stored sb tab s.block cnt ind data) (hT : Took sb s a s')
    (hbn : cnt k = bn) (hdir : bn < NDIRECT) :
    Stored sb (Function.update tab k ((tab k).setAddr bn a)) s'.block (Function.update cnt k (bn + 1))
      ind data := by
  have hmax : bn < MAXFILE := hdir.trans (by decide)
  have hind : ∀ k', (Function.update tab k ((tab k).setAddr bn a) k').indirect = (tab k').indirect := by
    intro k'
    by_cases hk : k' = k
    · rw [hk, Function.update_self, Dinode.indirect_setAddr hdir.le, if_neg hdir.ne]
    · rw [Function.update_of_ne hk]
  refine hs.extend hbn hmax hT.lo hT.hi hT.free hv.data hT.marked hind (fun k' bn' _ => ?_) hT.zero
    fun k' bn' h => hs.kept hT (hs.place_data h)
  by_cases hk : k' = k
  · rw [hk, Function.update_self, ← hs.addr_took hT]
    by_cases hbn' : bn' < NDIRECT
    · rw [Dinode.addr_of_lt hbn', Dinode.addr_of_lt hbn', Dinode.direct_setAddr hdir.le hbn']
      simp only [true_and]
    · have hne : ¬ (k = k ∧ bn' = bn) := fun h => hbn' (h.2 ▸ hdir)
      have hind' : ((tab k).setAddr bn a).indirect = (tab k).indirect := by
        rw [Dinode.indirect_setAddr hdir.le, if_neg hdir.ne]
      rw [if_neg hne, Dinode.addr, Dinode.addr, if_neg hbn', if_neg hbn', hind']
  · rw [Function.update_of_ne hk, if_neg fun h => hk h.1, hs.addr_took hT]

/-- The block becomes an indirect block. -/
theorem takeIndirect (hv : sb.Ordered) (hs : Stored sb tab s.block cnt ind data) (hT : Took sb s a s')
    (hk : (tab k).indirect = 0) :
    Stored sb (Function.update tab k ((tab k).setAddr NDIRECT a)) s'.block cnt
      (Function.update ind k true) data := by
  set din := (tab k).setAddr NDIRECT a with hdin
  have h0 : a ≠ 0 := Nat.ne_of_gt (sb.dataStart_pos.trans_le hT.lo)
  have hind : din.indirect = a := by rw [hdin, Dinode.indirect_setAddr le_rfl, if_pos rfl]
  -- the new indirect block lists no blocks yet
  have haddr : ∀ k' bn, (Function.update tab k din k').addr s'.block bn = (tab k').addr s.block bn := by
    intro k' bn
    by_cases hk' : k' = k
    · rw [hk', Function.update_self]
      by_cases hbn : bn < NDIRECT
      · rw [Dinode.addr_of_lt hbn, Dinode.addr_of_lt hbn, hdin, Dinode.direct_setAddr le_rfl hbn,
          if_neg hbn.ne]
      · have hge := Nat.not_lt.mp hbn
        rw [Dinode.addr_of_indirect_zero hge hk, Dinode.addr_of_indirect hge (hind ▸ h0), hind, hT.zero,
          Mkfs.word_zero]
    · rw [Function.update_of_ne hk', hs.addr_took hT]
  have hplace : Mkfs.place (Function.update tab k din) s'.block =
      Function.update (Mkfs.place tab s.block) (.indirect k) (some a) := by
    funext u
    cases u with
    | indirect k' =>
      by_cases hk' : k' = k
      · rw [hk', Function.update_self, Mkfs.place, Function.update_self, hind, Mkfs.nonzero_of_ne h0]
      · rw [Function.update_of_ne fun h => hk' (Mkfs.Slot.indirect.inj h), Mkfs.place,
          Function.update_of_ne hk', Mkfs.place]
    | data k' bn =>
      have hne : Mkfs.Slot.data k' bn ≠ Mkfs.Slot.indirect k := fun h => by cases h
      rw [Function.update_of_ne hne, Mkfs.place, Mkfs.place, haddr]
  refine ⟨?_, fun b hb => (hT.marked b (hb.trans_le hv.data)).mpr (Or.inr (hs.front b hb)), ?_, ?_,
    hs.cnt_le, ?_, hs.beyond⟩
  · rw [hplace]
    refine hs.map.take hT.lo hT.hi hT.free ?_ fun b _ hb => hT.marked b hb
    rw [Mkfs.place, hk]
    rfl
  · intro k' bn hbn
    rw [haddr]
    exact hs.alloc k' bn hbn
  · intro k'
    by_cases hk' : k' = k
    · rw [hk', Function.update_self, Function.update_self, hind]
      exact iff_of_true h0 rfl
    · rw [Function.update_of_ne hk', Function.update_of_ne hk']
      exact hs.indirect k'
  · intro k' bn j hbn hj
    rw [haddr, hs.kept hT (hs.place_data hbn)]
    exact hs.bytes k' bn j hbn hj

/-- The block becomes a block that the indirect block lists. -/
theorem takeEntry (hv : sb.Ordered) (hs : Stored sb tab s.block cnt ind data) (hT : Took sb s a s')
    (hbn : cnt k = bn) (hge : NDIRECT ≤ bn) (hmax : bn < MAXFILE) (hk : (tab k).indirect ≠ 0) :
    Stored sb tab (Function.update s'.block (tab k).indirect
      ((s'.block (tab k).indirect).setWord (bn - NDIRECT) a)) (Function.update cnt k (bn + 1)) ind data := by
  have hplace := hs.place_indirect hk
  have hlo := (hs.indirect_bounds hk).1
  have hne : a ≠ (tab k).indirect := by
    rintro rfl
    exact hs.map.fresh hT.free hplace
  refine hs.extend hbn hmax hT.lo hT.hi hT.free hv.data (fun b hb => ?_) (fun _ => rfl) (fun k' bn' hbn' => ?_)
    ?_ fun k' bn' h => ?_
  · rw [Marked, Function.update_of_ne (Outside.ne_BBLOCK (Or.inr hlo) hv hb).symm]
    exact hT.marked b hb
  · by_cases hk' : k' = k
    · rw [hk']
      by_cases hdir : bn' < NDIRECT
      · have hne : ¬ (k = k ∧ bn' = bn) := fun h => absurd hge (Nat.not_le.mpr (h.2 ▸ hdir))
        rw [if_neg hne, Dinode.addr_of_lt hdir, Dinode.addr_of_lt hdir]
      · have hge' := Nat.not_lt.mp hdir
        have hN : bn - NDIRECT < BSIZE / 4 ∧ bn' - NDIRECT < BSIZE / 4 := by
          simp only [MAXFILE, NDIRECT, NINDIRECT, BSIZE] at *
          omega
        rw [Dinode.addr_of_indirect hge' hk, Function.update_self]
        by_cases he : bn' = bn
        · have hfit : a < 2 ^ 32 := hT.hi.trans (hv.size.trans (by decide))
          rw [if_pos ⟨rfl, he⟩, he, Block.word_setWord hN.1 hfit]
        · rw [if_neg fun h => he h.2, ← hs.addr_took hT, Dinode.addr_of_indirect hge' hk]
          exact Block.word_setWord_of_ne (by omega) hN.2
    · rw [if_neg fun h => hk' h.1, ← hs.addr_took hT]
      exact Mkfs.addr_update fun _ h => hk' (hs.indirect_inj hk h)
  · rw [Function.update_of_ne hne, hT.zero]
  · rw [Function.update_of_ne (hs.indirect_ne_data h hk).symm]
    exact hs.kept hT (hs.place_data h)

end Stored

/-! ### Room -/

/-- The places with a block, for the first `n` inodes. -/
def slots (n : ℕ) (cnt : ℕ → ℕ) (ind : ℕ → Bool) : Finset Mkfs.Slot :=
  ((Finset.range n).sigma fun k => Finset.range (cnt k)).image (fun x => .data x.1 x.2) ∪
    ((Finset.range n).filter fun k => ind k = true).image .indirect

theorem card_slots (n : ℕ) (cnt : ℕ → ℕ) (ind : ℕ → Bool) :
    (slots n cnt ind).card = ∑ k ∈ Finset.range n, (cnt k + if ind k = true then 1 else 0) := by
  have hdisj : Disjoint (((Finset.range n).sigma fun k => Finset.range (cnt k)).image
      fun x => Mkfs.Slot.data x.1 x.2)
      (((Finset.range n).filter fun k => ind k = true).image Mkfs.Slot.indirect) := by
    rw [Finset.disjoint_left]
    intro u h1 h2
    obtain ⟨x, -, hx⟩ := Finset.mem_image.mp h1
    obtain ⟨y, -, hy⟩ := Finset.mem_image.mp h2
    rw [← hx] at hy
    cases hy
  have hinj1 : Function.Injective fun x : (_ : ℕ) × ℕ => Mkfs.Slot.data x.1 x.2 := by
    rintro ⟨k, bn⟩ ⟨k', bn'⟩ h
    cases h
    rfl
  have hinj2 : Function.Injective Mkfs.Slot.indirect := by
    intro k k' h
    cases h
    rfl
  rw [slots, Finset.card_union_of_disjoint hdisj, Finset.card_image_of_injective _ hinj1,
    Finset.card_image_of_injective _ hinj2, Finset.card_sigma, Finset.card_filter, ← Finset.sum_add_distrib]
  simp only [Finset.card_range]

namespace Stored

/-- From inode `n` on there are no files. -/
def Vacant (n : ℕ) (cnt : ℕ → ℕ) (ind : ℕ → Bool) : Prop := ∀ k, n ≤ k → cnt k = 0 ∧ ind k = false

theorem mem_slots (hs : Stored sb tab blk cnt ind data) (hn : Vacant n cnt ind) (u : Mkfs.Slot) :
    u ∈ slots n cnt ind ↔ ∃ a, Mkfs.place tab blk u = some a := by
  cases u with
  | data k bn =>
    have hmem : Mkfs.Slot.data k bn ∈ slots n cnt ind ↔ k < n ∧ bn < cnt k := by
      simp only [slots, Finset.mem_union, Finset.mem_image, Finset.mem_sigma, Finset.mem_range]
      constructor
      · rintro (⟨x, hx, he⟩ | ⟨x, -, he⟩)
        · cases he
          exact hx
        · cases he
      · exact fun h => Or.inl ⟨⟨k, bn⟩, h, rfl⟩
    rw [hmem]
    constructor
    · exact fun h => ⟨_, hs.place_data h.2⟩
    · rintro ⟨a, ha⟩
      obtain ⟨h1, h2, -⟩ := Mkfs.place_data.mp ha
      have h3 := (hs.alloc k bn h1).mp h2
      refine ⟨not_le.mp fun h => ?_, h3⟩
      rw [(hn k h).1] at h3
      exact Nat.not_lt_zero _ h3
  | indirect k =>
    have hmem : Mkfs.Slot.indirect k ∈ slots n cnt ind ↔ k < n ∧ ind k = true := by
      simp only [slots, Finset.mem_union, Finset.mem_image, Finset.mem_sigma, Finset.mem_range,
        Finset.mem_filter]
      constructor
      · rintro (⟨x, -, he⟩ | ⟨x, hx, he⟩)
        · cases he
        · cases he
          exact hx
      · exact fun h => Or.inr ⟨k, h, rfl⟩
    rw [hmem, ← hs.indirect]
    constructor
    · exact fun h => ⟨_, hs.place_indirect h.2⟩
    · rintro ⟨a, ha⟩
      have h1 := (Mkfs.nonzero_eq_some.mp ha).1
      refine ⟨not_le.mp fun h => ?_, h1⟩
      have h2 := (hs.indirect k).mp h1
      rw [(hn k h).2] at h2
      cases h2

/-- The blocks of the files fit the disk. -/
theorem room (hs : Stored sb tab blk cnt ind data) (hn : Vacant n cnt ind) :
    ∑ k ∈ Finset.range n, (cnt k + if ind k = true then 1 else 0) ≤ sb.capacity := by
  rw [← card_slots]
  exact hs.map.card_le (hs.mem_slots hn)

/-- A disk on which all blocks are marked is full. -/
theorem full (hs : Stored sb tab blk cnt ind data) (hn : Vacant n cnt ind)
    (hall : ∀ a, a < sb.size → Marked sb blk a) :
    ∑ k ∈ Finset.range n, (cnt k + if ind k = true then 1 else 0) = sb.capacity := by
  rw [← card_slots]
  exact hs.map.card_of_full (hs.mem_slots hn) fun a _ ha => hall a ha

end Stored

/-- The files with these numbers of blocks do not fit the disk. -/
def TooMuch (sb : Superblock) (cnt : ℕ → ℕ) : Prop :=
  sb.capacity < ∑ k ∈ Finset.range sb.inodeCount, Mkfs.need (cnt k)

theorem need_eq (cnt : ℕ → ℕ) (k : ℕ) :
    cnt k + (if Mkfs.large cnt k = true then 1 else 0) = Mkfs.need (cnt k) := by
  simp only [Mkfs.need, Mkfs.large, decide_eq_true_iff]

/-- One file has more blocks than the disk has left. -/
theorem TooMuch.of_full (hk : k < sb.inodeCount) (hlt : Mkfs.need (cnt k) < Mkfs.need (cnt' k))
    (hle : ∀ i, cnt i ≤ cnt' i)
    (hfull : ∑ i ∈ Finset.range sb.inodeCount, Mkfs.need (cnt i) = sb.capacity) : TooMuch sb cnt' := by
  rw [TooMuch, ← hfull]
  exact Finset.sum_lt_sum (fun i _ => Mkfs.need_mono (hle i)) ⟨k, Finset.mem_range.mpr hk, hlt⟩

theorem TooMuch.mono (h : TooMuch sb cnt) (hle : ∀ i, cnt i ≤ cnt' i) : TooMuch sb cnt' :=
  Nat.lt_of_lt_of_le h (Finset.sum_le_sum fun i _ => Mkfs.need_mono (hle i))

/-! ### `bmap` -/

theorem bmap_of_ne_zero (hbn : bn < MAXFILE) (h : din.addr s.block bn ≠ 0) :
    bmap sb din bn s = .ok (din.addr s.block bn, din, s) := by
  rw [bmap]
  by_cases hdir : bn < NDIRECT
  · have hself : din.setAddr bn (din.direct bn) = din := Dinode.setAddr_self din rfl
    rw [Dinode.addr_of_lt hdir] at h ⊢
    rw [if_pos hdir, ballocIfNone, if_neg h]
    show Except.ok (din.direct bn, din.setAddr bn (din.direct bn), s) = _
    rw [hself]
  · have hge : NDIRECT ≤ bn := not_lt.mp hdir
    have hind : din.indirect ≠ 0 := fun h0 => h (Dinode.addr_of_indirect_zero hge h0)
    have hentry : bn - NDIRECT < NINDIRECT := by
      simp only [MAXFILE] at hbn
      omega
    have hself : din.setAddr NDIRECT din.indirect = din := Dinode.setAddr_self din rfl
    rw [Dinode.addr_of_indirect hge hind] at h ⊢
    rw [if_neg hdir, if_pos hentry, ballocIfNone, if_neg hind]
    show (if (s.block din.indirect).word (bn - NDIRECT) = 0 then _ else _) = _
    rw [if_neg h, hself]

theorem Took.front (hT : Took sb s a s') (hb : b < sb.bmapstart) : s'.block b = s.block b :=
  hT.kept b (Or.inl hb) (Nat.ne_of_lt (hb.trans_le ((Nat.le_add_right _ _).trans hT.lo)))

/-- Block `bn` of the file `k` is the block `a`. -/
structure Fetched (sb : Superblock) (tab : ℕ → Dinode) (cnt : ℕ → ℕ) (data : ℕ → ℕ → UInt8) (s : OpDisk)
    (k bn a : ℕ) (din' : Dinode) (s' : OpDisk) : Prop where
  stored : Stored sb (Function.update tab k din') s'.block (Function.update cnt k (max (cnt k) (bn + 1)))
    (Mkfs.large (Function.update cnt k (max (cnt k) (bn + 1)))) data
  addr : din'.addr s'.block bn = a
  same : Mkfs.Kept (tab k) din'
  front : ∀ b, b < sb.bmapstart → s'.block b = s.block b
  /-- Nothing changes for a block that is there. -/
  old : bn < cnt k → din' = tab k

theorem large_update (h : NDIRECT < n ↔ NDIRECT < cnt k) :
    Mkfs.large (Function.update cnt k n) = Mkfs.large cnt := by
  funext i
  unfold Mkfs.large
  by_cases hi : i = k
  · rw [hi, Function.update_self, decide_eq_decide, h]
  · rw [Function.update_of_ne hi]

theorem large_update_indirect (h : NDIRECT < n) :
    Mkfs.large (Function.update cnt k n) = Function.update (Mkfs.large cnt) k true := by
  funext i
  unfold Mkfs.large
  by_cases hi : i = k
  · rw [hi, Function.update_self, Function.update_self, decide_eq_true h]
  · rw [Function.update_of_ne hi, Function.update_of_ne hi]

theorem le_update (h : cnt k ≤ n) (i : ℕ) : cnt i ≤ Function.update cnt k n i := by
  by_cases hi : i = k
  · rw [hi, Function.update_self]
    exact h
  · rw [Function.update_of_ne hi]

/-- What `bmap` does with the first block that the file does not have. -/
theorem Stored.bmap_new (hv : sb.Ordered) (hk : k < sb.inodeCount) (hn : ∀ i, sb.inodeCount ≤ i → cnt i = 0)
    (hs : Stored sb tab s.block cnt (Mkfs.large cnt) data) (hbn : cnt k = bn) (hmax : bn < MAXFILE) :
    (∃ l, bmap sb (tab k) bn s = .error ⟨"balloc: out of blocks", l⟩ ∧
        TooMuch sb (Function.update cnt k (bn + 1))) ∨
      ∃ a din' s', bmap sb (tab k) bn s = .ok (a, din', s') ∧
        Stored sb (Function.update tab k din') s'.block (Function.update cnt k (bn + 1))
          (Mkfs.large (Function.update cnt k (bn + 1))) data ∧
        din'.addr s'.block bn = a ∧ Mkfs.Kept (tab k) din' ∧ ∀ b, b < sb.bmapstart → s'.block b = s.block b := by
  have hvacant : Stored.Vacant sb.inodeCount cnt (Mkfs.large cnt) := by
    intro i hi
    refine ⟨hn i hi, decide_eq_false ?_⟩
    rw [hn i hi]
    exact Nat.not_lt_zero _
  have hmono : ∀ i, cnt i ≤ Function.update cnt k (bn + 1) i := le_update (by omega)
  have hself : Function.update cnt k (bn + 1) k = bn + 1 := Function.update_self ..
  -- the file has no block there yet
  have hnone : (tab k).addr s.block bn = 0 := by
    by_contra h
    exact absurd ((hs.alloc k bn hmax).mp h) (by omega)
  rw [bmap]
  by_cases hdir : bn < NDIRECT
  · rw [Dinode.addr_of_lt hdir] at hnone
    rw [if_pos hdir, ballocIfNone, if_pos hnone]
    rcases balloc_spec hv hs.front with ⟨he, hall⟩ | ⟨a, s', hok, hT⟩
    · rw [he]
      refine Or.inl ⟨_, rfl, TooMuch.of_full hk ?_ hmono ?_⟩
      · rw [hself, hbn, Mkfs.need, Mkfs.need, if_neg (by omega), if_neg (by omega)]
        omega
      · have hfull := hs.full hvacant hall
        simpa only [need_eq] using hfull
    · rw [hok]
      refine Or.inr ⟨a, _, s', rfl, ?_, ?_, Mkfs.kept_setAddr .., fun b hb => hT.front hb⟩
      · rw [large_update (by omega)]
        exact hs.takeDirect hv hT hbn hdir
      · rw [Dinode.addr_of_lt hdir, Dinode.direct_setAddr hdir.le hdir, if_pos rfl]
  · have hge := not_lt.mp hdir
    have hentry : bn - NDIRECT < NINDIRECT := by
      simp only [MAXFILE] at hmax
      omega
    rw [if_neg hdir, if_pos hentry, ballocIfNone]
    by_cases hind : (tab k).indirect = 0
    · -- the indirect block is taken first
      have hlarge : ¬ NDIRECT < cnt k := by
        intro h
        exact (hs.indirect k).mpr (decide_eq_true h) hind
      have hbn' : bn = NDIRECT := by omega
      rw [if_pos hind]
      rcases balloc_spec hv hs.front with ⟨he, hall⟩ | ⟨p, s₁, hok, hT⟩
      · rw [he]
        refine Or.inl ⟨_, rfl, TooMuch.of_full hk ?_ hmono ?_⟩
        · rw [hself, hbn, Mkfs.need, Mkfs.need]
          split_ifs <;> omega
        · have hfull := hs.full hvacant hall
          simpa only [need_eq] using hfull
      rw [hok]
      have hs₁ := hs.takeIndirect hv hT hind
      have hp : ((tab k).setAddr NDIRECT p).indirect = p := by
        rw [Dinode.indirect_setAddr le_rfl, if_pos rfl]
      have h0 : (s₁.block p).word (bn - NDIRECT) = 0 := by rw [hT.zero, Mkfs.word_zero]
      simp only [h0, if_true]
      -- the indirect block is taken, and now the block itself
      rcases balloc_spec hv hs₁.front with ⟨he, hall⟩ | ⟨a, s₂, hok₂, hT₂⟩
      · rw [he]
        refine Or.inl ⟨_, rfl, ?_⟩
        have hvacant' : Stored.Vacant sb.inodeCount cnt (Function.update (Mkfs.large cnt) k true) := by
          intro i hi
          rw [Function.update_of_ne (Nat.ne_of_gt (hk.trans_le hi))]
          exact hvacant i hi
        have hfull := hs₁.full hvacant' hall
        rw [TooMuch, ← hfull]
        refine Finset.sum_lt_sum (fun i _ => ?_) ⟨k, Finset.mem_range.mpr hk, ?_⟩
        · by_cases hi : i = k
          · rw [hi, Function.update_self, if_pos rfl, hself, hbn, Mkfs.need]
            omega
          · rw [Function.update_of_ne hi, Function.update_of_ne hi, need_eq]
        · rw [Function.update_self, if_pos rfl, hself, hbn, Mkfs.need, if_pos (by omega)]
          omega
      · rw [hok₂]
        have hindk : (Function.update tab k ((tab k).setAddr NDIRECT p) k).indirect = p := by
          rw [Function.update_self, hp]
        have hp0 : p ≠ 0 := Nat.ne_of_gt (sb.dataStart_pos.trans_le hT.lo)
        have hs₂ := hs₁.takeEntry (k := k) hv hT₂ hbn hge hmax (by rw [hindk]; exact hp0)
        rw [hindk] at hs₂
        have hlo := (Nat.le_add_right sb.bmapstart (sb.size / BPB + 1)).trans hT.lo
        refine Or.inr ⟨a, _, _, rfl, ?_, ?_, Mkfs.kept_setAddr .., fun b hb => ?_⟩
        · rw [large_update_indirect (by omega)]
          exact hs₂
        · rw [Dinode.addr_of_indirect hge (by rw [hp]; exact hp0), hp]
          show (Function.update s₂.block p _ p).word _ = a
          rw [Function.update_self]
          exact Block.word_setWord (by simp only [NINDIRECT] at hentry; exact hentry)
            (hT₂.hi.trans (hv.size.trans (by decide)))
        · show Function.update s₂.block p _ b = _
          rw [Function.update_of_ne (Nat.ne_of_lt (hb.trans_le hlo)), hT₂.front hb, hT.front hb]
    -- the file has its indirect block already
    · have hsetself : (tab k).setAddr NDIRECT (tab k).indirect = tab k := Dinode.setAddr_self _ rfl
      rw [Dinode.addr_of_indirect hge hind] at hnone
      rw [if_neg hind]
      simp only [hnone, if_true, hsetself]
      have hlarge : NDIRECT < cnt k := of_decide_eq_true ((hs.indirect k).mp hind)
      rcases balloc_spec hv hs.front with ⟨he, hall⟩ | ⟨a, s', hok, hT⟩
      · rw [he]
        refine Or.inl ⟨_, rfl, TooMuch.of_full hk ?_ hmono ?_⟩
        · rw [hself, hbn, Mkfs.need, Mkfs.need, if_pos (by omega), if_pos (by omega)]
          omega
        · have hfull := hs.full hvacant hall
          simpa only [need_eq] using hfull
      · rw [hok]
        have hs' := hs.takeEntry hv hT hbn hge hmax hind
        have hlo := (Nat.le_add_right sb.bmapstart (sb.size / BPB + 1)).trans (hs.indirect_bounds hind).1
        refine Or.inr ⟨a, tab k, _, rfl, ?_, ?_, Mkfs.kept_refl _, fun b hb => ?_⟩
        · rw [large_update (by omega), Function.update_eq_self]
          exact hs'
        · rw [Dinode.addr_of_indirect hge hind]
          show (Function.update s'.block _ _ _).word _ = a
          rw [Function.update_self]
          exact Block.word_setWord (by simp only [NINDIRECT] at hentry; exact hentry)
            (hT.hi.trans (hv.size.trans (by decide)))
        · show Function.update s'.block _ _ b = _
          rw [Function.update_of_ne (Nat.ne_of_lt (hb.trans_le hlo)), hT.front hb]

/-- What `bmap` does with a block up to the end of the file. -/
theorem Stored.bmap (hv : sb.Ordered) (hk : k < sb.inodeCount) (hn : ∀ i, sb.inodeCount ≤ i → cnt i = 0)
    (hs : Stored sb tab s.block cnt (Mkfs.large cnt) data) (hle : bn ≤ cnt k) (hmax : bn < MAXFILE) :
    (∃ l, bmap sb (tab k) bn s = .error ⟨"balloc: out of blocks", l⟩ ∧
        TooMuch sb (Function.update cnt k (max (cnt k) (bn + 1)))) ∨
      ∃ a din' s', bmap sb (tab k) bn s = .ok (a, din', s') ∧ Fetched sb tab cnt data s k bn a din' s' := by
  by_cases hold : bn < cnt k
  · have hcnt : max (cnt k) (bn + 1) = cnt k := max_eq_left hold
    refine Or.inr ⟨_, tab k, s, bmap_of_ne_zero hmax ((hs.alloc k bn hmax).mpr hold), ?_, rfl,
      Mkfs.kept_refl _, fun _ _ => rfl, fun _ => rfl⟩
    rw [hcnt, Function.update_eq_self, Function.update_eq_self]
    exact hs
  · have hcnt : max (cnt k) (bn + 1) = bn + 1 := max_eq_right (by omega)
    rw [hcnt]
    rcases hs.bmap_new hv hk hn (Nat.le_antisymm (not_lt.mp hold) hle) hmax with
      he | ⟨a, din', s', hok, hs', haddr, hsame, hfront⟩
    · exact Or.inl he
    · refine Or.inr ⟨a, din', s', hok, ?_, haddr, hsame, hfront, fun h => absurd h hold⟩
      rw [hcnt]
      exact hs'

/-! ### `filewrite` -/

/-- The place of a block that is one of the file. -/
def fileSlot (k : ℕ) : BlockUse → Option Mkfs.Slot
  | .indirect => some (.indirect k)
  | .data bn => some (.data k bn)
  | _ => none

theorem place_file {u : BlockUse} {w : Mkfs.Slot} (hw : fileSlot k u = some w) :
    Xv6.place sb k (tab k) blk u = Mkfs.place tab blk w := by
  cases u with
  | boot | bitmap j | inode => cases hw
  | indirect =>
    obtain rfl := Option.some.inj hw
    rfl
  | data bn =>
    obtain rfl := Option.some.inj hw
    rw [Xv6.place, Mkfs.place, Mkfs.nonzero]
    by_cases hbn : bn < MAXFILE
    · rw [if_pos hbn]
      by_cases h0 : (tab k).addr blk bn = 0
      · rw [if_pos h0, if_neg fun h => h.2 h0]
      · rw [if_neg h0, if_pos ⟨hbn, h0⟩]
    · rw [if_neg hbn, if_neg fun h => hbn h.1]

/-- The parts of the disk in their order: the boot block, the inodes, the bitmap and the data. -/
def zone : BlockUse → ℕ
  | .boot => 0
  | .inode => 1
  | .bitmap _ => 2
  | .indirect | .data _ => 3

theorem zone_le (u : BlockUse) : zone u ≤ 3 := by
  cases u <;> simp [zone]

/-- What lies in the last part belongs to the file. -/
theorem exists_fileSlot (k : ℕ) {u : BlockUse} (hz : ¬ zone u < 3) : ∃ w, fileSlot k u = some w := by
  cases u with
  | boot | bitmap j | inode => simp [zone] at hz
  | indirect | data bn => exact ⟨_, rfl⟩

/-- Where a part of the disk begins. -/
def zoneStart (sb : Superblock) : ℕ → ℕ
  | 0 => 0
  | 1 => sb.inodestart
  | 2 => sb.bmapstart
  | _ => sb.dataStart

theorem zoneStart_mono (hv : sb.Ordered) : Monotone (zoneStart sb) := by
  refine monotone_nat_of_le_succ fun z => ?_
  rcases z with - | - | - | z
  · exact Nat.zero_le _
  · exact (Nat.le_add_right _ _).trans hv.inodes
  · exact Nat.le_add_right _ _
  · exact le_rfl

/-- Each block lies in its part of the disk. -/
theorem Stored.place_zone (hs : Stored sb tab blk cnt ind data) (hv : sb.Ordered)
    (hstart : 0 < sb.inodestart) (hk : k < sb.inodeCount) {u : BlockUse}
    (hu : Xv6.place sb k (tab k) blk u = some a) :
    zoneStart sb (zone u) ≤ a ∧ (zone u < 3 → a < zoneStart sb (zone u + 1)) := by
  cases u with
  | boot =>
    obtain rfl := Option.some.inj hu
    exact ⟨le_rfl, fun _ => hstart⟩
  | inode =>
    obtain ⟨h1, h2⟩ := IBLOCK_eq hv hk
    obtain rfl := Option.some.inj hu
    refine ⟨?_, fun _ => h2⟩
    rw [h1]
    exact Nat.le_add_left _ _
  | bitmap j =>
    rw [Xv6.place] at hu
    split_ifs at hu with hj
    obtain rfl := Option.some.inj hu
    obtain ⟨h1, h2⟩ := BBLOCK_bounds hv hj
    exact ⟨h1, fun _ => h2⟩
  | indirect | data bn =>
    rw [place_file rfl] at hu
    exact ⟨(hs.map.mem _ a hu).1, fun h => absurd h (Nat.lt_irrefl 3)⟩

/-- **A file on such a disk is as `filewrite` needs it.** -/
theorem Stored.fileOk (hs : Stored sb tab blk cnt ind data) (hv : sb.Ordered)
    (hstart : 0 < sb.inodestart) (hk : k < sb.inodeCount) : FileOk sb k (tab k) blk := by
  have hlt : sb.size < 2 ^ 32 := hv.size.trans (by decide)
  refine ⟨hlt, fun u a hu _ => ?_, fun u v a hu hw => ?_⟩
  · by_cases hz : zone u < 3
    · exact hs.front a (((hs.place_zone hv hstart hk hu).2 hz).trans_le (zoneStart_mono hv hz))
    · obtain ⟨w, hw⟩ := exists_fileSlot k hz
      rw [place_file hw] at hu
      exact hs.map.used_of_place hu
  · -- the block lies in one part of the disk only
    have hle : ∀ {u v}, Xv6.place sb k (tab k) blk u = some a → Xv6.place sb k (tab k) blk v = some a →
        ¬ zone u < zone v := by
      intro u v hu hw hz
      have h1 := (hs.place_zone hv hstart hk hu).2 (hz.trans_le (zone_le v))
      have h2 := (hs.place_zone hv hstart hk hw).1
      exact absurd (h1.trans_le (zoneStart_mono hv hz)) (not_lt.mpr h2)
    have hz : zone u = zone v := le_antisymm (not_lt.mp (hle hw hu)) (not_lt.mp (hle hu hw))
    have hfile : ∀ {w w'}, fileSlot k u = some w → fileSlot k v = some w' → w = w' := by
      intro w w' hw1 hw2
      rw [place_file hw1] at hu
      rw [place_file hw2] at hw
      exact hs.map.inj w w' a hu hw
    cases u with
    | boot => cases v <;> first | rfl | cases hz
    | inode => cases v <;> first | rfl | cases hz
    | bitmap j =>
      cases v with
      | bitmap i =>
        rw [Xv6.place] at hu hw
        split_ifs at hu hw with hj hi
        have he := (Option.some.inj hu).trans (Option.some.inj hw).symm
        rw [BBLOCK_eq_iff sb (hj.trans hlt) (hi.trans hlt), Nat.mul_div_cancel _ (by decide),
          Nat.mul_div_cancel _ (by decide)] at he
        rw [he]
      | _ => cases hz
    | indirect =>
      cases v with
      | indirect => rfl
      | data bn => cases hfile rfl rfl
      | _ => cases hz
    | data bn =>
      cases v with
      | indirect => cases hfile rfl rfl
      | data bn' =>
        cases hfile rfl rfl
        rfl
      | _ => cases hz

end Store

end OsSemester.Xv6
