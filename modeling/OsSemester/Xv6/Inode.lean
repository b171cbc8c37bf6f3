import OsSemester.Xv6.FileWrite

/-!
# Reading and freeing the content of inodes (`fs.c`)

`bfree`, `itrunc`, `readi`, `stati`, `ialloc` and `iput`.  Between the calls there is the disk, as `bread`
delivers it, the inodes in memory that are valid, and the references to inodes; `ilock` reads an inode that
is not valid.
-/

namespace OsSemester.Xv6

/-- The inodes that the blocks of inodes have room for. -/
def Superblock.inodeCount (sb : Superblock) : ℕ := (sb.ninodes / IPB + 1) * IPB

namespace Block

variable {d : Block} {i j : ℕ}

/-- `d[i/8] &= ~(1 << (i%8));` -/
def clearBit (d : Block) (i : ℕ) : Block := fun j =>
  if (j : ℕ) = i / 8 then UInt8.ofNat ((d j).toNat &&& (2 ^ 8 - (2 ^ (i % 8) + 1))) else d j

theorem bit_clearBit : (d.clearBit i).bit j = (decide (j ≠ i) && d.bit j) := by
  unfold bit Bytes.get
  by_cases hj : j / 8 < BSIZE
  · rw [dif_pos hj, dif_pos hj]
    by_cases hb : j / 8 = i / 8
    · have hlt : (d ⟨j / 8, hj⟩).toNat &&& (2 ^ 8 - (2 ^ (i % 8) + 1)) < 2 ^ 8 :=
        Nat.and_le_left.trans_lt (UInt8.toNat_lt _)
      have hpow : 2 ^ (i % 8) < 2 ^ 8 := Nat.pow_lt_pow_right (by decide) (Nat.mod_lt _ (by decide))
      have hmod : j % 8 < 8 := Nat.mod_lt _ (by decide)
      have hiff : i % 8 = j % 8 ↔ j = i := by omega
      rw [clearBit, if_pos hb, UInt8.toNat_ofNat', Nat.mod_eq_of_lt hlt, Nat.testBit_and,
        Nat.testBit_two_pow_sub_succ hpow, decide_eq_true hmod, Bool.true_and, Nat.testBit_two_pow, Bool.and_comm,
        decide_not]
      simp only [hiff]
    · have hne : j ≠ i := by
        rintro rfl
        exact hb rfl
      rw [clearBit, if_neg hb, decide_eq_true hne, Bool.true_and]
  · rw [dif_neg hj, dif_neg hj]
    show (0 : ℕ).testBit _ = (_ && (0 : ℕ).testBit _)
    rw [Nat.zero_testBit, Bool.and_false]

end Block

/-- `devsw[major].read`: what it returns for a number of bytes, and the bytes; `none` when there is no
such function. -/
abbrev DevRead := ℕ → Option (ℕ → ℤ × List UInt8)

section

variable (sb : Superblock)

/-- `bfree` -/
def bfree (s : OpDisk) (b : Blockno) : Except FsPanic OpDisk :=
  let bp := BBLOCK b sb
  if (s.block bp).bit (b % BPB) then .ok (s.write bp ((s.block bp).clearBit (b % BPB)))
  else .error ⟨"freeing free block", s.logged⟩

/-- `if(a[j]) bfree(ip->dev, a[j]);` for the blocks in a list. -/
def bfreeAll (s : OpDisk) (l : List Blockno) : Except FsPanic OpDisk :=
  (l.filter (· ≠ 0)).foldlM (bfree sb) s

/-- The half of `itrunc` for the indirect block. -/
def bfreeIndirect (s : OpDisk) (ind : Blockno) : Except FsPanic OpDisk :=
  if ind ≠ 0 then
    let a := s.block ind
    (bfreeAll sb s ((List.range NINDIRECT).map a.word)).bind fun s' => bfree sb s' ind
  else .ok s

/-- `itrunc` of the inode `inum`; all its addresses become 0. -/
def itrunc (inum : ℕ) (din : Dinode) (s : OpDisk) : Except FsPanic (Dinode × OpDisk) :=
  (bfreeAll sb s ((List.range NDIRECT).map din.direct)).bind fun s1 =>
    (bfreeIndirect sb s1 din.indirect).bind fun s2 =>
      let din' : Dinode := { din with size := 0, addrs := fun _ => 0 }
      .ok (din', iupdate sb inum din' s2)

/-- The loop of `readi` with room for `k` more iterations; `dst` is what has been read. -/
def readiLoop (n : ℕ) : ℕ → ℕ → ℕ → List UInt8 → Dinode → OpDisk →
    Except FsPanic (List UInt8 × Dinode × OpDisk)
  | 0, _, _, dst, din, s => .ok (dst, din, s)
  | k + 1, tot, off, dst, din, s =>
    if tot < n then
      match bmap sb din (off / BSIZE) s with
      | .error e => .error e
      | .ok (bp, din', s') =>
        let m := min (n - tot) (BSIZE - off % BSIZE)
        readiLoop n k (tot + m) (off + m)
          (dst ++ (List.range m).map fun j => (s'.block bp).get (off % BSIZE + j)) din' s'
    else .ok (dst, din, s)

/-- `readi`: the number it returns, and the bytes. -/
def readi (devread : DevRead) (off n : ℕ) (din : Dinode) (s : OpDisk) :
    Except FsPanic (ℤ × List UInt8 × Dinode × OpDisk) :=
  if din.type = T_DEV then
    if din.major ≥ NDEV then .ok (-1, [], din, s)
    else
      match devread din.major with
      | none => .ok (-1, [], din, s)
      | some read => .ok ((read n).1, (read n).2, din, s)
  else if off > din.size ∨ (off + n) % 2 ^ 32 < off then .ok (-1, [], din, s)
  else
    let n' := if (off + n) % 2 ^ 32 > din.size then din.size - off else n
    match readiLoop sb n' n' 0 off [] din s with
    | .error e => .error e
    | .ok (dst, din', s') => .ok (n', dst, din', s')

/-- The loop of `ialloc` for `n` more inodes. -/
def iallocLoop (type : ℕ) (s : OpDisk) : ℕ → ℕ → Except FsPanic (ℕ × OpDisk)
  | 0, _ => .error ⟨"ialloc: no inodes", s.logged⟩
  | n + 1, inum =>
    if inum < sb.ninodes then
      let bp := IBLOCK inum sb
      if ((s.block bp).dinode (inum % IPB)).type = 0 then
        .ok (inum, s.write bp ((s.block bp).setDinode (inum % IPB) ⟨type, 0, 0, 0, 0, fun _ => 0⟩))
      else iallocLoop type s n (inum + 1)
    else .error ⟨"ialloc: no inodes", s.logged⟩

/-- `ialloc` before its `iget`: the number of the inode. -/
def ialloc (type : ℕ) (s : OpDisk) : Except FsPanic (ℕ × OpDisk) := iallocLoop sb type s sb.ninodes 1

/-- Inode `k` on the disk. -/
def diskInode (block : Blockno → Block) (k : ℕ) : Dinode := (block (IBLOCK k sb)).dinode (k % IPB)

end

/-! ### Calls -/

/-- The disk, and the inodes in memory that are valid. -/
structure FsState where
  block : Blockno → Block
  core : ℕ → Option Dinode

/-- What a call does to the disk and to the inode `k` in memory. -/
inductive FsOp (sb : Superblock)
  | readi (k : Fin sb.inodeCount) (off n : UInt32)
  | writei (k : Fin sb.inodeCount) (src : ℕ → UInt8) (off n : UInt32)
  | stati (k : Fin sb.inodeCount)
  /-- `create` and the system calls that link set these fields and call `iupdate`. -/
  | iupdate (k : Fin sb.inodeCount) (major minor nlink : UInt16)
  /-- `ialloc` before its `iget`. -/
  | ialloc (type : UInt16)
  /-- `ref` is the number of references to the inode. -/
  | iput (k : Fin sb.inodeCount) (ref : ℕ)

/-- What a call returns. -/
inductive FsRet
  | read (r : ℤ) (dst : List UInt8)
  | written (r : ℤ)
  | stat (ino type nlink size : ℕ)
  | inum (k : ℕ)
  | void

namespace FsState

section

variable (sb : Superblock) (devsw : DevSwitch) (devread : DevRead)

/-- `ilock`: the inode in memory. -/
def ilock (σ : FsState) (k : ℕ) : Except FsPanic Dinode :=
  match σ.core k with
  | some din => .ok din
  | none =>
    let din := diskInode sb σ.block k
    if din.type = 0 then .error ⟨"ilock: no type", []⟩ else .ok din

/-- The state after a call that has left the inode `k` valid. -/
def commit (k : ℕ) (σ : FsState) (din : Dinode) (s : OpDisk) : FsState :=
  ⟨s.block, Function.update σ.core k (some din)⟩

/-- What a call between `begin_op` and `end_op` does. -/
def step (σ : FsState) : FsOp sb → Except FsPanic (FsRet × FsState)
  | .readi k off n =>
    (σ.ilock sb k).bind fun din =>
      (readi sb devread off.toNat n.toNat din ⟨σ.block, []⟩).bind fun r =>
        .ok (.read r.1 r.2.1, commit k σ r.2.2.1 r.2.2.2)
  | .writei k src off n =>
    (σ.ilock sb k).bind fun din =>
      (writei sb devsw k src off.toNat n.toNat din ⟨σ.block, []⟩).bind fun r =>
        .ok (.written r.1, commit k σ r.2.1 r.2.2)
  | .stati k =>
    (σ.ilock sb k).bind fun din => .ok (.stat k din.type din.nlink din.size, commit k σ din ⟨σ.block, []⟩)
  | .iupdate k major minor nlink =>
    (σ.ilock sb k).bind fun din =>
      let din' := { din with major := major.toNat, minor := minor.toNat, nlink := nlink.toNat }
      .ok (.void, commit k σ din' (iupdate sb k din' ⟨σ.block, []⟩))
  | .ialloc type =>
    (ialloc sb type.toNat ⟨σ.block, []⟩).bind fun r => .ok (.inum r.1, ⟨r.2.block, σ.core⟩)
  | .iput k ref =>
    -- with the last reference the entry of the cache is given up
    let core := if ref = 1 then Function.update σ.core k none else σ.core
    match σ.core k with
    | none => .ok (.void, ⟨σ.block, core⟩)
    | some din =>
      if din.nlink = 0 ∧ ref = 1 then
        (itrunc sb k din ⟨σ.block, []⟩).bind fun r =>
          .ok (.void, ⟨(iupdate sb k { r.1 with type := 0 } r.2).block, core⟩)
      else .ok (.void, ⟨σ.block, core⟩)

end

end FsState

/-! ### References -/

/-- `NINODE` -/
abbrev NINODE : ℕ := 50

/-- The numbers of references. -/
abbrev InodeRefs (sb : Superblock) := Fin sb.inodeCount → ℕ

/-- A call on an inode; `ilock` and `iunlock` are around `readi`, `writei`, `stati` and `iupdate`. -/
inductive InodeOp (sb : Superblock)
  | readi (k : Fin sb.inodeCount) (off n : UInt32)
  | writei (k : Fin sb.inodeCount) (src : ℕ → UInt8) (off n : UInt32)
  | stati (k : Fin sb.inodeCount)
  | iupdate (k : Fin sb.inodeCount) (major minor nlink : UInt16)
  | ialloc (type : UInt16)
  | iget (k : Fin sb.inodeCount)
  | idup (k : Fin sb.inodeCount)
  | iput (k : Fin sb.inodeCount)

section

variable {sb : Superblock} {σ ε : Type}

/-- The entries of the inode cache in use. -/
def busy (refs : InodeRefs sb) : ℕ := (Finset.univ.filter fun k => 0 < refs k).card

namespace InodeRefs

variable (refs : InodeRefs sb) (fail : String → ε)

/-- `iget` -/
def iget (k : Fin sb.inodeCount) : Except ε (InodeRefs sb) :=
  -- there is no entry for the inode, and none that is free
  if refs k = 0 ∧ NINODE ≤ busy refs then .error (fail "iget: no inodes")
  else .ok (Function.update refs k (refs k + 1))

variable {refs fail} {k : Fin sb.inodeCount}

theorem iget_ok (h : refs k ≠ 0 ∨ busy refs < NINODE) :
    refs.iget fail k = .ok (Function.update refs k (refs k + 1)) := by
  rw [iget, if_neg]
  rintro ⟨h0, hfull⟩
  exact h.elim (fun hk => hk h0) fun hlt => absurd hfull (not_le.mpr hlt)

theorem iget_full (h0 : refs k = 0) (hfull : NINODE ≤ busy refs) :
    refs.iget fail k = .error (fail "iget: no inodes") := if_pos ⟨h0, hfull⟩

variable (refs fail)

/-- `return iget(dev, inum);` -/
def igetRet : FsRet → Except ε (InodeRefs sb)
  | .inum k =>
    if h : k < sb.inodeCount then refs.iget fail ⟨k, h⟩
    -- behind the inodes of the disk
    else .error (fail "iget")
  | _ => .ok refs

/-- `if(ip == 0 || ip->ref < 1) panic("ilock");` and a call between it and `iunlock`. -/
def locked (k : Fin sb.inodeCount) (x : Except ε (FsRet × σ)) : Except ε (FsRet × σ × InodeRefs sb) :=
  if refs k = 0 then .error (fail "ilock") else x.map fun r => (r.1, r.2, refs)

variable {refs fail} in
theorem locked_ok {x : Except ε (FsRet × σ)} (h : refs k ≠ 0) :
    refs.locked fail k x = x.map fun r => (r.1, r.2, refs) := if_neg h

end InodeRefs

/-- The calls of a component, with the references counted. -/
def withRefs (step : σ → FsOp sb → Except ε (FsRet × σ)) (fail : String → ε) (s : σ × InodeRefs sb) :
    InodeOp sb → Except ε (FsRet × σ × InodeRefs sb)
  | .readi k off n => s.2.locked fail k (step s.1 (.readi k off n))
  | .writei k src off n => s.2.locked fail k (step s.1 (.writei k src off n))
  | .stati k => s.2.locked fail k (step s.1 (.stati k))
  | .iupdate k major minor nlink => s.2.locked fail k (step s.1 (.iupdate k major minor nlink))
  | .ialloc type =>
    (step s.1 (.ialloc type)).bind fun r => (s.2.igetRet fail r.1).map fun refs => (r.1, r.2, refs)
  | .iget k => (s.2.iget fail k).map fun refs => (.void, s.1, refs)
  | .idup k => .ok (.void, s.1, Function.update s.2 k (s.2 k + 1))
  | .iput k => (step s.1 (.iput k (s.2 k))).map fun r => (r.1, r.2, Function.update s.2 k (s.2 k - 1))

/-- The calls of `fs.c`. -/
def FsState.call (sb : Superblock) (devsw : DevSwitch) (devread : DevRead) :
    FsState × InodeRefs sb → InodeOp sb → Except FsPanic (FsRet × FsState × InodeRefs sb) :=
  withRefs (FsState.step sb devsw devread) fun msg => ⟨msg, []⟩

/-- An inode without references is not in memory. -/
def FsState.Counted (σ : FsState) (refs : InodeRefs sb) : Prop :=
  ∀ k : Fin sb.inodeCount, refs k = 0 → σ.core k = none

end

end OsSemester.Xv6
