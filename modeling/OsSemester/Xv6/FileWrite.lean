import OsSemester.Xv6.Layout

/-!
# Writing to a file (`fs.c`, `filewrite` in `file.c`)

A file system call sees the blocks of the disk as `bread` delivers them.  Between `begin_op` and
`end_op` the numbers of the blocks it passes to `log_write` are recorded, in order; a panic tells what
has been recorded so far.
-/

namespace OsSemester.Xv6

/-- The blocks, and the block numbers passed to `log_write` since `begin_op`. -/
structure OpDisk where
  block : Blockno → Block
  logged : List Blockno

/-- A block is modified and passed to `log_write`. -/
def OpDisk.write (s : OpDisk) (b : Blockno) (d : Block) : OpDisk where
  block := Function.update s.block b d
  logged := s.logged ++ [b]

/-- A call of `panic` in the middle of an operation. -/
structure FsPanic where
  msg : String
  logged : List Blockno

section

variable (sb : Superblock)

/-- The inner loop of `balloc`: the first free block of the bitmap block for `b`. -/
@[irreducible]
def freeBit (d : Block) (b : ℕ) : Option ℕ :=
  (List.range BPB).find? fun bi => decide (b + bi < sb.size) && !d.bit bi

/-- The outer loop of `balloc` for `n` more bitmap blocks. -/
def ballocLoop (s : OpDisk) : ℕ → ℕ → Except FsPanic (Blockno × OpDisk)
  | 0, _ => .error ⟨"balloc: out of blocks", s.logged⟩
  | n + 1, b =>
    if b < sb.size then
      let bp := BBLOCK b sb
      match freeBit sb (s.block bp) b with
      | none => ballocLoop s n (b + BPB)
      | some bi =>
        -- the block is marked, then `bzero(dev, b + bi)`
        .ok (b + bi, (s.write bp ((s.block bp).setBit bi)).write (b + bi) 0)
    else .error ⟨"balloc: out of blocks", s.logged⟩

/-- `balloc`.  From `sb.size = 2 ^ 31` on the `int` of the source overflows; here it goes on as a
`uint`. -/
def balloc (s : OpDisk) : Except FsPanic (Blockno × OpDisk) :=
  ballocLoop sb s (sb.size / BPB + 1) 0

/-- `if((addr = ...) == 0) ... = addr = balloc(ip->dev);` -/
def ballocIfNone (addr : Blockno) (s : OpDisk) : Except FsPanic (Blockno × OpDisk) :=
  if addr = 0 then balloc sb s else .ok (addr, s)

/-- `bmap` -/
def bmap (din : Dinode) (bn : ℕ) (s : OpDisk) : Except FsPanic (Blockno × Dinode × OpDisk) :=
  if bn < NDIRECT then
    match ballocIfNone sb (din.direct bn) s with
    | .error e => .error e
    | .ok (addr, s') => .ok (addr, din.setAddr bn addr, s')
  else if bn - NDIRECT < NINDIRECT then
    match ballocIfNone sb din.indirect s with
    | .error e => .error e
    | .ok (bp, s') =>
      let din' := din.setAddr NDIRECT bp
      let addr := (s'.block bp).word (bn - NDIRECT)
      if addr = 0 then
        match balloc sb s' with
        | .error e => .error e
        | .ok (addr, s'') =>
          .ok (addr, din', s''.write bp ((s''.block bp).setWord (bn - NDIRECT) addr))
      else .ok (addr, din', s')
  else .error ⟨"bmap: out of range", s.logged⟩

/-- `iupdate` -/
def iupdate (inum : ℕ) (din : Dinode) (s : OpDisk) : OpDisk :=
  s.write (IBLOCK inum sb) ((s.block (IBLOCK inum sb)).setDinode (inum % IPB) din)

/-- The loop of `writei` with room for `k` more iterations. -/
def writeiLoop (src : ℕ → UInt8) (n : ℕ) : ℕ → ℕ → ℕ → Dinode → OpDisk →
    Except FsPanic (ℕ × Dinode × OpDisk)
  | 0, _, off, din, s => .ok (off, din, s)
  | k + 1, tot, off, din, s =>
    if tot < n then
      match bmap sb din (off / BSIZE) s with
      | .error e => .error e
      | .ok (bp, din', s') =>
        let m := min (n - tot) (BSIZE - off % BSIZE)
        let d := (s'.block bp).move (off % BSIZE) (fun j => src (tot + j)) m
        writeiLoop src n k (tot + m) (off + m) din' (s'.write bp d)
    else .ok (off, din, s)

/-- `devsw[major].write`, by the bytes and their number; `none` when there is no such function. -/
abbrev DevSwitch := ℕ → Option ((ℕ → UInt8) → ℕ → ℤ)

abbrev NDEV : ℕ := 10

/-- `writei` of the inode `inum`; a negative `major` is one from `2 ^ 15` on. -/
def writei (devsw : DevSwitch) (inum : ℕ) (src : ℕ → UInt8) (off n : ℕ) (din : Dinode)
    (s : OpDisk) : Except FsPanic (ℤ × Dinode × OpDisk) :=
  if din.type = T_DEV then
    if din.major ≥ NDEV then .ok (-1, din, s)
    else
      match devsw din.major with
      | none => .ok (-1, din, s)
      | some write => .ok (write src n, din, s)
  else if off > din.size ∨ (off + n) % 2 ^ 32 < off then .ok (-1, din, s)
  else if (off + n) % 2 ^ 32 > MAXFILE * BSIZE then .ok (-1, din, s)
  else
    match writeiLoop sb src n n 0 off din s with
    | .error e => .error e
    | .ok (off', din', s') =>
      if n > 0 ∧ off' > din'.size then
        let din'' := { din' with size := off' }
        .ok (n, din'', iupdate sb inum din'' s')
      else .ok (n, din', s')

/-- The inode of an open file, `f->off`, and the blocks. -/
structure OpenInode where
  din : Dinode
  off : ℕ
  block : Blockno → Block

/-- What a call of `filewrite` does: the file, what has been passed to `log_write` from each
`begin_op` to its `end_op`, and the value returned or the text of the panic. -/
structure FileWritten where
  file : OpenInode
  ops : List (List Blockno)
  res : Except String ℤ

/-- `max` in `filewrite` -/
def maxWrite : ℕ := (MAXOPBLOCKS - 1 - 1 - 2) / 2 * 512

/-- The loop of `filewrite` with room for `k` more iterations. -/
def filewriteLoop (devsw : DevSwitch) (inum : ℕ) (addr : ℕ → UInt8) (n : ℕ) :
    ℕ → ℕ → OpenInode → List (List Blockno) → FileWritten
  | 0, i, f, ops => ⟨f, ops, .ok (if i = n then n else -1)⟩
  | k + 1, i, f, ops =>
    if i < n then
      let n1 := min (n - i) maxWrite
      match writei sb devsw inum (fun j => addr (i + j)) f.off n1 f.din ⟨f.block, []⟩ with
      | .error e => ⟨f, ops ++ [e.logged], .error e.msg⟩
      | .ok (r, din, s) =>
        let off := if r > 0 then (f.off + r.toNat) % 2 ^ 32 else f.off
        let f' : OpenInode := ⟨din, off, s.block⟩
        if r < 0 then ⟨f', ops ++ [s.logged], .ok (-1)⟩
        else if r ≠ n1 then ⟨f', ops ++ [s.logged], .error "short filewrite"⟩
        else filewriteLoop devsw inum addr n k (i + r.toNat) f' (ops ++ [s.logged])
    else ⟨f, ops, .ok (if i = n then n else -1)⟩

/-- `filewrite` of a file that is an inode. -/
def filewrite (devsw : DevSwitch) (inum : ℕ) (writable : Bool) (addr : ℕ → UInt8) (n : ℤ)
    (f : OpenInode) : FileWritten :=
  if writable = false then ⟨f, [], .ok (-1)⟩
  else if n < 0 then ⟨f, [], .ok (-1)⟩
  else filewriteLoop sb devsw inum addr n.toNat n.toNat 0 f []

end

end OsSemester.Xv6
