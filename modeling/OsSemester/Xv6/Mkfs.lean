import OsSemester.Xv6.Layout

/-!
# Making a file system (`mkfs.c`)

`main` builds the image: the superblock, the root directory, and the host files one after the other.
Each block of a file is the next free one, and the bitmap is written at the end.
-/

namespace OsSemester.Xv6

abbrev ROOTINO : ℕ := 1

abbrev DIRSIZ : ℕ := 14

namespace Mkfs

abbrev NINODES : ℕ := 200

def nbitmap : ℕ := FSSIZE / (BSIZE * 8) + 1
def ninodeblocks : ℕ := NINODES / IPB + 1
def nlog : ℕ := LOGSIZE

/-- Boot block, superblock, log, inode blocks and bitmap. -/
def nmeta : ℕ := 2 + nlog + ninodeblocks + nbitmap

/-- `sb`; `main` sets its fields. -/
abbrev sb : Superblock := mkfsSuperblock

/-- The sectors of the image, which has `FSSIZE` of them, and the variables of `mkfs.c`. -/
structure State where
  img : Blockno → Block
  freeinode : ℕ
  freeblock : ℕ

namespace State

/-- `wsect`; every sector `mkfs` writes lies in the image. -/
def wsect (s : State) (sec : ℕ) (buf : Block) : State :=
  { s with img := Function.update s.img sec buf }

/-- `rsect`; there is nothing to read behind the end of the image. -/
def rsect (s : State) (sec : ℕ) : Option Block :=
  if sec < FSSIZE then some (s.img sec) else none

/-- `winode` -/
def winode (s : State) (inum : ℕ) (ip : Dinode) : Option State := do
  let bn := IBLOCK inum sb
  let buf ← s.rsect bn
  return s.wsect bn (buf.setDinode (inum % IPB) ip)

/-- `rinode` -/
def rinode (s : State) (inum : ℕ) : Option Dinode := do
  let buf ← s.rsect (IBLOCK inum sb)
  return buf.dinode (inum % IPB)

/-- `ialloc` -/
def ialloc (s : State) (type : ℕ) : Option (ℕ × State) := do
  let inum := s.freeinode
  let din : Dinode := ⟨type, 0, 0, 1, 0, fun _ => 0⟩
  let s' ← { s with freeinode := s.freeinode + 1 }.winode inum din
  return (inum, s')

/-- `balloc` -/
def balloc (s : State) (used : ℕ) : Option State :=
  if used < BSIZE * 8 then
    some (s.wsect sb.bmapstart ((List.range used).foldl Block.setBit 0))
  else none

/-- `freeblock++`; the value taken is the one before. -/
def bump (s : State) : State := { s with freeblock := s.freeblock + 1 }

/-- The entry of the indirect block for block `fbn` of the file. -/
def indirectEntry (s : State) (din : Dinode) (fbn : ℕ) : Option (Blockno × Dinode × State) := do
  let indirect ← s.rsect din.indirect
  if indirect.word (fbn - NDIRECT) = 0 then
    let indirect' := indirect.setWord (fbn - NDIRECT) s.freeblock
    return (s.freeblock, din, s.bump.wsect din.indirect indirect')
  else return (indirect.word (fbn - NDIRECT), din, s)

/-- The block `x` of a round of `iappend`, for block `fbn` of the file. -/
def fileBlock (s : State) (din : Dinode) (fbn : ℕ) : Option (Blockno × Dinode × State) :=
  if fbn < NDIRECT then
    if din.direct fbn = 0 then some (s.freeblock, din.setAddr fbn s.freeblock, s.bump)
    else some (din.direct fbn, din, s)
  else if din.indirect = 0 then s.bump.indirectEntry (din.setAddr NDIRECT s.freeblock) fbn
  else s.indirectEntry din fbn

/-- The loop of `iappend` with room for `k` more iterations; `p` is what is left to append. -/
def iappendLoop : ℕ → State → Dinode → ℕ → List UInt8 → Option (Dinode × ℕ × State)
  | 0, s, din, off, _ => some (din, off, s)
  | k + 1, s, din, off, p =>
    if 0 < p.length then
      let fbn := off / BSIZE
      if fbn < MAXFILE then do
        let (x, din', s') ← s.fileBlock din fbn
        let n1 := min p.length ((fbn + 1) * BSIZE - off)
        let buf ← s'.rsect x
        let buf' := buf.move (off - fbn * BSIZE) (fun j => p.getD j 0) n1
        iappendLoop k (s'.wsect x buf') din' (off + n1) (p.drop n1)
      -- `assert(fbn < MAXFILE)`
      else none
    else some (din, off, s)

/-- `iappend`; every round takes one byte or more. -/
def iappend (s : State) (inum : ℕ) (p : List UInt8) : Option State := do
  let din ← s.rinode inum
  let (din', off, s') ← s.iappendLoop p.length din din.size p
  s'.winode inum { din' with size := off }

end State

/-- The bytes of a `struct dirent`; `strncpy` cuts the name off or fills it up with zeros. -/
def dirent (inum : ℕ) (name : List UInt8) : List UInt8 :=
  [UInt8.ofNat inum, UInt8.ofNat (inum / 256)] ++ (name ++ List.replicate DIRSIZ 0).take DIRSIZ

/-- A file of the host: its name on the command line, and what one `read` after the other returns. -/
structure HostFile where
  name : List UInt8
  reads : List (List UInt8)
  name_ne_zero : ∀ c ∈ name, c ≠ 0
  reads_length : ∀ p ∈ reads, 0 < p.length ∧ p.length ≤ BSIZE

/-- The bytes of the file. -/
def HostFile.content (f : HostFile) : List UInt8 := f.reads.flatten

/-- The name in the directory: a leading `_` is skipped. -/
def HostFile.entryName (f : HostFile) : List UInt8 :=
  if f.name.head? = some 95 then f.name.tail else f.name

/-- An iteration of the loop in `main`. -/
def addFile (rootino : ℕ) (s : State) (f : HostFile) : Option State :=
  -- `assert(index(argv[i], '/') == 0)`
  if 47 ∈ f.name then none
  else do
    let (inum, s') ← s.ialloc T_FILE
    let s'' ← s'.iappend rootino (dirent inum f.entryName)
    f.reads.foldlM (fun s p => s.iappend inum p) s''

/-- The superblock as it is written to sector 1. -/
def superBlock : Block :=
  Block.setWords 0 0
    [sb.size, sb.nblocks, sb.ninodes, sb.nlog, sb.logstart, sb.inodestart, sb.bmapstart]

/-- What `main` starts from: all sectors are zero but the one of the superblock. -/
def init : State := State.wsect ⟨fun _ => 0, 1, nmeta⟩ 1 superBlock

/-- The end of `main`: the size of the root directory is rounded up, and the bitmap is written. -/
def finish (rootino : ℕ) (s : State) : Option (Blockno → Block) := do
  let din ← s.rinode rootino
  let off := (din.size / BSIZE + 1) * BSIZE
  let s' ← s.winode rootino { din with size := off }
  let s'' ← s'.balloc s'.freeblock
  return s''.img

/-- `main`: the image, when no assertion fails and no call of the host does. -/
def main (files : List HostFile) : Option (Blockno → Block) := do
  let (rootino, s) ← init.ialloc T_DIR
  if rootino = ROOTINO then
    let s1 ← s.iappend rootino (dirent rootino [46])
    let s2 ← s1.iappend rootino (dirent rootino [46, 46])
    let s3 ← files.foldlM (addFile rootino) s2
    finish rootino s3
  else none

end Mkfs

end OsSemester.Xv6
