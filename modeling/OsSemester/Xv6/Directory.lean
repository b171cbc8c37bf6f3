import OsSemester.Lib.Client
import OsSemester.Xv6.Inode
import OsSemester.Xv6.Mkfs

/-!
# Directories and paths (`string.c`, `fs.c`)

A directory is a file with an entry of 16 bytes for each name.  The functions are programs whose calls are
those of `fs.c` on inodes, with the references that `iget`, `idup` and `iput` count.  A string in memory is
the list of its bytes, and what is behind the end of the list is not read.
-/

namespace OsSemester.Xv6

/-! ### Strings -/

/-- `strncmp` -/
def strncmp : ℕ → List UInt8 → List UInt8 → ℤ
  | 0, _, _ => 0
  | n + 1, p, q =>
    if p.headD 0 ≠ 0 ∧ p.headD 0 = q.headD 0 then strncmp n p.tail q.tail
    else (p.headD 0).toNat - (q.headD 0).toNat

/-- `strncpy`: the bytes that it writes. -/
def strncpy : ℕ → List UInt8 → List UInt8
  | 0, _ => []
  | n + 1, t =>
    if t.headD 0 = 0 then List.replicate (n + 1) 0
    else t.headD 0 :: strncpy n t.tail

/-- `namecmp` -/
def namecmp (s t : List UInt8) : ℤ := strncmp DIRSIZ s t

/-- `struct dirent` -/
structure Dirent where
  inum : ℕ
  name : List UInt8

namespace Dirent

/-- `sizeof(struct dirent)` -/
abbrev size : ℕ := 16

def ofBytes (bs : List UInt8) : Dirent where
  inum := (bs.getD 0 0).toNat + 2 ^ 8 * (bs.getD 1 0).toNat
  name := (bs.drop 2).take DIRSIZ

def toBytes (de : Dirent) : List UInt8 := UInt8.ofNat de.inum :: UInt8.ofNat (de.inum / 2 ^ 8) :: de.name

end Dirent

/-! ### Programs -/

/-- A program of the kernel over the inodes. -/
abbrev FsProg (sb : Superblock) (β : Type) := Client (InodeOp sb) FsRet String β

namespace FsProg

variable {sb : Superblock} {β : Type}

def panic (msg : String) : FsProg sb β := Client.stop msg

section

variable (k : Fin sb.inodeCount)

def readi (off n : ℕ) : FsProg sb (ℤ × List UInt8) :=
  Client.call (.readi k (UInt32.ofNat off) (UInt32.ofNat n)) fun r =>
    match r with
    | .read r dst => pure (r, dst)
    | _ => pure (-1, [])

def writei (src : List UInt8) (off n : ℕ) : FsProg sb ℤ :=
  Client.call (.writei k (fun j => src.getD j 0) (UInt32.ofNat off) (UInt32.ofNat n)) fun r =>
    match r with
    | .written r => pure r
    | _ => pure (-1)

/-- The type, the links and the size of an inode that is locked. -/
def fields : FsProg sb (ℕ × ℕ × ℕ) :=
  Client.call (.stati k) fun r =>
    match r with
    | .stat _ type nlink size => pure (type, nlink, size)
    | _ => pure (0, 0, 0)

def iget : FsProg sb Unit := Client.call (.iget k) fun _ => pure ()

def idup : FsProg sb Unit := Client.call (.idup k) fun _ => pure ()

def iput : FsProg sb Unit := Client.call (.iput k) fun _ => pure ()

end

/-! ### Directories -/

section

variable (dp : Fin sb.inodeCount) (name : List UInt8) (size : ℕ)

/-- The loop of `dirlookup` with room for `n` more iterations. -/
def dirlookupLoop : ℕ → ℕ → FsProg sb (Option (Fin sb.inodeCount × ℕ))
  | 0, _ => pure none
  | n + 1, off =>
    if off < size then do
      let (r, bytes) ← readi dp off Dirent.size
      let de := Dirent.ofBytes bytes
      if r ≠ Dirent.size then panic "dirlookup read"
      else if de.inum = 0 then dirlookupLoop n (off + Dirent.size)
      else if namecmp name de.name = 0 then
        if h : de.inum < sb.inodeCount then do
          iget ⟨de.inum, h⟩
          return some (⟨de.inum, h⟩, off)
        -- behind the inodes of the disk
        else panic "iget"
      else dirlookupLoop n (off + Dirent.size)
    else return none

/-- `dirlookup`: the inode, and `*poff`. -/
def dirlookup : FsProg sb (Option (Fin sb.inodeCount × ℕ)) := do
  let (type, _, size) ← fields dp
  if type ≠ T_DIR then panic "dirlookup not DIR"
  else dirlookupLoop dp name size (size / Dirent.size + 1) 0

/-- The loop of `dirlink` with room for `n` more iterations: where it stops. -/
def freeEntryLoop : ℕ → ℕ → FsProg sb ℕ
  | 0, off => pure off
  | n + 1, off =>
    if off < size then do
      let (r, bytes) ← readi dp off Dirent.size
      if r ≠ Dirent.size then panic "dirlink read"
      else if (Dirent.ofBytes bytes).inum = 0 then return off
      else freeEntryLoop n (off + Dirent.size)
    else return off

/-- `dirlink` -/
def dirlink (inum : ℕ) : FsProg sb ℤ := do
  match ← dirlookup dp name with
  | some (ip, _) => do
    iput ip
    return -1
  | none => do
    let (_, _, size) ← fields dp
    let off ← freeEntryLoop dp size (size / Dirent.size + 1) 0
    let r ← writei dp (Dirent.toBytes ⟨inum, strncpy DIRSIZ name⟩) off Dirent.size
    if r ≠ Dirent.size then panic "dirlink"
    else return 0

end

/-! ### Paths -/

/-- `skipelem`: the rest of the path and the buffer with the name, or a null pointer. -/
def skipelem (path name : List UInt8) : Option (List UInt8 × List UInt8) :=
  let s := path.dropWhile (· = 47)
  if s = [] then none
  else
    let elem := s.takeWhile (· ≠ 47)
    let name' :=
      if DIRSIZ ≤ elem.length then elem.take DIRSIZ
      else elem ++ 0 :: name.drop (elem.length + 1)
    some ((s.dropWhile (· ≠ 47)).dropWhile (· = 47), name')

/-- The root directory. -/
def rootInum (sb : Superblock) : Fin sb.inodeCount :=
  ⟨ROOTINO, Nat.lt_of_lt_of_le (show 1 < IPB by decide) (Nat.le_mul_of_pos_left IPB (Nat.succ_pos _))⟩

/-- The loop of `namex` with room for `n` more iterations. -/
def namexLoop (nameiparent : Bool) :
    ℕ → Fin sb.inodeCount → List UInt8 → List UInt8 → FsProg sb (Option (Fin sb.inodeCount × List UInt8))
  | 0, _, _, _ => pure none
  | n + 1, ip, path, name =>
    match skipelem path name with
    | none =>
      if nameiparent then do
        iput ip
        return none
      else return some (ip, name)
    | some (path', name') => do
      let (type, _, _) ← fields ip
      if type ≠ T_DIR then do
        iput ip
        return none
      -- stop one level early
      else if nameiparent ∧ path' = [] then return some (ip, name')
      else
        match ← dirlookup ip name' with
        | none => do
          iput ip
          return none
        | some (next, _) => do
          iput ip
          namexLoop nameiparent n next path' name'

/-- `namex`; `name` is what the buffer holds before. -/
def namex (cwd : Fin sb.inodeCount) (path : List UInt8) (nameiparent : Bool) (name : List UInt8) :
    FsProg sb (Option (Fin sb.inodeCount × List UInt8)) := do
  if path.headD 0 = 47 then do
    iget (rootInum sb)
    namexLoop nameiparent (path.length + 1) (rootInum sb) path name
  else do
    idup cwd
    namexLoop nameiparent (path.length + 1) cwd path name

end FsProg

end OsSemester.Xv6
