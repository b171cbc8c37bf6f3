import OsSemester.Xv6.CloneCall
import OsSemester.Xv6.Exit

/-!
# `exec` with its memory (`exec.c`, `loaduvm` in `vm.c`, `sys_exec`)

`exec` leaves the sharing relations of the caller, loads the program into a new page directory, builds
the user stack in it, and commits.  The parts up to the commit work on a directory of their own; each
of them ends with the label `bad` of the source where it returns `none`.

The file system enters through `FileSys`: which inode a path names, and what `readi` delivers.
-/

namespace OsSemester.Xv6

/-- `param.h`: max exec arguments. -/
abbrev MAXARG : ℕ := 32

/-- What `exec` asks of the file system. -/
structure FileSys where
  /-- The inode `namei(path)` returns. -/
  namei : List UInt8 → Option Inode
  /-- The bytes `readi(ip, dst, off, n)` delivers, `none` for -1. -/
  readi : Inode → ℕ → ℕ → Option (List UInt8)

/-- `readi` of one file. -/
abbrev ReadFn := ℕ → ℕ → Option (List UInt8)

/-- The bytes of a `readi` that must deliver all `n`, `none` where the caller goes to `bad`. -/
def readFully (read : ReadFn) (off n : ℕ) : Option (List UInt8) :=
  (read off n).bind fun bs => if bs.length = n then some bs else none

/-! ### `elf.h` -/

abbrev ELF_MAGIC : ℕ := 0x464C457F
abbrev ELF_PROG_LOAD : ℕ := 1

/-- The little-endian number in the `len` bytes of the list from `off` on. -/
def fieldOf (bs : List UInt8) (off : ℕ) : ℕ → ℕ
  | 0 => 0
  | len + 1 => (bs.getD off 0).toNat + 256 * fieldOf bs (off + 1) len

/-- The fields of a `struct elfhdr` that `exec` reads. -/
structure ElfHdr where
  magic : ℕ
  entry : ℕ
  phoff : ℕ
  phnum : ℕ

/-- `sizeof(struct elfhdr)` -/
def ElfHdr.size : ℕ := 52

def ElfHdr.ofBytes (bs : List UInt8) : ElfHdr where
  magic := fieldOf bs 0 4
  entry := fieldOf bs 24 4
  phoff := fieldOf bs 28 4
  phnum := fieldOf bs 44 2

/-- The fields of a `struct proghdr` that `exec` reads. -/
structure ProgHdr where
  type : ℕ
  off : ℕ
  vaddr : ℕ
  filesz : ℕ
  memsz : ℕ

/-- `sizeof(struct proghdr)` -/
def ProgHdr.size : ℕ := 32

def ProgHdr.ofBytes (bs : List UInt8) : ProgHdr where
  type := fieldOf bs 0 4
  off := fieldOf bs 4 4
  vaddr := fieldOf bs 8 4
  filesz := fieldOf bs 16 4
  memsz := fieldOf bs 20 4

/-! ### Loading -/

/-- The loop of `loaduvm` for `n` more pages. -/
def loadLoop (d : PageDir) (addr : ℕ) (read : ReadFn) (offset sz : ℕ) :
    ℕ → ℕ → PhysMem → Except VmHalt (PhysMem × Bool)
  | 0, _, m => .ok (m, true)
  | n + 1, i, m =>
    if i < sz then
      match d.table (PDX (addr + i)) with
      | none => .error (.panic "loaduvm: address should exist")
      | some _ =>
        -- an entry that is not present names the first physical page
        let pa := ((d.pte (addr + i)).map (·.page)).getD 0
        let len := min (sz - i) PGSIZE
        match read ((offset + i) % 2 ^ 32) len with
        | none => .ok (m, false)
        | some bs =>
          let m' := m.write pa 0 (bs.take len)
          if bs.length = len then loadLoop d addr read offset sz n (i + PGSIZE) m'
          else .ok (m', false)
    else .ok (m, true)

/-- `loaduvm` -/
def loaduvm (d : PageDir) (m : PhysMem) (addr : ℕ) (read : ReadFn) (offset sz : ℕ) :
    Except VmHalt (PhysMem × Bool) :=
  if addr % PGSIZE ≠ 0 then .error (.panic "loaduvm: addr must be page aligned")
  else loadLoop d addr read offset sz (sz / PGSIZE + 1) 0 m

/-- The loop of `exec` over `n` more program headers, the next at `off`; the result is the directory
and the size of the program so far, `none` at `bad`. -/
def loadSegments (read : ReadFn) : ℕ → ℕ → PageDir → PhysMem → ℕ →
    Except VmHalt (PageDir × PhysMem × Option ℕ)
  | 0, _, d, m, sz => .ok (d, m, some sz)
  | n + 1, off, d, m, sz =>
    match readFully read off ProgHdr.size with
    | none => .ok (d, m, none)
    | some bs =>
      let ph := ProgHdr.ofBytes bs
      let next := (off + ProgHdr.size) % 2 ^ 32
      if ph.type ≠ ELF_PROG_LOAD then loadSegments read n next d m sz
      else if ph.memsz < ph.filesz then .ok (d, m, none)
      else if (ph.vaddr + ph.memsz) % 2 ^ 32 < ph.vaddr then .ok (d, m, none)
      else
        match allocuvm d m sz ((ph.vaddr + ph.memsz) % 2 ^ 32) with
        | .error e => .error e
        | .ok (d', m', sz') =>
          if sz' = 0 then .ok (d', m', none)
          else if ph.vaddr % PGSIZE ≠ 0 then .ok (d', m', none)
          else
            match loaduvm d' m' ph.vaddr read ph.off ph.filesz with
            | .error e => .error e
            | .ok (m'', false) => .ok (d', m'', none)
            | .ok (m'', true) => loadSegments read n next d' m'' sz'

/-- What `exec` has loaded: the directory, the size of the program and its entry point. -/
structure Image where
  dir : PageDir
  sz : ℕ
  entry : ℕ

/-- The part of `exec` that reads the file; at `bad` the directory, if there is one, is freed. -/
def loadImage (data : ℕ) (read : ReadFn) (m : PhysMem) : Except VmHalt (PhysMem × Option Image) :=
  match readFully read 0 ElfHdr.size with
  | none => .ok (m, none)
  | some bs =>
    let elf := ElfHdr.ofBytes bs
    if elf.magic ≠ ELF_MAGIC then .ok (m, none)
    else
      match setupkvm data m with
      | .error e => .error e
      | .ok (none, m') => .ok (m', none)
      | .ok (some d, m') =>
        match loadSegments read elf.phnum elf.phoff d m' 0 with
        | .error e => .error e
        | .ok (d', m'', none) => .ok (freeDir d' m'', none)
        | .ok (d', m'', some sz) => .ok (m'', some ⟨d', sz, elf.entry⟩)

/-! ### The user stack -/

/-- The two pages behind the program, the first without access for the user; the result is the top of
the stack, `none` at `bad`. -/
def stackPages (d : PageDir) (m : PhysMem) (sz : ℕ) :
    Except VmHalt (PageDir × PhysMem × Option ℕ) :=
  match allocuvm d m (PGROUNDUP sz) ((PGROUNDUP sz + 2 * PGSIZE) % 2 ^ 32) with
  | .error e => .error e
  | .ok (d', m', top) =>
    if top = 0 then .ok (d', m', none)
    else
      match clearpteu d' (top - 2 * PGSIZE) with
      | .error e => .error e
      | .ok d'' => .ok (d'', m', some top)

/-- `(sp - (strlen(s) + 1)) & ~3` -/
def argSp (sp : ℕ) (s : List UInt8) : ℕ := uint (sp - (s.length + 1)) / 4 * 4

/-- The stack pointer of a program with `argc` arguments whose strings end at `sp`. -/
def ustackSp (argc sp : ℕ) : ℕ := uint (sp - (3 + argc + 1) * 4)

/-- `ustack`: a fake return address, `argc`, `argv` and the pointers to the strings. -/
def ustackBytes (argc : ℕ) (ptrs : List ℕ) (sp : ℕ) : List UInt8 :=
  ([0xffffffff, argc, uint (sp - (argc + 1) * 4)] ++ ptrs ++ [0]).flatMap wordBytes

/-- The loop of `exec` over the argument strings, and the copy of `ustack`; the result is the stack
pointer of the program, `none` at `bad`. -/
def pushArgs (d : PageDir) : List (List UInt8) → ℕ → List ℕ → ℕ → PhysMem →
    Except VmHalt (PhysMem × Option ℕ)
  | [], argc, ptrs, sp, m =>
    match copyout d (ustackSp argc sp) (ustackBytes argc ptrs sp) m with
    | .error e => .error e
    | .ok (m', false) => .ok (m', none)
    | .ok (m', true) => .ok (m', some (ustackSp argc sp))
  | s :: argv, argc, ptrs, sp, m =>
    if argc ≥ MAXARG then .ok (m, none)
    else
      match copyout d (argSp sp s) (s ++ [0]) m with
      | .error e => .error e
      | .ok (m', false) => .ok (m', none)
      | .ok (m', true) => pushArgs d argv (argc + 1) (ptrs ++ [argSp sp s]) (argSp sp s) m'

/-- The part of `exec` from the stack pages to the commit; at `bad` the directory is freed.  The result
is the directory, its size and the stack pointer. -/
def buildStack (d : PageDir) (m : PhysMem) (sz : ℕ) (argv : List (List UInt8)) :
    Except VmHalt (PhysMem × Option (PageDir × ℕ × ℕ)) :=
  match stackPages d m sz with
  | .error e => .error e
  | .ok (d', m', none) => .ok (freeDir d' m', none)
  | .ok (d', m', some top) =>
    match pushArgs d' argv 0 [] top m' with
    | .error e => .error e
    | .ok (m'', none) => .ok (freeDir d' m'', none)
    | .ok (m'', some sp) => .ok (m'', some (d', top, sp))

/-! ### `exec` -/

/-- The last component of a path, as `exec` finds it. -/
def lastComponent (path : List UInt8) : List UInt8 :=
  (path.reverse.takeWhile (· ≠ 47)).reverse

namespace Host

/-- `begin_op()` -/
@[simps -fullyApplied]
def beginOp (σ : Host) : Host := { σ with outstanding := σ.outstanding + 1 }

/-- `end_op()` -/
@[simps -fullyApplied]
def endOp (σ : Host) : Host := { σ with outstanding := σ.outstanding - 1 }

/-- A reference to `ip`, as `namei` returns it. -/
@[simps -fullyApplied]
def iget (σ : Host) (ip : Inode) : Host :=
  { σ with iref := Function.update σ.iref ip (σ.iref ip + 1) }

/-- The reference count after `iunlockput(ip)`. -/
@[simps -fullyApplied]
def iput (σ : Host) (ip : Inode) : Host :=
  { σ with iref := Function.update σ.iref ip (σ.iref ip - 1) }

/-- The caller leaves its sharing relations. -/
def unshare (σ : Host) (cur : Slot) : Host :=
  { σ with k := unshareCwd (unshareOfile σ.k cur) cur }

section Fields

variable (σ : Host) (cur : Slot)

theorem unshare_k : (σ.unshare cur).k = unshareCwd (unshareOfile σ.k cur) cur := by rfl
@[simp] theorem unshare_mem : (σ.unshare cur).mem = σ.mem := by rfl
@[simp] theorem unshare_dir : (σ.unshare cur).dir = σ.dir := by rfl
@[simp] theorem unshare_tf : (σ.unshare cur).tf = σ.tf := by rfl
@[simp] theorem unshare_name : (σ.unshare cur).name = σ.name := by rfl
@[simp] theorem unshare_iref : (σ.unshare cur).iref = σ.iref := by rfl
@[simp] theorem unshare_outstanding : (σ.unshare cur).outstanding = σ.outstanding := by rfl

end Fields

/-- The commit of `exec`. -/
def commit (σ : Host) (cur : Slot) (path : List UInt8) (d : PageDir) (sz entry sp : ℕ) :
    Except Fault Host :=
  match execCommit σ.k cur sz with
  | .error e => .error (.halt e)
  | .ok k =>
    -- `freevm(oldpgdir)`
    match σ.pageDir cur with
    | none => .error (.vm .null)
    | some old => .ok { σ with
        k := k
        mem := freeDir old σ.mem
        dir := Function.update
          (match (σ.k.proc cur).pgdir with
            | none => σ.dir
            | some g => Function.update σ.dir g none) σ.k.ndir (some d)
        tf := Function.update σ.tf cur { σ.tf cur with eip := entry, esp := sp }
        name := Function.update σ.name cur ((lastComponent path).take 15) }

/-- `exec`; 0 is `true` and -1 is `false`. -/
def exec (σ : Host) (data : ℕ) (fs : FileSys) (cur : Slot) (path : List UInt8)
    (argv : List (List UInt8)) : Except Fault (Host × Bool) :=
  let σ1 := σ.beginOp.unshare cur
  match fs.namei path with
  | none => .ok (σ1.endOp, false)
  | some ip =>
    let σ2 := σ1.iget ip
    match loadImage data (fs.readi ip) σ2.mem with
    | .error e => .error (.vm e)
    | .ok (mem, none) => .ok (({ σ2 with mem := mem }.iput ip).endOp, false)
    | .ok (mem, some img) =>
      let σ3 := ({ σ2 with mem := mem }.iput ip).endOp
      match buildStack img.dir σ3.mem img.sz argv with
      | .error e => .error (.vm e)
      | .ok (mem, none) => .ok ({ σ3 with mem := mem }, false)
      | .ok (mem, some (d, sz, sp)) =>
        match { σ3 with mem := mem }.commit cur path d sz img.entry sp with
        | .error e => .error e
        | .ok σ' => .ok (σ', true)

/-! ### `sys_exec` -/

/-- `fetchstr` from `addr` on, with `n` bytes left below `sz`; `none` for -1. -/
def strFrom (d : PageDir) (m : PhysMem) : ℕ → ℕ → Option (List UInt8)
  | 0, _ => none
  | n + 1, addr =>
    let b := (d.byte m addr).getD 0
    if b = 0 then some [] else (strFrom d m n (addr + 1)).map (b :: ·)

/-- `fetchstr(addr)` -/
def fetchstr (σ : Host) (cur : Slot) (addr : ℕ) : Option (List UInt8) :=
  if addr ≥ (σ.k.proc cur).sz then none
  else (σ.pageDir cur).bind fun d => strFrom d σ.mem ((σ.k.proc cur).sz - addr) addr

/-- The loop of `sys_exec` over the pointers from `uargv` on, with room for `n` more. -/
def fetchArgv (σ : Host) (cur : Slot) (uargv : ℕ) : ℕ → ℕ → Option (List (List UInt8))
  | 0, _ => none
  | n + 1, i =>
    match σ.fetchint cur ((uargv + 4 * i) % 2 ^ 32) with
    | none => none
    | some uarg =>
      if uarg = 0 then some []
      else
        match σ.fetchstr cur uarg with
        | none => none
        | some s => (fetchArgv σ cur uargv n (i + 1)).map (s :: ·)

/-- The arguments that `sys_exec` hands to `exec`. -/
def execArgs (σ : Host) (cur : Slot) : Option (List UInt8 × List (List UInt8)) :=
  match (σ.argint cur 0).bind (σ.fetchstr cur), σ.argint cur 1 with
  | some path, some uargv => (fetchArgv σ cur uargv MAXARG 0).map fun argv => (path, argv)
  | _, _ => none

/-- `sys_exec` -/
def sysExec (σ : Host) (data : ℕ) (fs : FileSys) (cur : Slot) : Except Fault (Host × Bool) :=
  match σ.execArgs cur with
  | none => .ok (σ, false)
  | some (path, argv) => σ.exec data fs cur path argv

end Host

end OsSemester.Xv6
