import OsSemester.Xv6.Create
import OsSemester.Xv6.UserSpace

/-!
# `clone` with its memory (`proc.c`, `sysproc.c`, `syscall.c`)

`Host` is the kernel together with the memory its processes run in.  On it every call of `kalloc`,
`copyuvm` and `copyout` has the outcome that the free list and the page tables give it, so that
`Host.execStmt` executes the statements of `clone` without an oracle for them; only what a read through a
null pointer yields stays open (`wild`).

`sys_clone` reads its arguments from the user stack of the caller.
-/

namespace OsSemester.Xv6

/-- The registers of a `struct trapframe` that system calls read and set. -/
structure TrapFrame where
  eax : ℕ
  ebp : ℕ
  eip : ℕ
  esp : ℕ
  deriving DecidableEq

/-- The kernel and its memory. -/
structure Host where
  k : Kernel
  mem : PhysMem
  /-- The page directories that have been made and not been freed. -/
  dir : Pgdir → Option PageDir
  /-- `p->tf`. -/
  tf : Slot → TrapFrame
  /-- `p->name`. -/
  name : Slot → List UInt8
  /-- `ip->ref`. -/
  iref : Inode → ℤ
  /-- `log.outstanding`. -/
  outstanding : ℕ

/-- Why a call does not return. -/
inductive Fault
  | halt (e : Halt)
  | vm (e : VmHalt)
  deriving DecidableEq

namespace Host

/-- The page directory of a process. -/
def pageDir (σ : Host) (s : Slot) : Option PageDir := (σ.k.proc s).pgdir.bind σ.dir

/-- `idup(ip)`; the null inode has no reference count. -/
def idup (σ : Host) : Option Inode → Except Fault Host
  | none => .error (.vm .null)
  | some ip => .ok { σ with iref := Function.update σ.iref ip (σ.iref ip + 1) }

end Host

/-! ### `clone` -/

/-- The arguments of `clone`. -/
structure CloneArgs where
  func : ℕ
  stack : ℕ
  flags : ℤ
  arg : ℕ

/-- The bytes of a 32-bit word in memory. -/
def wordBytes (v : ℕ) : List UInt8 := (List.range 4).map fun i => UInt8.ofNat (v / 256 ^ i)

theorem wordBytes_length (v : ℕ) : (wordBytes v).length = 4 := rfl

/-- `ustack`, a fake return address and the argument. -/
def CloneArgs.ustack (a : CloneArgs) : List UInt8 := wordBytes 0xffffffff ++ wordBytes a.arg

/-- The value of `sp` in `clone`. -/
def CloneArgs.sp (a : CloneArgs) : ℕ := (a.stack + PGSIZE) % 2 ^ 32

/-- The trap frame of the new thread; what it does not set is copied from the caller's. -/
def CloneArgs.frame (a : CloneArgs) : TrapFrame where
  eax := 0
  ebp := a.sp
  eip := a.func
  esp := (a.sp + (2 ^ 32 - 8)) % 2 ^ 32

namespace Host

/-- The kernel's part of a statement, once the outcome of its allocation or copy is known. -/
def stmt (σ : Host) (cur np : Slot) (wild : Option Slot) (page : Option Page) (ok : Bool)
    (st : Stmt) : Except Fault (Host × Option Stmt) :=
  match st.exec σ.k cur np ⟨page, ok, 0, wild⟩ with
  | .error e => .error (.halt e)
  | .ok (k, nx) => .ok ({ σ with k := k }, nx)

/-- `kfree(p->kstack)` -/
def kfreeStack (σ : Host) (s : Slot) : Except Fault Host :=
  match (σ.k.proc s).kstack with
  | none => .error (.vm (.panic "kfree"))
  | some pg => .ok { σ with mem := kfree σ.mem pg }

/-- One statement of `clone`. -/
def execStmt (data : ℕ) (wild : Option Slot) (a : CloneArgs) (cur np : Slot) (σ : Host) :
    Stmt → Except Fault (Host × Option Stmt)
  | .kstack flags =>
    match kalloc σ.mem with
    | none => σ.stmt cur np wild none true (.kstack flags)
    | some (pg, mem) => { σ with mem := mem }.stmt cur np wild (some pg) true (.kstack flags)
  | .clonePgdir =>
    if (σ.k.proc np).cloneVm then σ.stmt cur np wild none true .clonePgdir
    else
      match σ.pageDir cur with
      | none => .error (.vm .null)
      | some src =>
        match copyuvm data src (σ.k.proc cur).sz σ.mem with
        | .error e => .error (.vm e)
        | .ok (none, mem) =>
          match kfreeStack { σ with mem := mem } np with
          | .error e => .error e
          | .ok σ' => σ'.stmt cur np wild none false .clonePgdir
        | .ok (some d, mem) =>
          { σ with mem := mem, dir := Function.update σ.dir σ.k.ndir (some d) }.stmt
            cur np wild none true .clonePgdir
  | .cloneIsthread =>
    { σ with tf := Function.update σ.tf np a.frame }.stmt cur np wild none true .cloneIsthread
  | .cloneCopyout =>
    match σ.pageDir np with
    | none => .error (.vm .null)
    | some d =>
      match copyout d (σ.tf np).esp a.ustack σ.mem with
      | .error e => .error (.vm e)
      | .ok (mem, ok) => { σ with mem := mem }.stmt cur np wild none ok .cloneCopyout
  | .cloneFs =>
    if (σ.k.proc np).cloneFs then σ.stmt cur np wild none true .cloneFs
    else
      match σ.idup (σ.k.proc cur).cwd with
      | .error e => .error e
      | .ok σ' => σ'.stmt cur np wild none true .cloneFs
  | .cloneRun =>
    { σ with name := Function.update σ.name np (σ.name cur) }.stmt cur np wild none true .cloneRun
  | st => σ.stmt cur np wild none true st

/-- The number of statements of `clone` behind `allocproc`. -/
def cloneLength : ℕ := 11

/-- `clone` from the statement `st` on, and whether it arrives at its end. -/
def runClone (data : ℕ) (wild : Option Slot) (a : CloneArgs) (cur np : Slot) :
    ℕ → Stmt → Host → Except Fault (Host × Bool)
  | 0, _, _ => .error (.halt .disabled)
  | n + 1, st, σ =>
    match σ.execStmt data wild a cur np st with
    | .error e => .error e
    | .ok (σ', some st') => runClone data wild a cur np n st' σ'
    | .ok (σ', none) => .ok (σ', decide (st = .cloneRun))

/-- `clone`: the slot whose `tid` is returned, `none` for -1. -/
def clone (σ : Host) (data : ℕ) (wild : Option Slot) (cur : Slot) (a : CloneArgs) :
    Except Fault (Host × Option Slot) :=
  if a.flags < 0 ∨ a.flags > 31 then .ok (σ, none)
  else
    match allocproc σ.k with
    | none => .ok (σ, none)
    | some (np, k) =>
      match runClone data wild a cur np cloneLength (.kstack (some a.flags)) { σ with k := k } with
      | .error e => .error e
      | .ok (σ', done) => .ok (σ', if done then some np else none)

end Host

/-! ### Arguments -/

/-- The word at a virtual address. -/
def PageDir.word (d : PageDir) (m : PhysMem) (a : ℕ) : ℕ :=
  let b := fun i => ((d.byte m (a + i)).getD 0).toNat
  b 0 + 256 * b 1 + 256 ^ 2 * b 2 + 256 ^ 3 * b 3

/-- A word as an `int`. -/
def int (v : ℕ) : ℤ := if v < 2 ^ 31 then v else v - 2 ^ 32

namespace Host

variable (σ : Host) (cur : Slot)

/-- `fetchint(addr)`, `none` for -1. -/
def fetchint (addr : ℕ) : Option ℕ :=
  if addr ≥ (σ.k.proc cur).sz ∨ (addr + 4) % 2 ^ 32 > (σ.k.proc cur).sz then none
  else (σ.pageDir cur).map fun d => d.word σ.mem addr

/-- `argint(n)` -/
def argint (n : ℕ) : Option ℕ := σ.fetchint cur (((σ.tf cur).esp + 4 + 4 * n) % 2 ^ 32)

/-- `argptr(n, size)` -/
def argptr (n size : ℕ) : Option ℕ :=
  match σ.argint cur n with
  | none => none
  | some i =>
    if i ≥ (σ.k.proc cur).sz ∨ (i + size) % 2 ^ 32 > (σ.k.proc cur).sz then none else some i

/-- The arguments that `sys_clone` hands to `clone`. -/
def cloneArgs : Option CloneArgs :=
  match σ.argptr cur 0 4 with
  | none => none
  | some func =>
    match σ.argptr cur 1 4 with
    | none => none
    | some stack =>
      match σ.argint cur 2 with
      | none => none
      | some flags =>
        match σ.argptr cur 3 4 with
        | none => none
        | some arg => some ⟨func, stack, int flags, arg⟩

/-- `sys_clone` -/
def sysClone (data : ℕ) (wild : Option Slot) : Except Fault (Host × Option Slot) :=
  match σ.cloneArgs cur with
  | none => .ok (σ, none)
  | some a => σ.clone data wild cur a

end Host

end OsSemester.Xv6
