import Mathlib

/-!
# The process table (`proc.h`, `param.h`, `file.h`)

The records of `struct proc` and `struct file`, the table `ptable.proc` and the kernel state the
process calls read and write.  A `struct proc *` is an `Option Slot`, a `struct file *` an
`Option FileId`; `none` is the null pointer.  The `int` fields that only ever hold 0 or 1
(`killed`, `isthread`, the `CLONE_*` marks) are `Bool`.

Physical memory enters only through the pages a process owns as a whole: kernel stacks are the
pages `kalloc` gave out (`inuse`), page directories are numbered in the order they are made
(`ndir`), and `freed` lists the arguments of `freevm`, latest first.
-/

namespace OsSemester.Xv6

/-- `param.h`: maximum number of processes. -/
abbrev NPROC : ℕ := 64

instance : NeZero NPROC := ⟨by decide⟩

/-- `param.h`: open files per process. -/
abbrev NOFILE : ℕ := 16

/-- `param.h`: open files per system. -/
abbrev NFILE : ℕ := 100

/-- A slot of `ptable.proc`, that is a non-null `struct proc *`. -/
abbrev Slot := Fin NPROC

/-- A file descriptor. -/
abbrev Fd := Fin NOFILE

/-- An entry of `ftable.file`, that is a non-null `struct file *`. -/
abbrev FileId := Fin NFILE

/-- A physical page handed out by `kalloc`. -/
abbrev Page := ℕ

/-- A page directory, numbered by its creation. -/
abbrev Pgdir := ℕ

/-- An in-memory inode. -/
abbrev Inode := ℕ

/-- Why the machine takes no further step: the step is not possible in this state, or the kernel
called `panic`. -/
inductive Halt
  | disabled
  | panic (msg : String)
  deriving DecidableEq, Repr

/-- `enum procstate`. -/
inductive ProcState
  | unused | embryo | sleeping | runnable | running | zombie
  deriving DecidableEq, Repr

/-- A sleep channel: the address of a process slot, or any other kernel address. -/
inductive Chan
  | proc (s : Slot)
  | other (n : ℕ)
  deriving DecidableEq, Repr

/-- `ofileshare` and `cwdshare`: an array of process pointers. -/
abbrev ShareArray := Fin NPROC → Option Slot

/-- The per-process state `struct proc`. -/
structure Proc where
  sz : ℕ
  pgdir : Option Pgdir
  kstack : Option Page
  state : ProcState
  pid : ℤ
  parent : Option Slot
  chan : Option Chan
  killed : Bool
  ofile : Fd → Option FileId
  cwd : Option Inode
  isthread : Bool
  tid : ℤ
  threadparent : Option Slot
  ofileshare : ShareArray
  cwdshare : ShareArray
  joinproc : Option Slot
  cloneFiles : Bool
  cloneFs : Bool
  cloneParent : Bool
  cloneVm : Bool
  cloneThread : Bool

/-- A slot as the loader leaves it in the zeroed `.bss`. -/
def Proc.zero : Proc where
  sz := 0
  pgdir := none
  kstack := none
  state := .unused
  pid := 0
  parent := none
  chan := none
  killed := false
  ofile := fun _ => none
  cwd := none
  isthread := false
  tid := 0
  threadparent := none
  ofileshare := fun _ => none
  cwdshare := fun _ => none
  joinproc := none
  cloneFiles := false
  cloneFs := false
  cloneParent := false
  cloneVm := false
  cloneThread := false

namespace Proc

/-- `p->state = st;` -/
@[simps -fullyApplied]
def setState (p : Proc) (st : ProcState) : Proc := { p with state := st }

/-- `p->parent = q;` -/
@[simps -fullyApplied]
def setParent (p : Proc) (q : Option Slot) : Proc := { p with parent := q }

/-- `p->kstack = pg;` -/
@[simps -fullyApplied]
def setKstack (p : Proc) (pg : Option Page) : Proc := { p with kstack := pg }

/-- `p->joinproc = q;` -/
@[simps -fullyApplied]
def setJoinproc (p : Proc) (q : Option Slot) : Proc := { p with joinproc := q }

/-- `p->killed = 1; if(p->state == SLEEPING) p->state = RUNNABLE;` -/
@[simps -fullyApplied]
def kill (p : Proc) : Proc :=
  { p with killed := true, state := if p.state = .sleeping then .runnable else p.state }

end Proc

/-- The `type` of a `struct file`. -/
inductive FileType
  | none | pipe | inode
  deriving DecidableEq, Repr

/-- `struct file`. -/
structure File where
  type : FileType
  ref : ℤ
  readable : Bool
  writable : Bool
  pipe : Option Page
  ip : Option Inode
  off : ℕ

/-- A file structure in the zeroed `.bss`. -/
def File.zero : File where
  type := .none
  ref := 0
  readable := false
  writable := false
  pipe := none
  ip := none
  off := 0

/-- `ftable.file`. -/
abbrev FTable := FileId → File

/-- The kernel state behind the process calls. -/
structure Kernel where
  /-- `ptable.proc`. -/
  proc : Slot → Proc
  nextpid : ℤ
  initproc : Slot
  /-- The pages `kalloc` has given out as kernel stacks and `kfree` has not taken back. -/
  inuse : Page → Bool
  /-- The number of page directories made so far. -/
  ndir : ℕ
  /-- The arguments of the calls of `freevm` on installed directories, latest first. -/
  freed : List Pgdir
  ftable : FTable

/-- A slot that holds a process between its creation and its exit. -/
def ProcState.Live (st : ProcState) : Prop := st = .sleeping ∨ st = .runnable ∨ st = .running

instance : DecidablePred ProcState.Live := fun st => by
  unfold ProcState.Live
  infer_instance

/-! ### Table updates and scans -/

/-- The kernel after the assignments `f` to the fields of slot `s`. -/
def Kernel.modify (k : Kernel) (s : Slot) (f : Proc → Proc) : Kernel :=
  { k with proc := Function.update k.proc s (f (k.proc s)) }

/-- The kernel after a loop over the table that sets every slot to `f` of its old content. -/
def Kernel.mapProc (k : Kernel) (f : Slot → Proc → Proc) : Kernel :=
  { k with proc := fun s => f s (k.proc s) }

/-- `for(p = ptable.proc; p < &ptable.proc[NPROC]; p++) if(P(p)) goto found;` -/
def scan (P : Slot → Bool) : Option Slot := (List.finRange NPROC).find? P

theorem scan_some {P : Slot → Bool} {s : Slot} (h : scan P = some s) : P s = true :=
  List.find?_some h

theorem scan_none {P : Slot → Bool} (h : scan P = none) (s : Slot) : P s = false := by
  have := List.find?_eq_none.mp h s (List.mem_finRange s)
  simpa using this

theorem scan_isSome {P : Slot → Bool} {s : Slot} (h : P s = true) : ∃ t, scan P = some t := by
  cases ht : scan P with
  | none => rw [scan_none ht s] at h; cases h
  | some t => exact ⟨t, rfl⟩

namespace Kernel

variable (k : Kernel) (s : Slot) (f : Proc → Proc) (g : Slot → Proc → Proc)

theorem modify_proc (t : Slot) : (k.modify s f).proc t = if t = s then f (k.proc s) else k.proc t := by
  simp [modify, Function.update_apply]

@[simp] theorem modify_proc_self : (k.modify s f).proc s = f (k.proc s) := by
  simp [modify]

theorem modify_proc_of_ne {t : Slot} (h : t ≠ s) : (k.modify s f).proc t = k.proc t := by
  simp [modify, h]

@[simp] theorem mapProc_proc (t : Slot) : (k.mapProc g).proc t = g t (k.proc t) := rfl

@[simp] theorem modify_nextpid : (k.modify s f).nextpid = k.nextpid := rfl
@[simp] theorem modify_initproc : (k.modify s f).initproc = k.initproc := rfl
@[simp] theorem modify_inuse : (k.modify s f).inuse = k.inuse := rfl
@[simp] theorem modify_ndir : (k.modify s f).ndir = k.ndir := rfl
@[simp] theorem modify_freed : (k.modify s f).freed = k.freed := rfl
@[simp] theorem modify_ftable : (k.modify s f).ftable = k.ftable := rfl
@[simp] theorem mapProc_nextpid : (k.mapProc g).nextpid = k.nextpid := rfl
@[simp] theorem mapProc_initproc : (k.mapProc g).initproc = k.initproc := rfl
@[simp] theorem mapProc_inuse : (k.mapProc g).inuse = k.inuse := rfl
@[simp] theorem mapProc_ndir : (k.mapProc g).ndir = k.ndir := rfl
@[simp] theorem mapProc_freed : (k.mapProc g).freed = k.freed := rfl
@[simp] theorem mapProc_ftable : (k.mapProc g).ftable = k.ftable := rfl

end Kernel

end OsSemester.Xv6
