import OsSemester.Xv6.Machine

/-!
# System calls one at a time (`sysfile.c`, `pipe.c`)

The descriptor calls `sys_open`, `sys_dup`, `sys_close` and `sys_pipe`, and the transition system in
which every call runs to completion before the next one starts.  `fork` and `clone` take one step
for each of their statements, during which no other call is possible; every other call is one step.

`cls` and `next` are bookkeeping: `cls s` is the sharing class of the process in slot `s`.  A class
is entered by `clone` with `CLONE_FILES` and left by `exec` and `exit`.
-/

namespace OsSemester.Xv6

/-! ### Descriptor calls -/

/-- The kernel after `ftable` has been set. -/
def Kernel.setFtable (k : Kernel) (ft : FTable) : Kernel := { k with ftable := ft }

/-- `p->ofile[fd] = f;` -/
def Kernel.setOfile (k : Kernel) (s : Slot) (fd : Fd) (f : Option FileId) : Kernel :=
  k.modify s fun p => { p with ofile := Function.update p.ofile fd f }

/-- The system call argument `fd` as a descriptor of `s` and its file. -/
def argfd (k : Kernel) (s : Slot) (fd : ℤ) : Option (Fd × FileId) :=
  if h : 0 ≤ fd ∧ fd < NOFILE then
    let i : Fd := ⟨fd.toNat, by omega⟩
    ((k.proc s).ofile i).map fun f => (i, f)
  else none

/-- The fields `sys_open` sets: `omode` has the bits `O_WRONLY` and `O_RDWR`. -/
def File.openInode (f : File) (ip : Inode) (omode : ℕ) : File :=
  { f with
    type := .inode
    ip := some ip
    off := 0
    readable := !omode.testBit 0
    writable := omode.testBit 0 || omode.testBit 1 }

/-- The fields `pipealloc` sets. -/
def File.openPipe (f : File) (pg : Page) (writable : Bool) : File :=
  { f with type := .pipe, readable := !writable, writable := writable, pipe := some pg }

/-- `sys_open` of the inode `ip` that the path names; without one the call fails before it touches
`ftable`. -/
def sysOpen (k : Kernel) (s : Slot) (ip : Option Inode) (omode : ℕ) :
    Except Halt (Kernel × Option Fd) :=
  match ip with
  | none => .ok (k, none)
  | some ip =>
    match filealloc k.ftable with
    | none => .ok (k, none)
    | some (f, ft) =>
      match (k.setFtable ft).fdalloc s f with
      | none =>
        match fileclose ft f with
        | .error e => .error e
        | .ok (ft', _) => .ok (k.setFtable ft', none)
      | some (fd, k') =>
        .ok (k'.setFtable (Function.update k'.ftable f ((k'.ftable f).openInode ip omode)), some fd)

/-- `sys_dup`. -/
def sysDup (k : Kernel) (s : Slot) (fd : ℤ) : Except Halt (Kernel × Option Fd) :=
  match argfd k s fd with
  | none => .ok (k, none)
  | some (_, f) =>
    match k.fdalloc s f with
    | none => .ok (k, none)
    | some (fd', k') =>
      match filedup k'.ftable f with
      | .error e => .error e
      | .ok ft => .ok (k'.setFtable ft, some fd')

/-- `sys_close`. -/
def sysClose (k : Kernel) (s : Slot) (fd : ℤ) : Except Halt Kernel :=
  match argfd k s fd with
  | none => .ok k
  | some (i, f) =>
    match fileclose k.ftable f with
    | .error e => .error e
    | .ok (ft, _) => .ok (((k.setOfile s i none).setFtable ft).ofileshareclose s i)

/-- The working directories of all slots. -/
def Kernel.cwdAt (k : Kernel) : Slot → Option Inode := fun s => (k.proc s).cwd

def Kernel.setCwdAt (k : Kernel) (col : Slot → Option Inode) : Kernel :=
  k.mapProc fun s p => { p with cwd := col s }

/-- `cwdshare(cur, ip)`. -/
def Kernel.cwdshareFrom (k : Kernel) (cur : Slot) (ip : Inode) : Kernel :=
  k.setCwdAt (spread k.cwdshare (some ip) spreadDepth cur k.cwdAt)

/-- `sys_chdir` to the directory `ip` that the path names, without the inode references; without a
directory the call fails.  The caller's own `cwd` is set last. -/
def sysChdir (k : Kernel) (s : Slot) (ip : Option Inode) : Kernel × Bool :=
  match ip with
  | none => (k, false)
  | some ip => ((k.cwdshareFrom s ip).modify s fun p => { p with cwd := some ip }, true)

/-- `pipealloc`; `page` is what `kalloc` returns. -/
def pipealloc (ft : FTable) (page : Option Page) :
    Except Halt (FTable × Option (FileId × FileId)) :=
  match filealloc ft with
  | none => .ok (ft, none)
  | some (f0, ft0) =>
    match filealloc ft0, page with
    | none, _ =>
      match fileclose ft0 f0 with
      | .error e => .error e
      | .ok (ft', _) => .ok (ft', none)
    | some (f1, ft1), none =>
      match fileclose ft1 f0 with
      | .error e => .error e
      | .ok (ft', _) =>
        match fileclose ft' f1 with
        | .error e => .error e
        | .ok (ft'', _) => .ok (ft'', none)
    | some (f1, ft1), some pg =>
      let ft2 := Function.update ft1 f0 ((ft1 f0).openPipe pg false)
      .ok (Function.update ft2 f1 ((ft2 f1).openPipe pg true), some (f0, f1))

/-- `fileclose(rf); fileclose(wf);` -/
def closeBoth (k : Kernel) (rf wf : FileId) : Except Halt Kernel :=
  match fileclose k.ftable rf with
  | .error e => .error e
  | .ok (ft, _) =>
    match fileclose ft wf with
    | .error e => .error e
    | .ok (ft', _) => .ok (k.setFtable ft')

/-- `sys_pipe`. -/
def sysPipe (k : Kernel) (s : Slot) (page : Option Page) : Except Halt (Kernel × Option (Fd × Fd)) :=
  match pipealloc k.ftable page with
  | .error e => .error e
  | .ok (ft, none) => .ok (k.setFtable ft, none)
  | .ok (ft, some (rf, wf)) =>
    match (k.setFtable ft).fdalloc s rf with
    | none => (closeBoth (k.setFtable ft) rf wf).map (·, none)
    | some (fd0, k') =>
      match k'.fdalloc s wf with
      -- only the caller's own table is cleared here
      | none => (closeBoth (k'.setOfile s fd0 none) rf wf).map (·, none)
      | some (fd1, k'') => .ok (k'', some (fd0, fd1))

/-- `exec`: the caller leaves its sharing relations, then the image of size `sz` is committed if it
could be loaded. -/
def execCall (k : Kernel) (s : Slot) (sz : Option ℕ) : Except Halt Kernel :=
  let k' := unshareCwd (unshareOfile k s) s
  match sz with
  | none => .ok k'
  | some sz => execCommit k' s sz

/-- `exit`. -/
def exitCall (k : Kernel) (s : Slot) : Except Halt Kernel :=
  if s = k.initproc then .error (.panic "init exiting")
  else
    match exitFiles (unshareCwd (unshareOfile k s) s) s (k.proc s).ofileshare.nonempty with
    | .error e => .error e
    | .ok k' => .ok (exitLocked (k'.modify s fun p => { p with cwd := none }) s)

/-- A call of `wait` that does not sleep. -/
def waitCall (k : Kernel) (s : Slot) : Except Halt Kernel :=
  match waitScan k s with
  | .reap p => waitReap k p
  | .fail => .ok k
  | .block _ => .error .disabled

/-- A call of `join` that does not sleep. -/
def joinCall (k : Kernel) (s : Slot) (tid : ℤ) (wild : Option Slot) : Except Halt Kernel :=
  match joinScan k s tid wild with
  | .reap p => joinReap k p
  | .fail => .ok k
  | .block _ => .error .disabled

/-! ### The system -/

/-- The kernel between two steps of a call. -/
structure Session where
  k : Kernel
  /-- The sharing class of the process in a slot. -/
  cls : Slot → ℕ
  /-- The first class number that has not been used. -/
  next : ℕ
  /-- The process that is inside `fork` or `clone`, its next statement, and the new slot. -/
  busy : Option (Slot × Stmt × Slot)

inductive Call
  | fork
  | clone (flags : ℤ)
  /-- The next statement of the `fork` or `clone` in progress. -/
  | next (o : Oracle)
  | open (ip : Option Inode) (omode : ℕ)
  | dup (fd : ℤ)
  | close (fd : ℤ)
  | pipe (page : Option Page)
  | exec (sz : Option ℕ)
  | exit
  | wait
  | join (tid : ℤ) (wild : Option Slot)

namespace Session

variable (σ : Session)

def setK (k : Kernel) : Session := { σ with k := k }

@[simp] theorem setK_k (k : Kernel) : (σ.setK k).k = k := rfl
@[simp] theorem setK_cls (k : Kernel) : (σ.setK k).cls = σ.cls := rfl
@[simp] theorem setK_next (k : Kernel) : (σ.setK k).next = σ.next := rfl
@[simp] theorem setK_busy (k : Kernel) : (σ.setK k).busy = σ.busy := rfl

/-- The process `s` becomes a class of its own. -/
def alone (s : Slot) : Session :=
  { σ with cls := Function.update σ.cls s σ.next, next := σ.next + 1 }

/-- `allocproc`, called by `s` from `fork` or `clone`. -/
def create (s : Slot) (flags : Option ℤ) : Session :=
  match allocproc σ.k with
  | none => σ
  | some (np, k) => { (σ.setK k).alone np with busy := some (s, .kstack flags, np) }

/-- The class of the new slot after a statement of `clone`. -/
def enter (s np : Slot) (st : Stmt) : Slot → ℕ :=
  if st = .cloneFiles ∧ (σ.k.proc np).cloneFiles = true then
    Function.update σ.cls np (σ.cls s)
  else σ.cls

/-- The next statement of the call in progress. -/
def stmtStep (o : Oracle) : Except Halt Session :=
  match σ.busy with
  | none => .error .disabled
  | some (s, st, np) =>
    match st.exec σ.k s np o with
    | .error e => .error e
    | .ok (k, nx) =>
      .ok { σ with k := k, cls := σ.enter s np st, busy := nx.map fun st' => (s, st', np) }

/-- A call of `s` while no other call is in progress. -/
def callStep (s : Slot) : Call → Except Halt Session
  | .fork => .ok (σ.create s none)
  | .clone flags => .ok (if flags < 0 ∨ flags > 31 then σ else σ.create s (some flags))
  | .next _ => .error .disabled
  | .open ip omode => (sysOpen σ.k s ip omode).map fun r => σ.setK r.1
  | .dup fd => (sysDup σ.k s fd).map fun r => σ.setK r.1
  | .close fd => (sysClose σ.k s fd).map σ.setK
  | .pipe page => (sysPipe σ.k s page).map fun r => σ.setK r.1
  | .exec sz => (execCall σ.k s sz).map fun k => (σ.alone s).setK k
  | .exit => (exitCall σ.k s).map σ.setK
  | .wait => (waitCall σ.k s).map σ.setK
  | .join tid wild => (joinCall σ.k s tid wild).map σ.setK

def step (a : Slot × Call) : Except Halt Session :=
  match a with
  | (_, .next o) => σ.stmtStep o
  | (s, c) =>
    if σ.busy = none ∧ (σ.k.proc s).state.Live then σ.callStep s c else .error .disabled

end Session

/-- The session after `userinit`. -/
def session0 : Session where
  k := bootKernel (fun _ => none) fun _ => File.zero
  cls := fun _ => 0
  next := 1
  busy := none

/-- The transition system of calls that run to completion. -/
def session : System Halt Session (Slot × Call) where
  init σ := σ = session0
  step σ a := σ.step a

end OsSemester.Xv6
