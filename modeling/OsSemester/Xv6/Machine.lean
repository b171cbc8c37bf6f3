import OsSemester.Lib.Transition
import OsSemester.Xv6.Exit

/-!
# The kernel as a transition system

`Machine n` is the process table with `n` CPUs on it.  Every slot has a kernel thread, whose
control state is `Pc`, the code it executes next, and `Resume`, where `swtch` returns to when it
is not running.  `ptable.lock` is explicit: a critical section is one step up to the `swtch` in it,
at which the lock passes from the process to the scheduler of its CPU or back.

The events of a run (`log`) and the numbers of `inc` are bookkeeping: the code does not read them.
`inc s` is the number `allocproc` drew for the present occupant of slot `s`; as numbers are never
drawn twice it tells the occupants of a slot apart.
-/

namespace OsSemester.Xv6

/-- The part of `exit` that comes next. -/
inductive ExitStmt
  | cwd (isfileshare : Bool)
  | files (isfileshare iscwdshare : Bool)
  | iput (iscwdshare : Bool)
  | zombie
  deriving DecidableEq, Repr

/-- What the kernel thread of a slot executes next, outside the critical sections. -/
inductive Pc
  /-- User code, or kernel code that is not modelled further. -/
  | user
  /-- Inside `fork` or `clone`, at a statement that works on the slot `np`. -/
  | create (st : Stmt) (np : Slot)
  /-- Inside `exec`, after the caller left its sharing relations. -/
  | exec
  /-- Inside `exit`. -/
  | exit (st : ExitStmt)
  deriving DecidableEq, Repr

/-- Where the kernel thread of a slot that is not running continues after `swtch`. -/
inductive Resume
  | forkret
  | yield
  /-- `sleep` with a lock other than `ptable.lock`. -/
  | sleep
  | wait
  /-- `join(tid)` with its local `found`. -/
  | join (tid : ℤ) (found : Option Slot)
  deriving DecidableEq, Repr

/-- Who holds `ptable.lock` between two steps. -/
inductive Lock (n : ℕ)
  | free
  /-- The scheduler of `c`, about to look at slot `i` of the table. -/
  | sched (c : Fin n) (i : ℕ)
  /-- The process that the scheduler of `c` has just switched to. -/
  | proc (c : Fin n)
  deriving DecidableEq, Repr

/-- What happened.  The caller is an occupant number, the other argument what the call returned. -/
inductive Event
  | fork (caller pid : ℤ)
  | clone (caller tid : ℤ)
  | exit (caller : ℤ)
  | wait (caller pid : ℤ)
  | join (caller tid : ℤ)
  deriving DecidableEq, Repr

structure Machine (n : ℕ) where
  k : Kernel
  /-- `cpus[c].proc`. -/
  cpu : Fin n → Option Slot
  lock : Lock n
  pc : Slot → Pc
  resume : Slot → Resume
  /-- The number `allocproc` drew for the occupant of the slot. -/
  inc : Slot → ℤ
  /-- The occupant number of the target of `parent` when the pointer was set. -/
  parentInc : Slot → ℤ
  /-- The same for `threadparent`. -/
  threadparentInc : Slot → ℤ
  /-- The events so far, latest first. -/
  log : List Event

/-- A step of the process on a CPU while `ptable.lock` is free. -/
inductive Op
  | yield
  | sleep (chan : ℕ)
  | wakeup (chan : ℕ)
  | fork
  | clone (flags : ℤ)
  /-- The next statement of the call the process is in. -/
  | next (o : Oracle)
  | wait
  | join (tid : ℤ) (o : Oracle)
  | exec
  | exit
  | kill (pid : ℤ)
  | tkill (tid : ℤ)
  deriving DecidableEq

inductive Action (n : ℕ)
  /-- The scheduler of an idle CPU acquires `ptable.lock`. -/
  | enter (c : Fin n)
  /-- The scheduler that holds the lock runs up to its next `swtch` or releases the lock. -/
  | scan (c : Fin n)
  /-- The process the scheduler switched to runs up to its next `swtch` or releases the lock. -/
  | resume (c : Fin n)
  /-- An interrupt handler wakes the sleepers on a channel. -/
  | wakeup (chan : ℕ)
  | op (c : Fin n) (o : Op)
  deriving DecidableEq

namespace Machine

variable {n : ℕ} (m : Machine n)

/-- A process of the machine in control state `p`. -/
def setPc (s : Slot) (p : Pc) : Machine n := { m with pc := Function.update m.pc s p }

def setK (k : Kernel) : Machine n := { m with k := k }

/-- `sched()`: the process `s` on CPU `c`, which has given up its state, switches to the
scheduler, which goes on behind the slot it had picked. -/
def sched (c : Fin n) (s : Slot) (r : Resume) : Machine n :=
  { m with lock := .sched c (s + 1), resume := Function.update m.resume s r }

/-- `p->chan = chan; p->state = SLEEPING;` -/
def fallAsleep (k : Kernel) (s : Slot) (ch : Chan) : Kernel :=
  k.modify s fun p => { p with chan := some ch, state := .sleeping }

/-- The scheduler of `c` looks for a `RUNNABLE` slot from index `i` on. -/
def schedule (c : Fin n) (i : ℕ) : Except Halt (Machine n) :=
  match scan fun s => decide (i ≤ s.val) && (m.k.proc s).state = .runnable with
  | none => .ok { m with cpu := Function.update m.cpu c none, lock := .free }
  | some s =>
    -- `switchuvm(p)`
    if (m.k.proc s).kstack = none then .error (.panic "switchuvm: no kstack")
    else if (m.k.proc s).pgdir = none then .error (.panic "switchuvm: no pgdir")
    else .ok { m with
      k := m.k.modify s (·.setState .running)
      cpu := Function.update m.cpu c (some s)
      lock := .proc c }

/-- A scan of `wait` by the process `s` on CPU `c` that holds the lock, up to the `swtch` in it. -/
def waitStep (c : Fin n) (s : Slot) : Except Halt (Machine n) :=
  match waitScan m.k s with
  | .reap p =>
    match waitReap m.k p with
    | .error e => .error e
    | .ok k => .ok { m with
        k := k, lock := .free, log := .wait (m.inc s) (m.k.proc p).pid :: m.log }
  | .fail => .ok { m with lock := .free }
  | .block _ => .ok ((m.setK (fallAsleep m.k s (.proc s))).sched c s .wait)

/-- A scan of `join(tid)` likewise. -/
def joinStep (c : Fin n) (s : Slot) (tid : ℤ) (found : Option Slot) : Except Halt (Machine n) :=
  match joinScan m.k s tid found with
  | .reap p =>
    match joinReap m.k p with
    | .error e => .error e
    | .ok k => .ok { m with k := k, lock := .free, log := .join (m.inc s) tid :: m.log }
  | .fail => .ok { m with lock := .free }
  | .block found' =>
    let k := m.k.modify s (·.setJoinproc found')
    .ok ((m.setK (fallAsleep k s (.proc s))).sched c s (.join tid found'))

/-- `p->chan = 0;` after `sched()` in `sleep`. -/
def tidyUp (s : Slot) : Machine n := m.setK (m.k.modify s fun p => { p with chan := none })

/-- The process `s`, back on CPU `c` with the lock held. -/
def resumeStep (c : Fin n) (s : Slot) : Except Halt (Machine n) :=
  match m.resume s with
  | .forkret | .yield => .ok { m with lock := .free }
  | .sleep => .ok { m.tidyUp s with lock := .free }
  | .wait => (m.tidyUp s).waitStep c s
  | .join tid found => (m.tidyUp s).joinStep c s tid found

/-- The critical section of `allocproc`, called by `s` from `fork` or `clone`. -/
def createStep (s : Slot) (flags : Option ℤ) : Machine n :=
  match allocproc m.k with
  | none => m
  | some (np, k) =>
    { (m.setK k).setPc s (.create (.kstack flags) np) with
      resume := Function.update m.resume np .forkret
      inc := Function.update m.inc np m.k.nextpid }

/-- The occupant number behind a pointer. -/
def incOf (q : Option Slot) : ℤ := (q.map m.inc).getD 0

/-- What a statement of `fork` or `clone` adds to the bookkeeping. -/
def record (s np : Slot) (o : Oracle) : Stmt → Machine n
  | .forkParent => { m with parentInc := Function.update m.parentInc np (m.inc s) }
  | .cloneParent =>
    { m with parentInc := Function.update m.parentInc np (m.incOf (cloneParentOf m.k s np o.wild)) }
  | .cloneThreadparent =>
    { m with threadparentInc := Function.update m.threadparentInc np (m.inc s) }
  | .forkRun => { m with log := .fork (m.inc s) (m.k.proc np).pid :: m.log }
  | .cloneRun => { m with log := .clone (m.inc s) (m.k.proc np).tid :: m.log }
  | _ => m

/-- The bookkeeping of the children that `exit` of `s` passes to `initproc`. -/
def recordExit (s : Slot) : Machine n :=
  { m with
    parentInc := fun p =>
      if !(m.k.proc s).isthread && adopted m.k s p then m.inc m.k.initproc else m.parentInc p
    log := .exit (m.inc s) :: m.log }

/-- The next statement of the call that process `s` on CPU `c` is in. -/
def nextStep (c : Fin n) (s : Slot) (o : Oracle) : Except Halt (Machine n) :=
  match m.pc s with
  | .user => .error .disabled
  | .create st np =>
    match st.exec m.k s np o with
    | .error e => .error e
    | .ok (k, none) => .ok (((m.record s np o st).setK k).setPc s .user)
    | .ok (k, some st') => .ok (((m.record s np o st).setK k).setPc s (.create st' np))
  | .exec =>
    if o.ok then
      match execCommit m.k s o.sz with
      | .error e => .error e
      | .ok k => .ok ((m.setK k).setPc s .user)
    else .ok (m.setPc s .user)
  | .exit (.cwd isfileshare) =>
    .ok ((m.setK (unshareCwd m.k s)).setPc s
      (.exit (.files isfileshare (m.k.proc s).cwdshare.nonempty)))
  | .exit (.files isfileshare iscwdshare) =>
    match exitFiles m.k s isfileshare with
    | .error e => .error e
    | .ok k => .ok ((m.setK k).setPc s (.exit (.iput iscwdshare)))
  | .exit (.iput _) =>
    .ok ((m.setK (m.k.modify s fun p => { p with cwd := none })).setPc s (.exit .zombie))
  | .exit .zombie =>
    .ok ((((m.recordExit s).setK (exitLocked m.k s)).setPc s .user).sched c s .yield)

/-- A step of process `s` on CPU `c` with `ptable.lock` free. -/
def opStep (c : Fin n) (s : Slot) : Op → Except Halt (Machine n)
  | .yield =>
    .ok ((m.setK (m.k.modify s (·.setState .runnable))).sched c s .yield)
  | .sleep ch =>
    match m.pc s with
    | .create _ _ => .error .disabled
    | _ => .ok ((m.setK (fallAsleep m.k s (.other ch))).sched c s .sleep)
  | .wakeup ch => .ok (m.setK (wakeup1 m.k (some (.other ch))))
  | .next o => m.nextStep c s o
  | call =>
    if m.pc s ≠ .user then .error .disabled
    else
      match call with
      | .fork => .ok (m.createStep s none)
      | .clone flags => .ok (if flags < 0 ∨ flags > 31 then m else m.createStep s (some flags))
      | .wait => m.waitStep c s
      | .join tid o => m.joinStep c s tid o.wild
      | .exec => .ok ((m.setK (unshareCwd (unshareOfile m.k s) s)).setPc s .exec)
      | .exit =>
        if s = m.k.initproc then .error (.panic "init exiting")
        else .ok ((m.setK (unshareOfile m.k s)).setPc s
          (.exit (.cwd (m.k.proc s).ofileshare.nonempty)))
      | .kill pid => .ok (m.setK (kill m.k pid).1)
      | .tkill tid => .ok (m.setK (tkill m.k tid).1)
      | _ => .error .disabled

/-- One step of the machine. -/
def step : Action n → Except Halt (Machine n)
  | .enter c =>
    if m.lock = .free ∧ m.cpu c = none then .ok { m with lock := .sched c 0 } else .error .disabled
  | .scan c =>
    match m.lock with
    | .sched c' i => if c' = c then m.schedule c i else .error .disabled
    | _ => .error .disabled
  | .resume c =>
    match m.lock, m.cpu c with
    | .proc c', some s => if c' = c then m.resumeStep c s else .error .disabled
    | _, _ => .error .disabled
  | .wakeup ch =>
    if m.lock = .free then .ok (m.setK (wakeup1 m.k (some (.other ch)))) else .error .disabled
  | .op c o =>
    match m.lock, m.cpu c with
    | .free, some s => m.opStep c s o
    | _, _ => .error .disabled

section Fields

variable (k : Kernel) (c : Fin n) (s : Slot) (p : Pc) (r : Resume)

@[simp] theorem setK_k : (m.setK k).k = k := rfl
@[simp] theorem setK_cpu : (m.setK k).cpu = m.cpu := rfl
@[simp] theorem setK_lock : (m.setK k).lock = m.lock := rfl
@[simp] theorem setK_pc : (m.setK k).pc = m.pc := rfl
@[simp] theorem setK_resume : (m.setK k).resume = m.resume := rfl
@[simp] theorem setK_inc : (m.setK k).inc = m.inc := rfl
@[simp] theorem setPc_k : (m.setPc s p).k = m.k := rfl
@[simp] theorem setPc_cpu : (m.setPc s p).cpu = m.cpu := rfl
@[simp] theorem setPc_lock : (m.setPc s p).lock = m.lock := rfl
@[simp] theorem setPc_pc : (m.setPc s p).pc = Function.update m.pc s p := rfl
@[simp] theorem setPc_resume : (m.setPc s p).resume = m.resume := rfl
@[simp] theorem setPc_inc : (m.setPc s p).inc = m.inc := rfl
@[simp] theorem sched_k : (m.sched c s r).k = m.k := rfl
@[simp] theorem sched_cpu : (m.sched c s r).cpu = m.cpu := rfl
@[simp] theorem sched_pc : (m.sched c s r).pc = m.pc := rfl
@[simp] theorem sched_resume : (m.sched c s r).resume = Function.update m.resume s r := rfl
@[simp] theorem recordExit_k : (m.recordExit s).k = m.k := rfl
@[simp] theorem recordExit_pc : (m.recordExit s).pc = m.pc := rfl
@[simp] theorem recordExit_resume : (m.recordExit s).resume = m.resume := rfl
@[simp] theorem recordExit_inc : (m.recordExit s).inc = m.inc := rfl
@[simp] theorem sched_inc : (m.sched c s r).inc = m.inc := rfl

end Fields

end Machine

/-- The first process, as `userinit` leaves it, with the descriptors its program has opened. -/
def initProc (ofile : Fd → Option FileId) : Proc :=
  { Proc.zero with
    sz := 4096
    pgdir := some 0
    kstack := some 0
    state := .runnable
    pid := 1
    ofile := ofile
    cwd := some 1 }

/-- The kernel after `userinit`. -/
def bootKernel (ofile : Fd → Option FileId) (ft : FTable) : Kernel where
  proc := Function.update (fun _ => Proc.zero) 0 (initProc ofile)
  nextpid := 2
  initproc := 0
  inuse := fun pg => pg = 0
  ndir := 1
  freed := []
  ftable := ft

/-- The machine after `userinit`: every CPU is in its scheduler, only the first slot is in use. -/
def boot (n : ℕ) (ofile : Fd → Option FileId) (ft : FTable) : Machine n where
  k := bootKernel ofile ft
  cpu := fun _ => none
  lock := .free
  pc := fun _ => .user
  resume := fun _ => .forkret
  inc := Function.update (fun _ => 0) 0 1
  parentInc := fun _ => 0
  threadparentInc := fun _ => 0
  log := []

/-- The boot state in which no descriptor is open. -/
def boot0 (n : ℕ) : Machine n := boot n (fun _ => none) fun _ => File.zero

/-- The transition system of the kernel on `n` CPUs. -/
def machine (n : ℕ) : System Halt (Machine n) (Action n) where
  init m := ∃ ofile ft, m = boot n ofile ft
  step m a := m.step a

theorem init_boot0 (n : ℕ) : (machine n).init (boot0 n) := ⟨_, _, rfl⟩

end OsSemester.Xv6
