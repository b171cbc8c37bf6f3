import OsSemester.Xv6.Create

/-!
# Ending and reaping a process (`exit`, `wait`, `join`, `kill`, `tkill`, `wakeup1` in `proc.c`)

`exit` dissolves the sharing relations and closes the files without `ptable.lock`, then hands its
children over, wakes whoever waits for it and becomes a `ZOMBIE` in one critical section.  `wait`
and `join` scan the table under the lock; a scan ends with a reaped slot, with `-1`, or with the
caller going to sleep.
-/

namespace OsSemester.Xv6

/-- `freevm(d)` on an installed directory. -/
def freevm (k : Kernel) (d : Option Pgdir) : Except Halt Kernel :=
  match d with
  | none => .error (.panic "freevm: no pgdir")
  | some d => .ok { k with freed := d :: k.freed }

/-- The commit of `exec`: the loaded image of size `sz` replaces the old one, which is freed. -/
def execCommit (k : Kernel) (cur : Slot) (sz : ℕ) : Except Halt Kernel :=
  freevm ((installDir k cur).modify cur fun p => { p with sz := sz }) (k.proc cur).pgdir

/-! ### Wakeups -/

/-- Wakes all processes sleeping on `ch`. -/
def wakeup1 (k : Kernel) (ch : Option Chan) : Kernel :=
  k.mapProc fun _ p => if p.state = .sleeping ∧ p.chan = ch then p.setState .runnable else p

/-- Wakes the process at a pointer, `wakeup1((void *)q)`. -/
def wakeupProc (k : Kernel) (q : Option Slot) : Kernel := wakeup1 k (q.map .proc)

/-! ### `exit` -/

/-- `exit` and `exec` take the caller out of its descriptor sharing. -/
def unshareOfile (k : Kernel) (cur : Slot) : Kernel := k.setOfileshare (unshare k.ofileshare cur)

/-- `exit` and `exec` take the caller out of its directory sharing. -/
def unshareCwd (k : Kernel) (cur : Slot) : Kernel := k.setCwdshare (unshare k.cwdshare cur)

/-- The descriptors of the exiting process: closed, or only cleared when they were shared. -/
def exitFiles (k : Kernel) (cur : Slot) (isfileshare : Bool) : Except Halt Kernel :=
  if isfileshare then .ok (k.modify cur fun p => { p with ofile := fun _ => none })
  else
    match closeFiles (List.finRange NOFILE) k.ftable (k.proc cur).ofile with
    | .error e => .error e
    | .ok (ft, ofile) => .ok { k.modify cur (fun p => { p with ofile := ofile }) with ftable := ft }

/-- A child that `exit` of the process `cur` passes to `initproc`. -/
def adopted (k : Kernel) (cur p : Slot) : Bool :=
  (k.proc p).parent = some cur && !(k.proc p).isthread

/-- The loop of `exit` that passes abandoned children to `initproc`, without its wakeups. -/
def adopt (k : Kernel) (cur : Slot) : Kernel :=
  k.mapProc fun s p => if adopted k cur s then p.setParent (some k.initproc) else p

/-- A child that is passed to `initproc` has exited already. -/
def adoptsZombie (k : Kernel) (cur : Slot) : Bool :=
  (scan fun s => adopted k cur s && (k.proc s).state = .zombie).isSome

/-- The loop of `exit` that kills the threads of a process. -/
def killThreads (k : Kernel) (cur : Slot) : Kernel :=
  k.mapProc fun _ p => if p.isthread && p.parent = some cur then p.kill else p

/-- `exit` of a process: its process children go to `initproc`, its parent is woken, its threads
are killed. -/
def exitProcess (k : Kernel) (cur : Slot) : Kernel :=
  let k1 := adopt k cur
  let k2 := if adoptsZombie k cur then wakeupProc k1 (some k.initproc) else k1
  let k3 := wakeupProc k2 (k2.proc cur).parent
  killThreads k3 cur

/-- The slot sleeps on a process whose `joinproc` is `cur`. -/
def joinerAsleep (k : Kernel) (cur : Slot) (p : Proc) : Bool :=
  p.state = .sleeping &&
    match p.chan with
    | some (.proc q) => (k.proc q).joinproc = some cur
    | _ => false

/-- The loop of `exit` of a thread: every process whose `joinproc` is the thread is reset and
woken. -/
def wakeJoiners (k : Kernel) (cur : Slot) : Kernel :=
  k.mapProc fun _ p =>
    (p.setState (if joinerAsleep k cur p then .runnable else p.state)).setJoinproc
      (if p.joinproc = some cur then none else p.joinproc)

/-- Some process names `cur` in its `joinproc`. -/
def hasJoiner (k : Kernel) (cur : Slot) : Bool :=
  (scan fun s => (k.proc s).joinproc = some cur).isSome

/-- `exit` of a thread: the parent is woken only when there is no joiner. -/
def exitThread (k : Kernel) (cur : Slot) : Kernel :=
  if hasJoiner k cur then wakeJoiners k cur else wakeupProc k (k.proc cur).parent

/-- The critical section of `exit`. -/
def exitLocked (k : Kernel) (cur : Slot) : Kernel :=
  (if (k.proc cur).isthread then exitThread k cur else exitProcess k cur).modify cur
    (·.setState .zombie)

/-! ### `wait` and `join` -/

/-- The slots the loop of `wait` does not skip. -/
def waitable (k : Kernel) (cur p : Slot) : Bool :=
  (k.proc p).parent = some cur && !(k.proc p).isthread &&
    (!(k.proc cur).isthread ||
      (k.proc p).parent.map (fun q => (k.proc q).pid) = some (k.proc cur).pid)

/-- How one scan of `wait` or `join` over the table ends. -/
inductive Scan
  /-- A `ZOMBIE` is found and reclaimed. -/
  | reap (p : Slot)
  /-- The call returns -1. -/
  | fail
  /-- The call goes to sleep; `join` has set its local `found`. -/
  | block (found : Option Slot)
  deriving DecidableEq

/-- One scan of `wait`. -/
def waitScan (k : Kernel) (cur : Slot) : Scan :=
  match scan fun p => waitable k cur p && (k.proc p).state = .zombie with
  | some p => .reap p
  | none =>
    if (scan (waitable k cur)).isNone || (k.proc cur).killed then .fail else .block none

/-- `wait` reclaims the slot `p`. -/
def waitReap (k : Kernel) (p : Slot) : Except Halt Kernel :=
  match freevm (freeKstack k p) (k.proc p).pgdir with
  | .error e => .error e
  | .ok k' => .ok (k'.modify p fun pr =>
      { pr with
        pid := 0, parent := none, killed := false, isthread := false, tid := 0, state := .unused })

/-- `join` may reclaim the thread `p` when called by `cur`. -/
def joinable (k : Kernel) (cur p : Slot) : Bool :=
  if (k.proc cur).isthread then
    (k.proc p).pid = (k.proc cur).pid || (k.proc p).parent = some cur ||
      (k.proc p).threadparent = some cur
  else (k.proc p).parent = some cur

/-- The loop of `join` over the slots in the list: `found` and `havekids` are its locals. -/
def joinLoop (k : Kernel) (cur : Slot) (tid : ℤ) :
    List Slot → Option Slot → Bool → Scan
  | [], found, havekids => if !havekids || (k.proc cur).killed then .fail else .block found
  | p :: ps, found, havekids =>
    if (k.proc p).tid ≠ tid || !(k.proc p).isthread then joinLoop k cur tid ps found havekids
    else if !joinable k cur p then .fail
    else if (k.proc p).state = .zombie then .reap p
    else joinLoop k cur tid ps (if (k.proc cur).isthread then some p else found) true

/-- One scan of `join`. -/
def joinScan (k : Kernel) (cur : Slot) (tid : ℤ) (found : Option Slot) : Scan :=
  joinLoop k cur tid (List.finRange NPROC) found false

/-- `join` reclaims the slot `p`. -/
def joinReap (k : Kernel) (p : Slot) : Except Halt Kernel :=
  match (if (k.proc p).cloneVm then .ok (freeKstack k p)
    else freevm (freeKstack k p) (k.proc p).pgdir) with
  | .error e => .error e
  | .ok k' => .ok (k'.modify p fun pr =>
      { pr with pid := 0, parent := none, killed := false, state := .unused })

/-! ### `kill` and `tkill` -/

/-- The slot `kill(pid)` stops at. -/
def killTarget (k : Kernel) (pid : ℤ) : Option Slot := scan fun p => (k.proc p).pid = pid

/-- `kill(pid)`, 0 is `true` and -1 is `false`. -/
def kill (k : Kernel) (pid : ℤ) : Kernel × Bool :=
  match killTarget k pid with
  | none => (k, false)
  | some p =>
    -- the threads go first when the slot is a process
    (k.mapProc fun q pr =>
      if q = p || !(k.proc p).isthread && pr.isthread && pr.parent = some p then pr.kill else pr,
      true)

/-- The slot `tkill(tid)` stops at. -/
def tkillTarget (k : Kernel) (tid : ℤ) : Option Slot :=
  scan fun p => (k.proc p).tid = tid && (k.proc p).isthread

/-- `tkill(tid)`. -/
def tkill (k : Kernel) (tid : ℤ) : Kernel × Bool :=
  match tkillTarget k tid with
  | none => (k, false)
  | some p => (k.modify p Proc.kill, true)

end OsSemester.Xv6
