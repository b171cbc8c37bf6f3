import OsSemester.Xv6.File

/-!
# Creating a process (`allocproc`, `fork` and `clone` in `proc.c`)

Only the search for a free slot and the final `state = RUNNABLE` run under `ptable.lock`.
Everything between works on a slot in state `EMBRYO` without the lock, so the two functions are
cut into their statements: `Stmt` names the statement a creating process executes next, and
`Stmt.exec` executes it.

`kalloc` and `copyuvm` may fail at any call and `copyout` may refuse the stack; their outcome is
part of the `Oracle`, as is the value read through a null or wild pointer.
-/

namespace OsSemester.Xv6

/-- What the code of this model reads from outside it. -/
structure Oracle where
  /-- The page `kalloc` returns for a kernel stack. -/
  page : Option Page
  /-- Whether `copyuvm`, `copyout` or the loader in `exec` succeeds. -/
  ok : Bool
  /-- The size of the image `exec` has loaded. -/
  sz : ℕ
  /-- What a read through a null pointer or of an uninitialised local yields. -/
  wild : Option Slot
  deriving DecidableEq

/-- The next statement of a process inside `fork` or `clone`. -/
inductive Stmt
  /-- `kalloc` in `allocproc`; `clone` carries its flags, `fork` has none. -/
  | kstack (flags : Option ℤ)
  | forkCopyuvm
  | forkParent
  | forkIsthread
  | forkTid
  | forkOfile
  | forkCwd
  | forkRun
  | cloneFlags (flags : ℤ)
  | cloneParent
  | cloneThreadparent
  | cloneIds
  | clonePgdir
  | cloneIsthread
  | cloneCopyout
  | cloneFiles
  | cloneFs
  | cloneRun
  deriving DecidableEq, Repr

/-- The critical section of `allocproc`: the first `UNUSED` slot becomes `EMBRYO`. -/
def allocproc (k : Kernel) : Option (Slot × Kernel) :=
  (scan fun s => (k.proc s).state = .unused).map fun np =>
    (np, { k.modify np (fun p => { p with state := .embryo, pid := k.nextpid }) with
      nextpid := k.nextpid + 1 })

/-- `kfree(p->kstack); p->kstack = 0;` -/
def freeKstack (k : Kernel) (s : Slot) : Kernel :=
  { k.modify s (·.setKstack none) with
    inuse :=
      match (k.proc s).kstack with
      | none => k.inuse
      | some pg => Function.update k.inuse pg false }

/-- The failure path of `copyuvm` in `fork` and `clone`, after `np->pgdir = 0`. -/
def abandon (k : Kernel) (np : Slot) : Kernel :=
  (freeKstack k np).modify np fun p => { p with pgdir := none, state := .unused }

/-- A directory made by `copyuvm` or `exec` becomes the one of slot `np`. -/
def installDir (k : Kernel) (np : Slot) : Kernel :=
  { k.modify np (fun p => { p with pgdir := some k.ndir }) with ndir := k.ndir + 1 }

/-- `1 << i` is set in the flags of `clone`. -/
def flagSet (flags : ℤ) (i : ℕ) : Bool := (flags.toNat / 2 ^ i) % 2 = 1

/-- `(curproc->parent)->parent`, or what the null page holds when there is no parent. -/
def grandparent (k : Kernel) (cur : Slot) (wild : Option Slot) : Option Slot :=
  match (k.proc cur).parent with
  | none => wild
  | some q => (k.proc q).parent

/-- The parent `clone` gives the new thread. -/
def cloneParentOf (k : Kernel) (cur np : Slot) (wild : Option Slot) : Option Slot :=
  if (k.proc np).cloneParent then
    if (k.proc cur).isthread then grandparent k cur wild else (k.proc cur).parent
  else if (k.proc cur).isthread then (k.proc cur).parent
  else some cur

/-- Copies the descriptors of `cur` with a reference each. -/
def dupOfile (k : Kernel) (cur np : Slot) : Except Halt Kernel :=
  match dupFiles (k.proc cur).ofile (List.finRange NOFILE) k.ftable (k.proc np).ofile with
  | .error e => .error e
  | .ok (ft, ofile) => .ok { k.modify np (fun p => { p with ofile := ofile }) with ftable := ft }

/-- The `CLONE_FILES` part of `clone`. -/
def cloneOfile (k : Kernel) (cur np : Slot) : Except Halt Kernel :=
  if (k.proc np).cloneFiles then
    .ok ((k.setOfileshare (k.ofileshare.fill cur np)).modify np fun p =>
      { p with ofile := copyFiles (k.proc cur).ofile p.ofile })
  else dupOfile k cur np

/-- The `CLONE_FS` part of `clone`. -/
def cloneCwd (k : Kernel) (cur np : Slot) : Kernel :=
  let k' := if (k.proc np).cloneFs then k.setCwdshare (k.cwdshare.fill cur np) else k
  k'.modify np fun p => { p with cwd := (k.proc cur).cwd }

/-- One statement of `fork` or `clone`, executed by `cur` on the new slot `np`.  The second
component is the next statement, `none` when the call returns. -/
def Stmt.exec (k : Kernel) (cur np : Slot) (o : Oracle) : Stmt → Except Halt (Kernel × Option Stmt)
  | .kstack flags =>
    match o.page with
    | none => .ok (k.modify np fun p => (p.setKstack none).setState .unused, none)
    | some pg =>
      -- `kalloc` never returns a page that is in use
      if k.inuse pg then .error .disabled
      else .ok ({ k.modify np (·.setKstack (some pg)) with
          inuse := Function.update k.inuse pg true },
        match flags with
        | none => some .forkCopyuvm
        | some fl => some (.cloneFlags fl))
  | .forkCopyuvm =>
    if o.ok then .ok (installDir k np, some .forkParent) else .ok (abandon k np, none)
  | .forkParent =>
    .ok (k.modify np fun p => { p with sz := (k.proc cur).sz, parent := some cur },
      some .forkIsthread)
  | .forkIsthread => .ok (k.modify np fun p => { p with isthread := false }, some .forkTid)
  | .forkTid => .ok (k.modify np fun p => { p with tid := p.pid }, some .forkOfile)
  | .forkOfile =>
    match dupOfile k cur np with
    | .error e => .error e
    | .ok k' => .ok (k', some .forkCwd)
  | .forkCwd => .ok (k.modify np fun p => { p with cwd := (k.proc cur).cwd }, some .forkRun)
  | .forkRun => .ok (k.modify np (·.setState .runnable), none)
  | .cloneFlags fl =>
    .ok (k.modify np fun p => { p with
        cloneFiles := flagSet fl 0, cloneFs := flagSet fl 1, cloneVm := flagSet fl 2,
        cloneThread := flagSet fl 3, cloneParent := flagSet fl 4 },
      some .cloneParent)
  | .cloneParent =>
    .ok (k.modify np fun p => { p with parent := cloneParentOf k cur np o.wild },
      some .cloneThreadparent)
  | .cloneThreadparent =>
    .ok (k.modify np fun p => { p with threadparent := some cur }, some .cloneIds)
  | .cloneIds =>
    .ok (k.modify np fun p => { p with
        tid := p.pid, pid := if p.cloneThread then (k.proc cur).pid else p.pid },
      some .clonePgdir)
  | .clonePgdir =>
    if (k.proc np).cloneVm then
      .ok (k.modify np fun p => { p with pgdir := (k.proc cur).pgdir }, some .cloneIsthread)
    else if o.ok then .ok (installDir k np, some .cloneIsthread)
    else .ok (abandon k np, none)
  | .cloneIsthread =>
    .ok (k.modify np fun p => { p with sz := (k.proc cur).sz, isthread := true },
      some .cloneCopyout)
  | .cloneCopyout => .ok (k, if o.ok then some .cloneFiles else none)
  | .cloneFiles =>
    match cloneOfile k cur np with
    | .error e => .error e
    | .ok k' => .ok (k', some .cloneFs)
  | .cloneFs => .ok (cloneCwd k cur np, some .cloneRun)
  | .cloneRun => .ok (k.modify np (·.setState .runnable), none)

end OsSemester.Xv6
