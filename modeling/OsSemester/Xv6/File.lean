import OsSemester.Xv6.Share

/-!
# Open files (`file.c`, and the descriptor part of `sysfile.c`)

`filealloc`, `filedup` and `fileclose` work on `ftable`; `fdalloc` and the recursions
`ofileshareopen`, `ofileshareclose` and `cwdshare` work on the descriptor tables and working
directories of the processes that share them.
-/

namespace OsSemester.Xv6

/-! ### Reference counts -/

/-- Allocates a file structure: the first with `ref == 0`. -/
def filealloc (ft : FTable) : Option (FileId × FTable) :=
  ((List.finRange NFILE).find? fun f => (ft f).ref = 0).map fun f =>
    (f, Function.update ft f { ft f with ref := 1 })

/-- Increments the reference count of `f`. -/
def filedup (ft : FTable) (f : FileId) : Except Halt FTable :=
  if (ft f).ref < 1 then .error (.panic "filedup")
  else .ok (Function.update ft f { ft f with ref := (ft f).ref + 1 })

/-- Decrements the reference count of `f`.  With the last reference the file becomes free, and the
copy `ff` whose pipe end or inode is then released is returned as well. -/
def fileclose (ft : FTable) (f : FileId) : Except Halt (FTable × Option File) :=
  if (ft f).ref < 1 then .error (.panic "fileclose")
  else if (ft f).ref - 1 > 0 then
    .ok (Function.update ft f { ft f with ref := (ft f).ref - 1 }, none)
  else .ok (Function.update ft f { ft f with ref := 0, type := .none }, some (ft f))

/-- `for(i = 0; i < NOFILE; i++) if(src[i]) dst[i] = filedup(src[i]);` over the descriptors in
`fds`. -/
def dupFiles (src : Fd → Option FileId) :
    List Fd → FTable → (Fd → Option FileId) → Except Halt (FTable × (Fd → Option FileId))
  | [], ft, dst => .ok (ft, dst)
  | fd :: fds, ft, dst =>
    match src fd with
    | none => dupFiles src fds ft dst
    | some f =>
      match filedup ft f with
      | .error e => .error e
      | .ok ft' => dupFiles src fds ft' (Function.update dst fd (some f))

/-- `for(i = 0; i < NOFILE; i++) if(src[i]) dst[i] = src[i];` -/
def copyFiles (src dst : Fd → Option FileId) : Fd → Option FileId :=
  fun fd => if (src fd).isSome then src fd else dst fd

/-- `for(fd = 0; fd < NOFILE; fd++) if(ofile[fd]) { fileclose(ofile[fd]); ofile[fd] = 0; }` over
the descriptors in `fds`. -/
def closeFiles : List Fd → FTable → (Fd → Option FileId) →
    Except Halt (FTable × (Fd → Option FileId))
  | [], ft, ofile => .ok (ft, ofile)
  | fd :: fds, ft, ofile =>
    match ofile fd with
    | none => closeFiles fds ft ofile
    | some f =>
      match fileclose ft f with
      | .error e => .error e
      | .ok (ft', _) => closeFiles fds ft' (Function.update ofile fd none)

/-! ### Descriptors of sharing processes -/

section Spread

variable {β : Type} [DecidableEq β]

/-- The body of `ofileshareopen`, `ofileshareclose` and `cwdshare` for the entries in the list:
`rec` is the recursive call, `v` the value that is spread, `col` the field of all processes that is
written.  The first neighbour that already has the value ends the whole loop. -/
def spreadLoop (g : ShareGraph) (v : β) (rec : Slot → (Slot → β) → Slot → β) (cur : Slot) :
    List (Fin NPROC) → (Slot → β) → Slot → β
  | [], col => col
  | i :: is, col =>
    match g cur i with
    | none => spreadLoop g v rec cur is col
    | some q =>
      if q = cur then spreadLoop g v rec cur is col
      else if col q = v then col
      else spreadLoop g v rec cur is (rec q (Function.update col q v))

/-- The recursion with at most the given depth. -/
def spread (g : ShareGraph) (v : β) : ℕ → Slot → (Slot → β) → Slot → β
  | 0, _, col => col
  | n + 1, cur, col => spreadLoop g v (spread g v n) cur (List.finRange NPROC) col

end Spread

namespace Kernel

/-- The arrays `ofileshare` of all slots. -/
def ofileshare (k : Kernel) : ShareGraph := fun s => (k.proc s).ofileshare

/-- The arrays `cwdshare` of all slots. -/
def cwdshare (k : Kernel) : ShareGraph := fun s => (k.proc s).cwdshare

def setOfileshare (k : Kernel) (g : ShareGraph) : Kernel :=
  k.mapProc fun s p => { p with ofileshare := g s }

def setCwdshare (k : Kernel) (g : ShareGraph) : Kernel :=
  k.mapProc fun s p => { p with cwdshare := g s }

/-- Descriptor `fd` of every slot. -/
def ofileAt (k : Kernel) (fd : Fd) : Slot → Option FileId := fun s => (k.proc s).ofile fd

def setOfileAt (k : Kernel) (fd : Fd) (col : Slot → Option FileId) : Kernel :=
  k.mapProc fun s p => { p with ofile := Function.update p.ofile fd (col s) }

/-- The recursion depth granted to the three recursions: each nested call is made after a write
that gives one more of the `NPROC` processes the value. -/
def spreadDepth : ℕ := NPROC + 1

/-- `ofileshareopen(cur, f, fd)`. -/
def ofileshareopen (k : Kernel) (cur : Slot) (f : FileId) (fd : Fd) : Kernel :=
  k.setOfileAt fd (spread k.ofileshare (some f) spreadDepth cur (k.ofileAt fd))

/-- `ofileshareclose(cur, fd)`. -/
def ofileshareclose (k : Kernel) (cur : Slot) (fd : Fd) : Kernel :=
  k.setOfileAt fd (spread k.ofileshare none spreadDepth cur (k.ofileAt fd))

/-- The first free descriptor of `cur`. -/
def freeFd (k : Kernel) (cur : Slot) : Option Fd :=
  (List.finRange NOFILE).find? fun fd => (k.proc cur).ofile fd = none

/-- `fdalloc(f)`: the caller's first free descriptor is set to `f`, in its own table and in those
it shares with. -/
def fdalloc (k : Kernel) (cur : Slot) (f : FileId) : Option (Fd × Kernel) :=
  (k.freeFd cur).map fun fd =>
    let k' := k.modify cur fun p => { p with ofile := Function.update p.ofile fd (some f) }
    (fd, k'.ofileshareopen cur f fd)

end Kernel

end OsSemester.Xv6
