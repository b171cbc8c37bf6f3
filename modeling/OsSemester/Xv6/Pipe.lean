import OsSemester.Xv6.Calls

/-!
# `pipe` and the memory of pipes (`pipe.c`, `sys_pipe` in `sysfile.c`)

`pipealloc` and `fileclose` with the page of the pipe: `kalloc` takes the first page of the free list,
and the end that is closed last gives the page back.
-/

namespace OsSemester.Xv6

/-- The fields of `struct pipe` that `pipealloc` and `pipeclose` use. -/
structure Pipe where
  nread : ℕ
  nwrite : ℕ
  readopen : Bool
  writeopen : Bool

/-- The free list of `kalloc.c`, and the pipes in the pages that hold one. -/
structure PipeMem where
  free : List Page
  pipe : Page → Pipe

/-- The pipe in the page `pg` is set. -/
def PipeMem.set (pm : PipeMem) (pg : Page) (p : Pipe) : PipeMem :=
  { pm with pipe := Function.update pm.pipe pg p }

/-- `pipeclose` -/
def pipeclose (pm : PipeMem) (pg : Page) (writable : Bool) : PipeMem :=
  let p := pm.pipe pg
  let p := if writable then { p with writeopen := false } else { p with readopen := false }
  let pm := pm.set pg p
  if !p.readopen && !p.writeopen then { pm with free := pg :: pm.free } else pm

/-- `fileclose`; the last reference of a pipe end closes it. -/
def closeEnd (ft : FTable) (pm : PipeMem) (f : FileId) : Except Halt (FTable × PipeMem) :=
  match fileclose ft f with
  | .error e => .error e
  | .ok (ft', none) => .ok (ft', pm)
  | .ok (ft', some ff) =>
    match ff.type, ff.pipe with
    | .pipe, some pg => .ok (ft', pipeclose pm pg ff.writable)
    | .pipe, none => .error .disabled
    | _, _ => .ok (ft', pm)

/-- The files `f` and `g` are closed one after the other. -/
def closeEnds (ft : FTable) (pm : PipeMem) (f g : FileId) : Except Halt (FTable × PipeMem) :=
  match closeEnd ft pm f with
  | .error e => .error e
  | .ok (ft', pm') => closeEnd ft' pm' g

/-- `pipealloc` -/
def pipeallocMem (ft : FTable) (pm : PipeMem) :
    Except Halt (FTable × PipeMem × Option (FileId × FileId)) :=
  match filealloc ft with
  | none => .ok (ft, pm, none)
  | some (f0, ft0) =>
    match filealloc ft0, pm.free with
    | none, _ => (closeEnd ft0 pm f0).map fun r => (r.1, r.2, none)
    | some (f1, ft1), [] => (closeEnds ft1 pm f0 f1).map fun r => (r.1, r.2, none)
    | some (f1, ft1), pg :: free =>
      let ft2 := Function.update ft1 f0 ((ft1 f0).openPipe pg false)
      .ok (Function.update ft2 f1 ((ft2 f1).openPipe pg true),
        { pm with free := free }.set pg ⟨0, 0, true, true⟩, some (f0, f1))

/-- The failure path of `sys_pipe`. -/
def closePipe (k : Kernel) (pm : PipeMem) (rf wf : FileId) :
    Except Halt (Kernel × PipeMem × Option (Fd × Fd)) :=
  (closeEnds k.ftable pm rf wf).map fun r => (k.setFtable r.1, r.2, none)

/-- `sys_pipe`; `valid` says whether `argptr` accepts the address for the two descriptors. -/
def sysPipeMem (k : Kernel) (pm : PipeMem) (s : Slot) (valid : Bool) :
    Except Halt (Kernel × PipeMem × Option (Fd × Fd)) :=
  if !valid then .ok (k, pm, none)
  else
    match pipeallocMem k.ftable pm with
    | .error e => .error e
    | .ok (ft, pm', none) => .ok (k.setFtable ft, pm', none)
    | .ok (ft, pm', some (rf, wf)) =>
      match (k.setFtable ft).fdalloc s rf with
      | none => closePipe (k.setFtable ft) pm' rf wf
      | some (fd0, k') =>
        match k'.fdalloc s wf with
        -- only the caller's own table is cleared here
        | none => closePipe (k'.setOfile s fd0 none) pm' rf wf
        | some (fd1, k'') => .ok (k'', pm', some (fd0, fd1))

end OsSemester.Xv6
