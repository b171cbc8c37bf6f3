import OsSemester.Hw5.MergeTree
import OsSemester.Lib.SharedMemory

/-!
# The parallel merge sort of `Q3.c`

`main` reads numbers into an array `in` that it shares with its children, and sorts it: up to nine
numbers alone, more with the help of two children, each of which sorts one half.  Every process has
an array `out` of its own, which is the copy of its parent's at the `fork`.

The functions of the source are programs over these arrays; what the processes do between two
accesses concerns nobody else.  The arguments are at most 10000, so that no sum wraps around.
-/

namespace OsSemester.Hw5

/-- The processes. -/
inductive Worker
  | parent | child1 | child2
  deriving DecidableEq

/-- A cell of an array. -/
inductive Cell
  /-- `in[k]` -/
  | input (k : ℤ)
  /-- `out[k]` in a process. -/
  | out (w : Worker) (k : ℤ)
  deriving DecidableEq

namespace Cell

def index : Cell → ℤ
  | input k => k
  | out _ k => k

end Cell

abbrev Program := Prog Cell CInt

/-- The number of elements of `in` and `out`. -/
def MAXNUM : ℤ := 10000

/-! ### The functions of the source -/

/-- The `while` loop of `merge`; the result is `i`, `j` and `insert`. -/
def mergeLoop (w : Worker) (loc2 loc4 i j insert : ℤ) : Program (ℤ × ℤ × ℤ) :=
  if h : i ≤ loc2 ∧ j ≤ loc4 then do
    let a ← Prog.get (.input i)
    let b ← Prog.get (.input j)
    if a.toInt > b.toInt then do
      let v ← Prog.get (.input j)
      Prog.set (.out w insert) v
      mergeLoop w loc2 loc4 i (j + 1) (insert + 1)
    else do
      let v ← Prog.get (.input i)
      Prog.set (.out w insert) v
      mergeLoop w loc2 loc4 (i + 1) j (insert + 1)
  else pure (i, j, insert)
termination_by (loc2 + 1 - i).toNat + (loc4 + 1 - j).toNat

/-- `for(;k<=hi;k++) out[insert++] = in[k];` with the last `insert` as its result. -/
def copyOut (w : Worker) (hi k insert : ℤ) : Program ℤ :=
  if h : k ≤ hi then do
    let v ← Prog.get (.input k)
    Prog.set (.out w insert) v
    copyOut w hi (k + 1) (insert + 1)
  else pure insert
termination_by (hi + 1 - k).toNat

/-- `for(;i<=hi;i++) in[i] = out[i];` -/
def copyBack (w : Worker) (hi i : ℤ) : Program Unit :=
  if h : i ≤ hi then do
    let v ← Prog.get (.out w i)
    Prog.set (.input i) v
    copyBack w hi (i + 1)
  else pure ()
termination_by (hi + 1 - i).toNat

def merge (w : Worker) (loc1 loc2 loc3 loc4 : ℤ) : Program Unit := do
  let (i, j, insert) ← mergeLoop w loc2 loc4 loc1 loc3 loc1
  let insert ← copyOut w loc2 i insert
  let _ ← copyOut w loc4 j insert
  copyBack w loc4 loc1

def sort (w : Worker) (loc1 loc2 : ℤ) : Program Unit :=
  if h : loc1 ≥ loc2 then pure ()
  else do
    let mid := (loc1 + loc2) / 2
    sort w loc1 mid
    sort w (mid + 1) loc2
    merge w loc1 mid (mid + 1) loc2
termination_by (loc2 - loc1).toNat

/-- `for(;i<=NUM;i++) printf("%d\n", in[i]);` with the numbers printed. -/
def printLoop (NUM i : ℤ) : Program (List CInt) :=
  if h : i ≤ NUM then do
    let v ← Prog.get (.input i)
    let vs ← printLoop NUM (i + 1)
    pure (v :: vs)
  else pure []
termination_by (NUM + 1 - i).toNat

def printar (NUM : ℤ) : Program (List CInt) := printLoop NUM 0

/-- The loop that reads numbers up to a 0; the result is `i`. -/
def scanLoop : List CInt → ℤ → Program ℤ
  | [], i => pure i
  | j :: js, i =>
    if j = 0 then pure i
    else do
      Prog.set (.input (i + 1)) j
      scanLoop js (i + 1)

/-! ### The processes -/

/-- Where the parent is in `main`. -/
inductive Main
  /-- It reads the numbers and prints them. -/
  | reading (p : Program ℤ)
  /-- It sorts them alone. -/
  | direct (p : Program (List CInt))
  | fork1 (i : ℤ)
  | fork2 (i : ℤ)
  | wait1 (i : ℤ)
  | wait2 (i : ℤ)
  /-- It merges the two halves. -/
  | merging (p : Program (List CInt))
  /-- It has printed the numbers a second time and is done. -/
  | done (printed : List CInt)

structure Session where
  mem : Cell → CInt
  main : Main
  child1 : Option (Program Unit) := none
  child2 : Option (Program Unit) := none

/-- A new process has a copy of the array `out`. -/
def forkMem (w : Worker) (mem : Cell → CInt) : Cell → CInt
  | .input k => mem (.input k)
  | .out v k => if v = w then mem (.out .parent k) else mem (.out v k)

/-- The cell that a process accesses next. -/
def Session.access (s : Session) : Worker → Option Cell
  | .parent =>
    match s.main with
    | .reading p => p.next
    | .direct p => p.next
    | .merging p => p.next
    | _ => none
  | .child1 => s.child1.bind Prog.next
  | .child2 => s.child2.bind Prog.next

/-- The next step of the parent. -/
def mainStep (s : Session) : Option Session :=
  match s.main with
  | .reading (.ret i) =>
    if i ≤ 8 then
      some { s with main := .direct do sort .parent 0 i; printar i }
    else some { s with main := .fork1 i }
  | .reading p => (p.step s.mem).map fun x => { s with main := .reading x.1, mem := x.2 }
  | .direct (.ret l) => some { s with main := .done l }
  | .direct p => (p.step s.mem).map fun x => { s with main := .direct x.1, mem := x.2 }
  | .fork1 i =>
    some { s with
      mem := forkMem .child1 s.mem
      main := .fork2 i
      child1 := some (sort .child1 0 (i / 2)) }
  | .fork2 i =>
    some { s with
      mem := forkMem .child2 s.mem
      main := .wait1 i
      child2 := some (sort .child2 (i / 2 + 1) i) }
  | .wait1 i =>
    match s.child1 with
    | some (.ret _) => some { s with main := .wait2 i }
    | _ => none
  | .wait2 i =>
    match s.child2 with
    | some (.ret _) =>
      some { s with
        main := .merging do
          merge .parent 0 (i / 2) (i / 2 + 1) i
          printar i }
    | _ => none
  | .merging (.ret l) => some { s with main := .done l }
  | .merging p => (p.step s.mem).map fun x => { s with main := .merging x.1, mem := x.2 }
  | .done _ => none

/-- The next step of a process. -/
def workerStep (s : Session) : Worker → Option Session
  | .parent => mainStep s
  | .child1 =>
    (s.child1.bind fun p => p.step s.mem).map fun x => { s with child1 := some x.1, mem := x.2 }
  | .child2 =>
    (s.child2.bind fun p => p.step s.mem).map fun x => { s with child2 := some x.1, mem := x.2 }

/-- The parent before its first `scanf`. -/
def begun (stdin : List CInt) : Session where
  mem _ := 0
  main := .reading do
    let i ← scanLoop stdin (-1)
    let _ ← printar i
    pure i

/-- `main` with the numbers on its standard input, of which the last one is 0. -/
def q3 (stdin : List CInt) : System Unit Session Worker where
  init s := s = begun stdin
  step s w := (workerStep s w).elim (.error ()) .ok

/-- The numbers printed by a process that sorts all of them itself. -/
def sortAlone (stdin : List CInt) : List CInt :=
  (Prog.run (do
    let i ← scanLoop stdin (-1)
    sort .parent 0 i
    printar i) fun _ => 0).1

end OsSemester.Hw5
