import OsSemester.Lib.Transition

/-!
# The process tree of `Q2.c`

`main` writes 800 numbers to a pipe and forks a tree of fifteen processes, all of which read from
and write to this pipe: the parent, two processes of the third tier, four of the second and eight of
the bottom tier.  The code of a process is the list of the calls it still has to make, in the branch
of `main` its `child_pid` selects; `printf` is left out.

The unit of the pipe is an `int`, since every call moves a multiple of `sizeof(int)` bytes.
-/

namespace OsSemester.Hw5

/-- A C `int`. -/
abbrev CInt := BitVec 32

/-- `compare`: the difference wraps around like that of two `int`s. -/
def compare (num_1 num_2 : CInt) : ℤ := (num_1 - num_2).toInt

/-- `qsort(num, n, sizeof(int), compare)`. -/
def qsort (n : ℕ) (num : List CInt) : List CInt :=
  (num.take n).mergeSort (fun a b => compare a b ≤ 0) ++ num.drop n

/-- A call in `main`. -/
inductive Instr
  /-- `read(fd[0], num, sizeof(int)*n)` -/
  | read (n : ℕ)
  /-- `write(fd[1], num, sizeof(int)*n)` -/
  | write (n : ℕ)
  | fork
  | wait
  | qsort (n : ℕ)
  /-- The loop that prints the first `n` numbers to `out.dat`. -/
  | fprintf (n : ℕ)
  deriving DecidableEq, Repr

/-- The branches of `main`. -/
inductive Tier
  | parent | third | second | bottom
  deriving DecidableEq, Repr

namespace Tier

/-- The calls of a branch from the `fork` that leads to it. -/
def code : Tier → List Instr
  | parent => [.write 800, .fork, .fork, .wait, .wait, .read 800, .qsort 800, .fprintf 800]
  | third => [.read 400, .write 400, .fork, .fork, .wait, .wait, .read 400, .qsort 400, .write 400]
  | second => [.read 200, .write 200, .fork, .fork, .wait, .wait, .read 200, .qsort 200, .write 200]
  | bottom => [.read 100, .qsort 100, .write 100]

/-- The branch of the children. -/
def below : Tier → Tier
  | parent => third
  | third => second
  | second | bottom => bottom

end Tier

structure Process where
  tier : Tier
  num : List CInt
  code : List Instr

/-- A process with its two children, which it forks in order. -/
inductive Tree
  | unborn
  | reaped
  | proc (p : Process) (l r : Tree)

/-- What the processes have in common. -/
structure Env where
  pipe : List CInt
  /-- The contents of `out.dat`. -/
  out : Option (List CInt)

/-- The number of `int`s that fit into the pipe. -/
def capacity : ℕ := 4096 / 4

/-- The new process: a copy of `p` with `child_pid == 0`. -/
def Process.child (p : Process) : Tree :=
  .proc { p with tier := p.tier.below, code := p.tier.below.code } .unborn .unborn

/-- The process has returned from `main`. -/
def Tree.exited : Tree → Bool
  | .proc p _ _ => p.code.isEmpty
  | _ => false

/-- A call of the process `p`.  A call that has to wait for others is not possible; `right` says
which child `wait(NULL)` returns. -/
def Process.exec (p : Process) (l r : Tree) (e : Env) (right : Bool) : Option (Tree × Env) :=
  match p.code with
  | [] => none
  | .read n :: code =>
    if e.pipe = [] then none
    else
      let got := e.pipe.take n
      some (.proc { p with num := got ++ p.num.drop got.length, code := code } l r,
        { e with pipe := e.pipe.drop n })
  | .write n :: code =>
    if e.pipe.length + n ≤ capacity then
      some (.proc { p with code := code } l r, { e with pipe := e.pipe ++ p.num.take n })
    else none
  | .fork :: code =>
    match l, r with
    | .unborn, r => some (.proc { p with code := code } p.child r, e)
    | l, .unborn => some (.proc { p with code := code } l p.child, e)
    | _, _ => none
  | .wait :: code =>
    if right then
      if r.exited then some (.proc { p with code := code } l .reaped, e) else none
    else
      if l.exited then some (.proc { p with code := code } .reaped r, e) else none
  | .qsort n :: code =>
    some (.proc { p with num := Hw5.qsort n p.num, code := code } l r, e)
  | .fprintf n :: code =>
    some (.proc { p with code := code } l r, { e with out := some (p.num.take n) })

/-- A call of the process at the end of a path from the root; `true` leads to the second child. -/
def Tree.step (right : Bool) : Tree → List Bool → Env → Option (Tree × Env)
  | .proc p l r, [], e => p.exec l r e right
  | .proc p l r, false :: path, e => (l.step right path e).map fun x => (.proc p x.1 r, x.2)
  | .proc p l r, true :: path, e => (r.step right path e).map fun x => (.proc p l x.1, x.2)
  | _, _, _ => none

/-- The process at the end of a path. -/
def Tree.at : Tree → List Bool → Option Process
  | .proc p _ _, [] => some p
  | .proc _ l _, false :: path => l.at path
  | .proc _ _ r, true :: path => r.at path
  | _, _ => none

structure State where
  tree : Tree
  env : Env

/-- A process makes its next call. -/
structure Action where
  path : List Bool
  right : Bool

/-- `main` with the numbers it has read from the file. -/
def q2 (num : Vector CInt 800) : System Unit State Action where
  init σ := σ = ⟨.proc ⟨.parent, num.toList, Tier.parent.code⟩ .unborn .unborn, ⟨[], none⟩⟩
  step σ a :=
    match σ.tree.step a.right a.path σ.env with
    | some (t, e) => .ok ⟨t, e⟩
    | none => .error ()

end OsSemester.Hw5
