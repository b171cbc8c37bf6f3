import OsSemester.Lib.RingBuffer
import OsSemester.Lib.Tagged
import OsSemester.Lib.Transition

/-!
# Reading and writing a pipe (`pipe.c`)

`piperead` and `pipewrite` as any number of processes call them on one pipe, and `pipeclose`.  A step
is one turn of a loop, from one look at the lock or at a condition to the next, so the calls
interleave as far as `p->lock` lets them.  `sleep` gives up the lock and `wakeup` makes the sleepers
of a channel look for it again.

The state keeps two histories: every byte stored with the call that stored it, and what the calls
have returned.
-/

namespace OsSemester.Xv6

/-- `PIPESIZE` -/
def PIPESIZE : ℕ := 512

/-- `struct pipe` without its lock. -/
structure PipeBuf where
  data : ℕ → UInt8
  nread : BitVec 32
  nwrite : BitVec 32
  readopen : Bool
  writeopen : Bool

/-- The arguments of a call, and how far it has got: `i` bytes of `addr` have been stored, or the
bytes `addr` have been read. -/
inductive Transfer
  | write (addr : List UInt8) (i : ℕ)
  | read (n : ℕ) (addr : List UInt8)
  deriving DecidableEq

/-- Where a call is. -/
inductive TransferPc
  /-- In `acquire`, first or at the end of `sleep`. -/
  | acquire
  /-- It holds the lock, before a turn of the `while` loop. -/
  | loop
  /-- In `sleep`. -/
  | asleep
  /-- It holds the lock, before a turn of the last loop of `piperead`. -/
  | copy
  deriving DecidableEq

structure PipeCall where
  id : ℕ
  transfer : Transfer
  pc : TransferPc

/-- The ends of the pipe. -/
inductive PipeEnd
  | readEnd | writeEnd
  deriving DecidableEq

/-- The end that a call uses. -/
def Transfer.pipeEnd : Transfer → PipeEnd
  | write _ _ => .writeEnd
  | read _ _ => .readEnd

/-- A call has returned. -/
inductive Returned
  | write (id : ℕ) (addr : List UInt8) (result : ℤ)
  | read (id : ℕ) (n : ℕ) (result : ℤ) (addr : List UInt8)
  deriving DecidableEq

/-- The bytes that it has returned. -/
def Returned.bytes : Returned → List UInt8
  | .write _ _ _ => []
  | .read _ _ _ addr => addr

/-- One pipe, and the processes `P`. -/
structure PipeState (P : Type) where
  pipe : PipeBuf
  lock : Option P
  call : P → Option PipeCall
  killed : P → Bool
  /-- `pipeclose` has given the page back. -/
  freed : Bool
  /-- How many calls there have been. -/
  calls : ℕ
  stored : List (ℕ × UInt8)
  log : List Returned

namespace PipeState

variable {P : Type} [DecidableEq P] (s : PipeState P)

def isOpen : PipeEnd → Bool
  | .readEnd => s.pipe.readopen
  | .writeEnd => s.pipe.writeopen

/-- `wakeup(&p->nread)` for the sleepers that read and `wakeup(&p->nwrite)` for those that write. -/
def wakeup (e : PipeEnd) : PipeState P :=
  { s with call := fun p => (s.call p).map fun c =>
      if c.pc = .asleep ∧ c.transfer.pipeEnd = e then { c with pc := .acquire } else c }

/-- The process goes on with its call. -/
def setCall (p : P) (c : PipeCall) : PipeState P :=
  { s with call := Function.update s.call p (some c) }

/-- `release` and `return`. -/
def leave (p : P) (r : Returned) : PipeState P :=
  { s with lock := none, call := Function.update s.call p none, log := s.log ++ [r] }

/-- `sleep(.., &p->lock)` -/
def sleep (p : P) (c : PipeCall) : PipeState P :=
  { s.setCall p { c with pc := .asleep } with lock := none }

/-- A turn of the loops of `pipewrite`. -/
def pipewrite (p : P) (c : PipeCall) (addr : List UInt8) (i : ℕ) : PipeState P :=
  match addr[i]? with
  | some b =>
    if s.pipe.nwrite = s.pipe.nread + BitVec.ofNat 32 PIPESIZE then
      if s.pipe.readopen = false ∨ s.killed p then s.leave p (.write c.id addr (-1))
      else (s.wakeup .readEnd).sleep p c
    else
      { s.setCall p { c with transfer := .write addr (i + 1) } with
        pipe := { s.pipe with
          data := Function.update s.pipe.data (s.pipe.nwrite.toNat % PIPESIZE) b
          nwrite := s.pipe.nwrite + 1 }
        stored := s.stored ++ [(c.id, b)] }
  | none => (s.wakeup .readEnd).leave p (.write c.id addr addr.length)

/-- A turn of the `while` loop of `piperead`. -/
def pipereadWait (p : P) (c : PipeCall) (n : ℕ) (addr : List UInt8) : PipeState P :=
  if s.pipe.nread = s.pipe.nwrite ∧ s.pipe.writeopen then
    if s.killed p then s.leave p (.read c.id n (-1) addr)
    else s.sleep p c
  else s.setCall p { c with pc := .copy }

/-- A turn of the `for` loop of `piperead`. -/
def pipereadCopy (p : P) (c : PipeCall) (n : ℕ) (addr : List UInt8) : PipeState P :=
  if addr.length < n ∧ s.pipe.nread ≠ s.pipe.nwrite then
    let b := s.pipe.data (s.pipe.nread.toNat % PIPESIZE)
    { s.setCall p { c with transfer := .read n (addr ++ [b]) } with
      pipe := { s.pipe with nread := s.pipe.nread + 1 } }
  else (s.wakeup .writeEnd).leave p (.read c.id n addr.length addr)

/-- The next step of a call, if there is one. -/
def turn (p : P) (c : PipeCall) : Option (PipeState P) :=
  match c.pc, c.transfer with
  | .acquire, _ =>
    if s.lock = none then some { s.setCall p { c with pc := .loop } with lock := some p } else none
  | .asleep, _ => none
  | .loop, .write addr i => some (s.pipewrite p c addr i)
  | .loop, .read n addr => some (s.pipereadWait p c n addr)
  | .copy, .read n addr => some (s.pipereadCopy p c n addr)
  | .copy, .write _ _ => none

/-- The process calls `pipewrite` or `piperead`: it has the end open. -/
def start (p : P) (t : Transfer) : Option (PipeState P) :=
  if s.call p = none ∧ s.isOpen t.pipeEnd then
    some { s.setCall p ⟨s.calls, t, .acquire⟩ with calls := s.calls + 1 }
  else none

/-- `pipeclose`, between `acquire` and the end. -/
def pipeclose (e : PipeEnd) : Option (PipeState P) :=
  if s.lock = none ∧ s.isOpen e then
    match e with
    | .writeEnd =>
      some { s.wakeup .readEnd with
        pipe := { s.pipe with writeopen := false }
        freed := !s.pipe.readopen }
    | .readEnd =>
      some { s.wakeup .writeEnd with
        pipe := { s.pipe with readopen := false }
        freed := !s.pipe.writeopen }
  else none

/-- `kill`: a sleeping process wakes up. -/
def kill (p : P) : PipeState P :=
  { s with
    killed := Function.update s.killed p true
    call := Function.update s.call p ((s.call p).map fun c =>
      if c.pc = .asleep then { c with pc := .acquire } else c) }

/-- The bytes that have been returned by reads. -/
def delivered : List UInt8 := s.log.flatMap Returned.bytes

/-- The bytes that a call has stored. -/
def storedBy (id : ℕ) : List UInt8 := byTag s.stored id

end PipeState

/-- What can happen to a pipe. -/
inductive PipeAction (P : Type)
  | write (p : P) (addr : List UInt8)
  | read (p : P) (n : ℕ)
  | turn (p : P)
  | kill (p : P)
  | close (e : PipeEnd)

/-- A pipe as `pipealloc` sets it up, in a page with any contents. -/
def newPipe {P : Type} (data : ℕ → UInt8) (killed : P → Bool) : PipeState P where
  pipe := ⟨data, 0, 0, true, true⟩
  lock := none
  call _ := none
  killed := killed
  freed := false
  calls := 0
  stored := []
  log := []

variable {P : Type} [DecidableEq P]

/-- What happens, if it can. -/
def PipeState.act (s : PipeState P) : PipeAction P → Option (PipeState P)
  | .write p addr => s.start p (.write addr 0)
  | .read p n => s.start p (.read n [])
  | .turn p => (s.call p).bind (s.turn p)
  | .kill p => some (s.kill p)
  | .close e => s.pipeclose e

/-- The pipe and the processes that call its functions. -/
def pipeCalls (P : Type) [DecidableEq P] : System Unit (PipeState P) (PipeAction P) where
  init s := ∃ data killed, s = newPipe data killed
  step s a := (s.act a).elim (.error ()) .ok

/-- An end is closed only when no call on it is in progress. -/
def ClosedWhenIdle (s : PipeState P) (a : PipeAction P) : Prop :=
  ∀ e, a = .close e → ∀ p c, s.call p = some c → c.transfer.pipeEnd ≠ e

end OsSemester.Xv6
