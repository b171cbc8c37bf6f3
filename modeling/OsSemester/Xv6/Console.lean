import OsSemester.Lib.RingBuffer
import OsSemester.Lib.Tagged
import OsSemester.Lib.Transition

/-!
# The console's input (`console.c`)

`consoleintr` and `consoleread` as any number of interrupt handlers and processes call them.  They
share the ring buffer `input` under `cons.lock`.  A step is one turn of a loop, that is, one
character; the echo on the screen and the process listing of control-P are left out.

What the calls do to the buffer is a `Terminal`, so that the same calls can also be made on a
reference line editor.
-/

namespace OsSemester.Xv6

/-- What `consoleintr` and `consoleread` need of the input. -/
structure Terminal (D : Type) where
  /-- A character is typed; the result says whether the readers are woken up. -/
  char : D → UInt8 → D × Bool
  /-- There is nothing to read. -/
  empty : D → Bool
  /-- The next character, and the input without it. -/
  take : D → UInt8 × D
  /-- The character that was read last is saved for the next time. -/
  untake : D → UInt8 → D

/-! ### The buffer `input` -/

/-- `INPUT_BUF` -/
def INPUT_BUF : ℕ := 128

/-- `input` -/
structure Input where
  buf : ℕ → UInt8
  r : BitVec 32
  w : BitVec 32
  e : BitVec 32

/-- `C(x)` -/
def ctrl (x : Char) : UInt8 := UInt8.ofNat (x.toNat - '@'.toNat)

/-- `'\n'` -/
def newline : UInt8 := 10

namespace Input

theorem sub_one_lt {e w : BitVec 32} (h : e ≠ w) : (e - 1 - w).toNat < (e - w).toNat := by
  have hne : e.toNat ≠ w.toNat := fun he => h (BitVec.eq_of_toNat_eq he)
  have he := e.isLt
  have hw := w.isLt
  have hone : (1 : BitVec 32).toNat = 1 := rfl
  rw [BitVec.toNat_sub, BitVec.toNat_sub, BitVec.toNat_sub, hone]
  omega

/-- The loop of control-U: `input.e` goes back to the start of the line. -/
def killLine (buf : ℕ → UInt8) (w e : BitVec 32) : BitVec 32 :=
  if h : e ≠ w ∧ buf ((e - 1).toNat % INPUT_BUF) ≠ newline then killLine buf w (e - 1) else e
termination_by (e - w).toNat
decreasing_by exact sub_one_lt h.1

/-- The `switch` of `consoleintr`. -/
def char (i : Input) (c : UInt8) : Input × Bool :=
  if c = ctrl 'P' then (i, false)
  else if c = ctrl 'U' then ({ i with e := killLine i.buf i.w i.e }, false)
  else if c = ctrl 'H' ∨ c = 0x7f then (if i.e ≠ i.w then { i with e := i.e - 1 } else i, false)
  else if c ≠ 0 ∧ i.e - i.r < BitVec.ofNat 32 INPUT_BUF then
    let c := if c = 13 then newline else c
    let i := { i with buf := Function.update i.buf (i.e.toNat % INPUT_BUF) c, e := i.e + 1 }
    if c = newline ∨ c = ctrl 'D' ∨ i.e = i.r + BitVec.ofNat 32 INPUT_BUF then
      ({ i with w := i.e }, true)
    else (i, false)
  else (i, false)

end Input

/-- The console works on the buffer `input`. -/
def inputTerminal : Terminal Input where
  char := Input.char
  empty i := i.r = i.w
  take i := (i.buf (i.r.toNat % INPUT_BUF), { i with r := i.r + 1 })
  untake i _ := { i with r := i.r - 1 }

/-! ### The calls -/

/-- The arguments of a call, and how far it has got: the characters that `getc` still returns, or
the bytes read so far. -/
inductive ConsoleOp
  | intr (cs : List UInt8)
  | read (target : ℕ) (dst : List UInt8)
  deriving DecidableEq

inductive ConsolePc
  /-- In `acquire`, first or at the end of `sleep`. -/
  | acquire
  /-- It holds the lock, before a turn of the loop. -/
  | loop
  /-- In `sleep`. -/
  | asleep
  deriving DecidableEq

structure ConsoleCall where
  id : ℕ
  op : ConsoleOp
  pc : ConsolePc

/-- `consoleread` has returned. -/
structure ConsoleRead where
  id : ℕ
  target : ℕ
  result : ℤ
  bytes : List UInt8
  deriving DecidableEq

/-- The input `dev`, and the processes and interrupt handlers `P`. -/
structure ConsoleState (D P : Type) where
  dev : D
  lock : Option P
  call : P → Option ConsoleCall
  killed : P → Bool
  /-- How many calls there have been. -/
  calls : ℕ
  /-- What has been taken out of the input, with the call that has taken it. -/
  taken : List (ℕ × UInt8)
  log : List ConsoleRead

namespace ConsoleState

variable {D P : Type} [DecidableEq P] (T : Terminal D) (s : ConsoleState D P)

/-- `wakeup(&input.r)` -/
def wakeup : ConsoleState D P :=
  { s with call := fun p => (s.call p).map fun c =>
      if c.pc = .asleep then { c with pc := .acquire } else c }

def setCall (p : P) (c : ConsoleCall) : ConsoleState D P :=
  { s with call := Function.update s.call p (some c) }

/-- `sleep(&input.r, &cons.lock)` -/
def sleep (p : P) (c : ConsoleCall) : ConsoleState D P :=
  { s.setCall p { c with pc := .asleep } with lock := none }

/-- `release` and the end of the call. -/
def leave (p : P) (log : List ConsoleRead) : ConsoleState D P :=
  { s with lock := none, call := Function.update s.call p none, log := s.log ++ log }

/-- A turn of the loop of `consoleintr`. -/
def consoleintr (p : P) (c : ConsoleCall) : List UInt8 → ConsoleState D P
  | [] => s.leave p []
  | b :: cs =>
    let x := T.char s.dev b
    let s := { s.setCall p { c with op := .intr cs } with dev := x.1 }
    if x.2 then s.wakeup else s

/-- A turn of the loop of `consoleread`. -/
def consoleread (p : P) (c : ConsoleCall) (target : ℕ) (dst : List UInt8) : ConsoleState D P :=
  if dst.length < target then
    if T.empty s.dev then
      if s.killed p then s.leave p [⟨c.id, target, -1, dst⟩] else s.sleep p c
    else
      let x := T.take s.dev
      if x.1 = ctrl 'D' then
        if dst.length = 0 then
          { s with dev := x.2, taken := s.taken ++ [(c.id, x.1)] }.leave p [⟨c.id, target, 0, []⟩]
        else
          -- saved for the next time, so that the caller gets a 0-byte result
          { s with dev := T.untake x.2 x.1 }.leave p [⟨c.id, target, dst.length, dst⟩]
      else
        let dst := dst ++ [x.1]
        let s := { s with dev := x.2, taken := s.taken ++ [(c.id, x.1)] }
        if x.1 = newline then s.leave p [⟨c.id, target, dst.length, dst⟩]
        else s.setCall p { c with op := .read target dst }
  else s.leave p [⟨c.id, target, dst.length, dst⟩]

/-- The next step of a call, if there is one. -/
def turn (p : P) (c : ConsoleCall) : Option (ConsoleState D P) :=
  match c.pc, c.op with
  | .acquire, _ =>
    if s.lock = none then some { s.setCall p { c with pc := .loop } with lock := some p } else none
  | .asleep, _ => none
  | .loop, .intr cs => some (s.consoleintr T p c cs)
  | .loop, .read target dst => some (s.consoleread T p c target dst)

/-- A call begins. -/
def start (p : P) (op : ConsoleOp) : Option (ConsoleState D P) :=
  if s.call p = none then
    some { s.setCall p ⟨s.calls, op, .acquire⟩ with calls := s.calls + 1 }
  else none

/-- `kill`: a sleeping process wakes up. -/
def kill (p : P) : ConsoleState D P :=
  { s with
    killed := Function.update s.killed p true
    call := Function.update s.call p ((s.call p).map fun c =>
      if c.pc = .asleep then { c with pc := .acquire } else c) }

/-- What a call has taken out of the input. -/
def takenBy (id : ℕ) : List UInt8 := byTag s.taken id

end ConsoleState

/-- What can happen at the console. -/
inductive ConsoleAction (P : Type)
  | intr (p : P) (cs : List UInt8)
  | read (p : P) (n : ℕ)
  | turn (p : P)
  | kill (p : P)

variable {D P : Type} [DecidableEq P]

def ConsoleState.act (T : Terminal D) (s : ConsoleState D P) :
    ConsoleAction P → Option (ConsoleState D P)
  | .intr p cs => s.start p (.intr cs)
  | .read p n => s.start p (.read n [])
  | .turn p => (s.call p).bind (s.turn T p)
  | .kill p => some (s.kill p)

/-- Nobody has called anything yet. -/
def ConsoleState.fresh {D : Type} (P : Type) (dev : D) : ConsoleState D P where
  dev := dev
  lock := none
  call _ := none
  killed _ := false
  calls := 0
  taken := []
  log := []

/-- The calls on a terminal that starts as `dev`. -/
def console (T : Terminal D) (dev : D) (P : Type) [DecidableEq P] :
    System Unit (ConsoleState D P) (ConsoleAction P) where
  init s := s = .fresh P dev
  step s a := (s.act T a).elim (.error ()) .ok

/-- `input` after booting. -/
def Input.boot : Input := ⟨fun _ => 0, 0, 0, 0⟩

/-- Nobody is killed. -/
def NoKill {D : Type} (_ : ConsoleState D P) (a : ConsoleAction P) : Prop := ∀ p, a ≠ .kill p

end OsSemester.Xv6
