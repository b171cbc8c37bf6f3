import OsSemester.Lib.Transition

/-!
# The spool of `client.c` and `server.c`

Clients write messages to a ring of ten slots of 256 bytes, the server prints them.  Three
semaphores guard the ring: `mutex_sem`, `buffer_count_sem` for the free slots and
`server_signal_sem` for the messages to print.  The state is the one after the `SETVAL` calls of the
server.

Every statement that touches shared memory is a step of its own, and `sprintf` and `printf` take one
step for each byte.  What a client writes to its terminal is left out.
-/

namespace OsSemester.Hw5

abbrev Byte := UInt8

/-- `pid_t` -/
abbrev Pid := BitVec 32

/-- The C string in a character array: what comes before the first NUL. -/
def cString (s : List Byte) : List Byte := s.takeWhile (· ≠ 0)

/-- `fgets(buf, n, stdin)`: at most `n - 1` bytes, up to and with the first newline; the rest stays
in `stdin`.  `none` at the end of the file. -/
def fgets (n : ℕ) (stdin : List Byte) : Option (List Byte × List Byte) :=
  if stdin = [] then none
  else
    let cut := stdin.take (n - 1)
    let got := cut.takeWhile (· ≠ 10) ++ (cut.dropWhile (· ≠ 10)).take 1
    some (got, stdin.drop got.length)

/-- `if ('\n' == buf [strlen (buf) - 1]) {buf [strlen (buf) - 1] = '\0';}`.  For the empty string the
subscript is -1: the byte in front of `buf` is looked at, and the string stays empty. -/
def chomp (s : List Byte) : List Byte := if s.getLast? = some 10 then s.dropLast else s

/-- `%d` of a natural number. -/
def decimal (n : ℕ) : List Byte :=
  if n = 0 then [48] else (Nat.digits 10 n).reverse.map fun d => UInt8.ofNat (48 + d)

/-- `%d` -/
def formatInt (i : Pid) : List Byte :=
  if i.toInt < 0 then 45 :: decimal i.toInt.natAbs else decimal i.toInt.natAbs

/-- What `sprintf(…, "(%d): %s\n", getpid(), buf)` writes, without the final NUL. -/
def formatted (pid : Pid) (buf : List Byte) : List Byte :=
  [40] ++ formatInt pid ++ [41, 58, 32] ++ buf ++ [10]

/-- Where a client is in its loop, with its `buf`. -/
inductive ClientPc
  | fgets
  | bufferCount (buf : List Byte)
  | mutex (buf : List Byte)
  /-- In `sprintf`, before byte `j`. -/
  | sprintf (buf : List Byte) (j : ℕ)
  /-- Before `++(shared_mem_ptr -> buffer_index);`. -/
  | incr
  /-- Before the test for 10. -/
  | wrap
  | unlock
  | serverSignal
  | exit
  deriving DecidableEq

/-- Where the server is in its loop. -/
inductive ServerPc
  | serverSignal
  /-- In `printf`, before byte `j`. -/
  | printf (j : ℕ)
  | incr
  | wrap
  | bufferCount
  deriving DecidableEq

/-- `struct shared_memory` -/
structure SharedMemory where
  buf : Fin 10 → Fin 256 → Byte
  buffer_index : ℕ
  buffer_print_index : ℕ

/-- The shared memory, the semaphores and the processes.  The last three fields are bookkeeping: the
bytes the server has printed, the messages that clients have written, and how many of them the
server has printed. -/
structure Spool (C : Type) where
  mem : SharedMemory
  mutex : ℕ
  bufferCount : ℕ
  serverSignal : ℕ
  stdin : C → List Byte
  client : C → ClientPc
  server : ServerPc
  out : List Byte
  written : List (List Byte)
  printed : ℕ

/-- Why a step is not possible: a semaphore is zero, the client has left its loop, or a subscript is
out of bounds. -/
inductive Fault
  | blocked
  | outOfBounds
  deriving DecidableEq, Repr

namespace Spool

variable {C : Type} [DecidableEq C] (σ : Spool C)

def setClient (c : C) (p : ClientPc) : Spool C := { σ with client := Function.update σ.client c p }

def setByte (i : Fin 10) (j : Fin 256) (b : Byte) : Spool C :=
  let slot := Function.update (σ.mem.buf i) j b
  { σ with mem := { σ.mem with buf := Function.update σ.mem.buf i slot } }

/-- `shared_mem_ptr -> buf [i] [j] = b;` -/
def store (i j : ℕ) (b : Byte) : Except Fault (Spool C) :=
  if h : i < 10 ∧ j < 256 then .ok (σ.setByte ⟨i, h.1⟩ ⟨j, h.2⟩ b) else .error .outOfBounds

/-- `shared_mem_ptr -> buf [i] [j]` -/
def load (i j : ℕ) : Except Fault Byte :=
  if h : i < 10 ∧ j < 256 then .ok (σ.mem.buf ⟨i, h.1⟩ ⟨j, h.2⟩) else .error .outOfBounds

/-- A step of the client `c`. -/
def clientStep (pid : C → Pid) (c : C) : Except Fault (Spool C) :=
  match σ.client c with
  | .fgets =>
    match Hw5.fgets 198 (σ.stdin c) with
    | none => .ok (σ.setClient c .exit)
    | some (line, rest) =>
      .ok { σ.setClient c (.bufferCount (chomp (cString line))) with
        stdin := Function.update σ.stdin c rest }
  | .bufferCount buf =>
    if σ.bufferCount = 0 then .error .blocked
    else .ok { σ.setClient c (.mutex buf) with bufferCount := σ.bufferCount - 1 }
  | .mutex buf =>
    if σ.mutex = 0 then .error .blocked
    else .ok { σ.setClient c (.sprintf buf 0) with mutex := σ.mutex - 1 }
  | .sprintf buf j =>
    match (formatted (pid c) buf)[j]? with
    | some b => (σ.setClient c (.sprintf buf (j + 1))).store σ.mem.buffer_index j b
    | none =>
      -- the final NUL
      { σ.setClient c .incr with
        written := σ.written ++ [formatted (pid c) buf] }.store σ.mem.buffer_index j 0
  | .incr =>
    .ok { σ.setClient c .wrap with
      mem := { σ.mem with buffer_index := σ.mem.buffer_index + 1 } }
  | .wrap =>
    .ok { σ.setClient c .unlock with
      mem := { σ.mem with
        buffer_index := if σ.mem.buffer_index = 10 then 0 else σ.mem.buffer_index } }
  | .unlock => .ok { σ.setClient c .serverSignal with mutex := σ.mutex + 1 }
  | .serverSignal => .ok { σ.setClient c .fgets with serverSignal := σ.serverSignal + 1 }
  | .exit => .error .blocked

/-- A step of the server. -/
def serverStep : Except Fault (Spool C) :=
  match σ.server with
  | .serverSignal =>
    if σ.serverSignal = 0 then .error .blocked
    else .ok { σ with server := .printf 0, serverSignal := σ.serverSignal - 1 }
  | .printf j =>
    match σ.load σ.mem.buffer_print_index j with
    | .error e => .error e
    | .ok b =>
      if b = 0 then .ok { σ with server := .incr, printed := σ.printed + 1 }
      else .ok { σ with server := .printf (j + 1), out := σ.out ++ [b] }
  | .incr =>
    .ok { σ with
      server := .wrap
      mem := { σ.mem with buffer_print_index := σ.mem.buffer_print_index + 1 } }
  | .wrap =>
    .ok { σ with
      server := .bufferCount
      mem := { σ.mem with
        buffer_print_index :=
          if σ.mem.buffer_print_index = 10 then 0 else σ.mem.buffer_print_index } }
  | .bufferCount => .ok { σ with server := .serverSignal, bufferCount := σ.bufferCount + 1 }

end Spool

/-- Who makes a step. -/
inductive Actor (C : Type)
  | client (c : C)
  | server
  deriving DecidableEq

/-- The state after the initialisation by the server: the slots contain anything. -/
def spoolInit {C : Type} (buf : Fin 10 → Fin 256 → Byte) (stdin : C → List Byte) : Spool C where
  mem := ⟨buf, 0, 0⟩
  mutex := 1
  bufferCount := 10
  serverSignal := 0
  stdin := stdin
  client := fun _ => .fgets
  server := .serverSignal
  out := []
  written := []
  printed := 0

/-- The clients with the given process ids, and the server. -/
def spool {C : Type} [DecidableEq C] (pid : C → Pid) : System Fault (Spool C) (Actor C) where
  init σ := ∃ buf stdin, σ = spoolInit buf stdin
  step σ a :=
    match a with
    | .client c => σ.clientStep pid c
    | .server => σ.serverStep

end OsSemester.Hw5
