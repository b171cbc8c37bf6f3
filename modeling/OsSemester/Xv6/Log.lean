import OsSemester.Xv6.Proc

/-!
# The log in memory (`log.c`, `param.h`, `mkfs.c`)

`struct log` and the functions that a file system call runs on it under `log.lock`.  The array
`lh.block` up to `lh.n` is a list.  `log_write` tests for room before it acquires the lock, so it
consists of `logWriteCheck` and `logWrite`.
-/

namespace OsSemester.Xv6

/-- `param.h`: max # of blocks any FS op writes. -/
abbrev MAXOPBLOCKS : ℕ := 10

/-- `param.h`: max data blocks in on-disk log. -/
abbrev LOGSIZE : ℕ := MAXOPBLOCKS * 3

/-- `param.h`: size of file system in blocks. -/
abbrev FSSIZE : ℕ := 1000

/-- `fs.h`: block size. -/
abbrev BSIZE : ℕ := 512

/-- The number of a disk block. -/
abbrev Blockno := ℕ

/-- `struct superblock` -/
structure Superblock where
  size : ℕ
  nblocks : ℕ
  ninodes : ℕ
  nlog : ℕ
  logstart : ℕ
  inodestart : ℕ
  bmapstart : ℕ

/-- The superblock `mkfs` writes: boot block, superblock, log, inode blocks, free bit map and data
blocks. -/
def mkfsSuperblock : Superblock :=
  let ninodes := 200
  let nbitmap := FSSIZE / (BSIZE * 8) + 1
  -- `IPB`: the inodes in a block
  let ninodeblocks := ninodes / (BSIZE / 64) + 1
  let nlog := LOGSIZE
  let nmeta := 2 + nlog + ninodeblocks + nbitmap
  { size := FSSIZE
    nblocks := FSSIZE - nmeta
    ninodes := ninodes
    nlog := nlog
    logstart := 2
    inodestart := 2 + nlog
    bmapstart := 2 + nlog + ninodeblocks }

/-- `struct log` -/
structure Log where
  start : ℕ
  size : ℕ
  /-- How many FS sys calls are executing. -/
  outstanding : ℕ
  /-- In `commit()`, please wait. -/
  committing : Bool
  /-- `lh.block` up to `lh.n`. -/
  block : List Blockno
  deriving DecidableEq

/-- `initlog`, with the log cleared by `recover_from_log`. -/
def initlog (sb : Superblock) : Log where
  start := sb.logstart
  size := sb.nlog
  outstanding := 0
  committing := false
  block := []

namespace Log

variable (log : Log)

/-- `begin_op`.  It sleeps while a commit is going on or the log might not have room for another
operation. -/
def beginOp : Except Halt Log :=
  if log.committing then .error .disabled
  else if log.block.length + (log.outstanding + 1) * MAXOPBLOCKS > LOGSIZE then .error .disabled
  else .ok { log with outstanding := log.outstanding + 1 }

/-- The first critical section of `end_op`, with `do_commit`. -/
def endOp : Except Halt (Log × Bool) :=
  if log.committing then .error (.panic "log.committing")
  else if log.outstanding - 1 = 0 then
    .ok ({ log with outstanding := log.outstanding - 1, committing := true }, true)
  else .ok ({ log with outstanding := log.outstanding - 1 }, false)

/-- The second critical section of `end_op`, after `commit()`. -/
def endCommit : Log := { log with committing := false }

/-- `log.lh.n = 0;` -/
def clear : Log := { log with block := [] }

/-- The tests of `log_write` before it acquires `log.lock`. -/
def logWriteCheck : Except Halt Unit :=
  if log.block.length ≥ LOGSIZE ∨ log.block.length ≥ log.size - 1 then
    .error (.panic "too big a transaction")
  else if log.outstanding < 1 then .error (.panic "log_write outside of trans")
  else .ok ()

/-- The critical section of `log_write`: the loop stops at the first entry that is `b`, or behind
the last one. -/
def logWrite (b : Blockno) : Log :=
  let i := log.block.idxOf b
  { log with block := if i = log.block.length then log.block ++ [b] else log.block.set i b }

end Log

end OsSemester.Xv6
