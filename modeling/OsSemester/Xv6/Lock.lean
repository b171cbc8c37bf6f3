import OsSemester.Xv6.Proc

/-!
# Sleep locks (`sleeplock.c`)

A lock with the functions on it, and the tests that functions of `bio.c`, `ide.c` and `fs.c` make
with `holdingsleep` before they use what a lock protects.
-/

namespace OsSemester.Xv6

/-- `struct sleeplock`, without the spin lock that makes its functions atomic. -/
structure Sleeplock where
  locked : Bool
  pid : ℤ
  deriving DecidableEq

namespace Sleeplock

/-- `initsleeplock` -/
def init : Sleeplock := ⟨false, 0⟩

/-- `acquiresleep` by a process with this `pid`; it has to sleep while the lock is taken. -/
def acquiresleep (lk : Sleeplock) (pid : ℤ) : Option Sleeplock :=
  if lk.locked then none else some ⟨true, pid⟩

/-- `releasesleep` -/
def releasesleep : Sleeplock := ⟨false, 0⟩

/-- `holdingsleep` -/
def holdingsleep (lk : Sleeplock) (pid : ℤ) : Bool := lk.locked && lk.pid == pid

/-- The test before an operation on what the lock protects. -/
def guard (lk : Sleeplock) (pid : ℤ) (msg : String) : Except Halt Unit :=
  if !lk.holdingsleep pid then .error (.panic msg) else .ok ()

end Sleeplock

/-- The test of `brelse`. -/
def brelseTest (lk : Sleeplock) (pid : ℤ) : Except Halt Unit := lk.guard pid "brelse"

/-- The test of `bwrite`. -/
def bwriteTest (lk : Sleeplock) (pid : ℤ) : Except Halt Unit := lk.guard pid "bwrite"

/-- The first test of `iderw`. -/
def iderwTest (lk : Sleeplock) (pid : ℤ) : Except Halt Unit :=
  lk.guard pid "iderw: buf not locked"

/-- The test of `iunlock` for an inode with `ref` references. -/
def iunlockTest (lk : Sleeplock) (ref : ℤ) (pid : ℤ) : Except Halt Unit :=
  if !lk.holdingsleep pid || decide (ref < 1) then .error (.panic "iunlock") else .ok ()

end OsSemester.Xv6
