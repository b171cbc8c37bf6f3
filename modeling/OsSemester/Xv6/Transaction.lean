import OsSemester.Xv6.Bio
import OsSemester.Xv6.Block

/-!
# Transactions (`log.c`)

The processes that run file system operations, the process that commits and, after a crash, the one
that recovers the log.  Every call of `bread`, `bwrite` and `brelse` is made on the cache of `Bio`,
step by step, while other processes run.  A crash may come at any time; it leaves the disk.
-/

namespace OsSemester.Xv6

/-- Where a process is in the body of the loop of `write_log` or of `install_trans`.  `l` is the
buffer of a log block and `h` that of its home. -/
inductive CopyPc
  /-- Before or in the `bread` of the log block. -/
  | lbuf
  /-- Before or in the `bread` of the home block. -/
  | hbuf (l : BufId)
  /-- Before `memmove`. -/
  | move (l h : BufId)
  /-- Before `bwrite`. -/
  | write (l h : BufId)
  /-- In `bwrite`. -/
  | sync (l h : BufId)
  /-- Before the first `brelse`. -/
  | rel1 (l h : BufId)
  /-- Before the second `brelse`, of this buffer. -/
  | rel2 (b : BufId)
  deriving DecidableEq

/-- Where a process is in `write_head` or `read_head`. -/
inductive HeadPc
  /-- Before or in `bread`. -/
  | buf
  /-- Before the header is copied. -/
  | fill (b : BufId)
  /-- Before `bwrite`. -/
  | write (b : BufId)
  /-- In `bwrite`. -/
  | sync (b : BufId)
  /-- Before `brelse`. -/
  | rel (b : BufId)
  deriving DecidableEq

/-- Where a process is in `log.c`.  `boot` tells the calls made by `recover_from_log` from those made
by `commit`. -/
inductive LogPc
  /-- Outside of `log.c`; `op` says whether between `begin_op` and `end_op`. -/
  | user (op : Bool)
  /-- In `log_write`, before `acquire(&log.lock)`. -/
  | logWrite (b : BufId)
  | writeLog (tail : ℕ) (c : CopyPc)
  | writeHead (h : HeadPc)
  | readHead (h : HeadPc)
  | installTrans (boot : Bool) (tail : ℕ) (c : CopyPc)
  /-- In the `write_head` that clears the log. -/
  | clearHead (boot : Bool) (h : HeadPc)
  /-- At the end of `commit` or of `recover_from_log`. -/
  | finish (boot : Bool)
  deriving DecidableEq

namespace CopyPc

/-- `bread` has returned a buffer. -/
def got (b : BufId) : CopyPc → CopyPc
  | lbuf => hbuf b
  | hbuf l => move l b
  | c => c

/-- `bwrite` has returned. -/
def written : CopyPc → CopyPc
  | sync l h => rel1 l h
  | c => c

end CopyPc

namespace HeadPc

def got (b : BufId) : HeadPc → HeadPc
  | buf => fill b
  | h => h

def written : HeadPc → HeadPc
  | sync b => rel b
  | h => h

end HeadPc

namespace LogPc

/-- The loops and the header go on, in the same function. -/
def map (f : CopyPc → CopyPc) (g : HeadPc → HeadPc) : LogPc → LogPc
  | writeLog tail c => writeLog tail (f c)
  | writeHead h => writeHead (g h)
  | readHead h => readHead (g h)
  | installTrans boot tail c => installTrans boot tail (f c)
  | clearHead boot h => clearHead boot (g h)
  | pc => pc

/-- The call that the process was making in `bio.c` has gone on. -/
def resume (pc : LogPc) (before after : BioPc) : LogPc :=
  match before, after with
  | .bread b _, .idle | .iderwRead b _, .idle => pc.map (.got b) (.got b)
  | .iderwWrite _, .idle => pc.map .written .written
  | _, _ => pc

end LogPc

/-- The file system's disk, cache and log, and the processes `P`.  `booting` says that the log is
being recovered.  Two fields are bookkeeping: `before` is the content of the blocks after the last
group of operations that was committed, and `after` is their content with the group that is being
committed. -/
structure Fs (P : Type) where
  bio : Bio P Block
  log : Log
  pc : P → LogPc
  booting : Bool
  before : Blockno → Block
  after : Blockno → Block

/-- A step of a process. -/
inductive FsAct
  /-- A step in `bio.c`, or a call of a function there. -/
  | bio (e : BioAct Block)
  | beginOp
  /-- `log_write` is called and makes its tests. -/
  | check (b : BufId)
  | logWrite
  | endOp
  /-- The next statement of `commit` or `recover_from_log`. -/
  | next
  /-- The machine stops; the process is the first one after the reboot. -/
  | crash

namespace Fs

variable {P : Type} [DecidableEq P] (σ : Fs P) (env : BioEnv P) (p : P)

def setPc (pc : LogPc) : Fs P := { σ with pc := Function.update σ.pc p pc }

/-- A step in `bio.c`, which leads to `pc`. -/
def bioStep (e : BioAct Block) (pc : Bio P Block → LogPc) : Except Halt (Fs P) :=
  match σ.bio.step env p e with
  | .error e => .error e
  | .ok bio => .ok ({ σ with bio := bio }.setPc p (pc bio))

/-- A call of a function of `bio.c`. -/
def call (e : BioAct Block) (pc : LogPc) : Except Halt (Fs P) := σ.bioStep env p e fun _ => pc

/-- The body of the loop of `write_log`, which copies to the log (`toLog`), or of `install_trans`,
which copies from it.  `pc` is the place in the loop, and `done` what comes after it. -/
def copyLoop (toLog : Bool) (pc : ℕ → CopyPc → LogPc) (done : Fs P) (tail : ℕ) :
    CopyPc → Except Halt (Fs P)
  | .lbuf =>
    if tail < σ.log.block.length then
      σ.call env p (.bread (σ.log.start + tail + 1)) (pc tail .lbuf)
    else .ok done
  | .hbuf l =>
    match σ.log.block[tail]? with
    | none => .error .disabled
    | some n => σ.call env p (.bread n) (pc tail (.hbuf l))
  | .move l h =>
    if toLog then σ.call env p (.modify l (σ.bio.buf h).data) (pc tail (.write l h))
    else σ.call env p (.modify h (σ.bio.buf l).data) (pc tail (.write l h))
  | .write l h => σ.call env p (.bwrite (if toLog then l else h)) (pc tail (.sync l h))
  | .sync _ _ => .error .disabled
  | .rel1 l h =>
    if toLog then σ.call env p (.brelse h) (pc tail (.rel2 l))
    else σ.call env p (.brelse l) (pc tail (.rel2 h))
  | .rel2 b => σ.call env p (.brelse b) (pc (tail + 1) .lbuf)

/-- `write_log` -/
def writeLog (tail : ℕ) (c : CopyPc) : Except Halt (Fs P) :=
  σ.copyLoop env p true .writeLog (σ.setPc p (.writeHead .buf)) tail c

/-- `install_trans`, and `log.lh.n = 0;` after it. -/
def installTrans (boot : Bool) (tail : ℕ) (c : CopyPc) : Except Halt (Fs P) :=
  σ.copyLoop env p false (.installTrans boot)
    ({ σ with log := σ.log.clear }.setPc p (.clearHead boot .buf)) tail c

/-- `write_head`; `pc` is the place in it and `done` the place after it. -/
def writeHead (pc : HeadPc → LogPc) (done : LogPc) : HeadPc → Except Halt (Fs P)
  | .buf => σ.call env p (.bread σ.log.start) (pc .buf)
  | .fill b => σ.call env p (.modify b ((σ.bio.buf b).data.setHeader σ.log.block)) (pc (.write b))
  | .write b => σ.call env p (.bwrite b) (pc (.sync b))
  | .sync _ => .error .disabled
  | .rel b => σ.call env p (.brelse b) done

/-- `read_head` -/
def readHead : HeadPc → Except Halt (Fs P)
  | .buf => σ.call env p (.bread σ.log.start) (.readHead .buf)
  | .fill b =>
    .ok ({ σ with log := { σ.log with block := (σ.bio.buf b).data.header } }.setPc p
      (.readHead (.rel b)))
  | .rel b => σ.call env p (.brelse b) (.installTrans true 0 .lbuf)
  | _ => .error .disabled

/-- The end of `end_op` after `commit`, or of `initlog` after `recover_from_log`. -/
def finish (boot : Bool) : Fs P :=
  if boot then
    { σ with booting := false, before := σ.bio.disk, after := σ.bio.disk }.setPc p (.user false)
  else { σ with log := σ.log.endCommit, before := σ.after }.setPc p (.user false)

/-- The next statement of `commit` or of `recover_from_log`. -/
def next : LogPc → Except Halt (Fs P)
  | .writeLog tail c => σ.writeLog env p tail c
  | .writeHead h => σ.writeHead env p .writeHead (.installTrans false 0 .lbuf) h
  | .readHead h => σ.readHead env p h
  | .installTrans boot tail c => σ.installTrans env p boot tail c
  | .clearHead boot h => σ.writeHead env p (.clearHead boot) (.finish boot) h
  | .finish boot => .ok (σ.finish p boot)
  | _ => .error .disabled

/-- After the reboot `p` calls `initlog`. -/
def crash : Fs P where
  bio := Bio.boot σ.bio.disk
  log := initlog mkfsSuperblock
  pc := Function.update (fun _ => .user false) p (.readHead .buf)
  booting := true
  before := σ.before
  after := σ.after

/-- A step of the process `p`.  Until the log has been recovered there is no other process. -/
def step (a : FsAct) : Except Halt (Fs P) :=
  match σ.pc p, a with
  | _, .crash => .ok (σ.crash p)
  | .user op, .bio e =>
    if σ.booting then .error .disabled
    else
      match e with
      -- only the functions of `log.c` call these
      | .bwrite _ | .logWrite _ => .error .disabled
      | e => σ.call env p e (.user op)
  | .user false, .beginOp =>
    if σ.booting then .error .disabled
    else if (σ.bio.user p).pc = .idle then
      match σ.log.beginOp with
      | .error e => .error e
      | .ok log => .ok ({ σ with log := log }.setPc p (.user true))
    else .error .disabled
  | .user _, .check b =>
    if σ.booting then .error .disabled
    else if (σ.bio.user p).pc = .idle ∧ b ∈ (σ.bio.user p).owns then
      match σ.log.logWriteCheck with
      | .error e => .error e
      | .ok _ => .ok (σ.setPc p (.logWrite b))
    else .error .disabled
  | .logWrite b, .logWrite =>
    { σ with log := σ.log.logWrite (σ.bio.buf b).blockno }.call env p (.logWrite b) (.user true)
  | .user true, .endOp =>
    if σ.booting then .error .disabled
    else if (σ.bio.user p).pc = .idle then
      match σ.log.endOp with
      | .error e => .error e
      | .ok (log, false) => .ok ({ σ with log := log }.setPc p (.user false))
      | .ok (log, true) =>
        .ok ({ σ with log := log, after := σ.bio.content }.setPc p
          (if log.block.length > 0 then .writeLog 0 .lbuf else .finish false))
    else .error .disabled
  | .user _, _ | .logWrite _, _ => .error .disabled
  | pc, .bio e =>
    if (σ.bio.user p).pc = .idle then .error .disabled
    else σ.bioStep env p e fun bio => pc.resume (σ.bio.user p).pc (bio.user p).pc
  | pc, .next =>
    if (σ.bio.user p).pc = .idle then σ.next env p pc else .error .disabled
  | _, _ => .error .disabled

end Fs

/-- A block of the file system outside the log. -/
def Home (n : Blockno) : Prop :=
  n < FSSIZE ∧
    (n < mkfsSuperblock.logstart ∨ mkfsSuperblock.logstart + mkfsSuperblock.nlog ≤ n)

instance : DecidablePred Home := fun _ => inferInstanceAs (Decidable (_ ∧ _))

/-- Booting from a disk whose log is empty, with any number of processes after the first one. -/
def fsSystem (P : Type) [DecidableEq P] (env : BioEnv P) : System Halt (Fs P) (P × FsAct) where
  init σ := ∃ (disk : Blockno → Block) (p : P),
    (disk mkfsSuperblock.logstart).header = [] ∧
    σ = Fs.crash ⟨Bio.boot disk, initlog mkfsSuperblock, fun _ => .user false, true, disk, disk⟩ p
  step σ a := σ.step env a.1 a.2

/-- **The transaction discipline.** Blocks are modified and logged inside of operations, and are not
blocks of the log; a modified buffer is logged before it is released and before the operation ends. -/
def Disciplined {P : Type} (σ : Fs P) : P × FsAct → Prop
  | (p, .bio (.modify b _)) => σ.pc p = .user true ∧ Home (σ.bio.buf b).blockno
  | (_, .bio (.brelse b)) => b ∉ σ.bio.pending
  | (p, .check _) => σ.pc p = .user true
  | (p, .logWrite) =>
    match σ.pc p with
    | .logWrite b => Home (σ.bio.buf b).blockno
    | _ => True
  | (p, .endOp) => ∀ b ∈ (σ.bio.user p).owns, b ∉ σ.bio.pending
  | _ => True

instance {P : Type} (σ : Fs P) (a : P × FsAct) : Decidable (Disciplined σ a) := by
  unfold Disciplined
  split
  case h_4 => split <;> infer_instance
  all_goals infer_instance

end OsSemester.Xv6
