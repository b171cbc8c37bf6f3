import OsSemester.Lib.DoublyLinked
import OsSemester.Xv6.Lock
import OsSemester.Xv6.Log
import OsSemester.Lib.Transition

/-!
# The buffer cache (`bio.c`, `ide.c`)

`struct buf`, the list of buffers and the functions on them.  The disk is a map from block numbers to
contents `D`.  A call of `bread`, `bwrite` or `brelse` consists of the steps between which other
processes may run: the critical sections under `bcache.lock`, the acquisition of the buffer's lock,
the test of `B_VALID`, and in `iderw` the end of the request and the return of the process that
waited for it.  Requests to the disk end in any order.
-/

namespace OsSemester.Xv6

/-- `param.h`: size of disk block cache. -/
abbrev NBUF : ℕ := MAXOPBLOCKS * 3

/-- A buffer of `bcache.buf`. -/
abbrev BufId := Fin NBUF

/-- `struct buf` without its links.  `valid` and `dirty` are the flags `B_VALID` and `B_DIRTY`. -/
structure Buf (D : Type) where
  valid : Bool
  dirty : Bool
  dev : ℕ
  blockno : Blockno
  lock : Sleeplock
  refcnt : ℕ
  data : D

/-- `bcache`; the head of the list is `none`. -/
structure Bcache (D : Type) where
  buf : BufId → Buf D
  links : Links BufId

namespace Bcache

variable {D : Type} (bcache : Bcache D)

/-- `binit`, on memory that is zero. -/
def binit [Zero D] : Bcache D where
  buf _ := ⟨false, false, 0, 0, Sleeplock.init, 0, 0⟩
  links := (List.finRange NBUF).foldl Links.pushFront Links.empty

def setBuf (b : BufId) (x : Buf D) : Bcache D :=
  { bcache with buf := Function.update bcache.buf b x }

/-- Is the block cached in this buffer? -/
def caches (dev : ℕ) (blockno : Blockno) (b : BufId) : Bool :=
  (bcache.buf b).dev == dev && (bcache.buf b).blockno == blockno

/-- Is the buffer unused?  Even if `refcnt == 0`, `B_DIRTY` indicates a buffer is in use. -/
def unused (b : BufId) : Bool := (bcache.buf b).refcnt == 0 && !(bcache.buf b).dirty

/-- The critical section of `bget`. -/
def bget (dev : ℕ) (blockno : Blockno) : Except Halt (Bcache D × BufId) :=
  match (bcache.links.walk (NBUF + 1) none).find? (bcache.caches dev blockno) with
  | some b => .ok (bcache.setBuf b { bcache.buf b with refcnt := (bcache.buf b).refcnt + 1 }, b)
  | none =>
    match (bcache.links.rev.walk (NBUF + 1) none).find? bcache.unused with
    | some b =>
      .ok (bcache.setBuf b { bcache.buf b with
        dev := dev
        blockno := blockno
        valid := false
        dirty := false
        refcnt := 1 }, b)
    | none => .error (.panic "bget: no buffers")

/-- The critical section of `brelse`. -/
def unref (b : BufId) : Bcache D :=
  let bcache := bcache.setBuf b { bcache.buf b with refcnt := (bcache.buf b).refcnt - 1 }
  if (bcache.buf b).refcnt = 0 then
    -- no one is waiting for it
    { bcache with links := (bcache.links.unlink b).pushFront b }
  else bcache

end Bcache

namespace Buf

variable {D : Type} (b : Buf D)

/-- The tests of `iderw`. -/
def iderw (havedisk1 : Bool) (pid : ℤ) : Except Halt Unit :=
  match iderwTest b.lock pid with
  | .error e => .error e
  | .ok _ =>
    if b.valid && !b.dirty then .error (.panic "iderw: nothing to do")
    else if b.dev != 0 && !havedisk1 then .error (.panic "iderw: ide disk 1 not present")
    else .ok ()

/-- Has the request for the buffer been finished? -/
def done : Bool := b.valid && !b.dirty

/-- `idestart` and, when the disk has done its work, `ideintr`: the disk and the buffer. -/
def ideintr (disk : Blockno → D) : Except Halt ((Blockno → D) × Buf D) :=
  if b.blockno ≥ FSSIZE then .error (.panic "incorrect blockno")
  else if b.dirty then
    .ok (Function.update disk b.blockno b.data, { b with valid := true, dirty := false })
  else .ok (disk, { b with valid := true, dirty := false, data := disk b.blockno })

end Buf

/-- Where a process is in the functions of `bio.c`. -/
inductive BioPc
  | idle
  /-- In `bget` for a block, before `acquiresleep` has taken the lock of the buffer. -/
  | bget (b : BufId) (n : Blockno)
  /-- In `bread` for a block, with the lock held, before the test of `B_VALID`. -/
  | bread (b : BufId) (n : Blockno)
  /-- In the `iderw` of `bread`. -/
  | iderwRead (b : BufId) (n : Blockno)
  /-- In the `iderw` of `bwrite`. -/
  | iderwWrite (b : BufId)
  /-- In `brelse`, before `acquire(&bcache.lock)`. -/
  | brelse (b : BufId)
  deriving DecidableEq

/-- A process; it owns the buffers that `bread` has returned to it and that it has not given to
`brelse`. -/
structure BioUser where
  pc : BioPc
  owns : Finset BufId
  deriving DecidableEq

/-- The cache, the disk and the processes `P`.  Two fields are bookkeeping: `content` is what was
last written to a block by `log_write` or `bwrite`, and `pending` are the buffers that have been
modified since. -/
structure Bio (P D : Type) where
  bcache : Bcache D
  disk : Blockno → D
  user : P → BioUser
  content : Blockno → D
  pending : Finset BufId

/-- A step of a process. -/
inductive BioAct (D : Type)
  | bread (n : Blockno)
  | acquiresleep
  /-- `bread` tests `B_VALID`. -/
  | test
  | ideintr
  /-- `iderw` finds that the request has been finished. -/
  | wake
  /-- The process writes to `b->data`. -/
  | modify (b : BufId) (d : D)
  | logWrite (b : BufId)
  | bwrite (b : BufId)
  | brelse (b : BufId)
  /-- The critical section of `brelse`. -/
  | unref

/-- What the functions of `bio.c` take as given: the device, whether disk 1 is present, and the `pid`
of each process. -/
structure BioEnv (P : Type) where
  dev : ℕ
  havedisk1 : Bool
  pid : P → ℤ

namespace Bio

variable {P D : Type} (σ : Bio P D)

def buf (b : BufId) : Buf D := σ.bcache.buf b

def setBuf (b : BufId) (x : Buf D) : Bio P D := { σ with bcache := σ.bcache.setBuf b x }

variable [DecidableEq P]

def setUser (p : P) (pc : BioPc) (owns : Finset BufId) : Bio P D :=
  { σ with user := Function.update σ.user p ⟨pc, owns⟩ }

/-- `b->flags |= B_DIRTY;` in `log_write` and in `bwrite`.  The content of the block is now that of the
buffer. -/
def write (b : BufId) : Bio P D :=
  { σ.setBuf b { σ.buf b with dirty := true } with
    content := Function.update σ.content (σ.buf b).blockno (σ.buf b).data
    pending := σ.pending.erase b }

/-- A step of the process `p`. -/
def step (env : BioEnv P) (p : P) (a : BioAct D) : Except Halt (Bio P D) :=
  let owns := (σ.user p).owns
  match (σ.user p).pc, a with
  | .idle, .bread n =>
    match σ.bcache.bget env.dev n with
    | .error e => .error e
    | .ok (bcache, b) => .ok ({ σ with bcache := bcache }.setUser p (.bget b n) owns)
  | .bget b n, .acquiresleep =>
    match (σ.buf b).lock.acquiresleep (env.pid p) with
    | none => .error .disabled
    | some lk => .ok ((σ.setBuf b { σ.buf b with lock := lk }).setUser p (.bread b n) owns)
  | .bread b n, .test =>
    if (σ.buf b).valid then .ok (σ.setUser p .idle (insert b owns))
    else
      match (σ.buf b).iderw env.havedisk1 (env.pid p) with
      | .error e => .error e
      | .ok _ => .ok (σ.setUser p (.iderwRead b n) owns)
  | .iderwRead b _, .ideintr | .iderwWrite b, .ideintr =>
    if (σ.buf b).done then .error .disabled
    else
      match (σ.buf b).ideintr σ.disk with
      | .error e => .error e
      | .ok (disk, x) => .ok { σ.setBuf b x with disk := disk }
  | .iderwRead b _, .wake =>
    if (σ.buf b).done then .ok (σ.setUser p .idle (insert b owns)) else .error .disabled
  | .iderwWrite b, .wake =>
    if (σ.buf b).done then .ok (σ.setUser p .idle owns) else .error .disabled
  | .idle, .modify b d =>
    if b ∈ owns then
      .ok { σ.setBuf b { σ.buf b with data := d } with pending := insert b σ.pending }
    else .error .disabled
  | .idle, .logWrite b => if b ∈ owns then .ok (σ.write b) else .error .disabled
  | .idle, .bwrite b =>
    if b ∈ owns then
      match bwriteTest (σ.buf b).lock (env.pid p) with
      | .error e => .error e
      | .ok _ =>
        match { σ.buf b with dirty := true }.iderw env.havedisk1 (env.pid p) with
        | .error e => .error e
        | .ok _ =>
          .ok ((σ.write b).setUser p (.iderwWrite b) owns)
    else .error .disabled
  | .idle, .brelse b =>
    if b ∈ owns then
      match brelseTest (σ.buf b).lock (env.pid p) with
      | .error e => .error e
      | .ok _ =>
        .ok ((σ.setBuf b { σ.buf b with lock := Sleeplock.releasesleep }).setUser p (.brelse b)
          (owns.erase b))
    else .error .disabled
  | .brelse b, .unref =>
    .ok ({ σ with bcache := σ.bcache.unref b }.setUser p .idle owns)
  | _, _ => .error .disabled

/-- The state after `binit`, with the contents of the disk. -/
def boot [Zero D] (disk : Blockno → D) : Bio P D :=
  ⟨Bcache.binit, disk, fun _ => ⟨.idle, ∅⟩, disk, ∅⟩

end Bio

/-! ### What a step does -/

theorem Bcache.bget_ok {D : Type} {bc bc' : Bcache D} {dev : ℕ} {n : Blockno} {b : BufId}
    (h : bc.bget dev n = .ok (bc', b)) :
    ((bc.buf b).dev = dev ∧ (bc.buf b).blockno = n ∧
      bc' = bc.setBuf b { bc.buf b with refcnt := (bc.buf b).refcnt + 1 }) ∨
    ((∀ c ∈ bc.links.walk (NBUF + 1) none, (bc.buf c).dev = dev → (bc.buf c).blockno ≠ n) ∧
      (bc.buf b).refcnt = 0 ∧ (bc.buf b).dirty = false ∧
      bc' = bc.setBuf b { bc.buf b with
        dev := dev
        blockno := n
        valid := false
        dirty := false
        refcnt := 1 }) := by
  unfold bget at h
  split at h
  · rename_i c hc
    obtain ⟨rfl, rfl⟩ := Prod.mk.inj (Except.ok.inj h)
    have hcaches := List.find?_some hc
    simp only [caches, Bool.and_eq_true, beq_iff_eq] at hcaches
    exact Or.inl ⟨hcaches.1, hcaches.2, rfl⟩
  · rename_i hnone
    split at h
    · rename_i c hc
      obtain ⟨rfl, rfl⟩ := Prod.mk.inj (Except.ok.inj h)
      have hunused := List.find?_some hc
      simp only [unused, Bool.and_eq_true, beq_iff_eq, Bool.not_eq_true'] at hunused
      refine Or.inr ⟨fun a ha hd hn => ?_, hunused.1, hunused.2, rfl⟩
      have := List.find?_eq_none.mp hnone a ha
      simp [caches, hd, hn] at this
    · cases h

namespace Bio

/-- The steps, with what holds before them. -/
inductive Effect {P D : Type} [DecidableEq P] (env : BioEnv P) (σ : Bio P D) (p : P) :
    BioAct D → Bio P D → Prop
  | bread {bcache : Bcache D} {b : BufId} {n : Blockno} (hpc : (σ.user p).pc = .idle)
      (hb : σ.bcache.bget env.dev n = .ok (bcache, b)) :
      Effect env σ p (.bread n)
        ({ σ with bcache := bcache }.setUser p (.bget b n) (σ.user p).owns)
  | acquiresleep {b : BufId} {n : Blockno} {lk : Sleeplock} (hpc : (σ.user p).pc = .bget b n)
      (hfree : (σ.buf b).lock.locked = false) (hlk : lk.locked = true) :
      Effect env σ p .acquiresleep
        ((σ.setBuf b { σ.buf b with lock := lk }).setUser p (.bread b n) (σ.user p).owns)
  | cached {b : BufId} {n : Blockno} (hpc : (σ.user p).pc = .bread b n)
      (hv : (σ.buf b).valid = true) :
      Effect env σ p .test (σ.setUser p .idle (insert b (σ.user p).owns))
  | request {b : BufId} {n : Blockno} (hpc : (σ.user p).pc = .bread b n)
      (hv : (σ.buf b).valid = false) :
      Effect env σ p .test (σ.setUser p (.iderwRead b n) (σ.user p).owns)
  | ideintr {b : BufId} {n : Blockno} {disk : Blockno → D} {x : Buf D}
      (hpc : (σ.user p).pc = .iderwRead b n ∨ (σ.user p).pc = .iderwWrite b)
      (hdone : (σ.buf b).done = false) (hx : (σ.buf b).ideintr σ.disk = .ok (disk, x)) :
      Effect env σ p .ideintr { σ.setBuf b x with disk := disk }
  | wakeRead {b : BufId} {n : Blockno} (hpc : (σ.user p).pc = .iderwRead b n)
      (hv : (σ.buf b).valid = true) :
      Effect env σ p .wake (σ.setUser p .idle (insert b (σ.user p).owns))
  | wakeWrite {b : BufId} (hpc : (σ.user p).pc = .iderwWrite b)
      (hd : (σ.buf b).dirty = false) :
      Effect env σ p .wake (σ.setUser p .idle (σ.user p).owns)
  | modify {b : BufId} {d : D} (hpc : (σ.user p).pc = .idle) (ho : b ∈ (σ.user p).owns) :
      Effect env σ p (.modify b d)
        { σ.setBuf b { σ.buf b with data := d } with pending := insert b σ.pending }
  | logWrite {b : BufId} (hpc : (σ.user p).pc = .idle) (ho : b ∈ (σ.user p).owns) :
      Effect env σ p (.logWrite b) (σ.write b)
  | bwrite {b : BufId} (hpc : (σ.user p).pc = .idle) (ho : b ∈ (σ.user p).owns) :
      Effect env σ p (.bwrite b) ((σ.write b).setUser p (.iderwWrite b) (σ.user p).owns)
  | brelse {b : BufId} (hpc : (σ.user p).pc = .idle) (ho : b ∈ (σ.user p).owns) :
      Effect env σ p (.brelse b)
        ((σ.setBuf b { σ.buf b with lock := Sleeplock.releasesleep }).setUser p (.brelse b)
          ((σ.user p).owns.erase b))
  | unref {b : BufId} (hpc : (σ.user p).pc = .brelse b) :
      Effect env σ p .unref ({ σ with bcache := σ.bcache.unref b }.setUser p .idle (σ.user p).owns)

/-- **What a step does.** -/
theorem step_effect {P D : Type} [DecidableEq P] {env : BioEnv P} {σ σ' : Bio P D} {p : P}
    {a : BioAct D} (hs : σ.step env p a = .ok σ') : Effect env σ p a σ' := by
  simp only [step] at hs
  split at hs
  · rename_i hpc
    split at hs
    · cases hs
    · rename_i hb
      obtain rfl := Except.ok.inj hs
      exact .bread hpc hb
  · rename_i b n hpc
    unfold Sleeplock.acquiresleep at hs
    cases hfree : (σ.buf b).lock.locked with
    | true =>
      simp only [hfree] at hs
      cases hs
    | false =>
      simp only [hfree] at hs
      obtain rfl := Except.ok.inj hs
      exact .acquiresleep hpc hfree rfl
  · rename_i b n hpc
    split_ifs at hs with hv
    · obtain rfl := Except.ok.inj hs
      exact .cached hpc hv
    · split at hs
      · cases hs
      · obtain rfl := Except.ok.inj hs
        exact .request hpc (by simpa using hv)
  · rename_i b n hpc
    split_ifs at hs with hd
    split at hs
    · cases hs
    · rename_i hx
      obtain rfl := Except.ok.inj hs
      exact .ideintr (n := n) (Or.inl hpc) (by simpa using hd) hx
  · rename_i b hpc
    split_ifs at hs with hd
    split at hs
    · cases hs
    · rename_i hx
      obtain rfl := Except.ok.inj hs
      exact .ideintr (n := 0) (Or.inr hpc) (by simpa using hd) hx
  · rename_i b n hpc
    split_ifs at hs with hd
    obtain rfl := Except.ok.inj hs
    simp only [Buf.done, Bool.and_eq_true] at hd
    exact .wakeRead hpc hd.1
  · rename_i b hpc
    split_ifs at hs with hd
    obtain rfl := Except.ok.inj hs
    simp only [Buf.done, Bool.and_eq_true, Bool.not_eq_true'] at hd
    exact .wakeWrite hpc hd.2
  · rename_i hpc
    split_ifs at hs with ho
    obtain rfl := Except.ok.inj hs
    exact .modify hpc ho
  · rename_i hpc
    split_ifs at hs with ho
    obtain rfl := Except.ok.inj hs
    exact .logWrite hpc ho
  · rename_i hpc
    split_ifs at hs with ho
    split at hs
    · cases hs
    · split at hs
      · cases hs
      · obtain rfl := Except.ok.inj hs
        exact .bwrite hpc ho
  · rename_i hpc
    split_ifs at hs with ho
    split at hs
    · cases hs
    · obtain rfl := Except.ok.inj hs
      exact .brelse hpc ho
  · rename_i hpc
    obtain rfl := Except.ok.inj hs
    exact .unref hpc
  · cases hs

end Bio

/-- Any number of processes that use the buffer cache of a device. -/
def bioSystem (P D : Type) [DecidableEq P] [Zero D] (env : BioEnv P) :
    System Halt (Bio P D) (P × BioAct D) where
  init σ := ∃ disk, σ = Bio.boot disk
  step σ a := σ.step env a.1 a.2

/-- A modified buffer is given to `log_write` or `bwrite` before it is released. -/
def Flushed {P D : Type} (σ : Bio P D) : P × BioAct D → Prop
  | (_, .brelse b) => b ∉ σ.pending
  | _ => True

instance {P D : Type} (σ : Bio P D) (a : P × BioAct D) : Decidable (Flushed σ a) := by
  unfold Flushed
  split <;> infer_instance

end OsSemester.Xv6
