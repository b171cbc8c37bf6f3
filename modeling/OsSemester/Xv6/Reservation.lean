import OsSemester.Lib.Tally
import OsSemester.Lib.Transition
import OsSemester.Xv6.Log

/-!
# Reservations in the log

`begin_op` admits an operation when the log has room for `MAXOPBLOCKS` blocks of each operation, and
so the array `lh.block` is never overrun (`Reserved`).  But it counts with `LOGSIZE` blocks, and the
log `mkfs` makes has `LOGSIZE` blocks together with its header.  So operations that keep to
`MAXOPBLOCKS` fill it up: `log_reservation` says that this happens exactly when they log a block
while the transaction has `LOGSIZE - 1` blocks.
-/

namespace OsSemester.Xv6

/-- Where a process is in its operation.  `mine` are the blocks the operation has logged. -/
inductive OpPc
  | idle
  /-- Between `begin_op` and `end_op`. -/
  | op (mine : Finset Blockno)
  /-- In `log_write`, before `acquire(&log.lock)`. -/
  | logWrite (mine : Finset Blockno) (b : Blockno)
  /-- In `commit`. -/
  | commit
  /-- In `end_op`, after `commit`. -/
  | endCommit
  deriving DecidableEq

/-- The log and the processes `P` that use it.  `group` is bookkeeping: the blocks that have been
logged since the last commit. -/
structure Trans (P : Type) where
  log : Log
  pc : P → OpPc
  group : Finset Blockno

/-- A step of a process. -/
inductive LogAct
  | beginOp
  /-- `log_write` is called and makes its tests. -/
  | check (b : Blockno)
  | logWrite
  | endOp
  /-- `commit` clears the log. -/
  | commit
  | endCommit
  deriving DecidableEq

variable {P : Type} {σ σ' : Trans P} {p q : P} {a : LogAct} {b : Blockno}

namespace Trans

variable [DecidableEq P] (σ : Trans P)

def setPc (p : P) (x : OpPc) : Trans P := { σ with pc := Function.update σ.pc p x }

def setLog (log : Log) : Trans P := { σ with log := log }

/-- A step of the process `p`. -/
def step (p : P) (a : LogAct) : Except Halt (Trans P) :=
  match σ.pc p, a with
  | .idle, .beginOp =>
    match σ.log.beginOp with
    | .error e => .error e
    | .ok log => .ok ((σ.setLog log).setPc p (.op ∅))
  | .op mine, .check b =>
    match σ.log.logWriteCheck with
    | .error e => .error e
    | .ok _ => .ok (σ.setPc p (.logWrite mine b))
  | .logWrite mine b, .logWrite =>
    .ok { (σ.setLog (σ.log.logWrite b)).setPc p (.op (insert b mine)) with
      group := insert b σ.group }
  | .op _, .endOp =>
    match σ.log.endOp with
    | .error e => .error e
    | .ok (log, doCommit) =>
      .ok ((σ.setLog log).setPc p (if doCommit then .commit else .idle))
  | .commit, .commit => .ok { (σ.setLog σ.log.clear).setPc p .endCommit with group := ∅ }
  | .endCommit, .endCommit => .ok ((σ.setLog σ.log.endCommit).setPc p .idle)
  | _, _ => .error .disabled

end Trans

/-- The log on the disk that `mkfs` writes, and any number of processes. -/
def logSystem (P : Type) [DecidableEq P] : System Halt (Trans P) (P × LogAct) where
  init σ := σ = ⟨initlog mkfsSuperblock, fun _ => .idle, ∅⟩
  step σ a := σ.step a.1 a.2

/-- No operation logs more than `MAXOPBLOCKS` blocks. -/
def Modest (σ : Trans P) : P × LogAct → Prop
  | (p, .check b) =>
    match σ.pc p with
    | .op mine => (insert b mine).card ≤ MAXOPBLOCKS
    | _ => True
  | _ => True

/-- The transaction has room for a block when `log_write` tests for it, and when it stores the block.
-/
def HasRoom (σ : Trans P) : P × LogAct → Prop
  | (p, .check _) =>
    match σ.pc p with
    | .op _ => σ.group.card < LOGSIZE - 1
    | _ => True
  | (p, .logWrite) =>
    match σ.pc p with
    | .logWrite _ b => (insert b σ.group).card ≤ LOGSIZE - 1
    | _ => True
  | _ => True

instance (σ : Trans P) (a : P × LogAct) : Decidable (Modest σ a) := by
  unfold Modest
  split
  · split <;> infer_instance
  · infer_instance

instance (σ : Trans P) (a : P × LogAct) : Decidable (HasRoom σ a) := by
  unfold HasRoom
  split
  · split <;> infer_instance
  · split <;> infer_instance
  · infer_instance

/-! ### What the operations have reserved -/

namespace OpPc

/-- The blocks the operation may still log. -/
def reserve : OpPc → ℕ
  | op mine | logWrite mine _ => MAXOPBLOCKS - mine.card
  | _ => 0

def active : OpPc → ℕ
  | op _ | logWrite _ _ => 1
  | _ => 0

def commits : OpPc → ℕ
  | commit | endCommit => 1
  | _ => 0

/-- The blocks the operation has logged. -/
def mine : OpPc → Finset Blockno
  | op mine | logWrite mine _ => mine
  | _ => ∅

/-- The blocks the operation has logged and is about to log. -/
def claims : OpPc → Finset Blockno
  | op mine => mine
  | logWrite mine b => insert b mine
  | _ => ∅

end OpPc

/-- **The reservation invariant.** -/
structure Reserved [Fintype P] (σ : Trans P) : Prop where
  room : σ.log.block.length + tally OpPc.reserve σ.pc ≤ LOGSIZE
  outstanding : σ.log.outstanding = tally OpPc.active σ.pc
  committing : tally OpPc.commits σ.pc = if σ.log.committing then 1 else 0
  quiet : σ.log.committing = true → σ.log.outstanding = 0
  nodup : σ.log.block.Nodup
  group : σ.group = σ.log.block.toFinset
  mine : ∀ p, (σ.pc p).mine ⊆ σ.group
  modest : ∀ p, (σ.pc p).claims.card ≤ MAXOPBLOCKS
  size : σ.log.size = LOGSIZE

/-- A block that is in the log already keeps its entry. -/
theorem logWrite_block (log : Log) (b : Blockno) :
    (log.logWrite b).block = if b ∈ log.block then log.block else log.block ++ [b] := by
  simp only [Log.logWrite]
  by_cases hb : b ∈ log.block
  · have hlt := List.idxOf_lt_length_of_mem hb
    have hget : log.block[log.block.idxOf b] = b := List.getElem_idxOf hlt
    rw [if_pos hb, if_neg hlt.ne]
    calc log.block.set (log.block.idxOf b) b
        = log.block.set (log.block.idxOf b) log.block[log.block.idxOf b] := by rw [hget]
      _ = log.block := List.set_getElem_self hlt
  · rw [if_neg hb, if_pos (List.idxOf_eq_length hb)]

theorem toFinset_logWrite (log : Log) (b : Blockno) :
    (log.logWrite b).block.toFinset = insert b log.block.toFinset := by
  rw [logWrite_block]
  split_ifs with h
  · rw [Finset.insert_eq_of_mem (List.mem_toFinset.mpr h)]
  · rw [List.toFinset_append, Finset.union_comm]
    rfl

theorem nodup_logWrite {log : Log} (h : log.block.Nodup) (b : Blockno) :
    (log.logWrite b).block.Nodup := by
  rw [logWrite_block]
  split_ifs with hb
  · exact h
  · exact List.nodup_append.mpr ⟨h, List.nodup_singleton b, by
      intro x hx y hy
      rw [List.mem_singleton.mp hy]
      rintro rfl
      exact hb hx⟩

variable [Fintype P]

namespace Reserved

theorem card (h : Reserved σ) : σ.group.card = σ.log.block.length := by
  rw [h.group]
  exact List.toFinset_card_of_nodup h.nodup

/-- While an operation is going on, nobody commits. -/
theorem active (h : Reserved σ) (hp : (σ.pc p).active = 1) :
    1 ≤ σ.log.outstanding ∧ σ.log.committing = false := by
  have h1 := le_tally (w := OpPc.active) (f := σ.pc) p
  have h2 := h.outstanding
  have h3 : 1 ≤ σ.log.outstanding := by omega
  refine ⟨h3, ?_⟩
  by_contra hne
  have := h.quiet (by simpa using hne)
  omega

/-- While somebody commits, no operation is going on. -/
theorem idle (h : Reserved σ) (hp : (σ.pc p).commits = 1) :
    σ.log.committing = true ∧ ∀ q, (σ.pc q).active = 0 := by
  have h1 := le_tally (w := OpPc.commits) (f := σ.pc) p
  have h2 := h.committing
  have h3 : σ.log.committing = true := by
    by_contra hne
    rw [if_neg hne] at h2
    omega
  refine ⟨h3, fun q => ?_⟩
  have h4 := h.quiet h3
  have h5 := le_tally (w := OpPc.active) (f := σ.pc) q
  have h6 := h.outstanding
  omega

/-- A step of `p` that leaves the block list alone. -/
theorem move [DecidableEq P] {x : OpPc} (h : Reserved σ) (hpc : σ'.pc = Function.update σ.pc p x)
    (hb : σ'.log.block = σ.log.block) (hg : σ'.group = σ.group) (hsz : σ'.log.size = σ.log.size)
    (h1 : σ.log.block.length + tally OpPc.reserve σ.pc + x.reserve ≤
      LOGSIZE + (σ.pc p).reserve)
    (h2 : σ'.log.outstanding + (σ.pc p).active = σ.log.outstanding + x.active)
    (h3 : (if σ'.log.committing then 1 else 0) + (σ.pc p).commits =
      (if σ.log.committing then 1 else 0) + x.commits)
    (h4 : σ'.log.committing = true → σ'.log.outstanding = 0)
    (h5 : x.mine ⊆ σ.group) (h6 : x.claims.card ≤ MAXOPBLOCKS) : Reserved σ' := by
  have e1 := tally_update OpPc.reserve σ.pc p x
  have e2 := tally_update OpPc.active σ.pc p x
  have e3 := tally_update OpPc.commits σ.pc p x
  have g2 := h.outstanding
  have g3 := h.committing
  refine ⟨?_, ?_, ?_, h4, ?_, ?_, fun q => ?_, fun q => ?_, ?_⟩
  · rw [hb, hpc]
    omega
  · rw [hpc]
    omega
  · rw [hpc]
    omega
  · rw [hb]
    exact h.nodup
  · rw [hb, hg]
    exact h.group
  · rw [hpc, hg, Function.update_apply]
    split_ifs
    · exact h5
    · exact h.mine q
  · rw [hpc, Function.update_apply]
    split_ifs
    · exact h6
    · exact h.modest q
  · rw [hsz]
    exact h.size

end Reserved

/-! ### The steps -/

variable [DecidableEq P]

theorem beginOp_ok {log log' : Log} (h : log.beginOp = .ok log') : log.committing = false ∧
    log.block.length + (log.outstanding + 1) * MAXOPBLOCKS ≤ LOGSIZE ∧
    log' = { log with outstanding := log.outstanding + 1 } := by
  unfold Log.beginOp at h
  split_ifs at h with h1 h2
  exact ⟨by simpa using h1, by omega, (Except.ok.inj h).symm⟩

theorem reserved_beginOp {log : Log} (h : Reserved σ) (hp : σ.pc p = .idle)
    (hb : σ.log.beginOp = .ok log) : Reserved ((σ.setLog log).setPc p (.op ∅)) := by
  obtain ⟨hcom, hroom, rfl⟩ := beginOp_ok hb
  have hle : tally OpPc.reserve σ.pc ≤ MAXOPBLOCKS * tally OpPc.active σ.pc := by
    refine tally_le_mul _ fun x => ?_
    cases x <;> simp [OpPc.reserve, OpPc.active]
  have hout := h.outstanding
  refine h.move rfl rfl rfl rfl ?_ ?_ ?_ (fun hc => ?_) (Finset.empty_subset _) (Nat.zero_le _)
  · simp only [hp, OpPc.reserve, Finset.card_empty]
    simp only [MAXOPBLOCKS, LOGSIZE] at hroom hle ⊢
    omega
  · simp only [hp, OpPc.active, Trans.setPc, Trans.setLog]
  · rw [hp]
    rfl
  · exact absurd (hcom.symm.trans hc) nofun

theorem reserved_check {mine : Finset Blockno} (h : Reserved σ) (hp : σ.pc p = .op mine)
    (hb : (insert b mine).card ≤ MAXOPBLOCKS) : Reserved (σ.setPc p (.logWrite mine b)) := by
  have hmine := h.mine p
  rw [hp] at hmine
  refine h.move rfl rfl rfl rfl ?_ (by rw [hp]; rfl) (by rw [hp]; rfl) h.quiet hmine hb
  rw [hp]
  exact Nat.add_le_add_right h.room _

theorem reserved_logWrite {mine : Finset Blockno} (h : Reserved σ)
    (hp : σ.pc p = .logWrite mine b) :
    Reserved { (σ.setLog (σ.log.logWrite b)).setPc p (.op (insert b mine)) with
      group := insert b σ.group } := by
  have e1 := tally_update OpPc.reserve σ.pc p (.op (insert b mine))
  have e2 := tally_update OpPc.active σ.pc p (.op (insert b mine))
  have e3 := tally_update OpPc.commits σ.pc p (.op (insert b mine))
  have hmine := h.mine p
  have hmod := h.modest p
  have hroom := h.room
  have hgroup := h.group
  rw [hp] at e1 e2 e3 hmine hmod
  simp only [OpPc.reserve, OpPc.active, OpPc.commits, OpPc.mine, OpPc.claims] at e1 e2 e3 hmine hmod
  -- a new entry was reserved by the operation that makes it
  have hlen : (σ.log.logWrite b).block.length + (MAXOPBLOCKS - (insert b mine).card) ≤
      σ.log.block.length + (MAXOPBLOCKS - mine.card) := by
    rw [logWrite_block]
    split_ifs with hb
    · have := Finset.card_le_card (Finset.subset_insert b mine)
      omega
    · have hb' : b ∉ mine := by
        intro hm
        have := hmine hm
        rw [hgroup] at this
        exact hb (List.mem_toFinset.mp this)
      rw [Finset.card_insert_of_notMem hb'] at hmod ⊢
      rw [List.length_append, List.length_singleton]
      omega
  have hout := h.outstanding
  have hcom := h.committing
  refine ⟨?_, ?_, ?_, h.quiet, nodup_logWrite h.nodup b, ?_, fun q => ?_, fun q => ?_, h.size⟩
  · show (σ.log.logWrite b).block.length + tally OpPc.reserve (Function.update σ.pc p _) ≤ _
    omega
  · show σ.log.outstanding = tally OpPc.active (Function.update σ.pc p _)
    omega
  · show tally OpPc.commits (Function.update σ.pc p _) = if σ.log.committing then 1 else 0
    omega
  · show insert b σ.group = (σ.log.logWrite b).block.toFinset
    rw [toFinset_logWrite, hgroup]
  · show (Function.update σ.pc p (.op (insert b mine)) q).mine ⊆ insert b σ.group
    rw [Function.update_apply]
    split_ifs
    · exact Finset.insert_subset_insert b hmine
    · exact (h.mine q).trans (Finset.subset_insert _ _)
  · show (Function.update σ.pc p (.op (insert b mine)) q).claims.card ≤ _
    rw [Function.update_apply]
    split_ifs
    · exact hmod
    · exact h.modest q

theorem endOp_eq (log : Log) (h : log.committing = false) : log.endOp =
    .ok ({ log with
      outstanding := log.outstanding - 1
      committing := decide (log.outstanding - 1 = 0) }, decide (log.outstanding - 1 = 0)) := by
  unfold Log.endOp
  rw [if_neg (by rw [h]; nofun)]
  split_ifs with h0
  · simp [h0]
  · simp [h0, h]

theorem reserved_endOp {mine : Finset Blockno} (h : Reserved σ) (hp : σ.pc p = .op mine) :
    ∃ log com, σ.log.endOp = .ok (log, com) ∧
      Reserved ((σ.setLog log).setPc p (if com then .commit else .idle)) := by
  obtain ⟨hpos, hcom⟩ := h.active (p := p) (by rw [hp]; rfl)
  refine ⟨_, _, endOp_eq σ.log hcom, ?_⟩
  by_cases h0 : σ.log.outstanding - 1 = 0
  · refine h.move (p := p) (x := .commit) (by simp [h0, Trans.setPc, Trans.setLog]) rfl rfl rfl
      ((Nat.add_le_add_right h.room _).trans (Nat.add_le_add_left (Nat.zero_le _) _)) ?_ ?_
      (fun _ => h0) (Finset.empty_subset _) (Nat.zero_le _)
    · simp only [hp, OpPc.active, Trans.setPc, Trans.setLog]
      omega
    · simp [hp, OpPc.commits, Trans.setPc, Trans.setLog, h0, hcom]
  · refine h.move (p := p) (x := .idle) (by simp [h0, Trans.setPc, Trans.setLog]) rfl rfl rfl
      ((Nat.add_le_add_right h.room _).trans (Nat.add_le_add_left (Nat.zero_le _) _)) ?_ ?_
      (fun hc => ?_) (Finset.empty_subset _) (Nat.zero_le _)
    · simp only [hp, OpPc.active, Trans.setPc, Trans.setLog]
      omega
    · simp [hp, OpPc.commits, Trans.setPc, Trans.setLog, h0, hcom]
    · simp [Trans.setPc, Trans.setLog, h0] at hc

theorem reserved_commit (h : Reserved σ) (hp : σ.pc p = .commit) :
    Reserved { (σ.setLog σ.log.clear).setPc p .endCommit with group := ∅ } := by
  obtain ⟨hcom, hidle⟩ := h.idle (p := p) (by rw [hp]; rfl)
  have e1 := tally_update OpPc.reserve σ.pc p .endCommit
  have e2 := tally_update OpPc.active σ.pc p .endCommit
  have e3 := tally_update OpPc.commits σ.pc p .endCommit
  rw [hp] at e1 e2 e3
  have hroom := h.room
  have hout := h.outstanding
  have hc := h.committing
  have hnone : ∀ q, (Function.update σ.pc p .endCommit q).claims = ∅ ∧
      (Function.update σ.pc p .endCommit q).mine = ∅ := by
    intro q
    rw [Function.update_apply]
    split_ifs
    · exact ⟨rfl, rfl⟩
    · have hq := hidle q
      cases hx : σ.pc q with
      | op | logWrite =>
        rw [hx] at hq
        cases hq
      | _ => exact ⟨rfl, rfl⟩
  refine ⟨?_, ?_, ?_, h.quiet, List.nodup_nil, rfl, fun q => ?_, fun q => ?_, h.size⟩
  · show 0 + tally OpPc.reserve (Function.update σ.pc p .endCommit) ≤ _
    simp only [OpPc.reserve] at e1
    omega
  · show σ.log.outstanding = tally OpPc.active (Function.update σ.pc p _)
    simp only [OpPc.active] at e2
    omega
  · show tally OpPc.commits (Function.update σ.pc p _) = if σ.log.committing then 1 else 0
    simp only [OpPc.commits] at e3
    omega
  · show (Function.update σ.pc p .endCommit q).mine ⊆ ∅
    rw [(hnone q).2]
  · show (Function.update σ.pc p .endCommit q).claims.card ≤ _
    rw [(hnone q).1]
    exact Nat.zero_le _

theorem reserved_endCommit (h : Reserved σ) (hp : σ.pc p = .endCommit) :
    Reserved ((σ.setLog σ.log.endCommit).setPc p .idle) := by
  obtain ⟨hcom, -⟩ := h.idle (p := p) (by rw [hp]; rfl)
  refine h.move rfl rfl rfl rfl
    ((Nat.add_le_add_right h.room _).trans (Nat.add_le_add_left (Nat.zero_le _) _)) ?_ ?_ nofun
    (Finset.empty_subset _) (Nat.zero_le _)
  · rw [hp]
    rfl
  · simp [hp, hcom, OpPc.commits, Trans.setPc, Trans.setLog, Log.endCommit]

omit [DecidableEq P] in
/-- The tests of `log_write` in an operation. -/
theorem check_eq (h : Reserved σ) (hp : (σ.pc p).active = 1) : σ.log.logWriteCheck =
    if σ.group.card < LOGSIZE - 1 then .ok () else .error (.panic "too big a transaction") := by
  have hpos := (h.active hp).1
  unfold Log.logWriteCheck
  rw [h.size, ← h.card]
  by_cases hlt : σ.group.card < LOGSIZE - 1
  · rw [if_neg, if_neg (by omega), if_pos hlt]
    simp only [LOGSIZE, MAXOPBLOCKS] at hlt ⊢
    omega
  · rw [if_pos (Or.inr (by omega)), if_neg hlt]

/-- **One step.** -/
theorem Reserved.step {a : P × LogAct} (h : Reserved σ) (hok : Modest σ a)
    (hs : (logSystem P).step σ a = .ok σ') : Reserved σ' := by
  obtain ⟨p, a⟩ := a
  have hs : σ.step p a = .ok σ' := hs
  unfold Trans.step at hs
  cases hp : σ.pc p with
  | idle =>
    cases a with
    | beginOp =>
      simp only [hp] at hs
      cases hb : σ.log.beginOp with
      | error e =>
        simp only [hb] at hs
        cases hs
      | ok log =>
        simp only [hb] at hs
        obtain rfl := Except.ok.inj hs
        exact reserved_beginOp h hp hb
    | _ =>
      simp only [hp] at hs
      cases hs
  | op mine =>
    cases a with
    | check b =>
      simp only [hp] at hs
      cases hc : σ.log.logWriteCheck with
      | error e =>
        simp only [hc] at hs
        cases hs
      | ok u =>
        simp only [hc] at hs
        obtain rfl := Except.ok.inj hs
        refine reserved_check h hp ?_
        simpa [Modest, hp] using hok
    | endOp =>
      -- `end_op` does not panic, as nobody is committing
      obtain ⟨log, com, he, hR⟩ := reserved_endOp h hp
      simp only [hp, he] at hs
      obtain rfl := Except.ok.inj hs
      exact hR
    | _ =>
      simp only [hp] at hs
      cases hs
  | logWrite mine b =>
    cases a with
    | logWrite =>
      simp only [hp] at hs
      obtain rfl := Except.ok.inj hs
      exact reserved_logWrite h hp
    | _ =>
      simp only [hp] at hs
      cases hs
  | commit =>
    cases a with
    | commit =>
      simp only [hp] at hs
      obtain rfl := Except.ok.inj hs
      exact reserved_commit h hp
    | _ =>
      simp only [hp] at hs
      cases hs
  | endCommit =>
    cases a with
    | endCommit =>
      simp only [hp] at hs
      obtain rfl := Except.ok.inj hs
      exact reserved_endCommit h hp
    | _ =>
      simp only [hp] at hs
      cases hs

theorem reserved_init (h : (logSystem P).init σ) : Reserved σ := by
  obtain rfl := h
  have hzero : ∀ w : OpPc → ℕ, w .idle = 0 → tally w (fun _ : P => OpPc.idle) = 0 :=
    fun w hw => Finset.sum_eq_zero fun _ _ => hw
  refine ⟨?_, ?_, ?_, nofun, List.nodup_nil, rfl, fun _ => Finset.empty_subset _,
    fun _ => Nat.zero_le _, rfl⟩
  · rw [hzero _ rfl]
    exact Nat.zero_le _
  · rw [hzero _ rfl]
    rfl
  · rw [hzero _ rfl]
    rfl

theorem Reach.reserved {ok : Trans P → P × LogAct → Prop} (hok : ∀ σ a, ok σ a → Modest σ a)
    (h : (logSystem P).Reach ok σ) : Reserved σ :=
  h.invariant (fun _ => reserved_init) fun _ _ _ hI ha hs => hI.step (hok _ _ ha) hs

/-! ### The main result -/

/-- The step does not run into "too big a transaction", and does not store a block behind the end
of the log on the disk. -/
def LogSafe (σ : Trans P) (a : P × LogAct) : Prop :=
  (logSystem P).step σ a ≠ .error (.panic "too big a transaction") ∧
  ∀ σ', (logSystem P).step σ a = .ok σ' → σ'.log.block.length ≤ σ'.log.size - 1

/-- What a step does to the block list. -/
inductive Stores (σ : Trans P) (p : P) (r : Except Halt (Trans P)) : LogAct → Prop
  | blocked {a : LogAct} : HasRoom σ (p, a) → r = .error .disabled → Stores σ p r a
  | keeps {a : LogAct} {τ : Trans P} : HasRoom σ (p, a) → r = .ok τ → τ.log.size = σ.log.size →
      (τ.log.block = σ.log.block ∨ τ.log.block = []) → Stores σ p r a
  | check {b : Blockno} {mine : Finset Blockno} : σ.pc p = .op mine →
      r = (if σ.group.card < LOGSIZE - 1 then .ok (σ.setPc p (.logWrite mine b))
        else .error (.panic "too big a transaction")) → Stores σ p r (.check b)
  | logWrite {mine : Finset Blockno} {b : Blockno} {τ : Trans P} : σ.pc p = .logWrite mine b →
      r = .ok τ → τ.log = σ.log.logWrite b → Stores σ p r .logWrite

theorem Reserved.stores (h : Reserved σ) (a : LogAct) : Stores σ p (σ.step p a) a := by
  unfold Trans.step
  cases hp : σ.pc p with
  | idle =>
    cases a with
    | beginOp =>
      cases hb : σ.log.beginOp with
      | error e =>
        have he : e = .disabled := by
          unfold Log.beginOp at hb
          split_ifs at hb <;> exact (Except.error.inj hb).symm
        exact .blocked trivial (by rw [he])
      | ok log =>
        obtain ⟨-, -, rfl⟩ := beginOp_ok hb
        exact .keeps trivial rfl rfl (Or.inl rfl)
    | _ => exact .blocked (by simp [HasRoom, hp]) rfl
  | op mine =>
    cases a with
    | check b =>
      refine .check hp ?_
      have hc := check_eq h (p := p) (by rw [hp]; rfl)
      by_cases hlt : σ.group.card < LOGSIZE - 1
      · rw [if_pos hlt] at hc
        simp only [hc, if_pos hlt]
      · rw [if_neg hlt] at hc
        simp only [hc, if_neg hlt]
    | endOp =>
      obtain ⟨-, hcom⟩ := h.active (p := p) (by rw [hp]; rfl)
      have he := endOp_eq σ.log hcom
      simp only [he]
      exact .keeps trivial rfl rfl (Or.inl rfl)
    | _ => exact .blocked (by simp [HasRoom, hp]) rfl
  | logWrite mine b =>
    cases a with
    | logWrite => exact .logWrite hp rfl rfl
    | _ => exact .blocked (by simp [HasRoom, hp]) rfl
  | commit =>
    cases a with
    | commit => exact .keeps trivial rfl rfl (Or.inr rfl)
    | _ => exact .blocked (by simp [HasRoom, hp]) rfl
  | endCommit =>
    cases a with
    | endCommit => exact .keeps trivial rfl rfl (Or.inl rfl)
    | _ => exact .blocked (by simp [HasRoom, hp]) rfl

/-- While there is no block behind the end of the log, a step is safe exactly when it
finds room. -/
theorem Reserved.safe_iff (h : Reserved σ) (hlen : σ.log.block.length ≤ LOGSIZE - 1)
    (a : P × LogAct) : LogSafe σ a ↔ HasRoom σ a := by
  obtain ⟨p, a⟩ := a
  have hsize := h.size
  unfold LogSafe
  show (σ.step p a ≠ _ ∧ ∀ σ', σ.step p a = _ → _) ↔ _
  cases h.stores a with
  | blocked hR hr =>
    rw [hr]
    exact iff_of_true ⟨nofun, nofun⟩ hR
  | keeps hR hr hsz hb =>
    rw [hr]
    refine iff_of_true ⟨nofun, fun σ' hs => ?_⟩ hR
    obtain rfl := Except.ok.inj hs
    rcases hb with hb | hb
    · rw [hb]
      omega
    · rw [hb]
      exact Nat.zero_le _
  | @check b mine hp hr =>
    rw [hr]
    have hiff : HasRoom σ (p, .check b) ↔ σ.group.card < LOGSIZE - 1 := by
      simp only [HasRoom, hp]
    rw [hiff]
    split_ifs with hlt
    · refine iff_of_true ⟨nofun, fun σ' hs => ?_⟩ hlt
      obtain rfl := Except.ok.inj hs
      show σ.log.block.length ≤ σ.log.size - 1
      omega
    · exact iff_of_false (fun hS => hS.1 rfl) hlt
  | @logWrite mine b τ hp hr hl =>
    rw [hr]
    have hiff : HasRoom σ (p, .logWrite) ↔ (insert b σ.group).card ≤ LOGSIZE - 1 := by
      simp only [HasRoom, hp]
    have hcard : (insert b σ.group).card = τ.log.block.length := by
      rw [h.group, ← toFinset_logWrite, hl]
      exact List.toFinset_card_of_nodup (nodup_logWrite h.nodup b)
    have hsz : τ.log.size = LOGSIZE := by
      rw [hl]
      exact h.size
    rw [hiff, hcard]
    constructor
    · intro hS
      have := hS.2 τ rfl
      omega
    · refine fun hle => ⟨nofun, fun σ' hs => ?_⟩
      obtain rfl := Except.ok.inj hs
      omega

/-- **Reservations.** However operations that keep to `MAXOPBLOCKS` are interleaved, the array
`lh.block` is not overrun, and the only panic is "too big a transaction".

In a run that never tests for a block when the transaction has `LOGSIZE - 1` blocks, nor stores one
then, `log_write` does not panic and no block is stored behind the end of the log on the disk; and
the first step that does one of these panics or stores a block there. -/
theorem log_reservation (P : Type) [Fintype P] [DecidableEq P] :
    (∀ σ : Trans P, (logSystem P).Reach Modest σ → σ.log.block.length ≤ LOGSIZE ∧
      ∀ a msg, (logSystem P).step σ a = .error (.panic msg) → msg = "too big a transaction") ∧
    ∀ σ : Trans P, (logSystem P).Reach (fun σ a => Modest σ a ∧ HasRoom σ a) σ →
      σ.log.block.length ≤ σ.log.size - 1 ∧ ∀ a, LogSafe σ a ↔ HasRoom σ a := by
  refine ⟨fun σ h => ?_, fun σ h => ?_⟩
  · have hR := Reach.reserved (fun _ _ => id) h
    refine ⟨(Nat.le_add_right _ _).trans hR.room, ?_⟩
    rintro ⟨p, a⟩ msg hs
    have hs : σ.step p a = .error (.panic msg) := hs
    cases hR.stores (p := p) a with
    | blocked _ hr =>
      rw [hr] at hs
      cases hs
    | keeps _ hr =>
      rw [hr] at hs
      cases hs
    | check _ hr =>
      rw [hr] at hs
      split_ifs at hs
      exact (Halt.panic.inj (Except.error.inj hs)).symm
    | logWrite _ hr =>
      rw [hr] at hs
      cases hs
  · have hlen : Reserved σ ∧ σ.log.block.length ≤ LOGSIZE - 1 := by
      refine h.invariant (I := fun σ => Reserved σ ∧ σ.log.block.length ≤ LOGSIZE - 1) ?_ ?_
      · intro σ h0
        refine ⟨reserved_init h0, ?_⟩
        obtain rfl := h0
        exact Nat.zero_le _
      · intro σ a σ' hI ha hs
        have hR := hI.1.step ha.1 hs
        refine ⟨hR, ?_⟩
        rw [← hR.size]
        exact ((hI.1.safe_iff hI.2 a).mpr ha.2).2 σ' hs
    refine ⟨?_, hlen.1.safe_iff hlen.2⟩
    rw [hlen.1.size]
    exact hlen.2

/-- Two operations log ten blocks each, four of them twice: the log has room for them. -/
theorem log_reservation_two : ∃ σ : Trans (Fin 2), σ.log.block.length = 16 ∧
    16 ≤ σ.log.size - 1 ∧ ∀ a, LogSafe σ a ↔ HasRoom σ a := by
  let logs (p : Fin 2) : List (Fin 2 × LogAct) :=
    (List.range 10).flatMap fun i => [(p, .check (6 * p + i)), (p, .logWrite)]
  let as : List (Fin 2 × LogAct) := [(0, .beginOp), (1, .beginOp)] ++ logs 0 ++ logs 1
  have hok : (logSystem (Fin 2)).Obeys (fun σ a => Modest σ a ∧ HasRoom σ a)
      ⟨initlog mkfsSuperblock, fun _ => .idle, ∅⟩ as := by
    decide +kernel
  have hrun : (logSystem (Fin 2)).Ends (fun σ => σ.log.block.length = 16)
      ⟨initlog mkfsSuperblock, fun _ => .idle, ∅⟩ as := by
    decide +kernel
  obtain ⟨σ, hσ, hlen⟩ := System.Reach.of_ends as rfl hok hrun
  have hmain := (log_reservation (Fin 2)).2 σ hσ
  exact ⟨σ, hlen, hlen ▸ hmain.1, hmain.2⟩

/-- Three operations log ten blocks each: the last call panics. -/
theorem log_reservation_counterexample : ∃ (σ : Trans (Fin 3)) (a : Fin 3 × LogAct),
    (logSystem (Fin 3)).Reach Modest σ ∧ Modest σ a ∧
      (logSystem (Fin 3)).step σ a = .error (.panic "too big a transaction") := by
  let logs (p : Fin 3) (k : ℕ) : List (Fin 3 × LogAct) :=
    (List.range k).flatMap fun i => [(p, .check (100 * p + i)), (p, .logWrite)]
  let as : List (Fin 3 × LogAct) :=
    [(0, .beginOp), (1, .beginOp), (2, .beginOp)] ++ logs 0 10 ++ logs 1 10 ++ logs 2 9
  have hok : (logSystem (Fin 3)).Obeys Modest ⟨initlog mkfsSuperblock, fun _ => .idle, ∅⟩ as := by
    decide +kernel
  have hrun : (logSystem (Fin 3)).Ends (fun σ => Modest σ (2, .check 300) ∧
      (match (logSystem (Fin 3)).step σ (2, .check 300) with
        | .error (.panic msg) => decide (msg = "too big a transaction")
        | _ => false) = true) ⟨initlog mkfsSuperblock, fun _ => .idle, ∅⟩ as := by
    decide +kernel
  obtain ⟨σ, hσ, hm, hp⟩ := System.Reach.of_ends as rfl hok hrun
  refine ⟨σ, _, hσ, hm, ?_⟩
  split at hp
  · rename_i msg he
    rw [he, of_decide_eq_true hp]
  · cases hp

end OsSemester.Xv6
