import OsSemester.Xv6.Identity
import OsSemester.Xv6.Lock

/-!
# Sleep locks

`acquiresleep` records the `pid` of its caller and `holdingsleep` compares it.  The threads that
`clone` with `CLONE_THREAD` makes share a `pid`, so `holdingsleep` takes one of them for another:
`sleeplock_ownership` says that it is right exactly when the holder is not connected with the caller
by such calls (`Connected`).

The machine is the recorded one of `Identity`, with any number of sleep locks beside it.
-/

namespace OsSemester.Xv6

open Machine

/-- The recorded machine with sleep locks.  `holder` is bookkeeping: the process whose `acquiresleep`
last took the lock and that has not released it. -/
structure Locked (n : ℕ) (κ : Type) where
  m : Machine n
  es : List (ℤ × ℤ)
  lk : κ → Sleeplock
  holder : κ → Option Slot

/-- A step of the machine, or a call of the process on a CPU. -/
inductive LockOp (n : ℕ) (κ : Type)
  | machine (a : Action n)
  | acquiresleep (c : Fin n) (l : κ)
  | releasesleep (c : Fin n) (l : κ)

variable {n : ℕ} {κ : Type} {σ σ' : Locked n κ} {m m' : Machine n} {mv : Move} {l : κ}
variable {p q s t : Slot} {addr : κ → ℕ}

namespace Locked

variable (σ : Locked n κ)

/-- A step of the machine. -/
def machineStep (a : Action n) : Except Halt (Locked n κ) :=
  match (traced n).step (σ.m, σ.es) a with
  | .error e => .error e
  | .ok (m, es) => .ok { σ with m := m, es := es }

def set [DecidableEq κ] (l : κ) (lk : Sleeplock) (holder : Option Slot) : Locked n κ :=
  { σ with lk := Function.update σ.lk l lk, holder := Function.update σ.holder l holder }

/-- One step.  The address of a lock is the channel its waiters sleep on. -/
def step [DecidableEq κ] (addr : κ → ℕ) : LockOp n κ → Except Halt (Locked n κ)
  | .machine a => σ.machineStep a
  | .acquiresleep c l =>
    match σ.m.lock, σ.m.cpu c with
    | .free, some s =>
      match (σ.lk l).acquiresleep (σ.m.k.proc s).pid with
      | none => σ.machineStep (.op c (.sleep (addr l)))
      | some lk => .ok (σ.set l lk (some s))
    | _, _ => .error .disabled
  | .releasesleep c l =>
    match σ.m.lock, σ.m.cpu c with
    | .free, some _ => (σ.set l Sleeplock.releasesleep none).machineStep (.op c (.wakeup (addr l)))
    | _, _ => .error .disabled

end Locked

/-- The kernel with the sleep locks `κ` at the addresses `addr`. -/
def lockSystem (n : ℕ) (κ : Type) [DecidableEq κ] (addr : κ → ℕ) :
    System Halt (Locked n κ) (LockOp n κ) where
  init σ := (traced n).init (σ.m, σ.es) ∧ σ.lk = (fun _ => Sleeplock.init) ∧
    σ.holder = fun _ => none
  step σ a := σ.step addr a

/-- Only the holder releases a lock, and who exits holds none. -/
def Honest (σ : Locked n κ) : LockOp n κ → Prop
  | .machine a =>
    match σ.m.move a with
    | .exit s => ∀ l, σ.holder l ≠ some s
    | _ => True
  | .acquiresleep _ _ => True
  | .releasesleep c l => ∀ s, σ.m.cpu c = some s → σ.holder l = some s

instance [Fintype κ] (σ : Locked n κ) : DecidablePred (Honest σ) := by
  intro a
  unfold Honest
  split
  · split <;> infer_instance
  · infer_instance
  · infer_instance

/-! ### A live process keeps its `pid` -/

/-- What a step does to a live process. -/
theorem Effect.live_pid (hB : Base m) (h : Effect m mv m') (ht : (m.k.proc t).state.Live)
    (hmv : mv ≠ .exit t) :
    (m'.k.proc t).state.Live ∧ (m'.k.proc t).pid = (m.k.proc t).pid := by
  have hkeep : ∀ {p' : Proc}, Keep (m.k.proc t) p' → p'.state.Live ∧ p'.pid = (m.k.proc t).pid := by
    intro p' hk
    refine ⟨?_, hk.pid⟩
    rcases hk.state with he | ⟨-, he⟩
    · rwa [he]
    · exact he
  cases h.change hB.sched hB.life with
  | quiet _ hq => exact hkeep (hq.keep t)
  | @alloc s np fl k _ _ ha =>
    obtain ⟨hu, hp, -⟩ := allocproc_some ha
    have hne : t ≠ np := by
      rintro rfl
      rw [hu] at ht
      exact not_live_unused ht
    have hpt : k.proc t = m.k.proc t := by rw [hp, if_neg hne]
    show (k.proc t).state.Live ∧ (k.proc t).pid = (m.k.proc t).pid
    rw [hpt]
    exact ⟨ht, rfl⟩
  | @stmt s np o st nx k _ hpc hk =>
    have hne : t ≠ np := by
      rintro rfl
      rw [hB.life.embryo hpc] at ht
      exact not_live_embryo ht
    obtain ⟨_, _, hp, -⟩ := exec_proc_of_ne hk hne
    show (k.proc t).state.Live ∧ (k.proc t).pid = (m.k.proc t).pid
    rw [hp]
    exact ⟨ht, rfl⟩
  | commit _ _ hk =>
    refine ⟨?_, (execCommit_fixed hk t).pid⟩
    rw [setPc_k, setK_k, execCommit_state hk]
    exact ht
  | @exit c s _ _ =>
    have hne : t ≠ s := by
      rintro rfl
      exact hmv rfl
    exact ⟨(exitLocked_live_iff m.k hne).mpr ht, (exitLocked_fixed m.k s t).pid⟩
  | waitReap _ hR | joinReap _ _ hR =>
    refine hkeep (hR.keep t ?_)
    rintro rfl
    rw [hR.zombie] at ht
    exact not_live_zombie ht

/-! ### The invariant -/

/-- A lock that is held records the `pid` of its holder, which is live. -/
structure Held (σ : Locked n κ) : Prop where
  free : ∀ {l}, σ.holder l = none → (σ.lk l).locked = false
  held : ∀ {l s}, σ.holder l = some s →
    (σ.lk l).locked = true ∧ (σ.lk l).pid = (σ.m.k.proc s).pid ∧ (σ.m.k.proc s).state.Live

theorem machineStep_ok {a : Action n} (h : σ.machineStep a = .ok σ') :
    (traced n).step (σ.m, σ.es) a = .ok (σ'.m, σ'.es) ∧ σ.m.step a = .ok σ'.m ∧
      σ'.lk = σ.lk ∧ σ'.holder = σ.holder := by
  unfold Locked.machineStep at h
  cases hk : (traced n).step (σ.m, σ.es) a with
  | error e =>
    rw [hk] at h
    cases h
  | ok x =>
    rw [hk] at h
    obtain rfl := Except.ok.inj h
    refine ⟨rfl, ?_, rfl, rfl⟩
    simp only [traced] at hk
    cases hm : σ.m.step a with
    | error e =>
      rw [hm] at hk
      cases hk
    | ok m' =>
      rw [hm] at hk
      obtain rfl := Except.ok.inj hk
      rfl

theorem Held.machine {a : Action n} (h : Held σ) (hB : Base σ.m)
    (hok : ∀ s, σ.m.move a = .exit s → ∀ l, σ.holder l ≠ some s)
    (hs : σ.machineStep a = .ok σ') : Held σ' := by
  obtain ⟨-, hst, hlk, hh⟩ := machineStep_ok hs
  refine ⟨fun {l} hl => ?_, fun {l s} hl => ?_⟩
  · rw [hh] at hl
    rw [hlk]
    exact h.free hl
  · rw [hh] at hl
    obtain ⟨h1, h2, h3⟩ := h.held hl
    obtain ⟨h4, h5⟩ := (step_effect hst).live_pid hB h3 fun he => hok s he l hl
    rw [hlk]
    exact ⟨h1, h2.trans h5.symm, h4⟩

/-- A step of the machine that a lock operation makes exits from no process. -/
theorem move_lockOp {c : Fin n} {o : Op} (ho : o = .sleep (addr l) ∨ o = .wakeup (addr l)) :
    ∀ s, m.move (.op c o) ≠ .exit s := by
  intro s
  rcases ho with rfl | rfl <;> simp only [Machine.move] <;> cases m.cpu c <;> simp [Machine.opMove]

/-- The states of the machine beside the locks are those of the recorded machine. -/
structure Sane (σ : Locked n κ) : Prop where
  reach : (traced n).Reachable (σ.m, σ.es)
  held : Held σ

theorem Sane.machine {a : Action n} (h : Sane σ)
    (hok : ∀ s, σ.m.move a = .exit s → ∀ l, σ.holder l ≠ some s)
    (hs : σ.machineStep a = .ok σ') : Sane σ' :=
  ⟨.step h.reach trivial (machineStep_ok hs).1,
    h.held.machine (Reach.base (Reach.of_traced h.reach)) hok hs⟩

variable [DecidableEq κ]

theorem Held.set {lk : Sleeplock} {x : Option Slot} (h : Held σ)
    (hfree : x = none → lk.locked = false)
    (hheld : ∀ s, x = some s → lk.locked = true ∧ lk.pid = (σ.m.k.proc s).pid ∧
      (σ.m.k.proc s).state.Live) : Held (σ.set l lk x) := by
  refine ⟨fun {l'} hl => ?_, fun {l' s} hl => ?_⟩
  · simp only [Locked.set, Function.update_apply] at hl ⊢
    split_ifs at hl ⊢
    · exact hfree hl
    · exact h.free hl
  · simp only [Locked.set, Function.update_apply] at hl ⊢
    split_ifs at hl ⊢
    · exact hheld s hl
    · exact h.held hl

theorem Sane.step {a : LockOp n κ} (h : Sane σ) (hok : Honest σ a)
    (hs : σ.step addr a = .ok σ') : Sane σ' := by
  have hB := Reach.base (Reach.of_traced h.reach)
  cases a with
  | machine a =>
    refine h.machine (fun s he => ?_) hs
    simpa [Honest, he] using hok
  | acquiresleep c l =>
    simp only [Locked.step] at hs
    split at hs
    · rename_i s hl hc
      cases hlk : (σ.lk l).acquiresleep (σ.m.k.proc s).pid with
      | none =>
        simp only [hlk] at hs
        exact h.machine (fun s' he => absurd he (move_lockOp (Or.inl rfl) s')) hs
      | some lk =>
        simp only [hlk] at hs
        obtain rfl := Except.ok.inj hs
        refine ⟨h.reach, h.held.set nofun fun s' he => ?_⟩
        obtain rfl := Option.some.inj he
        unfold Sleeplock.acquiresleep at hlk
        split_ifs at hlk
        obtain rfl := Option.some.inj hlk
        refine ⟨rfl, rfl, ?_⟩
        rw [hB.sched.running ⟨hl, hc⟩]
        exact live_running
    · cases hs
  | releasesleep c l =>
    simp only [Locked.step] at hs
    split at hs
    · have hset : Sane (σ.set l Sleeplock.releasesleep none) :=
        ⟨h.reach, h.held.set (fun _ => rfl) nofun⟩
      exact hset.machine (fun s' he => absurd he (move_lockOp (Or.inr rfl) s')) hs
    · cases hs

theorem Reach.sane (h : (lockSystem n κ addr).Reach Honest σ) : Sane σ := by
  refine h.invariant ?_ fun σ a σ' hI ha hs => hI.step ha hs
  rintro σ ⟨h0, hlk, hh⟩
  refine ⟨.init h0, fun {l} _ => ?_, fun {l s} hl => ?_⟩
  · rw [hlk]
    rfl
  · rw [hh] at hl
    cases hl

/-! ### The main result -/

theorem guard_eq_panic {lk : Sleeplock} {pid : ℤ} {msg : String} :
    lk.guard pid msg = .error (.panic msg) ↔ lk.holdingsleep pid = false := by
  unfold Sleeplock.guard
  cases lk.holdingsleep pid <;> simp

/-- **Ownership of sleep locks.** `holdingsleep`, evaluated by `p`, says whether `p` holds the lock
exactly when no other process holds it that is connected with `p` by `clone` calls made with
`CLONE_THREAD`.  The same condition says whether the tests of `iunlock`, `brelse`, `bwrite` and
`iderw` stop a `p` that does not hold the lock. -/
theorem sleeplock_ownership (h : (lockSystem n κ addr).Reach Honest σ) (l : κ) (p : Slot)
    (hu : (σ.m.k.proc p).state ≠ .unused) (he : (σ.m.k.proc p).state ≠ .embryo) :
    (((σ.lk l).holdingsleep (σ.m.k.proc p).pid = true ↔ σ.holder l = some p) ↔
      ∀ q, σ.holder l = some q → q ≠ p → ¬ Connected σ.es (σ.m.inc p) (σ.m.inc q)) ∧
    (σ.holder l ≠ some p → ∀ ref, 1 ≤ ref →
      (iunlockTest (σ.lk l) ref (σ.m.k.proc p).pid = .error (.panic "iunlock") ∧
        brelseTest (σ.lk l) (σ.m.k.proc p).pid = .error (.panic "brelse") ∧
        bwriteTest (σ.lk l) (σ.m.k.proc p).pid = .error (.panic "bwrite") ∧
        iderwTest (σ.lk l) (σ.m.k.proc p).pid = .error (.panic "iderw: buf not locked") ↔
      ∀ q, σ.holder l = some q → q ≠ p → ¬ Connected σ.es (σ.m.inc p) (σ.m.inc q))) := by
  have hS := Reach.sane h
  obtain ⟨ρ, hG⟩ := Reach.groups hS.reach
  have hp := hG.pid (Proc.used_of hu he)
  -- the holder is recorded by its `pid`, which is that of its group
  have hhold : ∀ q, σ.holder l = some q →
      ((σ.lk l).holdingsleep (σ.m.k.proc p).pid = true ↔
        Connected σ.es (σ.m.inc p) (σ.m.inc q)) := by
    intro q hq
    obtain ⟨h1, h2, h3⟩ := hS.held.held hq
    have hq := hG.pid (Or.inl h3)
    rw [Sleeplock.holdingsleep, h1, h2, Bool.true_and, beq_iff_eq, hp, hq, eq_comm]
    exact hG.connected_iff
  have hiff : ((σ.lk l).holdingsleep (σ.m.k.proc p).pid = true ↔ σ.holder l = some p) ↔
      ∀ q, σ.holder l = some q → q ≠ p → ¬ Connected σ.es (σ.m.inc p) (σ.m.inc q) := by
    cases hh : σ.holder l with
    | none =>
      refine iff_of_true ?_ nofun
      simp [Sleeplock.holdingsleep, hS.held.free hh]
    | some r =>
      rw [hhold r hh]
      constructor
      · intro h q hq hne hc
        obtain rfl := Option.some.inj hq
        exact hne (Option.some.inj (h.mp hc))
      · intro h
        constructor
        · intro hc
          by_contra hne
          exact h r rfl (fun he => hne (by rw [he])) hc
        · intro he
          obtain rfl := Option.some.inj he
          exact .refl _
  refine ⟨hiff, fun hne ref href => ?_⟩
  rw [← hiff, brelseTest, bwriteTest, iderwTest, guard_eq_panic, guard_eq_panic, guard_eq_panic]
  have hiu : iunlockTest (σ.lk l) ref (σ.m.k.proc p).pid = .error (.panic "iunlock") ↔
      (σ.lk l).holdingsleep (σ.m.k.proc p).pid = false := by
    unfold iunlockTest
    have hr : ¬ ref < 1 := by omega
    cases (σ.lk l).holdingsleep (σ.m.k.proc p).pid <;> simp [hr]
  rw [hiu, and_self, and_self, and_self, iff_false_right hne, Bool.not_eq_true]

/-- The state after `userinit`, with one lock. -/
def lockBoot : Locked 1 Unit := ⟨boot0 1, [], fun _ => Sleeplock.init, fun _ => none⟩

theorem init_lockBoot (addr : Unit → ℕ) : (lockSystem 1 Unit addr).init lockBoot :=
  ⟨⟨init_boot0 1, rfl⟩, rfl, rfl⟩

/-- The holder of a lock whose children are processes is recognised. -/
theorem sleeplock_ownership_fork : ∃ σ : Locked 1 Unit, σ.holder () = some 0 ∧
    (σ.m.k.proc 1).state = .runnable ∧
    (σ.lk ()).holdingsleep (σ.m.k.proc 0).pid = true := by
  let o : Oracle := ⟨some 1, true, 0, none⟩
  let call : List (Action 1) :=
    [.enter 0, .scan 0, .resume 0, .op 0 .fork] ++ List.replicate 8 (.op 0 (.next o))
  let as : List (LockOp 1 Unit) := call.map .machine ++ [.acquiresleep 0 ()]
  have hok : (lockSystem 1 Unit fun _ => 0).Obeys Honest lockBoot as := by
    decide +kernel
  have hrun : (lockSystem 1 Unit fun _ => 0).Ends (fun σ => σ.holder () = some 0 ∧
      (σ.m.k.proc 0).state = .running ∧ (σ.m.k.proc 1).state = .runnable) lockBoot as := by
    decide +kernel
  obtain ⟨σ, hσ, hh, hs, hs1⟩ := System.Reach.of_ends as (init_lockBoot _) hok hrun
  have hmain := (sleeplock_ownership hσ () 0 (by rw [hs]; nofun) (by rw [hs]; nofun)).1
  refine ⟨σ, hh, hs1, (hmain.mpr ?_).mpr hh⟩
  intro q hq hne
  rw [hh] at hq
  exact absurd (Option.some.inj hq).symm hne

/-- The thread of the process that holds the lock is taken for the holder. -/
theorem sleeplock_ownership_counterexample : ∃ σ : Locked 1 Unit,
    (lockSystem 1 Unit fun _ => 0).Reach Honest σ ∧ σ.holder () = some 0 ∧
    (σ.m.k.proc 1).state = .running ∧
    (σ.lk ()).holdingsleep (σ.m.k.proc 1).pid = true ∧
    (brelseTest (σ.lk ()) (σ.m.k.proc 1).pid).toOption = some () := by
  let o : Oracle := ⟨some 1, true, 0, none⟩
  let call : List (Action 1) :=
    [.enter 0, .scan 0, .resume 0, .op 0 (.clone 8)] ++ List.replicate 11 (.op 0 (.next o))
  let as : List (LockOp 1 Unit) := call.map .machine ++ [.acquiresleep 0 (), .machine (.op 0 .yield), .machine (.scan 0),
        .machine (.resume 0)]
  have hok : (lockSystem 1 Unit fun _ => 0).Obeys Honest lockBoot as := by
    decide +kernel
  have hrun : (lockSystem 1 Unit fun _ => 0).Ends (fun σ => σ.holder () = some 0 ∧
      (σ.m.k.proc 1).state = .running ∧
      (σ.lk ()).holdingsleep (σ.m.k.proc 1).pid = true ∧
      (brelseTest (σ.lk ()) (σ.m.k.proc 1).pid).toOption = some ()) lockBoot as := by
    decide +kernel
  exact System.Reach.of_ends as (init_lockBoot _) hok hrun

end OsSemester.Xv6
