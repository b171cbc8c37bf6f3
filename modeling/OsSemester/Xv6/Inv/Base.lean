import OsSemester.Xv6.Spec.Step

/-!
# The base invariants of the machine

* `Sched`: the `RUNNING` slots are exactly those a CPU is executing, each on one CPU.
* `Life`: a slot in creation belongs to one creator and is `EMBRYO`; only live processes are inside
  a call; a slot that the scheduler may pick has a kernel stack and a page directory.

Both hold in every reachable state, without any condition on the run (`Reachable.base`).  `Change`
is what they make of `Effect`: the steps that only schedule, mark or unshare are summed up in
`Quiet`, the others keep a constructor each.
-/

namespace OsSemester.Xv6

open Machine

variable {n : ℕ} {m m' m0 : Machine n} {a : Action n} {mv : Move} {c : Fin n} {s np t : Slot}

/-- CPU `c` has `proc` pointing to `t`, and has not switched back to its scheduler. -/
def Machine.OnCpu (m : Machine n) (c : Fin n) (t : Slot) : Prop :=
  m.cpu c = some t ∧ ∀ i, m.lock ≠ .sched c i

/-- CPUs and `RUNNING` slots correspond. -/
structure Sched (m : Machine n) : Prop where
  running_iff : ∀ t, (m.k.proc t).state = .running ↔ ∃ c, m.OnCpu c t
  unique : ∀ {c c' t}, m.OnCpu c t → m.OnCpu c' t → c = c'
  lock_proc : ∀ {c}, m.lock = .proc c → ∃ s, m.cpu c = some s

/-- The life of a slot up to its exit. -/
structure Life (m : Machine n) : Prop where
  embryo : ∀ {s st np}, m.pc s = .create st np → (m.k.proc np).state = .embryo
  creator : ∀ {s s' st st' np}, m.pc s = .create st np → m.pc s' = .create st' np → s = s'
  busy : ∀ {s}, m.pc s ≠ .user → (m.k.proc s).state.Live
  exiting : ∀ {s st}, m.pc s = .exit st → s ≠ m.k.initproc
  equipped : ∀ {t}, (m.k.proc t).state.Live ∨ (m.k.proc t).state = .zombie →
    (m.k.proc t).kstack ≠ none ∧ (m.k.proc t).pgdir ≠ none
  pastKstack : ∀ {s st np}, m.pc s = .create st np → st.PastKstack → (m.k.proc np).kstack ≠ none
  pastDir : ∀ {s st np}, m.pc s = .create st np → st.PastDir → (m.k.proc np).pgdir ≠ none
  initLive : (m.k.proc m.k.initproc).state.Live

/-- The base invariants together. -/
structure Base (m : Machine n) : Prop where
  sched : Sched m
  life : Life m

/-! ### Who is running -/

namespace Sched

theorem running (hS : Sched m) (hr : m.Runs c s) : (m.k.proc s).state = .running :=
  (hS.running_iff s).mpr ⟨c, hr.cpu, fun i h => by rw [hr.lock] at h; cases h⟩

theorem running_of_proc (hS : Sched m) (hl : m.lock = .proc c) (hc : m.cpu c = some s) :
    (m.k.proc s).state = .running :=
  (hS.running_iff s).mpr ⟨c, hc, fun i h => by rw [hl] at h; cases h⟩

theorem running_of_scans (hS : Sched m) (h : m.Scans c s m0) : (m.k.proc s).state = .running := by
  cases h with
  | call hl hc => exact hS.running ⟨hl, hc⟩
  | back hl hc => exact hS.running_of_proc hl hc

/-- A step after which the lock is free and no process has started or stopped running. -/
theorem stay (hS : Sched m) (hl : ∀ c i, m.lock ≠ .sched c i) (hcpu : m'.cpu = m.cpu)
    (hl' : m'.lock = .free)
    (hrun : ∀ t, (m'.k.proc t).state = .running ↔ (m.k.proc t).state = .running) : Sched m' := by
  have hon : ∀ c t, m'.OnCpu c t ↔ m.OnCpu c t := fun c t => by
    unfold OnCpu
    rw [hcpu, hl']
    exact ⟨fun h => ⟨h.1, hl c⟩, fun h => ⟨h.1, fun _ h => by cases h⟩⟩
  exact ⟨fun t => by rw [hrun, hS.running_iff t]; simp only [hon],
    fun h h' => hS.unique ((hon _ _).mp h) ((hon _ _).mp h'),
    fun h => by rw [hl'] at h; cases h⟩

/-- A step in which the process `s` on CPU `c` gives up its state and switches away. -/
theorem leave (hS : Sched m) {i : ℕ} (hl : ∀ c i, m.lock ≠ .sched c i) (hc : m.cpu c = some s)
    (hcpu : m'.cpu = m.cpu) (hl' : m'.lock = .sched c i) (hs : (m'.k.proc s).state ≠ .running)
    (hrun : ∀ t, t ≠ s → ((m'.k.proc t).state = .running ↔ (m.k.proc t).state = .running)) :
    Sched m' := by
  have hon : ∀ c' t, m'.OnCpu c' t ↔ m.OnCpu c' t ∧ c' ≠ c := fun c' t => by
    unfold OnCpu
    rw [hcpu, hl']
    constructor
    · exact fun h => ⟨⟨h.1, hl c'⟩, fun hcc => h.2 i (by rw [hcc])⟩
    · rintro ⟨h, hne⟩
      exact ⟨h.1, fun j hj => hne (Lock.sched.inj hj).1.symm⟩
  have hsc : m.OnCpu c s := ⟨hc, hl c⟩
  refine ⟨fun t => ?_, fun h h' => hS.unique ((hon _ _).mp h).1 ((hon _ _).mp h').1,
    fun h => by rw [hl'] at h; cases h⟩
  simp only [hon]
  by_cases ht : t = s
  · subst ht
    refine iff_of_false hs ?_
    rintro ⟨c', h, hne⟩
    exact hne (hS.unique h hsc)
  · rw [hrun t ht, hS.running_iff t]
    refine exists_congr fun c' => ⟨fun h => ⟨h, ?_⟩, And.left⟩
    rintro rfl
    exact ht (Option.some.inj (h.1.symm.trans hc))

/-- The scheduler of `c` switches to the slot it has found. -/
theorem pick (hS : Sched m) {i : ℕ} (hl : m.lock = .sched c i)
    (hr : (m.k.proc s).state = .runnable) :
    Sched { m with
      k := m.k.modify s (·.setState .running)
      cpu := Function.update m.cpu c (some s)
      lock := .proc c } := by
  have hs : ∀ c', ¬ m.OnCpu c' s := fun c' h => by
    have := (hS.running_iff s).mpr ⟨c', h⟩
    rw [hr] at this
    cases this
  have hc : ∀ t, ¬ m.OnCpu c t := fun t h => h.2 i hl
  have hon : ∀ c' t, ({ m with
      k := m.k.modify s (·.setState .running)
      cpu := Function.update m.cpu c (some s)
      lock := .proc c } : Machine n).OnCpu c' t ↔ (c' = c ∧ t = s) ∨ m.OnCpu c' t := by
    intro c' t
    have := hc t
    unfold OnCpu at *
    grind
  refine ⟨fun t => ?_, fun h h' => ?_, fun h => ?_⟩
  · simp only [hon, Kernel.modify_proc]
    have := hS.running_iff t
    split_ifs with ht
    · simp [ht]
    · simp [ht, this]
  · rcases (hon _ _).mp h with ⟨h1, rfl⟩ | h1 <;> rcases (hon _ _).mp h' with ⟨h2, h3⟩ | h2
    · rw [h1, h2]
    · exact absurd h2 (hs _)
    · exact absurd (h3 ▸ h1) (hs _)
    · exact hS.unique h1 h2
  · obtain rfl := Lock.proc.inj h
    exact ⟨s, Function.update_self ..⟩

end Sched

/-! ### The frame of the quiet steps -/

/-- The moves that leave every process in the same part of its life. -/
def Move.IsQuiet : Move → Prop
  | .other | .unshare _ | .exitOfile _ | .exitNext _ _ => True
  | .waitBlock _ | .joinBlock _ _ _ | .kill _ | .tkill _ => True
  | _ => False

/-- What all quiet moves leave alone. -/
structure Quiet (m m' : Machine n) : Prop where
  keep : ∀ t, Keep (m.k.proc t) (m'.k.proc t)
  globals : SameGlobals m.k m'.k
  inc : m'.inc = m.inc
  parentInc : m'.parentInc = m.parentInc
  threadparentInc : m'.threadparentInc = m.threadparentInc
  log : m'.log = m.log
  create : ∀ s st np, m'.pc s = .create st np ↔ m.pc s = .create st np
  busy : ∀ s, m'.pc s = m.pc s ∨
    ((m.k.proc s).state = .running ∧ ∀ st, m'.pc s = .exit st → s ≠ m.k.initproc)

theorem Keep.of_eq {p p' : Proc} (h : p' = p) : Keep p p' := by
  rw [h]
  exact Keep.refl p

theorem Keep.setState {p : Proc} {st : ProcState} (h : p.state.Live) (h' : st.Live) :
    Keep p (p.setState st) :=
  ⟨Or.inr ⟨h, h'⟩, rfl, rfl, rfl, rfl, rfl, rfl, rfl, rfl, rfl, rfl, id⟩

/-- A quiet step that leaves the control states alone. -/
theorem Quiet.of_keep (hk : ∀ t, Keep (m.k.proc t) (m'.k.proc t)) (hg : SameGlobals m.k m'.k)
    (hi : m'.inc = m.inc) (hp : m'.parentInc = m.parentInc)
    (ht : m'.threadparentInc = m.threadparentInc) (hl : m'.log = m.log) (hpc : m'.pc = m.pc) :
    Quiet m m' :=
  ⟨hk, hg, hi, hp, ht, hl, fun _ _ _ => by rw [hpc], fun _ => Or.inl (by rw [hpc])⟩

/-- A quiet step of a running process from one part of a call that does not create to another. -/
theorem Quiet.of_pc (hk : ∀ t, Keep (m.k.proc t) (m'.k.proc t)) (hg : SameGlobals m.k m'.k)
    (hi : m'.inc = m.inc) (hp : m'.parentInc = m.parentInc)
    (ht : m'.threadparentInc = m.threadparentInc) (hl : m'.log = m.log) {p : Pc}
    (hpc : m'.pc = Function.update m.pc s p) (hs : (m.k.proc s).state = .running)
    (hold : ∀ st np, m.pc s ≠ .create st np) (hnew : ∀ st np, p ≠ .create st np)
    (hexit : ∀ st, p = .exit st → s ≠ m.k.initproc) : Quiet m m' := by
  refine ⟨hk, hg, hi, hp, ht, hl, fun t st np => ?_, fun t => ?_⟩ <;> rw [hpc] <;>
    by_cases hts : t = s
  · subst hts
    rw [Function.update_self]
    exact iff_of_false (hnew st np) (hold st np)
  · rw [Function.update_of_ne hts]
  · subst hts
    rw [Function.update_self]
    exact Or.inr ⟨hs, hexit⟩
  · rw [Function.update_of_ne hts]
    exact Or.inl rfl

theorem Quiet.refl (m : Machine n) : Quiet m m :=
  .of_keep (fun _ => Keep.refl _) (SameGlobals.refl _) rfl rfl rfl rfl rfl

theorem tidyUp_keep (m : Machine n) (s t : Slot) :
    Keep (m.k.proc t) ((m.tidyUp s).k.proc t) :=
  modify_keep m.k s t (fun p => { p with chan := none })
    ⟨Or.inl rfl, rfl, rfl, rfl, rfl, rfl, rfl, rfl, rfl, rfl, rfl, id⟩

theorem Machine.Scans.keep (h : m.Scans c s m0) (t : Slot) : Keep (m.k.proc t) (m0.k.proc t) := by
  cases h with
  | call => exact Keep.refl _
  | back => exact tidyUp_keep m s t

theorem Machine.Scans.state (h : m.Scans c s m0) (t : Slot) :
    (m0.k.proc t).state = (m.k.proc t).state := by
  cases h with
  | call => rfl
  | back =>
    simp only [tidyUp, setK, Kernel.modify_proc]
    grind

/-- The parts of the machine that the return from `sleep` leaves alone. -/
theorem Machine.Scans.rest (h : m.Scans c s m0) : SameGlobals m.k m0.k ∧ m0.inc = m.inc ∧
    m0.parentInc = m.parentInc ∧ m0.threadparentInc = m.threadparentInc ∧ m0.log = m.log ∧
    m0.pc = m.pc ∧ m0.cpu = m.cpu ∧ m0.lock = m.lock ∧ m0.resume = m.resume := by
  cases h with
  | call => exact ⟨SameGlobals.refl _, rfl, rfl, rfl, rfl, rfl, rfl, rfl, rfl⟩
  | back => exact ⟨⟨rfl, rfl, rfl, rfl, rfl⟩, rfl, rfl, rfl, rfl, rfl, rfl, rfl, rfl⟩

theorem Machine.Scans.not_sched (h : m.Scans c s m0) : ∀ c i, m.lock ≠ .sched c i := by
  cases h with
  | call hl => exact fun c i h => by rw [hl] at h; cases h
  | back hl => exact fun c i h => by rw [hl] at h; cases h

theorem Machine.Scans.cpu (h : m.Scans c s m0) : m.cpu c = some s := by
  cases h <;> assumption

theorem Machine.Runs.not_sched (h : m.Runs c s) : ∀ c i, m.lock ≠ .sched c i :=
  fun c i hl => by rw [h.lock] at hl; cases hl

/-- Falling asleep keeps the process in its part of life. -/
theorem fallAsleep_keep (k : Kernel) {s : Slot} (ch : Chan) (t : Slot) (h : (k.proc s).state.Live) :
    Keep (k.proc t) ((fallAsleep k s ch).proc t) :=
  modify_keep k s t _
    ⟨Or.inr ⟨h, live_sleeping⟩, rfl, rfl, rfl, rfl, rfl, rfl, rfl, rfl, rfl, rfl, id⟩

theorem unshareOfile_keep (k : Kernel) (cur t : Slot) :
    Keep (k.proc t) ((unshareOfile k cur).proc t) :=
  ⟨Or.inl rfl, rfl, rfl, rfl, rfl, rfl, rfl, rfl, rfl, rfl, rfl, id⟩

theorem unshareCwd_keep (k : Kernel) (cur t : Slot) :
    Keep (k.proc t) ((unshareCwd k cur).proc t) :=
  ⟨Or.inl rfl, rfl, rfl, rfl, rfl, rfl, rfl, rfl, rfl, rfl, rfl, id⟩

theorem setJoinproc_keep (k : Kernel) (s t : Slot) (f : Option Slot) :
    Keep (k.proc t) ((k.modify s (·.setJoinproc f)).proc t) :=
  modify_keep k s t _ ⟨Or.inl rfl, rfl, rfl, rfl, rfl, rfl, rfl, rfl, rfl, rfl, rfl, id⟩

/-- **The quiet moves are quiet.** -/
theorem Effect.quiet (hS : Sched m) (hL : Life m) (h : Effect m mv m') (hq : mv.IsQuiet) :
    Quiet m m' := by
  have hrefl : ∀ t, Keep (m.k.proc t) (m.k.proc t) := fun _ => Keep.refl _
  have hg := SameGlobals.refl m.k
  cases h with
  | enter | idle | back => exact .of_keep hrefl hg rfl rfl rfl rfl rfl
  | @pick _ _ s _ hr =>
    refine .of_keep (fun t => ?_) ⟨rfl, rfl, rfl, rfl, rfl⟩ rfl rfl rfl rfl rfl
    exact modify_keep m.k s t (·.setState .running)
      (.setState (by rw [hr]; exact live_runnable) live_running)
  | woke hs =>
    obtain ⟨hg0, h1, h2, h3, h4, h5, -⟩ := hs.rest
    exact .of_keep hs.keep hg0 h1 h2 h3 h4 h5
  | wakeup =>
    exact .of_keep (fun t => (wakeup1_touch _ _ t).keep (wakeup1_parent _ _ t))
      (wakeup1_globals _ _) rfl rfl rfl rfl rfl
  | @yield _ s hr =>
    refine .of_keep (fun t => ?_) ⟨rfl, rfl, rfl, rfl, rfl⟩ rfl rfl rfl rfl rfl
    exact modify_keep m.k s t (·.setState .runnable)
      (.setState (by rw [hS.running hr]; exact live_running) live_runnable)
  | @sleep _ s ch hr =>
    refine .of_keep (fun t => ?_) ⟨rfl, rfl, rfl, rfl, rfl⟩ rfl rfl rfl rfl rfl
    exact fallAsleep_keep m.k _ t (by rw [hS.running hr]; exact live_running)
  | same => exact .refl m
  | execFail hr hpc =>
    exact .of_pc hrefl hg rfl rfl rfl rfl rfl (hS.running hr) (by simp [hpc]) (by simp) (by simp)
  | unshare hr hpc =>
    exact .of_pc (fun t => (unshareOfile_keep m.k _ t).trans (unshareCwd_keep _ _ t))
      ⟨rfl, rfl, rfl, rfl, rfl⟩ rfl rfl rfl rfl rfl (hS.running hr) (by simp [hpc]) (by simp)
      (by simp)
  | exitOfile hr hpc hne =>
    exact .of_pc (unshareOfile_keep m.k _) ⟨rfl, rfl, rfl, rfl, rfl⟩ rfl rfl rfl rfl rfl
      (hS.running hr) (by simp [hpc]) (by simp) (fun _ _ => hne)
  | exitCwd hr hpc =>
    exact .of_pc (unshareCwd_keep m.k _) ⟨rfl, rfl, rfl, rfl, rfl⟩ rfl rfl rfl rfl rfl
      (hS.running hr) (by simp [hpc]) (by simp) (fun _ _ => hL.exiting hpc)
  | @exitFiles _ s _ _ _ hr hpc hk =>
    obtain ⟨hg, hp⟩ := exitFiles_ok hk
    refine .of_pc (fun t => ?_) hg rfl rfl rfl rfl rfl
      (hS.running hr) (by simp [hpc]) (by simp) (fun _ _ => hL.exiting hpc)
    rw [setPc_k, setK_k, hp]
    split_ifs with ht
    · subst ht
      exact ⟨Or.inl rfl, rfl, rfl, rfl, rfl, rfl, rfl, rfl, rfl, rfl, rfl, id⟩
    · exact .refl _
  | @exitIput _ s _ hr hpc =>
    refine .of_pc (fun t => ?_) ⟨rfl, rfl, rfl, rfl, rfl⟩ rfl rfl rfl rfl rfl
      (hS.running hr) (by simp [hpc]) (by simp) (fun _ _ => hL.exiting hpc)
    exact modify_keep m.k s t (fun p => { p with cwd := none })
      ⟨Or.inl rfl, rfl, rfl, rfl, rfl, rfl, rfl, rfl, rfl, rfl, rfl, id⟩
  | waitBlock hs =>
    obtain ⟨hg0, h1, h2, h3, h4, h5, -⟩ := hs.rest
    refine .of_keep (fun t => (hs.keep t).trans ?_)
      ⟨hg0.nextpid, hg0.initproc, hg0.inuse, hg0.ndir, hg0.freed⟩ h1 h2 h3 h4 h5
    exact fallAsleep_keep _ _ t (by rw [hs.state, hS.running_of_scans hs]; exact live_running)
  | @joinBlock _ s _ _ f _ hs =>
    obtain ⟨hg0, h1, h2, h3, h4, h5, -⟩ := hs.rest
    refine .of_keep (fun t => ((hs.keep t).trans (setJoinproc_keep _ s t f)).trans ?_)
      ⟨hg0.nextpid, hg0.initproc, hg0.inuse, hg0.ndir, hg0.freed⟩ h1 h2 h3 h4 h5
    refine fallAsleep_keep _ _ t ?_
    rw [Kernel.modify_proc_self, Proc.setJoinproc_state, hs.state, hS.running_of_scans hs]
    exact live_running
  | kill =>
    exact .of_keep (fun t => (kill_touch _ _ t).keep (kill_parent _ _ t)) (kill_globals _ _)
      rfl rfl rfl rfl rfl
  | tkill =>
    exact .of_keep (fun t => (tkill_touch _ _ t).keep (tkill_parent _ _ t)) (tkill_globals _ _)
      rfl rfl rfl rfl rfl
  | _ => exact absurd hq (by simp [Move.IsQuiet])

/-! ### The other steps -/

/-- The caller `s` reclaims the slot `p`; `freed` says whether its page directory was freed. -/
structure Reclaim (m m' : Machine n) (s p : Slot) (freed : Bool) : Prop where
  running : (m.k.proc s).state = .running
  zombie : (m.k.proc p).state = .zombie
  keep : ∀ t, t ≠ p → Keep (m.k.proc t) (m'.k.proc t)
  state : (m'.k.proc p).state = .unused
  kstack : (m'.k.proc p).kstack = none
  pid : (m'.k.proc p).pid = 0
  parent : (m'.k.proc p).parent = none
  nextpid : m'.k.nextpid = m.k.nextpid
  initproc : m'.k.initproc = m.k.initproc
  ndir : m'.k.ndir = m.k.ndir
  inuse : ∀ pg, m'.k.inuse pg = if (m.k.proc p).kstack = some pg then false else m.k.inuse pg
  freed_eq : if freed then ∃ d, (m.k.proc p).pgdir = some d ∧ m'.k.freed = d :: m.k.freed
    else m'.k.freed = m.k.freed
  inc : m'.inc = m.inc
  parentInc : m'.parentInc = m.parentInc
  threadparentInc : m'.threadparentInc = m.threadparentInc
  pc : m'.pc = m.pc

/-- The control state after a statement of `fork` or `clone`. -/
def pcAfter (np : Slot) : Option Stmt → Pc
  | none => .user
  | some st => .create st np

/-- What a step changes in the lives of the processes. -/
inductive Change (m : Machine n) : Move → Machine n → Prop
  | quiet {mv : Move} {m' : Machine n} : mv.IsQuiet → Quiet m m' → Change m mv m'
  | alloc {s np : Slot} {fl} {k : Kernel} : (m.k.proc s).state = .running → m.pc s = .user →
      allocproc m.k = some (np, k) →
      Change m (.alloc s np fl) { (m.setK k).setPc s (.create (.kstack fl) np) with
        resume := Function.update m.resume np .forkret
        inc := Function.update m.inc np m.k.nextpid }
  | stmt {s np : Slot} {o st nx} {k : Kernel} : (m.k.proc s).state = .running →
      m.pc s = .create st np → st.exec m.k s np o = .ok (k, nx) →
      Change m (.stmt s np o st) (((m.record s np o st).setK k).setPc s (pcAfter np nx))
  | commit {s : Slot} {sz} {k : Kernel} : (m.k.proc s).state = .running → m.pc s = .exec →
      execCommit m.k s sz = .ok k → Change m (.commit s sz) ((m.setK k).setPc s .user)
  | exit {c : Fin n} {s : Slot} : (m.k.proc s).state = .running → m.pc s = .exit .zombie →
      Change m (.exit s)
        ((((m.recordExit s).setK (exitLocked m.k s)).setPc s .user).sched c s .yield)
  | waitReap {s p : Slot} {m' : Machine n} : waitScan m.k s = .reap p → Reclaim m m' s p true →
      (m'.k.proc p).isthread = false → (m'.k.proc p).tid = 0 →
      m'.log = .wait (m.inc s) (m.k.proc p).pid :: m.log → Change m (.waitReap s p) m'
  | joinReap {s p : Slot} {tid} {m' : Machine n} : IsThread m.k tid p → joinable m.k s p = true →
      Reclaim m m' s p (!(m.k.proc p).cloneVm) →
      (m'.k.proc p).isthread = (m.k.proc p).isthread → (m'.k.proc p).tid = (m.k.proc p).tid →
      m'.log = .join (m.inc s) tid :: m.log → Change m (.joinReap s tid p) m'

/-- What a scan has reclaimed. -/
theorem Reaped.reclaim {k : Kernel} {p : Slot} {b : Bool} {l : List Event} (hS : Sched m)
    (hs : m.Scans c s m0) (hz : (m0.k.proc p).state = .zombie) (h : Reaped m0.k k p b) :
    Reclaim m { m0 with k := k, lock := .free, log := l } s p b := by
  obtain ⟨hg, h1, h2, h3, h4, h5, -⟩ := hs.rest
  have hp := hs.keep p
  refine ⟨hS.running_of_scans hs, by rw [← hs.state, hz], fun t ht => ?_, h.state, h.kstack,
    h.pid, h.parent, h.nextpid.trans hg.nextpid, h.initproc.trans hg.initproc, h.ndir.trans hg.ndir,
    fun pg => ?_, ?_, h1, h2, h3, h5⟩
  · exact (hs.keep t).trans (.of_eq (h.proc_of_ne t ht))
  · rw [← hp.kstack, ← hg.inuse]
    exact h.inuse pg
  · have hf := h.freed_eq
    rw [hp.pgdir, hg.freed] at hf
    exact hf

theorem Machine.Scans.waitScan (h : m.Scans c s m0) (t : Slot) :
    Xv6.waitScan m0.k t = Xv6.waitScan m.k t := by
  cases h with
  | call => rfl
  | back => exact waitScan_tidyUp m s t

theorem Machine.Scans.joinScan (h : m.Scans c s m0) (t : Slot) (tid : ℤ) (f : Option Slot) :
    Xv6.joinScan m0.k t tid f = Xv6.joinScan m.k t tid f := by
  cases h with
  | call => rfl
  | back => exact joinLoop_tidyUp m s t tid _ f false

theorem Effect.change (hS : Sched m) (hL : Life m) (h : Effect m mv m') : Change m mv m' := by
  by_cases hq : mv.IsQuiet
  · exact .quiet hq (h.quiet hS hL hq)
  cases h with
  | alloc hr hpc ha => exact .alloc (hS.running hr) hpc ha
  | stmtLast hr hpc hk => exact .stmt (hS.running hr) hpc hk
  | stmtNext hr hpc hk => exact .stmt (hS.running hr) hpc hk
  | commit hr hpc hk => exact .commit (hS.running hr) hpc hk
  | exit hr hpc => exact .exit (hS.running hr) hpc
  | @waitReap _ _ p _ _ hs hw hk =>
    obtain ⟨hR, hth, htid⟩ := waitReap_ok hk
    have hp := hs.keep p
    refine .waitReap (by rw [← hs.waitScan, hw]) (hR.reclaim hS hs (waitScan_reap hw).2) hth htid ?_
    simp only [hp.pid, hs.rest.2.1, hs.rest.2.2.2.2.1]
  | @joinReap _ _ p _ _ _ _ hs hw hk =>
    obtain ⟨hR, hth, htid⟩ := joinReap_ok hk
    have hp := hs.keep p
    rw [hs.joinScan] at hw
    obtain ⟨hT, hj, hz⟩ := joinLoop_reap hw
    rw [hp.cloneVm] at hR
    refine .joinReap hT hj (hR.reclaim hS hs (by rw [hs.state, hz])) (hth.trans hp.isthread)
      (htid.trans hp.tid) ?_
    simp only [hs.rest.2.1, hs.rest.2.2.2.2.1]
  | _ => exact absurd trivial hq

/-! ### The base invariants are kept -/

@[simp] theorem record_k (m : Machine n) (s np : Slot) (o : Oracle) (st : Stmt) :
    (m.record s np o st).k = m.k := by
  cases st <;> rfl

@[simp] theorem record_pc (m : Machine n) (s np : Slot) (o : Oracle) (st : Stmt) :
    (m.record s np o st).pc = m.pc := by
  cases st <;> rfl

theorem record_rest (m : Machine n) (s np : Slot) (o : Oracle) (st : Stmt) :
    (m.record s np o st).cpu = m.cpu ∧ (m.record s np o st).lock = m.lock ∧
      (m.record s np o st).inc = m.inc ∧ (m.record s np o st).resume = m.resume := by
  cases st <;> exact ⟨rfl, rfl, rfl, rfl⟩

theorem Woken.running_iff {st st' : ProcState} (h : Woken st st') :
    st' = .running ↔ st = .running := by
  unfold Woken at h
  grind

/-- A statement of `fork` or `clone` starts and stops nobody. -/
theorem exec_running_iff (hL : Life m) {st : Stmt} {k : Kernel} {o : Oracle} {nx : Option Stmt}
    (hpc : m.pc s = .create st np) (hk : st.exec m.k s np o = .ok (k, nx)) (t : Slot) :
    (k.proc t).state = .running ↔ (m.k.proc t).state = .running := by
  by_cases ht : t = np
  · subst ht
    have := exec_state hk
    rw [hL.embryo hpc] at this ⊢
    grind
  · rw [exec_state_of_ne hk ht]

theorem Reaped.running_iff {k : Kernel} {p : Slot} {b : Bool} (h : Reaped m0.k k p b)
    (hs : m.Scans c s m0) (hz : (m0.k.proc p).state = .zombie) (t : Slot) :
    (k.proc t).state = .running ↔ (m.k.proc t).state = .running := by
  by_cases ht : t = p
  · subst ht
    rw [h.state, ← hs.state, hz]
    simp
  · rw [h.proc_of_ne t ht, hs.state]

theorem fallAsleep_state (k : Kernel) (s t : Slot) (ch : Chan) :
    ((fallAsleep k s ch).proc t).state = if t = s then .sleeping else (k.proc t).state := by
  unfold fallAsleep
  rw [Kernel.modify_proc]
  split <;> rfl

theorem execCommit_ok {k k' : Kernel} {sz : ℕ} (h : execCommit k s sz = .ok k') :
    ∃ d, (k.proc s).pgdir = some d ∧ k'.freed = d :: k.freed ∧ k'.ndir = k.ndir + 1 ∧
      k'.nextpid = k.nextpid ∧ k'.initproc = k.initproc ∧ k'.inuse = k.inuse ∧
      k'.ftable = k.ftable ∧ ∀ t, k'.proc t =
        if t = s then { k.proc s with pgdir := some k.ndir, sz := sz } else k.proc t := by
  unfold execCommit freevm at h
  cases hd : (k.proc s).pgdir with
  | none => rw [hd] at h; cases h
  | some d =>
    rw [hd] at h
    obtain rfl := Except.ok.inj h
    refine ⟨d, rfl, rfl, rfl, rfl, rfl, rfl, rfl, fun t => ?_⟩
    simp only [Kernel.modify_proc, installDir_proc, if_true]
    split_ifs <;> rfl

theorem Effect.sched (hS : Sched m) (hL : Life m) (h : Effect m mv m') : Sched m' := by
  cases h with
  | @enter c hl hc =>
    -- the CPU had no process before
    have hon : ∀ c' t, ({ m with lock := .sched c 0 } : Machine n).OnCpu c' t ↔ m.OnCpu c' t := by
      intro c' t
      unfold OnCpu
      rw [hl]
      grind
    exact ⟨fun t => by simpa only [hon] using hS.running_iff t,
      fun h h' => hS.unique ((hon _ _).mp h) ((hon _ _).mp h'), fun h => by cases h⟩
  | @idle c i hl =>
    have hon : ∀ c' t, ({ m with cpu := Function.update m.cpu c none, lock := .free } :
        Machine n).OnCpu c' t ↔ m.OnCpu c' t := by
      intro c' t
      unfold OnCpu
      rw [hl]
      grind
    exact ⟨fun t => by simpa only [hon] using hS.running_iff t,
      fun h h' => hS.unique ((hon _ _).mp h) ((hon _ _).mp h'), fun h => by cases h⟩
  | @pick c i s hl hr =>
    exact hS.pick hl hr
  | back hl hc =>
    exact hS.stay (fun c i h => by rw [hl] at h; cases h) rfl rfl fun _ => Iff.rfl
  | woke hs =>
    exact hS.stay hs.not_sched hs.rest.2.2.2.2.2.2.1 rfl fun t => by rw [← hs.state t]
  | wakeup hl =>
    exact hS.stay (fun c i h => by rw [hl] at h; cases h) rfl hl fun t =>
      (wakeup1_touch _ _ t).woken.running_iff
  | @yield _ s hr =>
    refine hS.leave hr.not_sched hr.cpu rfl rfl ?_ fun t ht => ?_
    · simp
    · simp [Kernel.modify_proc_of_ne _ _ _ ht]
  | sleep hr =>
    refine hS.leave hr.not_sched hr.cpu rfl rfl ?_ fun t ht => ?_ <;>
      simp only [sched_k, setK_k, fallAsleep_state]
    · simp
    · rw [if_neg ht]
  | same => exact hS
  | execFail hr => exact hS.stay hr.not_sched rfl hr.lock fun _ => Iff.rfl
  | @alloc _ _ np _ _ hr _ ha =>
    obtain ⟨hu, hp, -⟩ := allocproc_some ha
    refine hS.stay hr.not_sched rfl hr.lock fun t => ?_
    simp only [setPc_k, setK_k, hp]
    grind
  | stmtLast hr hpc hk =>
    obtain ⟨hc, hl, -⟩ := record_rest m _ _ _ _
    exact hS.stay hr.not_sched hc (hl.trans hr.lock) (exec_running_iff hL hpc hk)
  | stmtNext hr hpc hk =>
    obtain ⟨hc, hl, -⟩ := record_rest m _ _ _ _
    exact hS.stay hr.not_sched hc (hl.trans hr.lock) (exec_running_iff hL hpc hk)
  | unshare hr | exitOfile hr | exitCwd hr => exact hS.stay hr.not_sched rfl hr.lock fun _ => Iff.rfl
  | commit hr _ hk =>
    obtain ⟨_, -, -, -, -, -, -, -, hp⟩ := execCommit_ok hk
    refine hS.stay hr.not_sched rfl hr.lock fun t => ?_
    simp only [setPc_k, setK_k, hp]
    grind
  | exitFiles hr _ hk =>
    obtain ⟨-, hp⟩ := exitFiles_ok hk
    refine hS.stay hr.not_sched rfl hr.lock fun t => ?_
    simp only [setPc_k, setK_k, hp]
    grind
  | exitIput hr =>
    refine hS.stay hr.not_sched rfl hr.lock fun t => ?_
    simp only [setPc_k, setK_k, Kernel.modify_proc]
    grind
  | exit hr =>
    refine hS.leave hr.not_sched hr.cpu rfl rfl ?_ fun t ht => ?_
    · simp [exitLocked_self]
    · exact (exitLocked_touch m.k ht).woken.running_iff
  | @waitBlock _ s _ _ hs =>
    obtain ⟨-, -, -, -, -, -, hcpu, -⟩ := hs.rest
    refine hS.leave hs.not_sched hs.cpu hcpu rfl ?_ fun t ht => ?_ <;>
      simp only [sched_k, setK_k, fallAsleep_state]
    · simp
    · rw [if_neg ht, hs.state]
  | @joinBlock _ s _ _ _ _ hs =>
    obtain ⟨-, -, -, -, -, -, hcpu, -⟩ := hs.rest
    refine hS.leave hs.not_sched hs.cpu hcpu rfl ?_ fun t ht => ?_ <;>
      simp only [sched_k, setK_k, fallAsleep_state]
    · simp
    · rw [if_neg ht, Kernel.modify_proc_of_ne _ _ _ ht, hs.state]
  | @waitReap _ _ p _ _ hs hw hk =>
    exact hS.stay hs.not_sched hs.rest.2.2.2.2.2.2.1 rfl
      ((waitReap_ok hk).1.running_iff hs (waitScan_reap hw).2)
  | joinReap hs hw hk =>
    exact hS.stay hs.not_sched hs.rest.2.2.2.2.2.2.1 rfl
      ((joinReap_ok hk).1.running_iff hs (joinLoop_reap hw).2.2)
  | kill hr => exact hS.stay hr.not_sched rfl hr.lock fun t => (kill_touch _ _ t).woken.running_iff
  | tkill hr => exact hS.stay hr.not_sched rfl hr.lock fun t => (tkill_touch _ _ t).woken.running_iff

/-- A step that creates nothing: slots in creation and slots with a process in them keep what
`Life` says about them. -/
theorem Life.frame (hL : Life m)
    (hcreate : ∀ {s st np}, m'.pc s = .create st np → m.pc s = .create st np)
    (hbusy : ∀ {s}, m'.pc s ≠ .user → (m'.k.proc s).state.Live)
    (hexit : ∀ {s st}, m'.pc s = .exit st → s ≠ m.k.initproc)
    (hinit : m'.k.initproc = m.k.initproc)
    (hemb : ∀ {t}, (m.k.proc t).state = .embryo → (m'.k.proc t).state = .embryo ∧
      (m'.k.proc t).kstack = (m.k.proc t).kstack ∧ (m'.k.proc t).pgdir = (m.k.proc t).pgdir)
    (hused : ∀ {t}, (m'.k.proc t).state.Live ∨ (m'.k.proc t).state = .zombie →
      ((m.k.proc t).state.Live ∨ (m.k.proc t).state = .zombie) ∧
      (m'.k.proc t).kstack = (m.k.proc t).kstack ∧
      ((m.k.proc t).pgdir ≠ none → (m'.k.proc t).pgdir ≠ none))
    (hlive : (m'.k.proc m.k.initproc).state.Live) : Life m' where
  embryo h := (hemb (hL.embryo (hcreate h))).1
  creator h h' := hL.creator (hcreate h) (hcreate h')
  busy := hbusy
  exiting h := by
    rw [hinit]
    exact hexit h
  equipped ht := by
    obtain ⟨h, hk, hd⟩ := hused ht
    rw [hk]
    exact ⟨(hL.equipped h).1, hd (hL.equipped h).2⟩
  pastKstack h hst := by
    rw [(hemb (hL.embryo (hcreate h))).2.1]
    exact hL.pastKstack (hcreate h) hst
  pastDir h hst := by
    rw [(hemb (hL.embryo (hcreate h))).2.2]
    exact hL.pastDir (hcreate h) hst
  initLive := by
    rw [hinit]
    exact hlive

theorem Quiet.life (hL : Life m) (h : Quiet m m') : Life m' := by
  have heq : ∀ {t st}, ¬ ProcState.Live st →
      ((m'.k.proc t).state = st ↔ (m.k.proc t).state = st) := fun hst => (h.keep _).eq_iff hst
  refine hL.frame (fun hp => (h.create _ _ _).mp hp) (fun {s} hp => ?_) (fun {s st} hp => ?_)
    h.globals.initproc (fun ht => ⟨(heq not_live_embryo).mpr ht, (h.keep _).kstack,
      (h.keep _).pgdir⟩) (fun {t} ht => ?_) ((h.keep _).live_iff.mpr hL.initLive)
  · rw [(h.keep s).live_iff]
    rcases h.busy s with hb | ⟨hr, -⟩
    · exact hL.busy (by rwa [hb] at hp)
    · rw [hr]
      exact live_running
  · rcases h.busy s with hb | ⟨-, hb⟩
    · exact hL.exiting (by rwa [hb] at hp)
    · exact hb st hp
  · rw [(h.keep t).live_iff, heq not_live_zombie] at ht
    rw [(h.keep t).pgdir]
    exact ⟨ht, (h.keep t).kstack, id⟩

theorem succ_past (st : Stmt) (hpub : ¬ st.Publishes) : st.succ.PastKstack ∧
    (st.succ.PastDir ↔ st.PastDir ∨ st = .forkCopyuvm ∨ st = .clonePgdir) := by
  cases st with
  | kstack fl => cases fl <;> simp [Stmt.succ, Stmt.PastKstack, Stmt.PastDir]
  | _ => simp_all [Stmt.succ, Stmt.PastKstack, Stmt.PastDir, Stmt.Publishes]

theorem Stmt.Publishes.past {st : Stmt} (h : st.Publishes) : st.PastKstack ∧ st.PastDir := by
  rcases h with rfl | rfl <;> exact ⟨trivial, trivial⟩

/-- The new slot leaves `EMBRYO` by its last statement, or by a failure that frees it. -/
theorem exec_published {k k' : Kernel} {st : Stmt} {o : Oracle} {nx : Option Stmt}
    (h : st.exec k s np o = .ok (k', nx)) (hemb : (k.proc np).state = .embryo)
    (hst : (k'.proc np).state ≠ .embryo) (hu : (k'.proc np).state ≠ .unused) :
    nx = none ∧ st.Publishes ∧ (k'.proc np).state = .runnable := by
  have := exec_state h
  grind

/-- Who is creating after a statement, and what. -/
theorem pc_create_stmt {st : Stmt} {nx : Option Stmt} (hpc : m.pc s = .create st np) {t q : Slot}
    {st' : Stmt} (h : Function.update m.pc s (pcAfter np nx) t = .create st' q) :
    (t = s ∧ nx = some st' ∧ q = np) ∨ (t ≠ s ∧ m.pc t = .create st' q) := by
  by_cases ht : t = s
  · subst ht
    rw [Function.update_self] at h
    unfold pcAfter at h
    split at h
    · cases h
    · obtain ⟨rfl, rfl⟩ := Pc.create.inj h
      exact Or.inl ⟨rfl, rfl, rfl⟩
  · rw [Function.update_of_ne ht] at h
    exact Or.inr ⟨ht, h⟩

theorem life_stmt (hL : Life m) {st : Stmt} {k : Kernel} {o : Oracle} {nx : Option Stmt}
    (hrun : (m.k.proc s).state = .running) (hpc : m.pc s = .create st np)
    (hk : st.exec m.k s np o = .ok (k, nx)) :
    Life (((m.record s np o st).setK k).setPc s (pcAfter np nx)) := by
  have hemb := hL.embryo hpc
  have hst := exec_state hk
  have hks := exec_kstack hk
  have hdir := exec_pgdir hk
  have hof : ∀ t, t ≠ np → Keep (m.k.proc t) (k.proc t) := fun t => exec_keep_of_ne hk
  have hlive : ∀ t, (m.k.proc t).state.Live → (k.proc t).state.Live := fun t ht => by
    have hne : t ≠ np := by
      rintro rfl
      rw [hemb] at ht
      exact not_live_embryo ht
    exact (hof t hne).live_iff.mpr ht
  have hpcs : (((m.record s np o st).setK k).setPc s (pcAfter np nx)).pc =
      Function.update m.pc s (pcAfter np nx) := by simp
  have hother : ∀ {t st' q}, t ≠ s → m.pc t = .create st' q → q ≠ np := by
    rintro t st' q ht hq rfl
    exact ht (hL.creator hq hpc)
  refine ⟨fun {t st' q} hp => ?_, fun {t t' st' st'' q} hp hp' => ?_, fun {t} hp => ?_,
    fun {t st'} hp => ?_, fun {t} ht => ?_, fun {t st' q} hp hp' => ?_,
    fun {t st' q} hp hp' => ?_, ?_⟩
  all_goals simp only [hpcs, setPc_k, setK_k] at *
  · rcases pc_create_stmt hpc hp with ⟨-, rfl, rfl⟩ | ⟨ht, hq⟩
    · simpa [hemb] using hst
    · exact ((hof _ (hother ht hq)).eq_iff not_live_embryo).mpr (hL.embryo hq)
  · rcases pc_create_stmt hpc hp with ⟨rfl, -, rfl⟩ | ⟨ht, hq⟩ <;>
      rcases pc_create_stmt hpc hp' with ⟨rfl, -, h⟩ | ⟨ht', hq'⟩
    · rfl
    · exact absurd rfl (hother ht' hq')
    · exact absurd h (hother ht hq)
    · exact hL.creator hq hq'
  · apply hlive
    by_cases ht : t = s
    · rw [ht, hrun]
      exact live_running
    · rw [Function.update_of_ne ht] at hp
      exact hL.busy hp
  · have ht : t ≠ s := by
      rintro rfl
      rw [Function.update_self] at hp
      unfold pcAfter at hp
      split at hp <;> cases hp
    rw [Function.update_of_ne ht] at hp
    rw [(exec_globals hk).2.1]
    exact hL.exiting hp
  · by_cases hne : t = np
    · subst hne
      -- the slot is published by the last statement, with everything in place
      obtain ⟨rfl, hpub, -⟩ := exec_published hk hemb
        (by rintro he; rw [he] at ht; simp [not_live_embryo] at ht)
        (by rintro he; rw [he] at ht; simp [not_live_unused] at ht)
      obtain ⟨hk1, hk2⟩ := hpub.past
      have h1 := hL.pastKstack hpc hk1
      have h2 := hL.pastDir hpc hk2
      -- the statement that copies the directory is not the last one
      have hcopy : ¬ (st = .forkCopyuvm ∨ st = .clonePgdir) := by
        rintro (rfl | rfl) <;> exact hk2
      grind
    · have hkp := hof t hne
      rw [hkp.live_iff, hkp.eq_iff not_live_zombie] at ht
      rw [hkp.kstack, hkp.pgdir]
      exact hL.equipped ht
  · rcases pc_create_stmt hpc hp with ⟨-, rfl, rfl⟩ | ⟨ht, hq⟩
    · have := hL.pastKstack hpc
      grind
    · rw [(hof _ (hother ht hq)).kstack]
      exact hL.pastKstack hq hp'
  · rcases pc_create_stmt hpc hp with ⟨-, rfl, rfl⟩ | ⟨ht, hq⟩
    · have := hL.pastDir hpc
      obtain ⟨rfl, hpub⟩ := exec_next hk
      have := (succ_past st hpub).2
      have hs := hL.equipped (Or.inl (by rw [hrun]; exact live_running))
      grind
    · rw [(hof _ (hother ht hq)).pgdir]
      exact hL.pastDir hq hp'
  · rw [(exec_globals hk).2.1]
    exact hlive _ hL.initLive

theorem Reclaim.life {p : Slot} {b : Bool} (hL : Life m) (h : Reclaim m m' s p b) : Life m' := by
  have hp : ∀ {t}, (m.k.proc t).state ≠ .zombie → t ≠ p := fun ht hp => ht (hp ▸ h.zombie)
  have hlive : ∀ {t}, (m.k.proc t).state.Live → (m'.k.proc t).state.Live := fun ht =>
    (h.keep _ (hp fun hz => by rw [hz] at ht; exact not_live_zombie ht)).live_iff.mpr ht
  refine hL.frame (fun hpc => by rwa [h.pc] at hpc) (fun hpc => hlive (hL.busy (by rwa [h.pc] at hpc)))
    (fun hpc => hL.exiting (by rwa [h.pc] at hpc)) h.initproc (fun {t} ht => ?_) (fun {t} ht => ?_)
    (hlive hL.initLive)
  · have hk := h.keep t (hp (by rw [ht]; decide))
    exact ⟨(hk.eq_iff not_live_embryo).mpr ht, hk.kstack, hk.pgdir⟩
  · have htp : t ≠ p := by
      rintro rfl
      rw [h.state] at ht
      simp [not_live_unused] at ht
    have hk := h.keep t htp
    rw [hk.live_iff, hk.eq_iff not_live_zombie] at ht
    rw [hk.pgdir]
    exact ⟨ht, hk.kstack, id⟩

theorem life_alloc (hL : Life m) {k : Kernel} {fl : Option ℤ}
    (hrun : (m.k.proc s).state = .running) (hpc : m.pc s = .user)
    (ha : allocproc m.k = some (np, k)) :
    Life { (m.setK k).setPc s (.create (.kstack fl) np) with
      resume := Function.update m.resume np .forkret
      inc := Function.update m.inc np m.k.nextpid } := by
  obtain ⟨hu, hp, -, hi, -⟩ := allocproc_some ha
  have hne : ∀ {t}, (m.k.proc t).state ≠ .unused → k.proc t = m.k.proc t := fun {t} ht => by
    rw [hp, if_neg (by rintro rfl; exact ht hu)]
  have hpcs : ∀ {t st q}, Function.update m.pc s (.create (.kstack fl) np) t = .create st q →
      (t = s ∧ st = .kstack fl ∧ q = np) ∨ (t ≠ s ∧ m.pc t = .create st q) := by
    intro t st q h
    rw [Function.update_apply] at h
    grind
  have hemb : ∀ {t st q}, m.pc t = .create st q → k.proc q = m.k.proc q := fun h =>
    hne (by rw [hL.embryo h]; decide)
  have hlive : ∀ {t}, (m.k.proc t).state.Live → k.proc t = m.k.proc t := fun h =>
    hne (by rintro hu; rw [hu] at h; exact not_live_unused h)
  refine ⟨fun {t st q} hpc' => ?_, fun {t t' st st' q} h1 h2 => ?_, fun {t} ht => ?_,
    fun {t st} ht => ?_, fun {t} ht => ?_, fun {t st q} h1 h2 => ?_, fun {t st q} h1 h2 => ?_, ?_⟩
  all_goals simp only [setPc_k, setK_k, setPc_pc, setK_pc] at *
  · rcases hpcs hpc' with ⟨-, rfl, rfl⟩ | ⟨-, h⟩
    · rw [hp, if_pos rfl]
    · rw [hemb h, hL.embryo h]
  · rcases hpcs h1 with ⟨rfl, rfl, rfl⟩ | ⟨ht, h⟩ <;> rcases hpcs h2 with ⟨rfl, h3, h4⟩ | ⟨ht', h'⟩
    · rfl
    · exact absurd (hL.embryo h') (by rw [hu]; decide)
    · exact absurd (hL.embryo h) (by rw [h4, hu]; decide)
    · exact hL.creator h h'
  · by_cases hts : t = s
    · subst hts
      rw [hlive (by rw [hrun]; exact live_running), hrun]
      exact live_running
    · rw [Function.update_of_ne hts] at ht
      rw [hlive (hL.busy ht)]
      exact hL.busy ht
  · by_cases hts : t = s
    · subst hts
      rw [Function.update_self] at ht
      cases ht
    · rw [Function.update_of_ne hts] at ht
      rw [hi]
      exact hL.exiting ht
  · have htn : t ≠ np := by
      rintro rfl
      rw [hp, if_pos rfl] at ht
      simp [not_live_embryo] at ht
    rw [hp, if_neg htn] at ht ⊢
    exact hL.equipped ht
  · rcases hpcs h1 with ⟨-, rfl, rfl⟩ | ⟨-, h⟩
    · cases h2
    · rw [hemb h]
      exact hL.pastKstack h h2
  · rcases hpcs h1 with ⟨-, rfl, rfl⟩ | ⟨-, h⟩
    · cases h2
    · rw [hemb h]
      exact hL.pastDir h h2
  · rw [hi, hlive hL.initLive]
    exact hL.initLive

theorem pc_of_update_user {f : Slot → Pc} {t : Slot} (h : Function.update f s .user t ≠ .user) :
    t ≠ s ∧ Function.update f s .user t = f t := by
  rw [Function.update_apply] at *
  grind

/-- A process that returns to user code is creating nothing; the others go on. -/
theorem create_of_update_user {f : Slot → Pc} {t q : Slot} {st : Stmt}
    (h : Function.update f s .user t = .create st q) : f t = .create st q := by
  rwa [(pc_of_update_user (by rw [h]; simp)).2] at h

theorem life_commit (hL : Life m) {k : Kernel} {sz : ℕ} (hrun : (m.k.proc s).state = .running)
    (hk : execCommit m.k s sz = .ok k) : Life ((m.setK k).setPc s .user) := by
  obtain ⟨d, -, -, -, -, hi, -, -, hp⟩ := execCommit_ok hk
  have hst : ∀ t, (k.proc t).state = (m.k.proc t).state := fun t => by rw [hp]; grind
  have hks : ∀ t, (k.proc t).kstack = (m.k.proc t).kstack := fun t => by rw [hp]; grind
  have hpc : ∀ {t}, ((m.setK k).setPc s .user).pc t ≠ .user →
      ((m.setK k).setPc s .user).pc t = m.pc t := fun h => (pc_of_update_user h).2
  refine hL.frame (fun h => by rwa [hpc (by rw [h]; simp)] at h) (fun {t} h => ?_)
    (fun h => hL.exiting (by rwa [hpc (by rw [h]; simp)] at h)) hi (fun {t} ht => ?_)
    (fun {t} ht => ?_) ?_
  all_goals simp only [setPc_k, setK_k, hst, hks] at *
  · exact hL.busy (by rwa [hpc h] at h)
  · refine ⟨ht, trivial, ?_⟩
    rw [hp, if_neg]
    rintro rfl
    rw [ht] at hrun
    cases hrun
  · refine ⟨ht, trivial, fun h => ?_⟩
    rw [hp]
    split_ifs
    · simp
    · exact h
  · exact hL.initLive

theorem life_exit (hL : Life m) (hrun : (m.k.proc s).state = .running)
    (hpc : m.pc s = .exit .zombie) : Life
      ((((m.recordExit s).setK (exitLocked m.k s)).setPc s .user).sched c s .yield) := by
  have htouch : ∀ {t}, t ≠ s → Touch (m.k.proc t) ((exitLocked m.k s).proc t) :=
    fun ht => exitLocked_touch m.k ht
  have hlive : ∀ {t}, t ≠ s → (m.k.proc t).state.Live → ((exitLocked m.k s).proc t).state.Live :=
    fun {t} ht h => by
      rcases (htouch ht).woken.keep with h' | h'
      · rwa [h']
      · exact h'.2
  have hpc' : ∀ {t}, Function.update m.pc s .user t ≠ .user →
      t ≠ s ∧ Function.update m.pc s .user t = m.pc t := pc_of_update_user
  refine hL.frame (fun h => ?_) (fun {t} h => ?_) (fun h => ?_)
    (exitLocked_globals m.k s).initproc (fun {t} ht => ?_) (fun {t} ht => ?_)
    (hlive (hL.exiting hpc).symm hL.initLive)
  all_goals simp only [sched_k, sched_pc, setPc_k, setPc_pc, setK_k, setK_pc, recordExit_pc] at *
  · rwa [(hpc' (by rw [h]; simp)).2] at h
  · exact hlive (hpc' h).1 (hL.busy (by rwa [(hpc' h).2] at h))
  · rw [(hpc' (by rw [h]; simp)).2] at h
    exact hL.exiting h
  · have hts : t ≠ s := by
      rintro rfl
      rw [ht] at hrun
      cases hrun
    have hT := htouch hts
    have := hT.woken
    unfold Woken at this
    exact ⟨by grind, hT.kstack, hT.pgdir⟩
  · by_cases hts : t = s
    · subst hts
      obtain ⟨p, hT, he⟩ := exitLocked_self_touch m.k t
      rw [he]
      exact ⟨Or.inl (by rw [hrun]; exact live_running), hT.kstack, by
        rw [Proc.setState_pgdir, hT.pgdir]
        exact id⟩
    · have hT := htouch hts
      have hw := hT.woken
      unfold Woken ProcState.Live at *
      exact ⟨by grind, hT.kstack, by rw [hT.pgdir]; exact id⟩

/-- **Every step keeps the base invariants.** -/
theorem Effect.base (hB : Base m) (h : Effect m mv m') : Base m' := by
  refine ⟨h.sched hB.sched hB.life, ?_⟩
  cases h.change hB.sched hB.life with
  | quiet _ hq => exact hq.life hB.life
  | alloc hrun hpc ha => exact life_alloc hB.life hrun hpc ha
  | stmt hrun hpc hk => exact life_stmt hB.life hrun hpc hk
  | commit hrun _ hk => exact life_commit hB.life hrun hk
  | exit hrun hpc => exact life_exit hB.life hrun hpc
  | waitReap _ hR => exact hR.life hB.life
  | joinReap _ _ hR => exact hR.life hB.life

theorem base_boot (n : ℕ) (ofile : Fd → Option FileId) (ft : FTable) : Base (boot n ofile ft) := by
  have hp : ∀ t, (bootKernel ofile ft).proc t = if t = 0 then initProc ofile else Proc.zero :=
    fun t => by simp [bootKernel, Function.update_apply]
  have hk : (boot n ofile ft).k = bootKernel ofile ft := rfl
  have hpc : ∀ t, (boot n ofile ft).pc t = .user := fun t => rfl
  constructor
  · refine ⟨fun t => iff_of_false ?_ ?_, fun h => ?_, fun h => by cases h⟩
    · rw [hk, hp]
      split_ifs <;> simp [initProc, Proc.zero]
    · rintro ⟨c, h, -⟩
      cases h
    · cases h.1
  · refine ⟨fun h => ?_, fun h => ?_, fun h => absurd (hpc _) h, fun h => ?_, fun {t} ht => ?_,
      fun h => ?_, fun h => ?_, ?_⟩
    · cases h
    · cases h
    · cases h
    · rw [hk, hp] at *
      split_ifs at * <;> simp_all [initProc, Proc.zero, ProcState.Live]
    · cases h
    · cases h
    · rw [hk, hp]
      simp [bootKernel, initProc, ProcState.Live]

/-- **Every reachable state satisfies the base invariants.** -/
theorem Reach.base {ok : Machine n → Action n → Prop} (h : (machine n).Reach ok m) : Base m := by
  refine h.invariant ?_ fun m a m' hB _ hst => ?_
  · rintro _ ⟨ofile, ft, rfl⟩
    exact base_boot n ofile ft
  · have hst : m.step a = .ok m' := hst
    exact (step_effect hst).base hB

end OsSemester.Xv6
