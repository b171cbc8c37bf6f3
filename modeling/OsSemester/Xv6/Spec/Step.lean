import OsSemester.Xv6.Machine
import OsSemester.Xv6.Spec.Create

/-!
# What one step of the machine can do

`Machine.move` says, from the state before a step, what the step will do to the process table; the
conditions under which the properties of this development hold are conditions on moves.
`Machine.step_effect` is the inversion of `Machine.step`: one constructor of `Effect` for each way a
step can end, with the state it leads to.  Invariants are derived from `Effect` and never unfold
`step`.
-/

namespace OsSemester.Xv6

/-- What a step does to the process table. -/
inductive Move
  /-- Scheduling, sleeping, wakeups, and calls that return without effect. -/
  | other
  /-- `allocproc`, called from `fork`, or from `clone` with its flags. -/
  | alloc (s np : Slot) (flags : Option ℤ)
  | stmt (s np : Slot) (o : Oracle) (st : Stmt)
  /-- `exec` leaves the sharing relations. -/
  | unshare (s : Slot)
  | commit (s : Slot) (sz : ℕ)
  | exitOfile (s : Slot)
  | exitNext (s : Slot) (st : ExitStmt)
  /-- The critical section of `exit`. -/
  | exit (s : Slot)
  | waitBlock (s : Slot)
  | waitReap (s p : Slot)
  | joinBlock (s : Slot) (tid : ℤ) (found : Option Slot)
  | joinReap (s : Slot) (tid : ℤ) (p : Slot)
  | kill (pid : ℤ)
  | tkill (tid : ℤ)

/-- The move of a scan of `wait`. -/
def waitMove (k : Kernel) (s : Slot) : Move :=
  match waitScan k s with
  | .reap p => .waitReap s p
  | .fail => .other
  | .block _ => .waitBlock s

/-- The move of a scan of `join`. -/
def joinMove (k : Kernel) (s : Slot) (tid : ℤ) (found : Option Slot) : Move :=
  match joinScan k s tid found with
  | .reap p => .joinReap s tid p
  | .fail => .other
  | .block found' => .joinBlock s tid found'

namespace Machine

variable {n : ℕ} (m : Machine n)

/-- The move of a process back from `swtch`. -/
def resumeMove (s : Slot) : Move :=
  match m.resume s with
  | .wait => waitMove m.k s
  | .join tid found => joinMove m.k s tid found
  | _ => .other

def allocMove (s : Slot) (flags : Option ℤ) : Move :=
  match allocproc m.k with
  | none => .other
  | some (np, _) => .alloc s np flags

/-- The move of the next statement of a call. -/
def nextMove (s : Slot) (o : Oracle) : Move :=
  match m.pc s with
  | .user => .other
  | .create st np => .stmt s np o st
  | .exec => if o.ok then .commit s o.sz else .other
  | .exit .zombie => .exit s
  | .exit st => .exitNext s st

def opMove (s : Slot) : Op → Move
  | .next o => m.nextMove s o
  | .fork => m.allocMove s none
  | .clone flags => if flags < 0 ∨ flags > 31 then .other else m.allocMove s (some flags)
  | .wait => waitMove m.k s
  | .join tid o => joinMove m.k s tid o.wild
  | .exec => .unshare s
  | .exit => .exitOfile s
  | .kill pid => .kill pid
  | .tkill tid => .tkill tid
  | _ => .other

/-- What the action does in this state, if it is possible. -/
def move : Action n → Move
  | .resume c =>
    match m.cpu c with
    | some s => m.resumeMove s
    | none => .other
  | .op c o =>
    match m.cpu c with
    | some s => m.opMove s o
    | none => .other
  | _ => .other

/-- The process `s` on CPU `c` is in kernel or user code with `ptable.lock` free. -/
structure Runs (c : Fin n) (s : Slot) : Prop where
  lock : m.lock = .free
  cpu : m.cpu c = some s

/-- The process `s` on CPU `c` starts a scan in `m0`: at the beginning of the call, or after the
return from `sleep`. -/
inductive Scans (c : Fin n) (s : Slot) : Machine n → Prop
  | call : m.lock = .free → m.cpu c = some s → Scans c s m
  | back : m.lock = .proc c → m.cpu c = some s → Scans c s (m.tidyUp s)

end Machine

open Machine

/-- The ways a step can end. -/
inductive Effect {n : ℕ} (m : Machine n) : Move → Machine n → Prop
  | enter {c} : m.lock = .free → m.cpu c = none → Effect m .other { m with lock := .sched c 0 }
  | idle {c i} : m.lock = .sched c i →
      Effect m .other { m with cpu := Function.update m.cpu c none, lock := .free }
  | pick {c i s} : m.lock = .sched c i → (m.k.proc s).state = .runnable →
      Effect m .other { m with
        k := m.k.modify s (·.setState .running)
        cpu := Function.update m.cpu c (some s)
        lock := .proc c }
  | back {c s} : m.lock = .proc c → m.cpu c = some s → Effect m .other { m with lock := .free }
  /-- The return from `sleep`, or a scan of `wait` or `join` that fails. -/
  | woke {c s m0} : m.Scans c s m0 → Effect m .other { m0 with lock := .free }
  | wakeup {ch} : m.lock = .free →
      Effect m .other (m.setK (wakeup1 m.k (some (.other ch))))
  | yield {c s} : m.Runs c s →
      Effect m .other ((m.setK (m.k.modify s (·.setState .runnable))).sched c s .yield)
  | sleep {c s ch} : m.Runs c s →
      Effect m .other ((m.setK (fallAsleep m.k s (.other ch))).sched c s .sleep)
  | same : m.lock = .free → Effect m .other m
  | execFail {c s} : m.Runs c s → m.pc s = .exec → Effect m .other (m.setPc s .user)
  | alloc {c s np fl} {k : Kernel} : m.Runs c s → m.pc s = .user →
      allocproc m.k = some (np, k) →
      Effect m (.alloc s np fl) { (m.setK k).setPc s (.create (.kstack fl) np) with
        resume := Function.update m.resume np .forkret
        inc := Function.update m.inc np m.k.nextpid }
  | stmtLast {c s np o st} {k : Kernel} : m.Runs c s → m.pc s = .create st np →
      st.exec m.k s np o = .ok (k, none) →
      Effect m (.stmt s np o st) (((m.record s np o st).setK k).setPc s .user)
  | stmtNext {c s np o st st'} {k : Kernel} : m.Runs c s → m.pc s = .create st np →
      st.exec m.k s np o = .ok (k, some st') →
      Effect m (.stmt s np o st) (((m.record s np o st).setK k).setPc s (.create st' np))
  | unshare {c s} : m.Runs c s → m.pc s = .user →
      Effect m (.unshare s) ((m.setK (unshareCwd (unshareOfile m.k s) s)).setPc s .exec)
  | commit {c s sz} {k : Kernel} : m.Runs c s → m.pc s = .exec →
      execCommit m.k s sz = .ok k → Effect m (.commit s sz) ((m.setK k).setPc s .user)
  | exitOfile {c s} : m.Runs c s → m.pc s = .user → s ≠ m.k.initproc →
      Effect m (.exitOfile s) ((m.setK (unshareOfile m.k s)).setPc s
        (.exit (.cwd (m.k.proc s).ofileshare.nonempty)))
  | exitCwd {c s b} : m.Runs c s → m.pc s = .exit (.cwd b) →
      Effect m (.exitNext s (.cwd b)) ((m.setK (unshareCwd m.k s)).setPc s
        (.exit (.files b (m.k.proc s).cwdshare.nonempty)))
  | exitFiles {c s b b'} {k : Kernel} : m.Runs c s → m.pc s = .exit (.files b b') →
      Xv6.exitFiles m.k s b = .ok k →
      Effect m (.exitNext s (.files b b')) ((m.setK k).setPc s (.exit (.iput b')))
  | exitIput {c s b} : m.Runs c s → m.pc s = .exit (.iput b) →
      Effect m (.exitNext s (.iput b))
        ((m.setK (m.k.modify s fun p => { p with cwd := none })).setPc s (.exit .zombie))
  | exit {c s} : m.Runs c s → m.pc s = .exit .zombie →
      Effect m (.exit s)
        ((((m.recordExit s).setK (exitLocked m.k s)).setPc s .user).sched c s .yield)
  | waitBlock {c s m0 f} : m.Scans c s m0 → waitScan m0.k s = .block f →
      Effect m (.waitBlock s) ((m0.setK (fallAsleep m0.k s (.proc s))).sched c s .wait)
  | waitReap {c s p m0} {k : Kernel} : m.Scans c s m0 → waitScan m0.k s = .reap p →
      Xv6.waitReap m0.k p = .ok k →
      Effect m (.waitReap s p) { m0 with
        k := k, lock := .free, log := .wait (m0.inc s) (m0.k.proc p).pid :: m0.log }
  | joinBlock {c s tid found f m0} : m.Scans c s m0 →
      joinScan m0.k s tid found = .block f →
      Effect m (.joinBlock s tid f)
        ((m0.setK (fallAsleep (m0.k.modify s (·.setJoinproc f)) s (.proc s))).sched c s
          (.join tid f))
  | joinReap {c s p tid found m0} {k : Kernel} : m.Scans c s m0 →
      joinScan m0.k s tid found = .reap p → Xv6.joinReap m0.k p = .ok k →
      Effect m (.joinReap s tid p) { m0 with
        k := k, lock := .free, log := .join (m0.inc s) tid :: m0.log }
  | kill {c s pid} : m.Runs c s → Effect m (.kill pid) (m.setK (Xv6.kill m.k pid).1)
  | tkill {c s tid} : m.Runs c s → Effect m (.tkill tid) (m.setK (Xv6.tkill m.k tid).1)

/-! ### Inversion of `step` -/

variable {n : ℕ} {m m' m0 : Machine n} {a : Action n} {c : Fin n} {s : Slot}

section Tidy

/-- The scans do not read the sleep channel that `sleep` tidies up. -/
theorem waitScan_tidyUp (m : Machine n) (s t : Slot) :
    waitScan (m.tidyUp s).k t = waitScan m.k t := by
  have hw : waitable (m.tidyUp s).k t = waitable m.k t := by
    funext p
    unfold waitable tidyUp setK
    simp only [Kernel.modify_proc]
    grind
  unfold waitScan
  rw [hw]
  have hz : ∀ p, ((m.tidyUp s).k.proc p).state = (m.k.proc p).state := fun p => by
    simp only [tidyUp, setK, Kernel.modify_proc]
    grind
  have hk : ((m.tidyUp s).k.proc t).killed = (m.k.proc t).killed := by
    simp only [tidyUp, setK, Kernel.modify_proc]
    grind
  simp only [hz, hk]

theorem joinable_tidyUp (m : Machine n) (s t p : Slot) :
    joinable (m.tidyUp s).k t p = joinable m.k t p := by
  unfold joinable tidyUp setK
  simp only [Kernel.modify_proc]
  grind

theorem joinLoop_tidyUp (m : Machine n) (s t : Slot) (tid : ℤ) (l : List Slot)
    (found : Option Slot) (hk : Bool) :
    joinLoop (m.tidyUp s).k t tid l found hk = joinLoop m.k t tid l found hk := by
  have hp : ∀ p, ((m.tidyUp s).k.proc p).state = (m.k.proc p).state ∧
      ((m.tidyUp s).k.proc p).tid = (m.k.proc p).tid ∧
      ((m.tidyUp s).k.proc p).isthread = (m.k.proc p).isthread ∧
      ((m.tidyUp s).k.proc p).killed = (m.k.proc p).killed := fun p => by
    simp only [tidyUp, setK, Kernel.modify_proc]
    grind
  induction l generalizing found hk with
  | nil => simp only [joinLoop, hp]
  | cons q l ih => simp only [joinLoop, hp, joinable_tidyUp, ih]

end Tidy

theorem effect_waitStep (hs : m.Scans c s m0) (h : m0.waitStep c s = .ok m') :
    Effect m (waitMove m0.k s) m' := by
  unfold waitStep at h
  unfold waitMove
  cases hp : waitScan m0.k s with
  | reap p =>
    simp only [hp] at h ⊢
    cases hk : waitReap m0.k p with
    | error e =>
      simp only [hk, reduceCtorEq] at h
    | ok k =>
      simp only [hk] at h
      obtain rfl := Except.ok.inj h
      exact .waitReap hs hp hk
  | fail =>
    simp only [hp] at h ⊢
    obtain rfl := Except.ok.inj h
    exact .woke hs
  | block f =>
    simp only [hp] at h ⊢
    obtain rfl := Except.ok.inj h
    exact .waitBlock hs hp

theorem effect_joinStep {tid : ℤ} {found : Option Slot} (hs : m.Scans c s m0)
    (h : m0.joinStep c s tid found = .ok m') : Effect m (joinMove m0.k s tid found) m' := by
  unfold joinStep at h
  unfold joinMove
  cases hp : joinScan m0.k s tid found with
  | reap p =>
    simp only [hp] at h ⊢
    cases hk : joinReap m0.k p with
    | error e =>
      simp only [hk, reduceCtorEq] at h
    | ok k =>
      simp only [hk] at h
      obtain rfl := Except.ok.inj h
      exact .joinReap hs hp hk
  | fail =>
    simp only [hp] at h ⊢
    obtain rfl := Except.ok.inj h
    exact .woke hs
  | block f =>
    simp only [hp] at h ⊢
    obtain rfl := Except.ok.inj h
    exact .joinBlock hs hp

theorem effect_resumeStep (hl : m.lock = .proc c) (hc : m.cpu c = some s)
    (h : m.resumeStep c s = .ok m') : Effect m (m.resumeMove s) m' := by
  have hs : m.Scans c s (m.tidyUp s) := .back hl hc
  unfold resumeStep at h
  unfold resumeMove
  cases hr : m.resume s with
  | forkret | yield =>
    rw [hr] at h
    obtain rfl := Except.ok.inj h
    exact .back hl hc
  | sleep =>
    rw [hr] at h
    obtain rfl := Except.ok.inj h
    exact .woke hs
  | wait =>
    rw [hr] at h
    simpa only [waitMove, waitScan_tidyUp] using effect_waitStep hs h
  | join tid found =>
    rw [hr] at h
    simpa only [joinMove, joinScan, joinLoop_tidyUp] using effect_joinStep hs h

theorem effect_schedule {i : ℕ} (hl : m.lock = .sched c i) (h : m.schedule c i = .ok m') :
    Effect m .other m' := by
  unfold schedule at h
  split at h
  · obtain rfl := Except.ok.inj h
    exact .idle hl
  · rename_i s hs
    have hrun := scan_some hs
    simp only [Bool.and_eq_true, decide_eq_true_eq] at hrun
    split at h
    · cases h
    · split at h
      · cases h
      · obtain rfl := Except.ok.inj h
        exact .pick hl hrun.2

theorem effect_createStep (hr : m.Runs c s) (hpc : m.pc s = .user) (fl : Option ℤ) :
    Effect m (m.allocMove s fl) (m.createStep s fl) := by
  unfold allocMove createStep
  cases ha : allocproc m.k with
  | none => exact .same hr.lock
  | some r => exact .alloc hr hpc ha

theorem effect_nextStep {o : Oracle} (hr : m.Runs c s) (h : m.nextStep c s o = .ok m') :
    Effect m (m.nextMove s o) m' := by
  unfold nextStep at h
  unfold nextMove
  cases hpc : m.pc s with
  | user => rw [hpc] at h; cases h
  | create st np =>
    rw [hpc] at h
    simp only at h
    split at h
    · cases h
    · rename_i k hk
      obtain rfl := Except.ok.inj h
      exact .stmtLast hr hpc hk
    · rename_i k st' hk
      obtain rfl := Except.ok.inj h
      exact .stmtNext hr hpc hk
  | exec =>
    rw [hpc] at h
    simp only at h ⊢
    split at h
    · rename_i hok
      rw [if_pos hok]
      split at h
      · cases h
      · rename_i k hk
        obtain rfl := Except.ok.inj h
        exact .commit hr hpc hk
    · rename_i hok
      rw [if_neg hok]
      obtain rfl := Except.ok.inj h
      exact .execFail hr hpc
  | exit st =>
    rw [hpc] at h
    cases st with
    | cwd b =>
      obtain rfl := Except.ok.inj h
      exact .exitCwd hr hpc
    | files b b' =>
      simp only at h
      split at h
      · cases h
      · rename_i k hk
        obtain rfl := Except.ok.inj h
        exact .exitFiles hr hpc hk
    | iput b =>
      obtain rfl := Except.ok.inj h
      exact .exitIput hr hpc
    | zombie =>
      obtain rfl := Except.ok.inj h
      exact .exit hr hpc

/-- System calls are made from user code. -/
private theorem opStep_call {p : Pc} {x : Except Halt (Machine n)}
    (h : (if p ≠ .user then .error .disabled else x) = .ok m') : p = .user ∧ x = .ok m' := by
  split at h
  · cases h
  · rename_i hpc
    exact ⟨not_not.mp hpc, h⟩

theorem effect_opStep {o : Op} (hr : m.Runs c s) (h : m.opStep c s o = .ok m') :
    Effect m (m.opMove s o) m' := by
  have hs : m.Scans c s m := .call hr.lock hr.cpu
  cases o with
  | yield =>
    obtain rfl := Except.ok.inj h
    exact .yield hr
  | sleep ch =>
    simp only [opStep] at h
    split at h
    · cases h
    · obtain rfl := Except.ok.inj h
      exact .sleep hr
  | wakeup ch =>
    obtain rfl := Except.ok.inj h
    exact .wakeup hr.lock
  | next o => exact effect_nextStep hr h
  | fork =>
    obtain ⟨hpc, h⟩ := opStep_call h
    obtain rfl := Except.ok.inj h
    exact effect_createStep hr hpc none
  | clone fl =>
    obtain ⟨hpc, h⟩ := opStep_call h
    obtain rfl := Except.ok.inj h
    simp only [opMove]
    split_ifs
    · exact .same hr.lock
    · exact effect_createStep hr hpc (some fl)
  | wait => exact effect_waitStep hs (opStep_call h).2
  | join tid o => exact effect_joinStep hs (opStep_call h).2
  | exec =>
    obtain ⟨hpc, h⟩ := opStep_call h
    obtain rfl := Except.ok.inj h
    exact .unshare hr hpc
  | exit =>
    obtain ⟨hpc, h⟩ := opStep_call h
    split at h
    · cases h
    · rename_i hne
      obtain rfl := Except.ok.inj h
      exact .exitOfile hr hpc hne
  | kill pid =>
    obtain rfl := Except.ok.inj (opStep_call h).2
    exact .kill hr
  | tkill tid =>
    obtain rfl := Except.ok.inj (opStep_call h).2
    exact .tkill hr

/-- **Inversion of `step`.** -/
theorem step_effect (h : m.step a = .ok m') : Effect m (m.move a) m' := by
  cases a with
  | enter c =>
    simp only [step] at h
    split at h
    · rename_i hc
      obtain rfl := Except.ok.inj h
      exact .enter hc.1 hc.2
    · cases h
  | scan c =>
    simp only [step] at h
    split at h
    · rename_i c' i hl
      split at h
      · rename_i hc
        subst hc
        exact effect_schedule hl h
      · cases h
    · cases h
  | resume c =>
    simp only [step] at h
    split at h
    · rename_i c' s hl hcpu
      split at h
      · rename_i hc
        subst hc
        simpa only [move, hcpu] using effect_resumeStep hl hcpu h
      · cases h
    · cases h
  | wakeup ch =>
    simp only [step] at h
    split at h
    · rename_i hl
      obtain rfl := Except.ok.inj h
      exact .wakeup hl
    · cases h
  | op c o =>
    simp only [step] at h
    split at h
    · rename_i s hl hcpu
      simpa only [move, hcpu] using effect_opStep ⟨hl, hcpu⟩ h
    · cases h

end OsSemester.Xv6
