import OsSemester.Xv6.Inv.Sleep

/-!
# The process protocol without threads

In runs in which `clone` is never called, `fork`, `exit`, `wait` and `kill` keep the protocol of the
original kernel.  Three invariants carry this:

* `Family`: every process but the first has a live parent;
* `Attended`: nobody sleeps in `wait` next to a `ZOMBIE` child, or without a child that can still
  exit;
* `Journal`: the events of the run are in the order the protocol asks for.
-/

namespace OsSemester.Xv6

open Machine

variable {n : ℕ} {m m' : Machine n} {a : Action n} {mv : Move} {c : Fin n} {s np t q z : Slot}

/-- The step is not a call of `clone`. -/
def NoClone (_ : Machine n) (a : Action n) : Prop := ∀ c flags, a ≠ .op c (.clone flags)

instance (m : Machine n) (a : Action n) : Decidable (NoClone m a) :=
  match a with
  | .op c (.clone flags) => .isFalse fun h => h c flags rfl
  | .enter _ | .scan _ | .resume _ | .wakeup _ => .isTrue fun _ _ => nofun
  | .op _ .yield | .op _ (.sleep _) | .op _ (.wakeup _) | .op _ .fork | .op _ (.next _)
  | .op _ .wait | .op _ (.join _ _) | .op _ .exec | .op _ .exit | .op _ (.kill _)
  | .op _ (.tkill _) => .isTrue fun _ _ => nofun

/-- Parents in a table without threads. -/
structure Family (m : Machine n) : Prop where
  noThread : ∀ t, (m.k.proc t).isthread = false
  forking : ∀ {s st np}, m.pc s = .create st np → st.Forking
  unborn : ∀ {t}, (m.k.proc t).state = .unused → (m.k.proc t).parent = none
  early : ∀ {s st np}, m.pc s = .create st np → ¬ st.PastParent → (m.k.proc np).parent = none
  newborn : ∀ {s st np}, m.pc s = .create st np → st.PastParent → (m.k.proc np).parent = some s
  first : (m.k.proc m.k.initproc).parent = none
  parent : ∀ {t}, (m.k.proc t).state.Live ∨ (m.k.proc t).state = .zombie → t ≠ m.k.initproc →
    ∃ q, (m.k.proc t).parent = some q ∧ (m.k.proc q).state.Live ∧ q ≠ t
  pid : ∀ {t}, (m.k.proc t).state ≠ .unused → (m.k.proc t).pid = m.inc t

namespace Family

theorem not_self (hF : Family m) (hrun : (m.k.proc s).state = .running) :
    (m.k.proc s).parent ≠ some s := by
  by_cases hs : s = m.k.initproc
  · rw [hs, hF.first]
    simp
  · obtain ⟨q, hq, -, hne⟩ := hF.parent (Or.inl (by rw [hrun]; exact live_running)) hs
    rw [hq]
    simpa using hne

/-- A step that creates nothing and keeps the parents. -/
theorem frame (hF : Family m) (hth : ∀ t, (m'.k.proc t).isthread = (m.k.proc t).isthread)
    (hpar : ∀ {t}, (m'.k.proc t).state ≠ .unused → (m'.k.proc t).parent = (m.k.proc t).parent)
    (hun : ∀ {t}, (m'.k.proc t).state = .unused → (m'.k.proc t).parent = none)
    (hcreate : ∀ {s st np}, m'.pc s = .create st np → m.pc s = .create st np ∧
      (m'.k.proc np).state ≠ .unused)
    (hinit : m'.k.initproc = m.k.initproc) (hi : (m'.k.proc m.k.initproc).state ≠ .unused)
    (hused : ∀ {t}, (m'.k.proc t).state.Live ∨ (m'.k.proc t).state = .zombie →
      (m.k.proc t).state.Live ∨ (m.k.proc t).state = .zombie)
    (hlive : ∀ {t q}, (m'.k.proc t).state ≠ .unused → (m.k.proc t).parent = some q →
      (m.k.proc q).state.Live → (m'.k.proc q).state.Live)
    (hpid : ∀ {t}, (m'.k.proc t).state ≠ .unused → (m'.k.proc t).pid = m'.inc t) : Family m' where
  noThread t := (hth t).trans (hF.noThread t)
  forking h := hF.forking (hcreate h).1
  unborn := hun
  early h hst := by
    rw [hpar (hcreate h).2]
    exact hF.early (hcreate h).1 hst
  newborn h hst := by
    rw [hpar (hcreate h).2]
    exact hF.newborn (hcreate h).1 hst
  first := by
    rw [hinit, hpar hi]
    exact hF.first
  parent {t} ht hne := by
    rw [hinit] at hne
    have hu : (m'.k.proc t).state ≠ .unused := by
      intro hu
      rw [hu] at ht
      simp [not_live_unused] at ht
    obtain ⟨q, hq, hl, hqt⟩ := hF.parent (hused ht) hne
    exact ⟨q, (hpar hu).trans hq, hlive hu hq hl, hqt⟩
  pid := hpid

end Family

theorem Quiet.family (hL : Life m) (hF : Family m) (h : Quiet m m') : Family m' := by
  have hu : ∀ {t}, (m'.k.proc t).state = .unused ↔ (m.k.proc t).state = .unused :=
    (h.keep _).eq_iff not_live_unused
  refine hF.frame (fun t => (h.keep t).isthread) (fun _ => (h.keep _).parent) (fun {t} ht => ?_)
    (fun {s st np} hpc => ?_) h.globals.initproc ?_ (fun {t} ht => ?_)
    (fun _ _ hl => (h.keep _).live_iff.mpr hl) (fun {t} ht => ?_)
  · rw [(h.keep t).parent]
    exact hF.unborn (hu.mp ht)
  · rw [h.create] at hpc
    exact ⟨hpc, by rw [ne_eq, hu, hL.embryo hpc]; decide⟩
  · rw [ne_eq, hu]
    intro hi
    have := hL.initLive
    rw [hi] at this
    exact not_live_unused this
  · rwa [(h.keep t).live_iff, (h.keep t).eq_iff not_live_zombie] at ht
  · rw [(h.keep t).pid, h.inc]
    exact hF.pid (by rwa [ne_eq, ← hu])

theorem Reclaim.family {p : Slot} {b : Bool} (hL : Life m) (hF : Family m)
    (h : Reclaim m m' s p b) (hth : (m'.k.proc p).isthread = false) : Family m' := by
  have hne : ∀ {t}, (m'.k.proc t).state ≠ .unused → t ≠ p := by
    rintro t ht rfl
    exact ht h.state
  have hemb : ∀ {t}, (m.k.proc t).state ≠ .zombie → t ≠ p := by
    rintro t ht rfl
    exact ht h.zombie
  have hlz : ∀ {t}, (m.k.proc t).state.Live → t ≠ p := fun ht =>
    hemb (by rintro hz; rw [hz] at ht; exact not_live_zombie ht)
  refine hF.frame (fun t => ?_) (fun ht => (h.keep _ (hne ht)).parent) (fun {t} ht => ?_)
    (fun {s st np} hpc => ?_) h.initproc ?_ (fun {t} ht => ?_)
    (fun _ _ hl => (h.keep _ (hlz hl)).live_iff.mpr hl) (fun {t} ht => ?_)
  · by_cases htp : t = p
    · rw [htp, hth, hF.noThread]
    · exact (h.keep t htp).isthread
  · by_cases htp : t = p
    · rw [htp, h.parent]
    · rw [(h.keep t htp).parent]
      exact hF.unborn (((h.keep t htp).eq_iff not_live_unused).mp ht)
  · rw [h.pc] at hpc
    have hst := hL.embryo hpc
    refine ⟨hpc, ?_⟩
    rw [ne_eq, (h.keep np (hemb (by rw [hst]; decide))).eq_iff not_live_unused, hst]
    decide
  · have hi := hL.initLive
    rw [ne_eq, (h.keep _ (hlz hi)).eq_iff not_live_unused]
    rintro hu
    rw [hu] at hi
    exact not_live_unused hi
  · have htp : t ≠ p := hne (by rintro hu; rw [hu] at ht; simp [not_live_unused] at ht)
    rwa [(h.keep t htp).live_iff, (h.keep t htp).eq_iff not_live_zombie] at ht
  · rw [(h.keep t (hne ht)).pid, h.inc]
    exact hF.pid (by rwa [ne_eq, ← (h.keep t (hne ht)).eq_iff not_live_unused])

theorem family_alloc (hF : Family m) {k : Kernel} (ha : allocproc m.k = some (np, k)) :
    Family { (m.setK k).setPc s (.create (.kstack none) np) with
      resume := Function.update m.resume np .forkret
      inc := Function.update m.inc np m.k.nextpid } := by
  obtain ⟨hu, hp, -, hi, -⟩ := allocproc_some ha
  have hof : ∀ {t}, (m.k.proc t).state ≠ .unused → t ≠ np ∧ k.proc t = m.k.proc t := fun {t} ht => by
    have hne : t ≠ np := by
      rintro rfl
      exact ht hu
    exact ⟨hne, by rw [hp, if_neg hne]⟩
  have hlive : ∀ {t}, (m.k.proc t).state.Live → t ≠ np ∧ k.proc t = m.k.proc t := fun ht =>
    hof (by rintro hs; rw [hs] at ht; exact not_live_unused ht)
  have hpar : ∀ t, (k.proc t).parent = (m.k.proc t).parent := fun t => by
    rw [hp]
    grind
  have hpcs : ∀ {t st q}, Function.update m.pc s (.create (.kstack none) np) t = .create st q →
      (t = s ∧ st = .kstack none ∧ q = np) ∨ m.pc t = .create st q := by
    intro t st q h
    rw [Function.update_apply] at h
    grind
  refine ⟨fun t => ?_, fun h => ?_, fun {t} ht => ?_, fun h hst => ?_, fun h hst => ?_, ?_,
    fun {t} ht hne => ?_, fun {t} ht => ?_⟩
  all_goals simp only [setPc_k, setK_k, setPc_pc, setK_pc, hpar, hi] at *
  · rw [hp]
    have := hF.noThread
    grind
  · rcases hpcs h with ⟨-, rfl, -⟩ | h
    · trivial
    · exact hF.forking h
  · have hne : t ≠ np := by
      rintro rfl
      rw [hp, if_pos rfl] at ht
      cases ht
    rw [hp, if_neg hne] at ht
    exact hF.unborn ht
  · rcases hpcs h with ⟨-, -, rfl⟩ | h
    · exact hF.unborn hu
    · exact hF.early h hst
  · rcases hpcs h with ⟨-, rfl, -⟩ | h
    · exact hst.elim
    · exact hF.newborn h hst
  · exact hF.first
  · have htn : t ≠ np := by
      rintro rfl
      rw [hp, if_pos rfl] at ht
      simp [not_live_embryo] at ht
    rw [hp, if_neg htn] at ht
    obtain ⟨q, hq, hl, hqt⟩ := hF.parent ht hne
    exact ⟨q, hq, by rwa [(hlive hl).2], hqt⟩
  · rw [hp] at ht ⊢
    by_cases htn : t = np
    · simp [htn]
    · rw [if_neg htn] at ht ⊢
      rw [Function.update_of_ne htn]
      exact hF.pid ht

theorem succ_pastParent {st : Stmt} (h : st.Forking) (hpub : ¬ st.Publishes) :
    st.succ.PastParent ↔ st.PastParent ∨ st = .forkParent := by
  cases st with
  | kstack fl =>
    cases fl with
    | none => simp [Stmt.succ, Stmt.PastParent]
    | some fl => exact h.elim
  | _ => simp_all [Stmt.succ, Stmt.PastParent, Stmt.Publishes, Stmt.Forking]

theorem Stmt.Forking.parent {k k' : Kernel} {st : Stmt} {o : Oracle} {nx : Option Stmt}
    (hf : st.Forking) (h : st.exec k s np o = .ok (k', nx)) :
    (k'.proc np).parent = if st = .forkParent then some s else (k.proc np).parent := by
  rw [exec_parent h]
  cases st <;> first | rfl | exact hf.elim

theorem family_stmt (hL : Life m) (hF : Family m) {st : Stmt} {k : Kernel} {o : Oracle}
    {nx : Option Stmt} (hrun : (m.k.proc s).state = .running) (hpc : m.pc s = .create st np)
    (hk : st.exec m.k s np o = .ok (k, nx)) :
    Family (((m.record s np o st).setK k).setPc s (pcAfter np nx)) := by
  have hemb := hL.embryo hpc
  have hfork := hF.forking hpc
  have hof : ∀ t, t ≠ np → Keep (m.k.proc t) (k.proc t) := fun t => exec_keep_of_ne hk
  have hlive : ∀ {t}, (m.k.proc t).state.Live → t ≠ np := by
    rintro t ht rfl
    rw [hemb] at ht
    exact not_live_embryo ht
  have hother : ∀ {t st' q}, t ≠ s → m.pc t = .create st' q → q ≠ np := by
    rintro t st' q ht hq rfl
    exact ht (hL.creator hq hpc)
  have hpar := hfork.parent hk
  have hstate := exec_state hk
  have hearly := hF.early hpc
  have hnew := hF.newborn hpc
  refine ⟨fun t => ?_, fun {t st' q} h => ?_, fun {t} ht => ?_, fun {t st' q} h hst => ?_,
    fun {t st' q} h hst => ?_, ?_, fun {t} ht hne => ?_, fun {t} ht => ?_⟩
  all_goals simp only [setPc_k, setK_k, setPc_pc, setK_pc, record_pc, setPc_inc, setK_inc,
    record_inc] at *
  · by_cases htn : t = np
    · subst htn
      have hth := hF.noThread t
      rw [exec_isthread hk]
      split
      · rfl
      · exact hfork.elim
      · exact hth
    · rw [(hof t htn).isthread, hF.noThread]
  · rcases pc_create_stmt hpc h with ⟨-, rfl, rfl⟩ | ⟨-, h⟩
    · rw [(exec_next hk).1]
      exact st.succ_forking.mpr hfork
    · exact hF.forking h
  · by_cases htn : t = np
    · -- only `kalloc` and `copyuvm` can fail, before the parent is set
      subst htn
      have hdir := (exec_failed hk ht hemb).2.1
      have hst : st ≠ .forkParent ∧ ¬ st.PastParent := by
        cases st <;> simp_all [Stmt.PastDir, Stmt.PastParent, Stmt.Forking]
      rw [hpar, if_neg hst.1]
      exact hearly hst.2
    · rw [(hof t htn).parent]
      exact hF.unborn (((hof t htn).eq_iff not_live_unused).mp ht)
  · rcases pc_create_stmt hpc h with ⟨-, rfl, rfl⟩ | ⟨ht, h⟩
    · obtain ⟨rfl, hpub⟩ := exec_next hk
      rw [succ_pastParent hfork hpub, not_or] at hst
      rw [hpar, if_neg hst.2]
      exact hearly hst.1
    · rw [(hof _ (hother ht h)).parent]
      exact hF.early h hst
  · rcases pc_create_stmt hpc h with ⟨rfl, rfl, rfl⟩ | ⟨ht, h⟩
    · obtain ⟨rfl, hpub⟩ := exec_next hk
      rw [succ_pastParent hfork hpub] at hst
      rw [hpar]
      split_ifs with hs
      · rfl
      · exact hnew (hst.resolve_right hs)
    · rw [(hof _ (hother ht h)).parent]
      exact hF.newborn h hst
  · rw [(exec_globals hk).2.1, (hof _ (hlive hL.initLive)).parent]
    exact hF.first
  · rw [(exec_globals hk).2.1] at hne
    by_cases htn : t = np
    · subst htn
      -- the child is published with the caller as its parent
      obtain ⟨rfl, hpub, -⟩ := exec_published hk hemb
        (by rintro he; rw [he] at ht; simp [not_live_embryo] at ht)
        (by rintro he; rw [he] at ht; simp [not_live_unused] at ht)
      have hl : (m.k.proc s).state.Live := by
        rw [hrun]
        exact live_running
      refine ⟨s, ?_, (hof s (hlive hl)).live_iff.mpr hl, hlive hl⟩
      rw [hpar, hnew (by rcases hpub with rfl | rfl <;> trivial)]
      simp
    · rw [(hof t htn).live_iff, (hof t htn).eq_iff not_live_zombie] at ht
      obtain ⟨q, hq, hl, hqt⟩ := hF.parent ht hne
      exact ⟨q, (hof t htn).parent.trans hq, (hof q (hlive hl)).live_iff.mpr hl, hqt⟩
  · by_cases htn : t = np
    · subst htn
      rw [exec_pid hk, if_neg (by rintro ⟨rfl, -⟩; exact hfork)]
      exact hF.pid (by rw [hemb]; decide)
    · rw [(hof t htn).pid]
      exact hF.pid (by rwa [ne_eq, ← (hof t htn).eq_iff not_live_unused])

theorem family_commit (hL : Life m) (hF : Family m) {k : Kernel} {sz : ℕ}
    (hk : execCommit m.k s sz = .ok k) : Family ((m.setK k).setPc s .user) := by
  obtain ⟨d, -, -, -, -, hi, -, -, hp⟩ := execCommit_ok hk
  have hst : ∀ t, (k.proc t).state = (m.k.proc t).state ∧
      (k.proc t).isthread = (m.k.proc t).isthread ∧ (k.proc t).parent = (m.k.proc t).parent ∧
      (k.proc t).pid = (m.k.proc t).pid := fun t => by
    rw [hp]
    grind
  have hinit := hL.initLive
  refine hF.frame (fun t => (hst t).2.1) (fun _ => (hst _).2.2.1) (fun ht => ?_)
    (fun {s' st np} hpc => ?_) hi ?_ (fun ht => ?_) (fun _ _ hl => ?_) (fun ht => ?_)
  all_goals simp only [setPc_k, setK_k, setPc_pc, setK_pc, setPc_inc, setK_inc, hst] at *
  · exact hF.unborn ht
  · rw [(pc_of_update_user (by rw [hpc]; simp)).2] at hpc
    exact ⟨hpc, by rw [hL.embryo hpc]; decide⟩
  · rintro hu
    rw [hu] at hinit
    exact not_live_unused hinit
  · exact ht
  · exact hl
  · exact hF.pid ht

theorem adopted_iff (hF : Family m) : adopted m.k s t = true ↔ (m.k.proc t).parent = some s := by
  simp [adopted, hF.noThread t]

theorem family_exit (hL : Life m) (hF : Family m) (hrun : (m.k.proc s).state = .running)
    (hpc : m.pc s = .exit .zombie) : Family
      ((((m.recordExit s).setK (exitLocked m.k s)).setPc s .user).sched c s .yield) := by
  have hinit := hL.exiting hpc
  have hgl := exitLocked_globals m.k s
  -- `initproc` becomes the parent of the children
  have hpar : ∀ t, ((exitLocked m.k s).proc t).parent =
      if (m.k.proc t).parent = some s then some m.k.initproc else (m.k.proc t).parent := fun t => by
    rw [exitLocked_parent, hF.noThread s]
    simp only [adopted_iff hF, true_and]
  have htouch : ∀ {t}, t ≠ s → Touch (m.k.proc t) ((exitLocked m.k s).proc t) :=
    fun ht => exitLocked_touch m.k ht
  have hlive : ∀ {t}, t ≠ s → (((exitLocked m.k s).proc t).state.Live ↔ (m.k.proc t).state.Live) :=
    fun {t} ht => by
      have hw := (htouch ht).woken
      unfold Woken ProcState.Live at *
      grind
  have hstate : ∀ {t st}, ¬ ProcState.Live st → t ≠ s →
      (((exitLocked m.k s).proc t).state = st ↔ (m.k.proc t).state = st) := fun {t st} hst ht => by
    have hw := (htouch ht).woken
    unfold Woken ProcState.Live at *
    grind
  obtain ⟨ps, hT, he⟩ := exitLocked_self_touch m.k s
  have hemb : ∀ {t st q}, m.pc t = .create st q → q ≠ s := by
    rintro t st q h rfl
    rw [hL.embryo h] at hrun
    cases hrun
  -- only the process itself becomes a `ZOMBIE`
  have hzs : ∀ {t}, ((exitLocked m.k s).proc t).state ≠ .zombie → t ≠ s := by
    rintro t ht rfl
    exact ht (by rw [he]; rfl)
  have hcr : ∀ {t st q}, Function.update m.pc s .user t = .create st q →
      t ≠ s ∧ m.pc t = .create st q := fun {t st q} h => by
    obtain ⟨h1, h2⟩ := pc_of_update_user (by rw [h]; simp)
    exact ⟨h1, by rwa [h2] at h⟩
  refine ⟨fun t => ?_, fun h => ?_, fun {t} ht => ?_, fun {t st q} h hst => ?_,
    fun {t st q} h hst => ?_, ?_, fun {t} ht hne => ?_, fun {t} ht => ?_⟩
  all_goals simp only [sched_k, sched_pc, sched_inc, setPc_k, setPc_pc, setPc_inc, setK_k, setK_pc,
    setK_inc, recordExit_pc, recordExit_inc, hpar] at *
  · by_cases hts : t = s
    · rw [hts, he, Proc.setState_isthread, hT.isthread, hF.noThread]
    · rw [(htouch hts).isthread, hF.noThread]
  · exact hF.forking (hcr h).2
  · have hts : t ≠ s := hzs (by rw [ht]; decide)
    rw [hF.unborn ((hstate not_live_unused hts).mp ht)]
    rfl
  · rw [hF.early (hcr h).2 hst]
    rfl
  · have hp := hF.newborn (hcr h).2 hst
    rw [hp, if_neg fun h' => (hcr h).1 (Option.some.inj h')]
  · rw [hgl.initproc, hF.first]
    rfl
  · rw [hgl.initproc] at hne
    have ht' : (m.k.proc t).state.Live ∨ (m.k.proc t).state = .zombie := by
      by_cases hts : t = s
      · rw [hts, hrun]
        exact Or.inl live_running
      · rwa [hlive hts, hstate not_live_zombie hts] at ht
    obtain ⟨q, hq, hl, hqt⟩ := hF.parent ht' hne
    split_ifs with hps
    · exact ⟨_, rfl, (hlive hinit.symm).mpr hL.initLive, fun h => hne h.symm⟩
    · have hqs : q ≠ s := by
        rintro rfl
        exact hps hq
      exact ⟨q, hq, (hlive hqs).mpr hl, hqt⟩
  · by_cases hts : t = s
    · rw [hts, he, Proc.setState_pid, hT.pid]
      exact hF.pid (by rw [hrun]; decide)
    · rw [(htouch hts).pid]
      exact hF.pid (by rwa [ne_eq, ← hstate not_live_unused hts])

/-! ### Who sleeps in `wait` -/

/-- The sleepers of `wait` are where an exit will find them. -/
structure Attended (m : Machine n) : Prop where
  zombie : ∀ {z q}, (m.k.proc z).state = .zombie → (m.k.proc z).parent = some q → ¬ m.Waits q
  child : ∀ {q}, m.Waits q → ∃ t, (m.k.proc t).parent = some q ∧
    (m.k.proc t).state ≠ .unused ∧ (m.k.proc t).state ≠ .zombie

/-- After a scan of `wait` that goes to sleep. -/
theorem waitBlock_attended (hF : Family m) {f : Option Slot} (h : waitScan m.k s = .block f) :
    (∀ z, (m.k.proc z).parent = some s → (m.k.proc z).state ≠ .zombie) ∧
      ∃ t, (m.k.proc t).parent = some s ∧ (m.k.proc t).state ≠ .unused := by
  have hw : ∀ p, waitable m.k s p = true ↔ (m.k.proc p).parent = some s := fun p => by
    simp [waitable, hF.noThread]
  obtain ⟨⟨p, hp⟩, hz, -⟩ := waitScan_block h
  refine ⟨fun z hz' => hz z ((hw z).mpr hz'), p, (hw p).mp hp, fun hu => ?_⟩
  rw [hw, hF.unborn hu] at hp
  cases hp

/-- A sleeper of `wait` either slept through the step or has just scanned the table. -/
theorem Effect.waits (hB : Base m) (h : Effect m mv m') (hq : m'.Waits q) :
    (Slept m m' q ∧ m.Waits q) ∨ (mv = .waitBlock q ∧ ∃ f, waitScan m.k q = .block f) := by
  rcases h.asleep hB hq.state with hs | hr | ⟨rfl, -⟩ | ⟨_, _, -, hr, -⟩
  · exact Or.inl ⟨hs, hs.asleep hq⟩
  · rw [hq.resume] at hr
    cases hr
  · cases h with
    | waitBlock hs hw => exact Or.inr ⟨rfl, _, by rw [← hs.waitScan, hw]⟩
  · rw [hq.resume] at hr
    cases hr

theorem exit_wakes_parent (hF : Family m) (hrun : (m.k.proc s).state = .running)
    (hp : (m.k.proc s).parent = some q) (hc : (m.k.proc q).chan = some (.proc q)) (hqs : q ≠ s) :
    ((exitLocked m.k s).proc q).state ≠ .sleeping := by
  rw [exitLocked_of_ne _ hqs, hF.noThread s]
  exact exitProcess_wakes_parent _ _ _ (hF.not_self hrun) (by rw [hc, hp]; rfl)

theorem exit_wakes_init (hF : Family m) (hinit : s ≠ m.k.initproc)
    (hz : (m.k.proc z).state = .zombie) (hp : (m.k.proc z).parent = some s)
    (hc : (m.k.proc m.k.initproc).chan = some (.proc m.k.initproc)) :
    ((exitLocked m.k s).proc m.k.initproc).state ≠ .sleeping := by
  rw [exitLocked_of_ne _ hinit.symm, hF.noThread s]
  exact exitProcess_wakes_init _ _ _ z ((adopted_iff hF).mpr hp) hz hc

theorem exit_parent (hF : Family m) (t : Slot) : ((exitLocked m.k s).proc t).parent =
    if (m.k.proc t).parent = some s then some m.k.initproc else (m.k.proc t).parent := by
  rw [exitLocked_parent, hF.noThread s]
  simp only [adopted_iff hF, true_and]

theorem Effect.attended (hB : Base m) (hS : Sleepers m) (hF : Family m) (hA : Attended m)
    (h : Effect m mv m') : Attended m' := by
  have hch := h.change hB.sched hB.life
  refine ⟨fun {z q} hz hp hq => ?_, fun {q} hq => ?_⟩
  · rcases h.waits hB hq with ⟨-, hwq⟩ | ⟨rfl, f, hscan⟩
    · have hc := hS.chan_of_waits hwq
      by_cases hex : ∃ s, mv = .exit s
      · obtain ⟨s, rfl⟩ := hex
        cases hch with
        | quiet hQ => exact hQ.elim
        | exit hrun hpc =>
          have hqs : q ≠ s := by
            rintro rfl
            rw [hwq.state] at hrun
            cases hrun
          have hq' := hq.state
          rw [sched_k, setPc_k, setK_k] at hz hp hq'
          rw [exit_parent hF] at hp
          by_cases hzs : z = s
          · -- the parent of the new `ZOMBIE` has been woken
            subst hzs
            rw [if_neg (hF.not_self hrun)] at hp
            exact exit_wakes_parent hF hrun hp hc hqs hq'
          · have hw := (exitLocked_touch m.k hzs).woken
            have hzz : (m.k.proc z).state = .zombie := by
              unfold Woken at hw
              grind
            split_ifs at hp with hps
            · -- `initproc` has adopted the `ZOMBIE` and has been woken
              obtain rfl := Option.some.inj hp
              exact exit_wakes_init hF (hB.life.exiting hpc) hzz hps hc hq'
            · exact hA.zombie hzz hp hwq
      · obtain ⟨hzz, hk⟩ := (hch.zombie hB.life hz).resolve_left fun he => hex ⟨z, he⟩
        rw [(hk fun s he => hex ⟨s, he⟩).parent] at hp
        exact hA.zombie hzz hp hwq
    · cases hch with
      | quiet _ hQ =>
        have hk := hQ.keep z
        exact (waitBlock_attended hF hscan).1 z (hk.parent ▸ hp) ((hk.eq_iff not_live_zombie).mp hz)
  · rcases h.waits hB hq with ⟨-, hwq⟩ | ⟨rfl, f, hscan⟩
    · have hc := hS.chan_of_waits hwq
      obtain ⟨t, hp, hu, hz⟩ := hA.child hwq
      cases hch with
      | quiet _ hQ =>
        have hk := hQ.keep t
        exact ⟨t, hk.parent.trans hp, by rwa [ne_eq, hk.eq_iff not_live_unused],
          by rwa [ne_eq, hk.eq_iff not_live_zombie]⟩
      | @alloc _ np _ _ _ _ ha =>
        obtain ⟨hun, hpr, -⟩ := allocproc_some ha
        have htn : t ≠ np := by
          rintro rfl
          exact hu hun
        exact ⟨t, by rwa [setPc_k, setK_k, hpr, if_neg htn], by
          rwa [setPc_k, setK_k, hpr, if_neg htn], by rwa [setPc_k, setK_k, hpr, if_neg htn]⟩
      | @stmt s np _ st _ _ _ hpc hk =>
        by_cases htn : t = np
        · -- a child in creation has its parent already, so its creation cannot fail any more
          subst htn
          have hemb := hB.life.embryo hpc
          have hpast : st.PastParent := by
            by_contra hst
            rw [hF.early hpc hst] at hp
            cases hp
          have hdir : st.PastDir := by
            have := hF.forking hpc
            cases st <;> simp_all [Stmt.PastDir, Stmt.PastParent, Stmt.Forking]
          refine ⟨t, ?_, fun hu' => (exec_failed hk hu' hemb).2.1 hdir, fun hz' => ?_⟩
          · rw [setPc_k, setK_k, (hF.forking hpc).parent hk, if_neg, hp]
            rintro rfl
            exact hpast
          · have := exec_published hk hemb (by rw [setPc_k, setK_k] at hz'; rw [hz']; decide)
              (by rw [setPc_k, setK_k] at hz'; rw [hz']; decide)
            rw [setPc_k, setK_k, this.2.2] at hz'
            cases hz'
        · have hk := exec_keep_of_ne hk htn
          exact ⟨t, hk.parent.trans hp, by rwa [setPc_k, setK_k, ne_eq, hk.eq_iff not_live_unused],
            by rwa [setPc_k, setK_k, ne_eq, hk.eq_iff not_live_zombie]⟩
      | @commit s _ _ _ _ hk =>
        obtain ⟨d, -, -, -, -, -, -, -, hpr⟩ := execCommit_ok hk
        refine ⟨t, ?_, ?_, ?_⟩ <;> rw [setPc_k, setK_k, hpr] <;> split_ifs with hts <;>
          simp_all
      | @exit _ s hrun hpc =>
        have hqs : q ≠ s := by
          rintro rfl
          rw [hwq.state] at hrun
          cases hrun
        have hts : t ≠ s := by
          rintro rfl
          exact exit_wakes_parent hF hrun hp hc hqs hq.state
        have hw := (exitLocked_touch m.k hts).woken
        unfold Woken at hw
        refine ⟨t, ?_, ?_, ?_⟩ <;> rw [sched_k, setPc_k, setK_k]
        · rw [exit_parent hF, if_neg, hp]
          rw [hp]
          exact fun he => hqs (Option.some.inj he)
        · grind
        · grind
      | @waitReap _ p _ _ hR | @joinReap _ p _ _ _ _ hR =>
        have htp : t ≠ p := by
          rintro rfl
          exact hz hR.zombie
        have hk := hR.keep t htp
        exact ⟨t, hk.parent.trans hp, by rwa [ne_eq, hk.eq_iff not_live_unused],
          by rwa [ne_eq, hk.eq_iff not_live_zombie]⟩
    · cases hch with
      | quiet _ hQ =>
        obtain ⟨hzs, t, hp, hu⟩ := waitBlock_attended hF hscan
        have hk := hQ.keep t
        exact ⟨t, hk.parent.trans hp, by rwa [ne_eq, hk.eq_iff not_live_unused],
          by rw [ne_eq, hk.eq_iff not_live_zombie]; exact hzs t hp⟩

/-! ### The events -/

/-- Every `wait` that has returned a pid came after the exit of that process, and after its fork, by
the caller or by a process that had exited and left it to `initproc`; no `wait` has returned the pid
before. -/
def WaitsInOrder (first : ℤ) : List Event → Prop
  | [] => True
  | e :: l => WaitsInOrder first l ∧ ∀ caller pid, e = .wait caller pid →
      .exit pid ∈ l ∧ (∀ c, .wait c pid ∉ l) ∧
        ∃ f, .fork f pid ∈ l ∧ (caller = f ∨ caller = first ∧ .exit f ∈ l)

/-- How the table and the events of the run belong together. -/
structure Journal (m : Machine n) : Prop where
  exited : ∀ {z}, (m.k.proc z).state = .zombie → .exit (m.inc z) ∈ m.log
  forked : ∀ {t}, (m.k.proc t).state.Live ∨ (m.k.proc t).state = .zombie → t ≠ m.k.initproc →
    ∃ q f, (m.k.proc t).parent = some q ∧ .fork f (m.inc t) ∈ m.log ∧
      (f = m.inc q ∨ q = m.k.initproc ∧ .exit f ∈ m.log)
  waited : ∀ {c p}, .wait c p ∈ m.log →
    p < m.k.nextpid ∧ ∀ t, (m.k.proc t).state ≠ .unused → m.inc t ≠ p
  right : WaitsInOrder (m.inc m.k.initproc) m.log

theorem WaitsInOrder.append {first : ℤ} {es l : List Event} (h : WaitsInOrder first l)
    (hes : ∀ e ∈ es, ∀ c p, e ≠ .wait c p) : WaitsInOrder first (es ++ l) := by
  induction es with
  | nil => exact h
  | cons e es ih =>
    exact ⟨ih fun e he => hes e (List.mem_cons_of_mem _ he),
      fun c p he => absurd he (hes e (List.mem_cons_self ..) c p)⟩

/-- A step without an allocation that adds events other than a `wait`. -/
theorem Journal.frame (hJ : Journal m) (es : List Event) (hlog : m'.log = es ++ m.log)
    (hes : ∀ e ∈ es, ∀ c p, e ≠ .wait c p)
    (hi : m'.inc = m.inc) (hn : m'.k.nextpid = m.k.nextpid) (hinit : m'.k.initproc = m.k.initproc)
    (hu : ∀ {t}, (m'.k.proc t).state ≠ .unused → (m.k.proc t).state ≠ .unused)
    (hz : ∀ {t}, (m'.k.proc t).state = .zombie →
      (m.k.proc t).state = .zombie ∨ .exit (m.inc t) ∈ es)
    (hf : ∀ {t}, (m'.k.proc t).state.Live ∨ (m'.k.proc t).state = .zombie → t ≠ m.k.initproc →
      ∃ q f, (m'.k.proc t).parent = some q ∧ .fork f (m.inc t) ∈ es ++ m.log ∧
        (f = m.inc q ∨ q = m.k.initproc ∧ .exit f ∈ es ++ m.log)) : Journal m' where
  exited h := by
    rw [hlog, hi, List.mem_append]
    exact (hz h).elim (fun h => Or.inr (hJ.exited h)) Or.inl
  forked h hne := by
    rw [hinit] at hne ⊢
    rw [hi, hlog]
    exact hf h hne
  waited {c p} h := by
    rw [hlog, List.mem_append] at h
    obtain ⟨h1, h2⟩ := hJ.waited (h.resolve_left fun h => hes _ h c p rfl)
    rw [hi, hn]
    exact ⟨h1, fun t ht => h2 t (hu ht)⟩
  right := by
    rw [hlog, hi, hinit]
    exact hJ.right.append hes

/-- A process that is in the table before and after a step keeps its fork event. -/
theorem Journal.forked_append (hJ : Journal m) (es : List Event)
    (ht : (m.k.proc t).state.Live ∨ (m.k.proc t).state = .zombie) (hne : t ≠ m.k.initproc) :
    ∃ q f, (m.k.proc t).parent = some q ∧ .fork f (m.inc t) ∈ es ++ m.log ∧
      (f = m.inc q ∨ q = m.k.initproc ∧ .exit f ∈ es ++ m.log) := by
  obtain ⟨q, f, hq, hfork, hf⟩ := hJ.forked ht hne
  exact ⟨q, f, hq, List.mem_append_right _ hfork,
    hf.imp_right fun h => ⟨h.1, List.mem_append_right _ h.2⟩⟩

theorem record_log (m : Machine n) (s np : Slot) (o : Oracle) {st : Stmt} (h : st.Forking) :
    (m.record s np o st).log =
      (if st = .forkRun then [.fork (m.inc s) (m.k.proc np).pid] else []) ++ m.log := by
  cases st <;> first | rfl | exact h.elim

theorem journal_stmt (hL : Life m) (hF : Family m) (hJ : Journal m) {st : Stmt} {k : Kernel}
    {o : Oracle} {nx : Option Stmt} (hpc : m.pc s = .create st np)
    (hk : st.exec m.k s np o = .ok (k, nx)) (hch : Change m mv
      (((m.record s np o st).setK k).setPc s (pcAfter np nx)))
    (hne : ∀ s np fl, mv ≠ .alloc s np fl) (hex : ∀ t, mv ≠ .exit t) :
    Journal (((m.record s np o st).setK k).setPc s (pcAfter np nx)) := by
  have hemb := hL.embryo hpc
  have hfork := hF.forking hpc
  refine hJ.frame _ (record_log m s np o hfork) (fun e he c p => ?_) (record_inc m s np o st)
    (exec_globals hk).1 (exec_globals hk).2.1 (hch.used hL hne)
    (fun ht => Or.inl ((hch.zombie hL ht).resolve_left (hex _)).1) (fun {t} ht hi => ?_)
  · split_ifs at he
    · obtain rfl := List.mem_singleton.mp he
      simp
    · cases he
  · rw [setPc_k, setK_k] at *
    by_cases htn : t = np
    · subst htn
      obtain ⟨rfl, hpub, -⟩ := exec_published hk hemb
        (by rintro he; rw [he] at ht; simp [not_live_embryo] at ht)
        (by rintro he; rw [he] at ht; simp [not_live_unused] at ht)
      obtain rfl : st = .forkRun := hpub.resolve_right (by rintro rfl; exact hfork)
      refine ⟨s, m.inc s, ?_, ?_, Or.inl rfl⟩
      · rw [hfork.parent hk, hF.newborn hpc trivial]
        simp
      · rw [hF.pid (by rw [hemb]; decide)]
        simp
    · have hkeep := exec_keep_of_ne hk htn
      rw [hkeep.live_iff, hkeep.eq_iff not_live_zombie] at ht
      rw [hkeep.parent]
      exact hJ.forked_append _ ht hi

theorem journal_exit (hF : Family m) (hJ : Journal m) (hrun : (m.k.proc s).state = .running)
    (hch : Change m (.exit s)
      ((((m.recordExit s).setK (exitLocked m.k s)).setPc s .user).sched c s .yield)) (hL : Life m) :
    Journal ((((m.recordExit s).setK (exitLocked m.k s)).setPc s .user).sched c s .yield) := by
  refine hJ.frame [.exit (m.inc s)] rfl (by simp) rfl (exitLocked_globals _ _).nextpid
    (exitLocked_globals _ _).initproc (hch.used hL (by simp)) (fun {t} ht => ?_)
    (fun {t} ht hi => ?_)
  · rcases hch.zombie hL ht with he | ⟨hz, -⟩
    · obtain rfl := Move.exit.inj he
      exact Or.inr (List.mem_singleton.mpr rfl)
    · exact Or.inl hz
  · rw [sched_k, setPc_k, setK_k] at *
    have ht' : (m.k.proc t).state.Live ∨ (m.k.proc t).state = .zombie := by
      by_cases hts : t = s
      · rw [hts, hrun]
        exact Or.inl live_running
      · have hw := (exitLocked_touch m.k hts).woken
        unfold Woken ProcState.Live at *
        grind
    obtain ⟨q, f, hq, hfork, hf⟩ := hJ.forked_append [.exit (m.inc s)] ht' hi
    rw [exit_parent hF]
    split_ifs with hps
    · -- adopted: the process that forked it is the one that exits now, or has exited before
      obtain rfl : q = s := Option.some.inj (hq.symm.trans hps)
      refine ⟨_, f, rfl, hfork, Or.inr ⟨rfl, ?_⟩⟩
      rcases hf with rfl | ⟨-, hf⟩
      · simp
      · exact hf
    · exact ⟨q, f, hq, hfork, hf⟩

theorem journal_alloc (hL : Life m) (hF : Family m) (hJ : Journal m) {k : Kernel}
    {fl : Option ℤ} (ha : allocproc m.k = some (np, k)) :
    Journal { (m.setK k).setPc s (.create (.kstack fl) np) with
      resume := Function.update m.resume np .forkret
      inc := Function.update m.inc np m.k.nextpid } := by
  obtain ⟨hu, hp, hn, hi, -⟩ := allocproc_some ha
  have hof : ∀ {t}, (m.k.proc t).state ≠ .unused → t ≠ np := by
    rintro t ht rfl
    exact ht hu
  have hlive : ∀ {t}, (m.k.proc t).state.Live → t ≠ np := fun ht =>
    hof (by rintro hs; rw [hs] at ht; exact not_live_unused ht)
  have hlz : ∀ {t}, (k.proc t).state.Live ∨ (k.proc t).state = .zombie → t ≠ np := by
    rintro t ht rfl
    rw [hp, if_pos rfl] at ht
    simp [not_live_embryo] at ht
  refine ⟨fun {z} hz => ?_, fun {t} ht hne => ?_, fun {c p} hw => ?_, ?_⟩
  all_goals simp only [setPc_k, setK_k, hi, hn] at *
  · have hzn := hlz (Or.inr hz)
    rw [hp, if_neg hzn] at hz
    rw [Function.update_of_ne hzn]
    exact hJ.exited hz
  · have htn := hlz ht
    rw [hp, if_neg htn] at ht ⊢
    obtain ⟨q, f, hq, hfork, hf⟩ := hJ.forked ht hne
    obtain ⟨q', hq', hl, -⟩ := hF.parent ht hne
    obtain rfl : q' = q := Option.some.inj (hq'.symm.trans hq)
    rw [Function.update_of_ne htn]
    exact ⟨q', f, hq, hfork, by rwa [Function.update_of_ne (hlive hl)]⟩
  · obtain ⟨h1, h2⟩ := hJ.waited hw
    refine ⟨by omega, fun t ht => ?_⟩
    by_cases htn : t = np
    · subst htn
      rw [Function.update_self]
      omega
    · rw [hp, if_neg htn] at ht
      rw [Function.update_of_ne htn]
      exact h2 t ht
  · rw [Function.update_of_ne (hlive hL.initLive)]
    exact hJ.right

theorem journal_wait {p : Slot} (hL : Life m) (hF : Family m) (hN : Names m) (hJ : Journal m)
    (hw : waitScan m.k s = .reap p) (hR : Reclaim m m' s p true)
    (hlog : m'.log = .wait (m.inc s) (m.k.proc p).pid :: m.log) : Journal m' := by
  have hpar : (m.k.proc p).parent = some s := by
    simpa [waitable, hF.noThread] using (waitScan_reap hw).1
  have hpi : p ≠ m.k.initproc := by
    rintro rfl
    have := hL.initLive
    rw [hR.zombie] at this
    exact not_live_zombie this
  have hpu : (m.k.proc p).state ≠ .unused := by
    rw [hR.zombie]
    decide
  have hpid := hF.pid hpu
  have hne : ∀ {t}, (m'.k.proc t).state ≠ .unused → t ≠ p ∧ (m.k.proc t).state ≠ .unused := by
    intro t ht
    have htp : t ≠ p := by
      rintro rfl
      exact ht hR.state
    exact ⟨htp, by rwa [ne_eq, ← (hR.keep t htp).eq_iff not_live_unused]⟩
  refine ⟨fun {z} hz => ?_, fun {t} ht hi => ?_, fun {c q} hwq => ?_, ?_⟩
  · have hzp := (hne (by rw [hz]; decide)).1
    rw [hlog, hR.inc]
    exact List.mem_cons_of_mem _ (hJ.exited (((hR.keep z hzp).eq_iff not_live_zombie).mp hz))
  · have htp := (hne (by rintro hu; rw [hu] at ht; simp [not_live_unused] at ht)).1
    have hk := hR.keep t htp
    rw [hk.live_iff, hk.eq_iff not_live_zombie] at ht
    rw [hlog, hR.inc, hk.parent, hR.initproc] at *
    exact hJ.forked_append [.wait (m.inc s) (m.k.proc p).pid] ht hi
  · rw [hR.inc, hR.nextpid]
    rw [hlog] at hwq
    rcases List.mem_cons.mp hwq with he | hwq
    · obtain ⟨-, rfl⟩ := Event.wait.inj he
      rw [hpid]
      exact ⟨hN.lt p, fun t ht he => (hne ht).1 (hN.inj (hne ht).2 hpu he)⟩
    · obtain ⟨h1, h2⟩ := hJ.waited hwq
      exact ⟨h1, fun t ht => h2 t (hne ht).2⟩
  · rw [hlog, hR.inc, hR.initproc]
    refine ⟨hJ.right, fun c q he => ?_⟩
    obtain ⟨rfl, rfl⟩ := Event.wait.inj he
    rw [hpid]
    obtain ⟨q, f, hq, hfork, hf⟩ := hJ.forked (Or.inr hR.zombie) hpi
    obtain rfl : q = s := Option.some.inj (hq.symm.trans hpar)
    refine ⟨hJ.exited hR.zombie, fun c hc => (hJ.waited hc).2 p hpu rfl, f, hfork, ?_⟩
    rcases hf with rfl | ⟨rfl, hf⟩
    · exact Or.inl rfl
    · exact Or.inr ⟨rfl, hf⟩

/-! ### The protocol -/

/-- The invariant of the runs without `clone`. -/
structure Protocol (m : Machine n) : Prop where
  family : Family m
  attended : Attended m
  journal : Journal m

theorem waitMove_ne_alloc (k : Kernel) (s t np : Slot) (fl : Option ℤ) :
    waitMove k s ≠ .alloc t np fl := by
  unfold waitMove
  split <;> simp

theorem joinMove_ne_alloc (k : Kernel) (s t np : Slot) (tid : ℤ) (f : Option Slot)
    (fl : Option ℤ) : joinMove k s tid f ≠ .alloc t np fl := by
  unfold joinMove
  split <;> simp

/-- A slot that is allocated without a call of `clone` is allocated by `fork`. -/
theorem NoClone.alloc {fl : Option ℤ} (ha : NoClone m a) (h : m.move a = .alloc s np fl) :
    fl = none := by
  have hall : ∀ {t fl'}, m.allocMove t fl' = .alloc s np fl → fl = fl' := fun {t fl'} h => by
    unfold allocMove at h
    split at h
    · cases h
    · exact (Move.alloc.inj h).2.2.symm
  cases a with
  | enter | scan | wakeup => cases h
  | resume c =>
    simp only [move] at h
    split at h
    · simp only [resumeMove] at h
      split at h
      · exact absurd h (waitMove_ne_alloc _ _ _ _ _)
      · exact absurd h (joinMove_ne_alloc _ _ _ _ _ _ _)
      · cases h
    · cases h
  | op c o =>
    simp only [move] at h
    split at h
    · cases o with
      | fork => exact hall h
      | clone flags => exact absurd rfl (ha c flags)
      | wait => exact absurd h (waitMove_ne_alloc _ _ _ _ _)
      | join => exact absurd h (joinMove_ne_alloc _ _ _ _ _ _ _)
      | next o =>
        simp only [opMove, nextMove] at h
        split at h <;> first | cases h | (split at h <;> cases h)
      | _ => cases h
    · cases h

theorem step_protocol (hB : Base m) (hN : Names m) (hS : Sleepers m) (hP : Protocol m)
    (ha : NoClone m a) (h : m.step a = .ok m') : Protocol m' := by
  obtain ⟨hF, hA, hJ⟩ := hP
  have he := step_effect h
  have hch := he.change hB.sched hB.life
  have hL := hB.life
  suffices hFJ : Family m' ∧ Journal m' from ⟨hFJ.1, he.attended hB hS hF hA, hFJ.2⟩
  generalize hmv : m.move a = mv at hch
  cases hch with
  | quiet hq hQ =>
    have hch' : Change m mv m' := .quiet hq hQ
    have hne : ∀ s np fl, mv ≠ .alloc s np fl := by
      rintro s np fl rfl
      exact hq
    refine ⟨hQ.family hL hF, hJ.frame [] hQ.log (by simp) hQ.inc hQ.globals.nextpid
      hQ.globals.initproc (hch'.used hL hne) (fun ht => ?_) (fun {t} ht hi => ?_)⟩
    · exact Or.inl (((hQ.keep _).eq_iff not_live_zombie).mp ht)
    · rw [(hQ.keep t).live_iff, (hQ.keep t).eq_iff not_live_zombie] at ht
      rw [(hQ.keep t).parent]
      exact hJ.forked_append [] ht hi
  | alloc hrun hpc hal =>
    obtain rfl := ha.alloc hmv
    exact ⟨family_alloc hF hal, journal_alloc hL hF hJ hal⟩
  | stmt hrun hpc hk =>
    exact ⟨family_stmt hL hF hrun hpc hk,
      journal_stmt hL hF hJ hpc hk (.stmt hrun hpc hk) (by simp) (by simp)⟩
  | @commit s sz k hrun hpc hk =>
    have hch' : Change m (.commit s sz) ((m.setK k).setPc s .user) := .commit hrun hpc hk
    obtain ⟨d, -, -, -, hn, hi, -, -, hp⟩ := execCommit_ok hk
    have hst : ∀ t, (k.proc t).state = (m.k.proc t).state ∧
        (k.proc t).parent = (m.k.proc t).parent := fun t => by
      rw [hp]
      grind
    refine ⟨family_commit hL hF hk, hJ.frame [] rfl (by simp) rfl hn hi (hch'.used hL (by simp))
      (fun ht => ?_) (fun {t} ht hne => ?_)⟩
    · rw [setPc_k, setK_k, (hst _).1] at ht
      exact Or.inl ht
    · rw [setPc_k, setK_k, (hst t).1] at ht
      rw [setPc_k, setK_k, (hst t).2]
      exact hJ.forked_append [] ht hne
  | exit hrun hpc =>
    exact ⟨family_exit hL hF hrun hpc, journal_exit hF hJ hrun (.exit hrun hpc) hL⟩
  | waitReap hw hR hth _ hlog => exact ⟨hR.family hL hF hth, journal_wait hL hF hN hJ hw hR hlog⟩
  | joinReap hT =>
    -- there are no threads
    rw [IsThread, hF.noThread] at hT
    cases hT.2

theorem protocol_boot (n : ℕ) (ofile : Fd → Option FileId) (ft : FTable) :
    Protocol (boot n ofile ft) := by
  have hp : ∀ t, (boot n ofile ft).k.proc t = if t = 0 then initProc ofile else Proc.zero :=
    fun t => by simp [boot, bootKernel, Function.update_apply]
  have hi : (boot n ofile ft).k.initproc = 0 := rfl
  have hpc : ∀ {t st q}, (boot n ofile ft).pc t ≠ .create st q := fun h => by cases h
  have hz : ∀ {t}, ((boot n ofile ft).k.proc t).state ≠ .zombie := fun {t} => by
    rw [hp]
    split_ifs <;> simp [initProc, Proc.zero]
  have hl : ∀ {t}, ((boot n ofile ft).k.proc t).state.Live → t = 0 := fun {t} => by
    rw [hp]
    split_ifs with h
    · exact fun _ => h
    · exact fun h => absurd h not_live_unused
  refine ⟨⟨fun t => ?_, fun h => absurd h hpc, fun {t} _ => ?_, fun h => absurd h hpc,
    fun h => absurd h hpc, ?_, fun ht hne => ?_, fun {t} ht => ?_⟩,
    ⟨fun h => absurd h hz, fun h => ?_⟩, ⟨fun h => absurd h hz, fun ht hne => ?_, (fun h => by cases h), trivial⟩⟩
  · rw [hp]
    split_ifs <;> rfl
  · rw [hp]
    split_ifs <;> rfl
  · rw [hi, hp]
    rfl
  · exact absurd (hl (ht.resolve_right hz)) hne
  · rw [hp] at ht ⊢
    split_ifs at ht ⊢ with h
    · simp [boot, initProc, h]
    · exact absurd rfl ht
  · cases h.resume
  · exact absurd (hl (ht.resolve_right hz)) hne

theorem Reach.protocol (h : (machine n).Reach NoClone m) : Protocol m := by
  refine h.invariant_of_reach ?_ fun m a m' hr hP ha hst => ?_
  · rintro _ ⟨ofile, ft, rfl⟩
    exact protocol_boot n ofile ft
  · have hst : m.step a = .ok m' := hst
    exact step_protocol (Reach.base hr) (Reach.names hr) (Reach.sleepers hr) hP ha hst

theorem WaitsInOrder.split {first c p : ℤ} {l₁ l₂ : List Event}
    (h : WaitsInOrder first (l₁ ++ .wait c p :: l₂)) :
    .exit p ∈ l₂ ∧ (∀ c', .wait c' p ∉ l₂) ∧
      ∃ f, .fork f p ∈ l₂ ∧ (c = f ∨ c = first ∧ .exit f ∈ l₂) := by
  induction l₁ with
  | nil => exact h.2 c p rfl
  | cons e l₁ ih => exact ih h.1

/-- **The process protocol without threads.** In every state of a run that never calls `clone`:

* the parent of a `ZOMBIE` is a live process, and does not sleep in `wait`;
* a process that sleeps in `wait` has a child that is neither `UNUSED` nor `ZOMBIE`;
* a pid that `wait` has returned was returned by no earlier `wait`; the process had exited before,
  and the caller had forked it, or is `initproc` and whoever forked it had exited. -/
theorem wait_protocol (h : (machine n).Reach NoClone m) :
    (∀ z, (m.k.proc z).state = .zombie →
      ∃ q, (m.k.proc z).parent = some q ∧ (m.k.proc q).state.Live ∧ ¬ m.Waits q) ∧
    (∀ q, m.Waits q → ∃ t, (m.k.proc t).parent = some q ∧
      (m.k.proc t).state ≠ .unused ∧ (m.k.proc t).state ≠ .zombie) ∧
    ∀ l₁ l₂ c pid, m.log = l₁ ++ .wait c pid :: l₂ →
      (∀ c', .wait c' pid ∉ l₂) ∧ .exit pid ∈ l₂ ∧
        ∃ f, .fork f pid ∈ l₂ ∧ (c = f ∨ c = m.inc m.k.initproc ∧ .exit f ∈ l₂) := by
  have hB := Reach.base h
  obtain ⟨hF, hA, hJ⟩ := Reach.protocol h
  refine ⟨fun z hz => ?_, fun q hq => hA.child hq, fun l₁ l₂ c pid hlog => ?_⟩
  · have hzi : z ≠ m.k.initproc := by
      rintro rfl
      have := hB.life.initLive
      rw [hz] at this
      exact not_live_zombie this
    obtain ⟨q, hq, hl, -⟩ := hF.parent (Or.inr hz) hzi
    exact ⟨q, hq, hl, hA.zombie hz hq⟩
  · have hright := hJ.right
    rw [hlog] at hright
    obtain ⟨h1, h2, h3⟩ := hright.split
    exact ⟨h2, h1, h3⟩

/-- The first process forks, the child exits on the other CPU, the first process waits for it. -/
theorem wait_protocol_once : ∃ m : Machine 2, m.log = [.wait 1 2, .exit 2, .fork 1 2] ∧
    ∃ f, .fork f 2 ∈ [Event.exit 2, .fork 1 2] ∧
      (1 = f ∨ 1 = m.inc m.k.initproc ∧ .exit f ∈ [Event.exit 2, .fork 1 2]) := by
  let next (c : Fin 2) : Action 2 := .op c (.next ⟨some 1, true, 0, none⟩)
  let as : List (Action 2) := [.enter 0, .scan 0, .resume 0, .op 0 .fork] ++
    List.replicate 8 (next 0) ++ [.enter 1, .scan 1, .resume 1, .op 1 .exit] ++
    List.replicate 4 (next 1) ++ [.scan 1, .op 0 .wait]
  have hrun : (machine 2).Obeys NoClone (boot0 2) as ∧ (machine 2).Ends
      (fun m => m.log = [.wait 1 2, .exit 2, .fork 1 2]) (boot0 2) as := by
    decide +kernel
  obtain ⟨m, hm, hlog⟩ := System.Reach.of_ends _ (init_boot0 2) hrun.1 hrun.2
  exact ⟨m, hlog, ((wait_protocol hm).2.2 [] _ _ _ hlog).2.2⟩

end OsSemester.Xv6
