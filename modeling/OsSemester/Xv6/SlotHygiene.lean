import OsSemester.Xv6.Inv.Sleep

/-!
# What a reclaimed slot keeps

`allocproc` initialises almost nothing, so a new process starts from what the paths to `UNUSED` have
left in the slot.  Five kinds of steps leave something behind: the failure paths of `fork` and
`clone`, every reclamation by `join`, a reclamation by `wait` of a slot with a `joinproc`, and
`kill(0)` when it stops at an `UNUSED` slot.  `slot_hygiene` shows that these are all: a run avoids
them exactly when every `UNUSED` slot is clean all along.
-/

namespace OsSemester.Xv6

open Machine

variable {n : ℕ} {m m' m0 : Machine n} {a : Action n} {mv : Move} {c : Fin n} {s p np t : Slot}

/-- The record carries no trace of a process. -/
structure Clean (p : Proc) : Prop where
  killed : p.killed = false
  parent : p.parent = none
  isthread : p.isthread = false
  tid : p.tid = 0
  pid : p.pid = 0
  threadparent : p.threadparent = none
  joinproc : p.joinproc = none
  ofile : p.ofile = fun _ => none
  ofileshare : p.ofileshare = fun _ => none
  cwdshare : p.cwdshare = fun _ => none

/-- Every `UNUSED` slot is clean. -/
def Hygiene (m : Machine n) : Prop :=
  ∀ t, (m.k.proc t).state = .unused → Clean (m.k.proc t)

/-- The statement is an allocation that fails. -/
def Stmt.Fails (k : Kernel) (np : Slot) (o : Oracle) : Stmt → Prop
  | .kstack _ => o.page = none
  | .forkCopyuvm => o.ok = false
  | .clonePgdir => (k.proc np).cloneVm = false ∧ o.ok = false
  | _ => False

/-- The moves that leave nothing behind in an `UNUSED` slot. -/
def Tidy (k : Kernel) : Move → Prop
  | .stmt _ np o st => ¬ st.Fails k np o
  | .waitReap _ p => (k.proc p).joinproc = none
  | .joinReap _ _ _ => False
  | .kill pid => ∀ p, killTarget k pid = some p → (k.proc p).state ≠ .unused
  | _ => True

instance (k : Kernel) (np : Slot) (o : Oracle) : DecidablePred (Stmt.Fails k np o)
  | .kstack _ => inferInstanceAs (Decidable (o.page = none))
  | .forkCopyuvm => inferInstanceAs (Decidable (o.ok = false))
  | .clonePgdir => inferInstanceAs (Decidable ((k.proc np).cloneVm = false ∧ o.ok = false))
  | .forkParent | .forkIsthread | .forkTid | .forkOfile | .forkCwd | .forkRun | .cloneFlags _
  | .cloneParent | .cloneThreadparent | .cloneIds | .cloneIsthread | .cloneCopyout | .cloneFiles
  | .cloneFs | .cloneRun => instDecidableFalse

instance (k : Kernel) : DecidablePred (Tidy k)
  | .stmt _ np o st => inferInstanceAs (Decidable (¬ st.Fails k np o))
  | .waitReap _ p => inferInstanceAs (Decidable ((k.proc p).joinproc = none))
  | .joinReap _ _ _ => instDecidableFalse
  | .kill pid => inferInstanceAs (Decidable (∀ p, killTarget k pid = some p → (k.proc p).state ≠ .unused))
  | .other | .alloc _ _ _ | .unshare _ | .commit _ _ | .exitOfile _ | .exitNext _ _ | .exit _
  | .waitBlock _ | .joinBlock _ _ _ | .tkill _ => instDecidableTrue

/-- No allocation of the step fails, it is no reclamation by `join` or of a slot with a `joinproc`,
and no `kill` of an `UNUSED` slot. -/
def TidyStep (m : Machine n) (a : Action n) : Prop := Tidy m.k (m.move a)

instance (m : Machine n) (a : Action n) : Decidable (TidyStep m a) := by
  unfold TidyStep
  infer_instance

/-! ### Slots the step is not about -/

/-- The record has stayed in its part of life and has picked up nothing. -/
structure Calm (p p' : Proc) : Prop where
  state : p'.state = p.state ∨ p.state.Live ∧ p'.state.Live
  killed : p.state = .unused → p.isthread = false → p'.killed = p.killed
  parent : p.parent = none → p'.parent = none
  isthread : p'.isthread = p.isthread
  tid : p'.tid = p.tid
  pid : p'.pid = p.pid
  threadparent : p'.threadparent = p.threadparent
  joinproc : p.joinproc = none → p'.joinproc = none
  ofile : p'.ofile = p.ofile
  ofileshare : ∀ i, p'.ofileshare i = none ∨ p'.ofileshare i = p.ofileshare i
  cwdshare : ∀ i, p'.cwdshare i = none ∨ p'.cwdshare i = p.cwdshare i
  cloneFiles : p'.cloneFiles = p.cloneFiles
  cloneFs : p'.cloneFs = p.cloneFs

namespace Calm

variable {p p' p'' : Proc}

theorem refl (p : Proc) : Calm p p :=
  ⟨Or.inl rfl, fun _ _ => rfl, id, rfl, rfl, rfl, rfl, id, rfl, fun _ => Or.inr rfl,
    fun _ => Or.inr rfl, rfl, rfl⟩

theorem eq_iff (h : Calm p p') {st : ProcState} (hst : ¬ st.Live) :
    p'.state = st ↔ p.state = st := by
  have := h.state
  grind

theorem empty {a a' : ShareArray} (h : ∀ i, a' i = none ∨ a' i = a i) (ha : a = fun _ => none) :
    a' = fun _ => none := by
  subst ha
  exact funext fun i => (h i).elim id id

theorem clean (h : Calm p p') (hs : p.state = .unused) (hc : Clean p) : Clean p' where
  killed := (h.killed hs hc.isthread).trans hc.killed
  parent := h.parent hc.parent
  isthread := h.isthread.trans hc.isthread
  tid := h.tid.trans hc.tid
  pid := h.pid.trans hc.pid
  threadparent := h.threadparent.trans hc.threadparent
  joinproc := h.joinproc hc.joinproc
  ofile := h.ofile.trans hc.ofile
  ofileshare := empty h.ofileshare hc.ofileshare
  cwdshare := empty h.cwdshare hc.cwdshare

/-- What wakeups, kills and `exit` do to the other slots. -/
theorem of_touch (h : Touch p p')
    (hk : p.state = .unused → p.isthread = false → p'.killed = p.killed)
    (hp : p.parent = none → p'.parent = none) (hj : p.joinproc = none → p'.joinproc = none) :
    Calm p p' :=
  ⟨h.woken.keep, hk, hp, h.isthread, h.tid, h.pid, h.threadparent, hj, h.ofile,
    fun _ => Or.inr (by rw [h.ofileshare]), fun _ => Or.inr (by rw [h.cwdshare]), h.cloneFiles,
    h.cloneFs⟩

/-- Only the state, the sleep channel and the memory image differ. -/
theorem of_run (p : Proc) {st : ProcState} (h : st = p.state ∨ p.state.Live ∧ st.Live)
    (ch : Option Chan) (d : Option Pgdir) (sz : ℕ) (cwd : Option Inode) :
    Calm p { p with state := st, chan := ch, pgdir := d, sz := sz, cwd := cwd } :=
  ⟨h, fun _ _ => rfl, id, rfl, rfl, rfl, rfl, id, rfl, fun _ => Or.inr rfl, fun _ => Or.inr rfl,
    rfl, rfl⟩

theorem trans (h : Calm p p') (h' : Calm p' p'') (hst : p'.state = p.state) : Calm p p'' where
  state := by
    have := h'.state
    rwa [hst] at this
  killed hu hth := (h'.killed (hst.trans hu) (h.isthread.trans hth)).trans (h.killed hu hth)
  parent hp := h'.parent (h.parent hp)
  isthread := h'.isthread.trans h.isthread
  tid := h'.tid.trans h.tid
  pid := h'.pid.trans h.pid
  threadparent := h'.threadparent.trans h.threadparent
  joinproc hj := h'.joinproc (h.joinproc hj)
  ofile := h'.ofile.trans h.ofile
  ofileshare i := by
    have h1 := h.ofileshare i
    have h2 := h'.ofileshare i
    grind
  cwdshare i := by
    have h1 := h.cwdshare i
    have h2 := h'.cwdshare i
    grind
  cloneFiles := h'.cloneFiles.trans h.cloneFiles
  cloneFs := h'.cloneFs.trans h.cloneFs

end Calm

theorem modify_calm (k : Kernel) (s t : Slot) (f : Proc → Proc)
    (hf : Calm (k.proc s) (f (k.proc s))) : Calm (k.proc t) ((k.modify s f).proc t) := by
  rw [Kernel.modify_proc]
  split
  · rename_i h
    subst h
    exact hf
  · exact Calm.refl _

theorem Machine.Scans.calm (h : m.Scans c s m0) (t : Slot) :
    Calm (m.k.proc t) (m0.k.proc t) := by
  cases h with
  | call => exact .refl _
  | back =>
    exact modify_calm m.k s t (fun p => { p with chan := none })
      (.of_run _ (Or.inl rfl) none _ _ _)

theorem unshareOfile_calm (k : Kernel) (cur t : Slot) :
    Calm (k.proc t) ((unshareOfile k cur).proc t) :=
  ⟨Or.inl rfl, fun _ _ => rfl, id, rfl, rfl, rfl, rfl, id, rfl,
    fun i => unshare_apply k.ofileshare cur t i, fun _ => Or.inr rfl, rfl, rfl⟩

theorem unshareCwd_calm (k : Kernel) (cur t : Slot) :
    Calm (k.proc t) ((unshareCwd k cur).proc t) :=
  ⟨Or.inl rfl, fun _ _ => rfl, id, rfl, rfl, rfl, rfl, id, rfl, fun _ => Or.inr rfl,
    fun i => unshare_apply k.cwdshare cur t i, rfl, rfl⟩

theorem fallAsleep_calm (k : Kernel) {s : Slot} (ch : Chan) (t : Slot)
    (h : (k.proc s).state.Live) : Calm (k.proc t) ((fallAsleep k s ch).proc t) :=
  modify_calm k s t (fun p => { p with chan := some ch, state := .sleeping })
    (.of_run _ (Or.inr ⟨h, live_sleeping⟩) _ _ _ _)

theorem exitLocked_killed {k : Kernel} {cur t : Slot} (ht : t ≠ cur)
    (hth : (k.proc t).isthread = false) :
    ((exitLocked k cur).proc t).killed = (k.proc t).killed := by
  rw [exitLocked_of_ne k ht]
  split
  · exact (exitThread_rest k cur t).2.1
  · exact exitProcess_killed k cur t (by simp [hth])

theorem exitLocked_joinproc {k : Kernel} {cur t : Slot} (ht : t ≠ cur)
    (hj : (k.proc t).joinproc = none) : ((exitLocked k cur).proc t).joinproc = none := by
  rw [exitLocked_of_ne k ht]
  split
  · have := (exitThread_rest k cur t).2.2
    grind
  · rw [exitProcess_joinproc, hj]

theorem exitLocked_calm {k : Kernel} {cur t : Slot} (ht : t ≠ cur) :
    Calm (k.proc t) ((exitLocked k cur).proc t) :=
  .of_touch (exitLocked_touch k ht) (fun _ hth => exitLocked_killed ht hth)
    (fun hp => by
      rw [exitLocked_parent, if_neg]
      · exact hp
      · rintro ⟨-, h⟩
        simp [adopted, hp] at h)
    (exitLocked_joinproc ht)

/-- The slots a move is about. -/
def Move.Writes : Move → Slot → Prop
  | .alloc _ np _ => fun t => t = np
  | .stmt s np _ _ => fun t => t = np ∨ t = s
  | .exitNext s (.files _ _) => fun t => t = s
  | .exit s => fun t => t = s
  | .joinBlock s _ _ => fun t => t = s
  | .waitReap _ p => fun t => t = p
  | .joinReap _ _ p => fun t => t = p
  | _ => fun _ => False

/-- **The frame of a step.** -/
theorem Effect.calm (hB : Base m) (h : Effect m mv m') (hok : Tidy m.k mv) (ht : ¬ mv.Writes t) :
    Calm (m.k.proc t) (m'.k.proc t) := by
  have hrun : ∀ {c s}, m.Runs c s → (m.k.proc s).state.Live := fun hr => by
    rw [hB.sched.running hr]
    exact live_running
  cases h with
  | enter | idle | back | same | execFail => exact .refl _
  | @pick _ _ s _ hr =>
    exact modify_calm m.k s t (·.setState .running)
      (.of_run _ (Or.inr ⟨by rw [hr]; exact live_runnable, live_running⟩) _ _ _ _)
  | woke hs => exact hs.calm t
  | wakeup =>
    exact .of_touch (wakeup1_touch _ _ t) (fun _ _ => wakeup1_killed _ _ t)
      (fun h => by rwa [setK_k, wakeup1_parent]) (fun h => by rwa [setK_k, wakeup1_joinproc])
  | @yield _ s hr =>
    exact modify_calm m.k s t (·.setState .runnable)
      (.of_run _ (Or.inr ⟨hrun hr, live_runnable⟩) _ _ _ _)
  | sleep hr => exact fallAsleep_calm m.k _ t (hrun hr)
  | @alloc _ _ np _ _ hr _ ha =>
    obtain ⟨-, hp, -⟩ := allocproc_some ha
    have htn : t ≠ np := ht
    rw [setPc_k, setK_k, hp, if_neg htn]
    exact .refl _
  | stmtLast hr _ hk | stmtNext hr _ hk =>
    obtain ⟨hnp, hs⟩ := not_or.mp ht
    obtain ⟨_, _, -, he⟩ := exec_proc_of_ne hk hnp
    rw [setPc_k, setK_k, he hs]
    exact .refl _
  | unshare =>
    exact (unshareOfile_calm m.k _ t).trans (unshareCwd_calm _ _ t) rfl
  | @commit _ s _ _ hr _ hk =>
    obtain ⟨d, -, -, -, -, -, -, -, hp⟩ := execCommit_ok hk
    rw [setPc_k, setK_k, hp]
    split_ifs with hts
    · subst hts
      exact .of_run _ (Or.inl rfl) _ _ _ _
    · exact .refl _
  | exitOfile => exact unshareOfile_calm m.k _ t
  | exitCwd => exact unshareCwd_calm m.k _ t
  | @exitFiles _ s _ _ _ _ _ hk =>
    obtain ⟨-, hp⟩ := exitFiles_ok hk
    have hts : t ≠ s := ht
    rw [setPc_k, setK_k, hp, if_neg hts]
    exact .refl _
  | @exitIput _ s _ hr =>
    exact modify_calm m.k s t (fun p => { p with cwd := none }) (.of_run _ (Or.inl rfl) _ _ _ none)
  | exit => exact exitLocked_calm ht
  | waitBlock hs =>
    refine (hs.calm t).trans (fallAsleep_calm _ _ t ?_) (hs.state t)
    rw [hs.state, hB.sched.running_of_scans hs]
    exact live_running
  | joinBlock hs =>
    rw [sched_k, setK_k, fallAsleep, Kernel.modify_proc_of_ne _ _ _ ht,
      Kernel.modify_proc_of_ne _ _ _ ht]
    exact hs.calm t
  | waitReap hs _ hk =>
    have hp := (waitReap_ok hk).1.proc_of_ne t ht
    simp only [hp]
    exact hs.calm t
  | joinReap => exact hok.elim
  | @kill _ _ pid =>
    refine .of_touch (kill_touch _ _ t) (fun hu hth => ?_) (fun h => by rwa [setK_k, kill_parent])
      (fun h => by rwa [setK_k, kill_joinproc])
    rcases kill_proc m.k pid t with ⟨⟨p, hp, rfl | ⟨-, hth', -⟩⟩, -⟩ | ⟨-, h⟩
    · exact absurd hu (hok _ hp)
    · rw [hth] at hth'
      cases hth'
    · rw [setK_k, h]
  | @tkill _ _ tid =>
    refine .of_touch (tkill_touch _ _ t) (fun hu hth => ?_) (fun h => by rwa [setK_k, tkill_parent])
      (fun h => by rwa [setK_k, tkill_joinproc])
    rw [setK_k, tkill_proc, if_neg]
    intro htg
    have := scan_some htg
    simp [hth] at this

/-! ### Slots on the way to `UNUSED` and back -/

/-- What holds of the slot `np` of a creating process before the statement `st`; `inc` is the number
drawn for it. -/
structure Newborn (inc : ℤ) (st : Stmt) (p : Proc) : Prop where
  pid : (∃ fl, st = .kstack fl) ∨ st = .forkCopyuvm → p.pid = inc
  process : st.Forking → p.threadparent = none
  thread : st = .cloneIds ∨ st = .clonePgdir → p.threadparent ≠ none
  isthread : st = .cloneCopyout ∨ st = .cloneFiles ∨ st = .cloneFs ∨ st = .cloneRun →
    p.isthread = true
  joinproc : p.joinproc = none
  ofileshare : p.ofileshare = (fun _ => none) ∨
    p.cloneFiles = true ∧ (st = .cloneFs ∨ st = .cloneRun)
  cwdshare : p.cwdshare = (fun _ => none) ∨ p.cloneFs = true ∧ st = .cloneRun

/-- What `exit` has cleared before its part `st`. -/
def Exiting (st : ExitStmt) (p : Proc) : Prop :=
  p.ofileshare = (fun _ => none) ∧
    match st with
    | .cwd _ => True
    | .files _ _ => p.cwdshare = fun _ => none
    | .iput _ | .zombie => (p.cwdshare = fun _ => none) ∧ p.ofile = fun _ => none

/-- What each part of its life leaves in a slot. -/
structure Traces (m : Machine n) : Prop where
  hygiene : Hygiene m
  newborn : ∀ {s st np}, m.pc s = .create st np → Newborn (m.inc np) st (m.k.proc np)
  process : ∀ {t}, (m.k.proc t).state.Live ∨ (m.k.proc t).state = .zombie →
    (m.k.proc t).isthread = false → (m.k.proc t).threadparent = none
  zombie : ∀ {t}, (m.k.proc t).state = .zombie → Exiting .zombie (m.k.proc t)
  exiting : ∀ {s st}, m.pc s = .exit st → Exiting st (m.k.proc s)

theorem Calm.newborn {p p' : Proc} {i : ℤ} {st : Stmt} (h : Calm p p') (hn : Newborn i st p) :
    Newborn i st p' where
  pid hs := h.pid.trans (hn.pid hs)
  process hs := h.threadparent.trans (hn.process hs)
  thread hs := by
    rw [h.threadparent]
    exact hn.thread hs
  isthread hs := h.isthread.trans (hn.isthread hs)
  joinproc := h.joinproc hn.joinproc
  ofileshare := by
    rw [h.cloneFiles]
    exact hn.ofileshare.imp_left (empty h.ofileshare)
  cwdshare := by
    rw [h.cloneFs]
    exact hn.cwdshare.imp_left (empty h.cwdshare)

theorem Calm.exiting {p p' : Proc} {st : ExitStmt} (h : Calm p p') (he : Exiting st p) :
    Exiting st p' := by
  have h1 := empty h.ofileshare
  have h2 := empty h.cwdshare
  unfold Exiting at *
  rw [h.ofile]
  cases st with
  | cwd => exact ⟨h1 he.1, trivial⟩
  | files => exact ⟨h1 he.1, h2 he.2⟩
  | iput | zombie => exact ⟨h1 he.1, h2 he.2.1, he.2.2⟩

/-- A step that is about the slots in `W` only. -/
theorem Traces.frame (hT : Traces m) (W : Slot → Prop)
    (hcalm : ∀ {t}, ¬ W t → Calm (m.k.proc t) (m'.k.proc t))
    (hinc : ∀ {t}, ¬ W t → m'.inc t = m.inc t)
    (hcreate : ∀ {s st np}, m'.pc s = .create st np →
      ¬ W np ∧ m.pc s = .create st np ∨ Newborn (m'.inc np) st (m'.k.proc np))
    (hexit : ∀ {s st}, m'.pc s = .exit st →
      ¬ W s ∧ m.pc s = .exit st ∨ Exiting st (m'.k.proc s))
    (hclean : ∀ {t}, W t → (m'.k.proc t).state = .unused → Clean (m'.k.proc t))
    (hproc : ∀ {t}, W t → (m'.k.proc t).state.Live ∨ (m'.k.proc t).state = .zombie →
      (m'.k.proc t).isthread = false → (m'.k.proc t).threadparent = none)
    (hzombie : ∀ {t}, W t → (m'.k.proc t).state = .zombie → Exiting .zombie (m'.k.proc t)) :
    Traces m' where
  hygiene t ht := by
    by_cases hW : W t
    · exact hclean hW ht
    · have hu := ((hcalm hW).eq_iff not_live_unused).mp ht
      exact (hcalm hW).clean hu (hT.hygiene t hu)
  newborn hpc := by
    rcases hcreate hpc with ⟨hW, hpc⟩ | h
    · rw [hinc hW]
      exact (hcalm hW).newborn (hT.newborn hpc)
    · exact h
  process {t} ht hth := by
    by_cases hW : W t
    · exact hproc hW ht hth
    · have hc := hcalm hW
      rw [hc.isthread] at hth
      rw [hc.threadparent]
      refine hT.process (ht.imp (fun h => ?_) (hc.eq_iff not_live_zombie).mp) hth
      rcases hc.state with hs | hs
      · rwa [← hs]
      · exact hs.1
  zombie {t} ht := by
    by_cases hW : W t
    · exact hzombie hW ht
    · exact (hcalm hW).exiting (hT.zombie (((hcalm hW).eq_iff not_live_zombie).mp ht))
  exiting hpc := by
    rcases hexit hpc with ⟨hW, hpc⟩ | h
    · exact (hcalm hW).exiting (hT.exiting hpc)
    · exact h

/-- A statement fails exactly when it gives the slot back. -/
theorem exec_fails_iff {k k' : Kernel} {st : Stmt} {o : Oracle} {nx : Option Stmt}
    (h : st.exec k s np o = .ok (k', nx)) (hemb : (k.proc np).state = .embryo) :
    (k'.proc np).state = .unused ↔ st.Fails k np o := by
  have hst := exec_state h
  by_cases hc : st = .forkOfile ∨ st = .cloneFiles ∨ st = .cloneFs
  · obtain ⟨_, _, _, _, _, _, hp, -⟩ := exec_copy hc h
    rw [hp]
    rcases hc with rfl | rfl | rfl <;> simp [Stmt.Fails, hemb]
  · cases st <;> simp only [Stmt.exec] at h <;> simp only [Stmt.Fails] <;>
      grind [Kernel.modify_proc_self, abandon_proc, installDir_proc, Proc.setKstack_state,
        Proc.setState_state, Stmt.Publishes]

theorem newborn_stmt {k k' : Kernel} {st : Stmt} {o : Oracle} {nx : Option Stmt} {i : ℤ}
    (h : st.exec k s np o = .ok (k', nx)) (hpub : ¬ st.Publishes) (hn : Newborn i st (k.proc np)) :
    Newborn i st.succ (k'.proc np) := by
  obtain ⟨h1, h2, h3⟩ := exec_shares h
  have hpid := exec_pid h
  have htp := exec_threadparent h
  have hth := exec_isthread h
  have hjp := exec_joinproc h
  obtain ⟨hn1, hn2, hn3, hn4, hn5, hn6, hn7⟩ := hn
  refine ⟨fun hs => ?_, fun hs => ?_, fun hs => ?_, fun hs => ?_, hjp.trans hn5, ?_, ?_⟩
  · have hs' : (∃ fl, st = .kstack fl) ∧ st ≠ .cloneIds := by
      cases st with
      | kstack fl => simp
      | _ => simp [Stmt.succ] at hs
    rw [hpid, if_neg fun h => hs'.2 h.1]
    exact hn1 (Or.inl hs'.1)
  · have hs' : st.Forking ∧ st ≠ .cloneThreadparent := by
      cases st with
      | kstack fl => cases fl <;> simp_all [Stmt.succ, Stmt.Forking]
      | _ => simp_all [Stmt.succ, Stmt.Forking, Stmt.Publishes]
    rw [htp, if_neg hs'.2]
    exact hn2 hs'.1
  · have hs' : st = .cloneThreadparent ∨ st = .cloneIds := by
      cases st with
      | kstack fl => cases fl <;> simp [Stmt.succ] at hs
      | _ => simp_all [Stmt.succ]
    rw [htp]
    rcases hs' with rfl | rfl
    · simp
    · simpa using hn3 (Or.inl rfl)
  · have hs' : st = .cloneIsthread ∨ st = .cloneCopyout ∨ st = .cloneFiles ∨ st = .cloneFs := by
      cases st with
      | kstack fl => cases fl <;> simp [Stmt.succ] at hs
      | _ => simp_all [Stmt.succ, Stmt.Publishes]
    rw [hth]
    rcases hs' with rfl | rfl | rfl | rfl
    · rfl
    · exact hn4 (Or.inl rfl)
    · exact hn4 (Or.inr (Or.inl rfl))
    · exact hn4 (Or.inr (Or.inr (Or.inl rfl)))
  · cases st with
    | kstack fl => cases fl <;> simp_all [Stmt.succ]
    | _ => simp_all [Stmt.succ]
  · cases st with
    | kstack fl => cases fl <;> simp_all [Stmt.succ]
    | _ => simp_all [Stmt.succ, Stmt.Publishes]

/-- A step that is about no slot. -/
theorem Traces.still (hT : Traces m) (hcalm : ∀ t, Calm (m.k.proc t) (m'.k.proc t))
    (hinc : m'.inc = m.inc)
    (hcreate : ∀ {s st np}, m'.pc s = .create st np → m.pc s = .create st np)
    (hexit : ∀ {s st}, m'.pc s = .exit st →
      m.pc s = .exit st ∨ Exiting st (m'.k.proc s)) : Traces m' :=
  hT.frame (fun _ => False) (fun _ => hcalm _) (fun _ => by rw [hinc])
    (fun h => Or.inl ⟨id, hcreate h⟩) (fun h => (hexit h).imp_left fun h => ⟨id, h⟩)
    (fun h => h.elim) (fun h => h.elim) fun h => h.elim

theorem traces_alloc (hB : Base m) (hT : Traces m) {k : Kernel} {fl : Option ℤ}
    (ha : allocproc m.k = some (np, k))
    (hcalm : ∀ {t}, t ≠ np → Calm (m.k.proc t) (k.proc t)) :
    Traces { (m.setK k).setPc s (.create (.kstack fl) np) with
      resume := Function.update m.resume np .forkret
      inc := Function.update m.inc np m.k.nextpid } := by
  obtain ⟨hu, hp, -⟩ := allocproc_some ha
  have hc := hT.hygiene np hu
  have hne : ∀ {t st q}, m.pc t = .create st q → q ≠ np := by
    rintro t st q hpc rfl
    have := hB.life.embryo hpc
    rw [hu] at this
    cases this
  have hself : ∀ {st}, ¬ ProcState.embryo = st → (k.proc np).state ≠ st := by
    rintro st hst h
    rw [hp, if_pos rfl] at h
    exact hst h
  refine hT.frame (· = np) hcalm (fun ht => Function.update_of_ne ht ..) (fun {t st q} hpc => ?_)
    (fun {t st} hpc => ?_) ?_ ?_ ?_
  all_goals simp only [setPc_k, setK_k, setPc_pc, setK_pc] at *
  · by_cases hts : t = s
    · subst hts
      rw [Function.update_self] at hpc
      obtain ⟨rfl, rfl⟩ := Pc.create.inj hpc
      refine Or.inr ?_
      rw [Function.update_self, hp, if_pos rfl]
      exact ⟨fun _ => rfl, fun _ => hc.threadparent, by simp, by simp, hc.joinproc,
        Or.inl hc.ofileshare, Or.inl hc.cwdshare⟩
    · rw [Function.update_of_ne hts] at hpc
      exact Or.inl ⟨hne hpc, hpc⟩
  · by_cases hts : t = s
    · subst hts
      rw [Function.update_self] at hpc
      cases hpc
    · rw [Function.update_of_ne hts] at hpc
      refine Or.inl ⟨?_, hpc⟩
      rintro rfl
      have := hB.life.busy (by rw [hpc]; simp)
      rw [hu] at this
      exact not_live_unused this
  · rintro t rfl h
    exact absurd h (hself (by simp))
  · rintro t rfl (h | h)
    · rw [hp, if_pos rfl] at h
      exact absurd h not_live_embryo
    · exact absurd h (hself (by simp))
  · rintro t rfl h
    exact absurd h (hself (by simp))

theorem traces_stmt (hB : Base m) (hT : Traces m) {st : Stmt} {k : Kernel} {o : Oracle}
    {nx : Option Stmt} (hrun : (m.k.proc s).state = .running) (hpc : m.pc s = .create st np)
    (hk : st.exec m.k s np o = .ok (k, nx)) (hok : ¬ st.Fails m.k np o)
    (hcalm : ∀ {t}, ¬ (t = np ∨ t = s) → Calm (m.k.proc t) (k.proc t)) :
    Traces (((m.record s np o st).setK k).setPc s (pcAfter np nx)) := by
  have hemb := hB.life.embryo hpc
  have hsn : s ≠ np := by
    rintro rfl
    rw [hrun] at hemb
    cases hemb
  have hnb := hT.newborn hpc
  obtain ⟨a, b, hs, -⟩ := exec_proc_of_ne hk hsn
  refine hT.frame (fun t => t = np ∨ t = s) hcalm (fun _ => ?_) (fun {t st' q} h => ?_)
    (fun {t st'} h => ?_) ?_ ?_ ?_
  all_goals simp only [setPc_k, setK_k, setPc_pc, setK_pc, setPc_inc, setK_inc, record_pc,
    record_inc] at *
  · rcases pc_create_stmt hpc h with ⟨-, rfl, rfl⟩ | ⟨ht, h'⟩
    · obtain ⟨rfl, hpub⟩ := exec_next hk
      exact Or.inr (newborn_stmt hk hpub hnb)
    · refine Or.inl ⟨?_, h'⟩
      have hq := hB.life.embryo h'
      rintro (rfl | rfl)
      · exact ht (hB.life.creator h' hpc)
      · rw [hrun] at hq
        cases hq
  · have hts : t ≠ s := by
      rintro rfl
      rw [Function.update_self] at h
      unfold pcAfter at h
      split at h <;> cases h
    rw [Function.update_of_ne hts] at h
    refine Or.inl ⟨?_, h⟩
    rintro (rfl | rfl)
    · have := hB.life.busy (by rw [h]; simp)
      rw [hemb] at this
      exact not_live_embryo this
    · exact hts rfl
  · rintro t (rfl | rfl) hu
    · exact absurd ((exec_fails_iff hk hemb).mp hu) hok
    · rw [hs, hrun] at hu
      cases hu
  · rintro t (rfl | rfl) ht hth
    · obtain ⟨rfl, hpub, -⟩ := exec_published hk hemb
        (by rintro he; rw [he] at ht; simp [not_live_embryo] at ht)
        (by rintro he; rw [he] at ht; simp [not_live_unused] at ht)
      rw [exec_isthread hk] at hth
      rw [exec_threadparent hk]
      rcases hpub with rfl | rfl
      · simpa using hnb.process trivial
      · rw [hnb.isthread (by simp)] at hth
        cases hth
    · rw [hs] at hth ⊢
      exact hT.process (Or.inl (by rw [hrun]; exact live_running)) hth
  · rintro t (rfl | rfl) ht
    · have := (exec_published hk hemb (by rw [ht]; decide) (by rw [ht]; decide)).2.2
      rw [ht] at this
      cases this
    · rw [hs, hrun] at ht
      cases ht

/-- The other slots are where they were after the step of a process that returns to its program. -/
theorem pc_of_returned {pc : Slot → Pc} {q : Pc} (hq : q ≠ .user)
    (h : Function.update pc s .user t = q) : t ≠ s ∧ pc t = q := by
  obtain ⟨hts, he⟩ := pc_of_update_user (by rw [h]; exact hq)
  exact ⟨hts, by rwa [he] at h⟩

/-- A step in the middle of `exit` after which the process is before `st`. -/
theorem Traces.exitNext (hT : Traces m) {k : Kernel} {st : ExitStmt}
    (hcalm : ∀ t, Calm (m.k.proc t) (k.proc t)) (he : Exiting st (k.proc s)) :
    Traces ((m.setK k).setPc s (.exit st)) := by
  refine hT.still hcalm rfl (fun {t st' q} h => ?_) (fun {t st'} h => ?_)
  all_goals
    rw [setPc_pc, setK_pc, Function.update_apply] at h
    split_ifs at h with hts
  · exact h
  · obtain rfl := Pc.exit.inj h
    subst hts
    exact Or.inr he
  · exact Or.inl h

/-- A step about the running process `s`, which keeps its slot and stays what it is. -/
theorem Traces.own (hB : Base m) (hT : Traces m) (hrun : (m.k.proc s).state = .running)
    (hcalm : ∀ {t}, t ≠ s → Calm (m.k.proc t) (m'.k.proc t)) (hinc : m'.inc = m.inc)
    (hcreate : ∀ {t st q}, m'.pc t = .create st q → m.pc t = .create st q)
    (hexit : ∀ {t st}, m'.pc t = .exit st → t ≠ s ∧ m.pc t = .exit st ∨ Exiting st (m'.k.proc t))
    (hused : (m'.k.proc s).state ≠ .unused)
    (hth : (m'.k.proc s).isthread = (m.k.proc s).isthread)
    (htp : (m'.k.proc s).threadparent = (m.k.proc s).threadparent)
    (hzombie : (m'.k.proc s).state = .zombie → Exiting .zombie (m'.k.proc s)) : Traces m' := by
  refine hT.frame (· = s) hcalm (fun _ => by rw [hinc]) (fun {t st q} h => Or.inl ⟨?_, hcreate h⟩)
    hexit ?_ ?_ ?_
  · rintro rfl
    have := hB.life.embryo (hcreate h)
    rw [hrun] at this
    cases this
  · rintro t rfl hu
    exact absurd hu hused
  · rintro t rfl - h
    rw [hth] at h
    rw [htp]
    exact hT.process (Or.inl (by rw [hrun]; exact live_running)) h
  · rintro t rfl hz
    exact hzombie hz

/-- `exit` closes the files of the process. -/
theorem traces_exitFiles (hB : Base m) (hT : Traces m) {b b' : Bool} {k : Kernel}
    (hrun : (m.k.proc s).state = .running) (hpc : m.pc s = .exit (.files b b'))
    (hk : exitFiles m.k s b = .ok k) (hcalm : ∀ {t}, t ≠ s → Calm (m.k.proc t) (k.proc t)) :
    Traces ((m.setK k).setPc s (.exit (.iput b'))) := by
  obtain ⟨-, hp⟩ := exitFiles_ok hk
  have he := hT.exiting hpc
  have hself : k.proc s = { m.k.proc s with ofile := fun _ => none } := by rw [hp, if_pos rfl]
  refine hT.own hB hrun hcalm rfl (fun {t st q} h => ?_) (fun {t st} h => ?_) ?_ ?_ ?_ ?_
  all_goals simp only [setPc_k, setK_k, setPc_pc, setK_pc] at *
  · rw [Function.update_apply] at h
    split_ifs at h
    exact h
  · rw [Function.update_apply] at h
    split_ifs at h with hts
    · obtain rfl := Pc.exit.inj h
      rw [hts, hself]
      exact Or.inr ⟨he.1, he.2, rfl⟩
    · exact Or.inl ⟨hts, h⟩
  · rw [hself, hrun]
    decide
  · rw [hself]
  · rw [hself]
  · intro hz
    rw [hself, hrun] at hz
    cases hz

/-- The end of `exit`: the process is a `ZOMBIE` without files and without share lists. -/
theorem traces_exit (hB : Base m) (hT : Traces m) (hrun : (m.k.proc s).state = .running)
    (hpc : m.pc s = .exit .zombie)
    (hcalm : ∀ {t}, t ≠ s → Calm (m.k.proc t) ((exitLocked m.k s).proc t)) :
    Traces ((((m.recordExit s).setK (exitLocked m.k s)).setPc s .user).sched c s .yield) := by
  have he := hT.exiting hpc
  obtain ⟨p, hp, hs⟩ := exitLocked_self_touch m.k s
  refine hT.own hB hrun hcalm rfl (fun h => (pc_of_returned (by simp) h).2)
    (fun h => Or.inl (pc_of_returned (by simp) h)) ?_ ?_ ?_ ?_
  all_goals simp only [sched_k, setPc_k, setK_k, hs]
  · exact fun h => by cases h
  · rw [Proc.setState_isthread, hp.isthread]
  · rw [Proc.setState_threadparent, hp.threadparent]
  · intro _
    unfold Exiting at he ⊢
    rwa [Proc.setState_ofile, Proc.setState_ofileshare, Proc.setState_cwdshare, hp.ofile,
      hp.ofileshare, hp.cwdshare]

/-- `join` falls asleep with what it has found in `joinproc`. -/
theorem traces_joinBlock (hB : Base m) (hT : Traces m) {f : Option Slot} {r : Resume}
    (hs : m.Scans c s m0)
    (hcalm : ∀ {t}, t ≠ s → Calm (m.k.proc t)
      ((fallAsleep (m0.k.modify s (·.setJoinproc f)) s (.proc s)).proc t)) :
    Traces ((m0.setK (fallAsleep (m0.k.modify s (·.setJoinproc f)) s (.proc s))).sched c s r) := by
  obtain ⟨-, hi, -, -, -, hpc, -⟩ := hs.rest
  have hc := hs.calm s
  refine hT.own hB (hB.sched.running_of_scans hs) hcalm hi (fun h => by rwa [← hpc])
    (fun {t st} h => ?_) ?_ ?_ ?_ ?_
  all_goals simp only [sched_k, sched_pc, setK_k, setK_pc] at *
  · rw [hpc] at h
    by_cases hts : t = s
    · subst hts
      simp only [fallAsleep, Kernel.modify_proc_self]
      exact Or.inr (hc.exiting (hT.exiting h))
    · exact Or.inl ⟨hts, h⟩
  all_goals simp only [fallAsleep, Kernel.modify_proc_self, Proc.setJoinproc_isthread,
    Proc.setJoinproc_threadparent]
  · exact fun h => by cases h
  · exact hc.isthread
  · exact hc.threadparent
  · exact fun h => by cases h

/-- `wait` clears the slot that it reclaims, and the process in it has left the rest clean. -/
theorem traces_waitReap (hB : Base m) (hT : Traces m) {k : Kernel} {l : List Event}
    (hs : m.Scans c s m0) (hw : waitScan m0.k s = .reap p) (hk : waitReap m0.k p = .ok k)
    (hok : (m.k.proc p).joinproc = none)
    (hcalm : ∀ {t}, t ≠ p → Calm (m.k.proc t) (k.proc t)) :
    Traces { m0 with k := k, lock := .free, log := l } := by
  obtain ⟨-, hi, -, -, -, hpc, -⟩ := hs.rest
  obtain ⟨hR, hth, htid⟩ := waitReap_ok hk
  have hc := hs.calm p
  obtain ⟨hwp, hz⟩ := waitScan_reap hw
  have hzm : (m.k.proc p).state = .zombie := by rw [← hs.state, hz]
  have hproc : (m.k.proc p).isthread = false := by
    rw [← hc.isthread]
    simp only [waitable, Bool.and_eq_true, Bool.not_eq_true'] at hwp
    exact hwp.1.2
  have he := hc.exiting (hT.zombie hzm)
  refine hT.frame (· = p) hcalm (fun _ => by rw [hi]) (fun {t st q} h => Or.inl ⟨?_, ?_⟩)
    (fun {t st} h => Or.inl ⟨?_, ?_⟩) ?_ ?_ ?_
  all_goals simp only [hpc] at *
  · rintro rfl
    have := hB.life.embryo h
    rw [hzm] at this
    cases this
  · exact h
  · rintro rfl
    have := hB.life.busy (by rw [h]; simp)
    rw [hzm] at this
    exact not_live_zombie this
  · exact h
  · rintro t rfl -
    exact ⟨hR.killed, hR.parent, hth, htid, hR.pid,
      hR.threadparent.trans (hc.threadparent.trans (hT.process (Or.inr hzm) hproc)),
      hR.joinproc.trans (hc.joinproc hok), hR.ofile.trans he.2.2, hR.ofileshare.trans he.1,
      hR.cwdshare.trans he.2.1⟩
  · rintro t rfl h
    rw [hR.state] at h
    simp [not_live_unused] at h
  · rintro t rfl h
    rw [hR.state] at h
    cases h

/-- **Tidy steps keep the slots clean.** -/
theorem Effect.traces (hB : Base m) (hT : Traces m) (h : Effect m mv m') (hok : Tidy m.k mv) :
    Traces m' := by
  have hcalm := fun t => @Effect.calm n m m' mv t hB h hok
  cases h with
  | enter | idle | pick | back | wakeup | yield | sleep | same | kill | tkill =>
    exact hT.still (fun t => hcalm t id) rfl id Or.inl
  | woke hs | waitBlock hs =>
    obtain ⟨-, hi, -, -, -, hpc, -⟩ := hs.rest
    exact hT.still (fun t => hcalm t id) hi (fun h => by rwa [← hpc]) (fun h => Or.inl (by rwa [← hpc]))
  | execFail | commit =>
    exact hT.still (fun t => hcalm t id) rfl (fun h => (pc_of_returned (by simp) h).2)
      (fun h => Or.inl (pc_of_returned (by simp) h).2)
  | alloc _ _ ha => exact traces_alloc hB hT ha (fun ht => hcalm _ ht)
  | stmtLast hr hpc hk => exact traces_stmt hB hT (hB.sched.running hr) hpc hk hok (fun ht => hcalm _ ht)
  | stmtNext hr hpc hk => exact traces_stmt hB hT (hB.sched.running hr) hpc hk hok (fun ht => hcalm _ ht)
  | @unshare _ s hr hpc =>
    refine hT.still (fun t => hcalm t id) rfl (fun {t st q} h => ?_) (fun {t st} h => Or.inl ?_)
    all_goals
      rw [setPc_pc, setK_pc, Function.update_apply] at h
      split_ifs at h
      exact h
  | exitOfile => exact hT.exitNext (fun t => hcalm t id) ⟨unshare_self _ _, trivial⟩
  | exitCwd _ hpc =>
    exact hT.exitNext (fun t => hcalm t id) ⟨(hT.exiting hpc).1, unshare_self _ _⟩
  | @exitIput _ s b _ hpc =>
    have he : Exiting (.iput b) (m.k.proc s) := hT.exiting hpc
    exact hT.exitNext (fun t => hcalm t id) ((hcalm s id).exiting he)
  | exitFiles hr hpc hk =>
    exact traces_exitFiles hB hT (hB.sched.running hr) hpc hk (fun ht => hcalm _ ht)
  | exit hr hpc => exact traces_exit hB hT (hB.sched.running hr) hpc (fun ht => hcalm _ ht)
  | joinBlock hs => exact traces_joinBlock hB hT hs (fun ht => hcalm _ ht)
  | waitReap hs hw hk => exact traces_waitReap hB hT hs hw hk hok (fun ht => hcalm _ ht)
  | joinReap => exact hok.elim

/-- **Other steps leave something behind.** -/
theorem Effect.untidy (hB : Base m) (hN : Names m) (hT : Traces m) (h : Effect m mv m')
    (hno : ¬ Tidy m.k mv) : ¬ Hygiene m' := by
  have hstmt : ∀ {s np : Slot} {o : Oracle} {st : Stmt} {k : Kernel} {nx : Option Stmt},
      m.pc s = .create st np → st.exec m.k s np o = .ok (k, nx) → st.Fails m.k np o →
      (k.proc np).state = .unused → ¬ Clean (k.proc np) := by
    intro s np o st k nx hpc hk hf hu hclean
    have hemb := hB.life.embryo hpc
    have hnb := hT.newborn hpc
    have hpos := hN.pos (t := np) (by rw [hemb]; decide)
    have hpid := exec_pid hk
    rw [hclean.pid] at hpid
    cases st with
    | kstack fl =>
      rw [if_neg (by simp), hnb.pid (Or.inl ⟨fl, rfl⟩)] at hpid
      omega
    | forkCopyuvm =>
      rw [if_neg (by simp), hnb.pid (Or.inr rfl)] at hpid
      omega
    | clonePgdir =>
      have := exec_threadparent hk
      rw [hclean.threadparent, if_neg (by simp)] at this
      exact hnb.thread (Or.inr rfl) this.symm
    | _ => exact hf
  cases h with
  | stmtLast hr hpc hk | stmtNext hr hpc hk =>
    have hf := not_not.mp hno
    have hu := (exec_fails_iff hk (hB.life.embryo hpc)).mpr hf
    exact fun hH => hstmt hpc hk hf hu (hH _ hu)
  | @waitReap _ _ p m0 _ hs hw hk =>
    have hR := (waitReap_ok hk).1
    intro hH
    exact hno (((hs.joinproc p).symm.trans hR.joinproc.symm).trans (hH p hR.state).joinproc)
  | @joinReap _ _ p tid _ m0 k hs hw hk =>
    obtain ⟨hR, hth, -⟩ := joinReap_ok hk
    obtain ⟨⟨-, hT'⟩, -⟩ := joinLoop_reap hw
    intro hH
    have := (hH p hR.state).isthread
    simp only [hth, hT'] at this
    cases this
  | @kill _ _ pid hr =>
    simp only [Tidy, not_forall, not_not] at hno
    obtain ⟨p, hp, hu⟩ := hno
    rcases kill_proc m.k pid p with ⟨-, hk⟩ | ⟨hmiss, -⟩
    · intro hH
      have hst : ((m.setK (Xv6.kill m.k pid).1).k.proc p).state = .unused := by
        rw [setK_k, hk, Proc.kill_state, hu]
        rfl
      have := (hH p hst).killed
      rw [setK_k, hk] at this
      cases this
    · exact absurd ⟨p, hp, Or.inl rfl⟩ hmiss
  | _ => exact absurd trivial hno

theorem traces_boot (n : ℕ) (ofile : Fd → Option FileId) (ft : FTable) :
    Traces (boot n ofile ft) := by
  have hp : ∀ t, (boot n ofile ft).k.proc t = if t = 0 then initProc ofile else Proc.zero :=
    fun t => by simp [boot, bootKernel, Function.update_apply]
  refine ⟨fun t ht => ?_, (fun h => by cases h), fun {t} _ _ => ?_, fun {t} ht => ?_, (fun h => by cases h)⟩
  · rw [hp] at ht ⊢
    split_ifs at ht ⊢
    · cases ht
    · exact ⟨rfl, rfl, rfl, rfl, rfl, rfl, rfl, rfl, rfl, rfl⟩
  · rw [hp]
    split_ifs <;> rfl
  · rw [hp] at ht
    split_ifs at ht <;> cases ht

/-- What the reachable states of tidy runs satisfy. -/
structure Hygienic (m : Machine n) : Prop where
  base : Base m
  names : Names m
  traces : Traces m

theorem hygienic_init (h : (machine n).init m) : Hygienic m := by
  obtain ⟨ofile, ft, rfl⟩ := h
  exact ⟨base_boot n ofile ft, Reach.names (.init ⟨ofile, ft, rfl⟩ : (machine n).Reachable _),
    traces_boot n ofile ft⟩

theorem step_hygienic (hH : Hygienic m) (hok : TidyStep m a) (h : m.step a = .ok m') :
    Hygienic m' :=
  have he := step_effect h
  ⟨he.base hH.base, he.names hH.base hH.names, he.traces hH.base hH.traces hok⟩

/-- **Slot hygiene.** In every state of a run of tidy steps every `UNUSED` slot is clean; so the
slot that `allocproc` claims has nothing but its new pid, a slot in creation has share arrays only by
its own flags, and `kill` of a nonzero pid and `tkill` find only slots that are in use.

A run consists of tidy steps exactly when the `UNUSED` slots are clean in all its states. -/
theorem slot_hygiene (n : ℕ) :
    (∀ m, (machine n).Reach TidyStep m → Hygiene m ∧
      (∀ np k, allocproc m.k = some (np, k) →
        (k.proc np).pid = m.k.nextpid ∧ Clean { k.proc np with pid := 0 }) ∧
      (∀ s st np, m.pc s = .create st np → (m.k.proc np).joinproc = none ∧
        ((m.k.proc np).ofileshare = (fun _ => none) ∨ (m.k.proc np).cloneFiles = true) ∧
        ((m.k.proc np).cwdshare = (fun _ => none) ∨ (m.k.proc np).cloneFs = true)) ∧
      (∀ pid p, pid ≠ 0 → killTarget m.k pid = some p → (m.k.proc p).state ≠ .unused) ∧
      ∀ tid p, tkillTarget m.k tid = some p → (m.k.proc p).state ≠ .unused) ∧
    ∀ m as, (machine n).init m → (machine n).Runs m as →
      ((machine n).Obeys TidyStep m as ↔ (machine n).Always Hygiene m as) := by
  refine ⟨fun m h => ?_, fun m as hi hrun => ?_⟩
  · have hT := (h.invariant (fun m => hygienic_init)
      fun m a m' hH ha (hst : m.step a = .ok m') => step_hygienic hH ha hst).traces
    refine ⟨hT.hygiene, fun np k ha => ?_, fun s st np hpc => ?_, fun pid p hpid ht hu => ?_,
      fun tid p ht hu => ?_⟩
    · obtain ⟨hu, hp, -⟩ := allocproc_some ha
      have hc := hT.hygiene np hu
      rw [hp, if_pos rfl]
      exact ⟨rfl, hc.killed, hc.parent, hc.isthread, hc.tid, rfl, hc.threadparent, hc.joinproc,
        hc.ofile, hc.ofileshare, hc.cwdshare⟩
    · have hn := hT.newborn hpc
      exact ⟨hn.joinproc, hn.ofileshare.imp_right And.left, hn.cwdshare.imp_right And.left⟩
    · have := scan_some ht
      rw [(hT.hygiene p hu).pid, decide_eq_true_eq] at this
      exact hpid this.symm
    · have := scan_some ht
      rw [(hT.hygiene p hu).isthread, Bool.and_false] at this
      cases this
  · refine System.obeys_iff_always (fun m (hH : Hygienic m) => hH.traces.hygiene)
      (fun m a m' hH ha (hst : m.step a = .ok m') => step_hygienic hH ha hst)
      (fun m a m' hH ha (hst : m.step a = .ok m') => ?_) (hygienic_init hi) as hrun
    exact (step_effect hst).untidy hH.base hH.names hH.traces ha

/-- A `fork`, the exit of the child and the `wait` for it leave every slot clean. -/
theorem slot_hygiene_wait : ∃ as : List (Action 2),
    (machine 2).Ends (fun m => m.log = [.wait 1 2, .exit 2, .fork 1 2]) (boot0 2) as ∧
      (machine 2).Always Hygiene (boot0 2) as := by
  let next (c : Fin 2) : Action 2 := .op c (.next ⟨some 1, true, 0, none⟩)
  let as : List (Action 2) := [.enter 0, .scan 0, .resume 0, .op 0 .fork] ++
    List.replicate 8 (next 0) ++ [.enter 1, .scan 1, .resume 1, .op 1 .exit] ++
    List.replicate 4 (next 1) ++ [.scan 1, .op 0 .wait]
  have hok : (machine 2).Obeys TidyStep (boot0 2) as := by
    decide +kernel
  have hrun : (machine 2).Ends (fun m => m.log = [.wait 1 2, .exit 2, .fork 1 2]) (boot0 2) as := by
    decide +kernel
  exact ⟨as, hrun, ((slot_hygiene 2).2 _ as (init_boot0 2) hrun.runs).mp hok⟩

/-- A thread that has been joined leaves its `tid` and its `isthread` in the slot: `tkill` still
finds it. -/
theorem slot_hygiene_counterexample : ∃ m : Machine 2, (machine 2).Reachable m ∧ ¬ Hygiene m ∧
    ∃ t, tkillTarget m.k 2 = some t ∧ (m.k.proc t).state = .unused := by
  let next (c : Fin 2) : Action 2 := .op c (.next ⟨some 1, true, 0, none⟩)
  let as : List (Action 2) := [.enter 0, .scan 0, .resume 0, .op 0 (.clone 4)] ++
    List.replicate 11 (next 0) ++ [.enter 1, .scan 1, .resume 1, .op 1 .exit] ++
    List.replicate 4 (next 1) ++ [.scan 1, .op 0 (.join 2 ⟨none, true, 0, none⟩)]
  have hrun : (machine 2).Ends (fun m => (m.k.proc 1).state = .unused ∧
      (m.k.proc 1).isthread = true ∧ tkillTarget m.k 2 = some 1) (boot0 2) as := by
    decide +kernel
  obtain ⟨m, hm, hu, hth, ht⟩ := System.Reachable.of_ends _ (init_boot0 2) hrun
  refine ⟨m, hm, fun hH => ?_, 1, ht, hu⟩
  rw [(hH 1 hu).isthread] at hth
  cases hth

end OsSemester.Xv6
