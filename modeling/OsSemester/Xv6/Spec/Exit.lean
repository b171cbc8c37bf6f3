import OsSemester.Xv6.Exit

/-!
# What wakeups, kills and `exit` do to a slot

A few lemmas for each function say how the record of every slot changes, so that no later proof
unfolds the function.  `Keep p p'` says that a record kept everything that matters for the life of
the process: at most the run state, the sleep channel, the `killed` mark, `joinproc`, the
descriptors and the sharing relations differ.  `Touch p p'` bounds the changes of a wakeup, of a
kill and of the critical section of `exit`.
-/

namespace OsSemester.Xv6

/-- The two records belong to the same process in the same part of its life. -/
structure Keep (p p' : Proc) : Prop where
  state : p'.state = p.state ∨ (p.state.Live ∧ p'.state.Live)
  sz : p'.sz = p.sz
  pgdir : p'.pgdir = p.pgdir
  kstack : p'.kstack = p.kstack
  pid : p'.pid = p.pid
  parent : p'.parent = p.parent
  isthread : p'.isthread = p.isthread
  tid : p'.tid = p.tid
  threadparent : p'.threadparent = p.threadparent
  cloneVm : p'.cloneVm = p.cloneVm
  cloneThread : p'.cloneThread = p.cloneThread
  killed : p.killed = true → p'.killed = true

namespace Keep

variable {p p' p'' : Proc}

theorem refl (p : Proc) : Keep p p :=
  ⟨Or.inl rfl, rfl, rfl, rfl, rfl, rfl, rfl, rfl, rfl, rfl, rfl, id⟩

theorem trans (h : Keep p p') (h' : Keep p' p'') : Keep p p'' where
  state := by
    rcases h.state with h1 | h1 <;> rcases h'.state with h2 | h2 <;> grind
  sz := h'.sz.trans h.sz
  pgdir := h'.pgdir.trans h.pgdir
  kstack := h'.kstack.trans h.kstack
  pid := h'.pid.trans h.pid
  parent := h'.parent.trans h.parent
  isthread := h'.isthread.trans h.isthread
  tid := h'.tid.trans h.tid
  threadparent := h'.threadparent.trans h.threadparent
  cloneVm := h'.cloneVm.trans h.cloneVm
  cloneThread := h'.cloneThread.trans h.cloneThread
  killed hk := h'.killed (h.killed hk)

theorem live_iff (h : Keep p p') : p'.state.Live ↔ p.state.Live := by
  rcases h.state with h | h
  · rw [h]
  · exact iff_of_true h.2 h.1

theorem eq_iff (h : Keep p p') {st : ProcState} (hst : ¬ st.Live) :
    p'.state = st ↔ p.state = st := by
  rcases h.state with h | h
  · rw [h]
  · constructor
    · rintro rfl
      exact absurd h.2 hst
    · rintro rfl
      exact absurd h.1 hst

end Keep

theorem not_live_unused : ¬ ProcState.unused.Live := by decide
theorem not_live_embryo : ¬ ProcState.embryo.Live := by decide
theorem not_live_zombie : ¬ ProcState.zombie.Live := by decide
theorem live_sleeping : ProcState.sleeping.Live := by decide
theorem live_runnable : ProcState.runnable.Live := by decide
theorem live_running : ProcState.running.Live := by decide

variable {k k' : Kernel} {s t cur np p : Slot}

/-! ### Wakeups and kills -/

theorem wakeup1_proc (k : Kernel) (ch : Option Chan) (t : Slot) :
    (wakeup1 k ch).proc t =
      if (k.proc t).state = .sleeping ∧ (k.proc t).chan = ch then (k.proc t).setState .runnable
      else k.proc t := rfl

/-- A sleeper may have been made `RUNNABLE`, nothing else. -/
def Woken (st st' : ProcState) : Prop := st' = st ∨ (st = .sleeping ∧ st' = .runnable)

theorem Woken.refl (st : ProcState) : Woken st st := Or.inl rfl

theorem Woken.trans {a b c : ProcState} (h : Woken a b) (h' : Woken b c) : Woken a c := by
  unfold Woken at *
  grind

theorem Woken.keep {a b : ProcState} (h : Woken a b) : b = a ∨ (a.Live ∧ b.Live) := by
  rcases h with h | ⟨rfl, rfl⟩
  · exact Or.inl h
  · exact Or.inr ⟨live_sleeping, live_runnable⟩

theorem woken_ite (c : Prop) [Decidable c] (st : ProcState) (h : c → st = .sleeping) :
    Woken st (if c then .runnable else st) := by
  unfold Woken
  grind

/-- The two records differ at most in `parent`, `joinproc` and a `killed` mark that was set, and a
sleeper may have been woken. -/
structure Touch (p p' : Proc) : Prop where
  woken : Woken p.state p'.state
  sz : p'.sz = p.sz
  pgdir : p'.pgdir = p.pgdir
  kstack : p'.kstack = p.kstack
  pid : p'.pid = p.pid
  chan : p'.chan = p.chan
  ofile : p'.ofile = p.ofile
  cwd : p'.cwd = p.cwd
  isthread : p'.isthread = p.isthread
  tid : p'.tid = p.tid
  threadparent : p'.threadparent = p.threadparent
  ofileshare : p'.ofileshare = p.ofileshare
  cwdshare : p'.cwdshare = p.cwdshare
  cloneVm : p'.cloneVm = p.cloneVm
  cloneFiles : p'.cloneFiles = p.cloneFiles
  cloneFs : p'.cloneFs = p.cloneFs
  cloneThread : p'.cloneThread = p.cloneThread
  killed : p.killed = true → p'.killed = true

namespace Touch

variable {p p' p'' : Proc}

theorem refl (p : Proc) : Touch p p :=
  ⟨Woken.refl _, rfl, rfl, rfl, rfl, rfl, rfl, rfl, rfl, rfl, rfl, rfl, rfl, rfl, rfl,
    rfl, rfl, id⟩

theorem trans (h : Touch p p') (h' : Touch p' p'') : Touch p p'' where
  woken := h.woken.trans h'.woken
  sz := h'.sz.trans h.sz
  pgdir := h'.pgdir.trans h.pgdir
  kstack := h'.kstack.trans h.kstack
  pid := h'.pid.trans h.pid
  chan := h'.chan.trans h.chan
  ofile := h'.ofile.trans h.ofile
  cwd := h'.cwd.trans h.cwd
  isthread := h'.isthread.trans h.isthread
  tid := h'.tid.trans h.tid
  threadparent := h'.threadparent.trans h.threadparent
  ofileshare := h'.ofileshare.trans h.ofileshare
  cwdshare := h'.cwdshare.trans h.cwdshare
  cloneVm := h'.cloneVm.trans h.cloneVm
  cloneFiles := h'.cloneFiles.trans h.cloneFiles
  cloneFs := h'.cloneFs.trans h.cloneFs
  cloneThread := h'.cloneThread.trans h.cloneThread
  killed hk := h'.killed (h.killed hk)

theorem setState {st : ProcState} (h : Woken p.state st) : Touch p (p.setState st) :=
  ⟨h, rfl, rfl, rfl, rfl, rfl, rfl, rfl, rfl, rfl, rfl, rfl, rfl, rfl, rfl,
    rfl, rfl, id⟩

theorem setParent (p : Proc) (q : Option Slot) : Touch p (p.setParent q) :=
  ⟨Woken.refl _, rfl, rfl, rfl, rfl, rfl, rfl, rfl, rfl, rfl, rfl, rfl, rfl, rfl, rfl,
    rfl, rfl, id⟩

theorem setJoinproc (p : Proc) (q : Option Slot) : Touch p (p.setJoinproc q) :=
  ⟨Woken.refl _, rfl, rfl, rfl, rfl, rfl, rfl, rfl, rfl, rfl, rfl, rfl, rfl, rfl, rfl,
    rfl, rfl, id⟩

theorem kill (p : Proc) : Touch p p.kill :=
  ⟨woken_ite _ _ id, rfl, rfl, rfl, rfl, rfl, rfl, rfl, rfl, rfl, rfl, rfl, rfl, rfl, rfl,
    rfl, rfl, fun _ => rfl⟩

theorem keep (h : Touch p p') (hpar : p'.parent = p.parent) : Keep p p' :=
  ⟨h.woken.keep, h.sz, h.pgdir, h.kstack, h.pid, hpar, h.isthread, h.tid, h.threadparent,
    h.cloneVm, h.cloneThread, h.killed⟩

end Touch

theorem wakeup1_touch (k : Kernel) (ch : Option Chan) (t : Slot) :
    Touch (k.proc t) ((wakeup1 k ch).proc t) := by
  rw [wakeup1_proc]
  split
  · rename_i h
    exact .setState (Or.inr ⟨h.1, rfl⟩)
  · exact .refl _

@[simp] theorem wakeup1_parent (k : Kernel) (ch : Option Chan) (t : Slot) :
    ((wakeup1 k ch).proc t).parent = (k.proc t).parent := by
  rw [wakeup1_proc]
  split <;> rfl

@[simp] theorem wakeup1_killed (k : Kernel) (ch : Option Chan) (t : Slot) :
    ((wakeup1 k ch).proc t).killed = (k.proc t).killed := by
  rw [wakeup1_proc]
  split <;> rfl

@[simp] theorem wakeup1_joinproc (k : Kernel) (ch : Option Chan) (t : Slot) :
    ((wakeup1 k ch).proc t).joinproc = (k.proc t).joinproc := by
  rw [wakeup1_proc]
  split <;> rfl

theorem wakeup1_wakes (k : Kernel) {ch : Option Chan} {t : Slot} (h : (k.proc t).chan = ch) :
    ((wakeup1 k ch).proc t).state ≠ .sleeping := by
  rw [wakeup1_proc]
  grind [Proc.setState_state]

/-- The slot is hit by `kill(pid)`. -/
def killHits (k : Kernel) (pid : ℤ) (t : Slot) : Prop :=
  ∃ p, killTarget k pid = some p ∧
    (t = p ∨ ((k.proc p).isthread = false ∧ (k.proc t).isthread = true ∧
      (k.proc t).parent = some p))

theorem kill_proc (k : Kernel) (pid : ℤ) (t : Slot) :
    (killHits k pid t ∧ (kill k pid).1.proc t = (k.proc t).kill) ∨
      (¬ killHits k pid t ∧ (kill k pid).1.proc t = k.proc t) := by
  unfold kill killHits
  cases hp : killTarget k pid with
  | none => simp
  | some p =>
    simp only [Kernel.mapProc_proc, Option.some.injEq, exists_eq_left']
    by_cases h : t = p ∨ ((k.proc p).isthread = false ∧ (k.proc t).isthread = true ∧
      (k.proc t).parent = some p)
    · refine Or.inl ⟨h, if_pos ?_⟩
      simpa [and_assoc] using h
    · refine Or.inr ⟨h, if_neg ?_⟩
      simpa [and_assoc] using h

theorem kill_touch (k : Kernel) (pid : ℤ) (t : Slot) :
    Touch (k.proc t) ((kill k pid).1.proc t) := by
  rcases kill_proc k pid t with ⟨-, h⟩ | ⟨-, h⟩ <;> rw [h]
  · exact Touch.kill _
  · exact Touch.refl _

@[simp] theorem kill_parent (k : Kernel) (pid : ℤ) (t : Slot) :
    ((kill k pid).1.proc t).parent = (k.proc t).parent := by
  rcases kill_proc k pid t with ⟨-, h⟩ | ⟨-, h⟩ <;> rw [h]
  rfl

@[simp] theorem kill_joinproc (k : Kernel) (pid : ℤ) (t : Slot) :
    ((kill k pid).1.proc t).joinproc = (k.proc t).joinproc := by
  rcases kill_proc k pid t with ⟨-, h⟩ | ⟨-, h⟩ <;> rw [h]
  rfl

theorem tkill_proc (k : Kernel) (tid : ℤ) (t : Slot) :
    (tkill k tid).1.proc t =
      if tkillTarget k tid = some t then (k.proc t).kill else k.proc t := by
  unfold tkill
  cases hp : tkillTarget k tid with
  | none => simp
  | some p =>
    simp only [Kernel.modify_proc, Option.some.injEq]
    grind

theorem tkill_touch (k : Kernel) (tid : ℤ) (t : Slot) :
    Touch (k.proc t) ((tkill k tid).1.proc t) := by
  rw [tkill_proc]
  split
  · exact Touch.kill _
  · exact Touch.refl _

@[simp] theorem tkill_parent (k : Kernel) (tid : ℤ) (t : Slot) :
    ((tkill k tid).1.proc t).parent = (k.proc t).parent := by
  rw [tkill_proc]
  split <;> rfl

@[simp] theorem tkill_joinproc (k : Kernel) (tid : ℤ) (t : Slot) :
    ((tkill k tid).1.proc t).joinproc = (k.proc t).joinproc := by
  rw [tkill_proc]
  split <;> rfl

/-! ### `exit` -/

theorem unshareOfile_proc (k : Kernel) (cur t : Slot) :
    (unshareOfile k cur).proc t =
      { k.proc t with ofileshare := unshare k.ofileshare cur t } := rfl

theorem unshareCwd_proc (k : Kernel) (cur t : Slot) :
    (unshareCwd k cur).proc t = { k.proc t with cwdshare := unshare k.cwdshare cur t } := rfl

/-- The two kernels agree outside the process table and the file table. -/
structure SameGlobals (k k' : Kernel) : Prop where
  nextpid : k'.nextpid = k.nextpid
  initproc : k'.initproc = k.initproc
  inuse : k'.inuse = k.inuse
  ndir : k'.ndir = k.ndir
  freed : k'.freed = k.freed

theorem SameGlobals.refl (k : Kernel) : SameGlobals k k := ⟨rfl, rfl, rfl, rfl, rfl⟩

theorem closeFiles_ok {l : List Fd} {ft ft' : FTable} {ofile ofile' : Fd → Option FileId}
    (h : closeFiles l ft ofile = .ok (ft', ofile')) (fd : Fd) :
    ofile' fd = if fd ∈ l then none else ofile fd := by
  induction l generalizing ft ofile with
  | nil =>
    obtain ⟨-, rfl⟩ := Prod.mk.inj (Except.ok.inj h)
    simp
  | cons i l ih =>
    unfold closeFiles at h
    split at h
    · rename_i hi
      rw [ih h]
      simp only [List.mem_cons]
      grind
    · split at h
      · cases h
      · rw [ih h]
        simp only [List.mem_cons, Function.update_apply]
        grind

/-- Closing or dropping the descriptors empties the caller's table. -/
theorem exitFiles_ok {b : Bool} (h : exitFiles k cur b = .ok k') :
    SameGlobals k k' ∧ ∀ t, k'.proc t =
      if t = cur then { k.proc cur with ofile := fun _ => none } else k.proc t := by
  unfold exitFiles at h
  split at h
  · obtain rfl := Except.ok.inj h
    exact ⟨⟨rfl, rfl, rfl, rfl, rfl⟩, fun t => by simp only [Kernel.modify_proc]⟩
  · split at h
    · cases h
    · rename_i ft ofile hc
      obtain rfl := Except.ok.inj h
      obtain rfl : ofile = fun _ => none := funext fun fd => by
        rw [closeFiles_ok hc fd, if_pos (List.mem_finRange fd)]
      exact ⟨⟨rfl, rfl, rfl, rfl, rfl⟩, fun t => by simp only [Kernel.modify_proc]⟩

theorem modify_keep (k : Kernel) (s t : Slot) (f : Proc → Proc)
    (hf : Keep (k.proc s) (f (k.proc s))) : Keep (k.proc t) ((k.modify s f).proc t) := by
  rw [Kernel.modify_proc]
  split
  · rename_i h
    subst h
    exact hf
  · exact Keep.refl _

theorem wakeup1_globals (k : Kernel) (ch : Option Chan) : SameGlobals k (wakeup1 k ch) :=
  ⟨rfl, rfl, rfl, rfl, rfl⟩

theorem kill_globals (k : Kernel) (pid : ℤ) : SameGlobals k (kill k pid).1 := by
  unfold kill
  cases killTarget k pid <;> exact ⟨rfl, rfl, rfl, rfl, rfl⟩

theorem tkill_globals (k : Kernel) (tid : ℤ) : SameGlobals k (tkill k tid).1 := by
  unfold tkill
  cases tkillTarget k tid <;> exact ⟨rfl, rfl, rfl, rfl, rfl⟩

theorem exitLocked_globals (k : Kernel) (cur : Slot) : SameGlobals k (exitLocked k cur) := by
  unfold exitLocked exitThread exitProcess
  cases (k.proc cur).isthread <;> cases hasJoiner k cur <;> cases adoptsZombie k cur <;>
    exact ⟨rfl, rfl, rfl, rfl, rfl⟩

theorem adopted_self (h : (k.proc cur).parent ≠ some cur) : adopted k cur cur = false := by
  simp [adopted, h]

theorem adoptsZombie_iff (k : Kernel) (cur : Slot) :
    adoptsZombie k cur = true ↔ ∃ z, adopted k cur z = true ∧ (k.proc z).state = .zombie := by
  unfold adoptsZombie
  rw [Option.isSome_iff_exists]
  constructor
  · rintro ⟨z, hz⟩
    exact ⟨z, by simpa using scan_some hz⟩
  · rintro ⟨z, hz⟩
    exact scan_isSome (s := z) (by simpa using hz)

theorem adopt_touch (k : Kernel) (cur t : Slot) : Touch (k.proc t) ((adopt k cur).proc t) := by
  unfold adopt
  rw [Kernel.mapProc_proc]
  split
  · exact .setParent _ _
  · exact .refl _

theorem adopt_parent (k : Kernel) (cur t : Slot) : ((adopt k cur).proc t).parent =
    if adopted k cur t then some k.initproc else (k.proc t).parent := by
  unfold adopt
  rw [Kernel.mapProc_proc]
  split <;> rfl

theorem adopt_rest (k : Kernel) (cur t : Slot) :
    ((adopt k cur).proc t).killed = (k.proc t).killed ∧
      ((adopt k cur).proc t).joinproc = (k.proc t).joinproc := by
  unfold adopt
  rw [Kernel.mapProc_proc]
  split <;> exact ⟨rfl, rfl⟩

theorem killThreads_touch (k : Kernel) (cur t : Slot) :
    Touch (k.proc t) ((killThreads k cur).proc t) := by
  unfold killThreads
  rw [Kernel.mapProc_proc]
  split
  · exact .kill _
  · exact .refl _

theorem killThreads_rest (k : Kernel) (cur t : Slot) :
    ((killThreads k cur).proc t).parent = (k.proc t).parent ∧
      ((killThreads k cur).proc t).joinproc = (k.proc t).joinproc ∧
      ((killThreads k cur).proc t).killed =
        ((k.proc t).killed || ((k.proc t).isthread && (k.proc t).parent = some cur)) := by
  unfold killThreads
  rw [Kernel.mapProc_proc]
  split
  · rename_i h
    exact ⟨rfl, rfl, by rw [h]; simp⟩
  · rename_i h
    exact ⟨rfl, rfl, by rw [Bool.eq_false_iff.mpr h, Bool.or_false]⟩

/-- The table after the adoption loop and its wakeups of `initproc`. -/
private def exitAdopted (k : Kernel) (cur : Slot) : Kernel :=
  if adoptsZombie k cur then wakeupProc (adopt k cur) (some k.initproc) else adopt k cur

private theorem exitProcess_eq (k : Kernel) (cur : Slot) : exitProcess k cur =
    killThreads (wakeupProc (exitAdopted k cur) ((exitAdopted k cur).proc cur).parent) cur := rfl

private theorem exitAdopted_touch (k : Kernel) (cur t : Slot) :
    Touch (k.proc t) ((exitAdopted k cur).proc t) := by
  unfold exitAdopted
  split
  · exact (adopt_touch k cur t).trans (wakeup1_touch _ _ t)
  · exact adopt_touch k cur t

private theorem exitAdopted_rest (k : Kernel) (cur t : Slot) :
    ((exitAdopted k cur).proc t).parent =
        (if adopted k cur t then some k.initproc else (k.proc t).parent) ∧
      ((exitAdopted k cur).proc t).killed = (k.proc t).killed ∧
      ((exitAdopted k cur).proc t).joinproc = (k.proc t).joinproc := by
  have h := adopt_rest k cur t
  unfold exitAdopted wakeupProc
  split <;> simp [adopt_parent, h]

theorem exitProcess_touch (k : Kernel) (cur t : Slot) :
    Touch (k.proc t) ((exitProcess k cur).proc t) := by
  rw [exitProcess_eq]
  exact ((exitAdopted_touch k cur t).trans (wakeup1_touch _ _ t)).trans (killThreads_touch _ _ t)

theorem exitProcess_parent (k : Kernel) (cur t : Slot) : ((exitProcess k cur).proc t).parent =
    if adopted k cur t then some k.initproc else (k.proc t).parent := by
  rw [exitProcess_eq, (killThreads_rest _ _ t).1, wakeupProc, wakeup1_parent]
  exact (exitAdopted_rest k cur t).1

theorem exitProcess_joinproc (k : Kernel) (cur t : Slot) :
    ((exitProcess k cur).proc t).joinproc = (k.proc t).joinproc := by
  rw [exitProcess_eq, (killThreads_rest _ _ t).2.1, wakeupProc, wakeup1_joinproc]
  exact (exitAdopted_rest k cur t).2.2

/-- Only threads of the exiting process are marked killed. -/
theorem exitProcess_killed (k : Kernel) (cur t : Slot)
    (h : ¬ ((k.proc t).isthread = true ∧ (k.proc t).parent = some cur)) :
    ((exitProcess k cur).proc t).killed = (k.proc t).killed := by
  have hr := exitAdopted_rest k cur t
  have ht := (exitAdopted_touch k cur t).isthread
  rw [exitProcess_eq, (killThreads_rest _ _ t).2.2, wakeupProc, wakeup1_killed, wakeup1_parent,
    (wakeup1_touch _ _ t).isthread, ht, hr.1, hr.2.1]
  have hfalse : ((k.proc t).isthread && decide ((if adopted k cur t then some k.initproc
      else (k.proc t).parent) = some cur)) = false := by
    cases had : adopted k cur t with
    | true =>
      unfold adopted at had
      simp_all
    | false => simpa using h
  rw [hfalse, Bool.or_false]

/-- `exit` of a process wakes its parent. -/
theorem exitProcess_wakes_parent (k : Kernel) (cur t : Slot)
    (hself : (k.proc cur).parent ≠ some cur)
    (h : (k.proc t).chan = (k.proc cur).parent.map .proc) :
    ((exitProcess k cur).proc t).state ≠ .sleeping := by
  have hp : ((exitAdopted k cur).proc cur).parent = (k.proc cur).parent := by
    rw [(exitAdopted_rest k cur cur).1, adopted_self hself]
    rfl
  have hw : ((wakeupProc (exitAdopted k cur) ((exitAdopted k cur).proc cur).parent).proc t).state
      ≠ .sleeping := by
    apply wakeup1_wakes
    rw [(exitAdopted_touch k cur t).chan, h, hp]
  rw [exitProcess_eq]
  have := (killThreads_touch (wakeupProc (exitAdopted k cur)
    ((exitAdopted k cur).proc cur).parent) cur t).woken
  unfold Woken at this
  grind

/-- `exit` of a process that leaves a `ZOMBIE` to `initproc` wakes `initproc`. -/
theorem exitProcess_wakes_init (k : Kernel) (cur t z : Slot) (hz : adopted k cur z = true)
    (hzz : (k.proc z).state = .zombie) (h : (k.proc t).chan = some (.proc k.initproc)) :
    ((exitProcess k cur).proc t).state ≠ .sleeping := by
  have hw : ((exitAdopted k cur).proc t).state ≠ .sleeping := by
    unfold exitAdopted
    rw [if_pos ((adoptsZombie_iff k cur).mpr ⟨z, hz, hzz⟩)]
    exact wakeup1_wakes _ (by rw [(adopt_touch k cur t).chan, h]; rfl)
  rw [exitProcess_eq]
  have := ((wakeup1_touch (exitAdopted k cur) _ t).trans (killThreads_touch (wakeupProc
    (exitAdopted k cur) ((exitAdopted k cur).proc cur).parent) cur t)).woken
  unfold Woken at this
  grind

theorem exitThread_touch (k : Kernel) (cur t : Slot) :
    Touch (k.proc t) ((exitThread k cur).proc t) := by
  unfold exitThread
  split
  · refine Touch.trans (.setState (woken_ite _ _ fun h => ?_)) (.setJoinproc _ _)
    unfold joinerAsleep at h
    simp_all
  · exact wakeup1_touch _ _ t

theorem exitThread_rest (k : Kernel) (cur t : Slot) :
    ((exitThread k cur).proc t).parent = (k.proc t).parent ∧
      ((exitThread k cur).proc t).killed = (k.proc t).killed ∧
      (((exitThread k cur).proc t).joinproc = (k.proc t).joinproc ∨
        ((exitThread k cur).proc t).joinproc = none ∧ (k.proc t).joinproc = some cur) := by
  unfold exitThread wakeupProc
  split
  · refine ⟨rfl, rfl, ?_⟩
    simp only [wakeJoiners, Kernel.mapProc_proc, Proc.setJoinproc_joinproc]
    grind
  · simp

theorem hasJoiner_iff (k : Kernel) (cur : Slot) :
    hasJoiner k cur = true ↔ ∃ s, (k.proc s).joinproc = some cur := by
  unfold hasJoiner
  rw [Option.isSome_iff_exists]
  constructor
  · rintro ⟨s, hs⟩
    exact ⟨s, by simpa using scan_some hs⟩
  · rintro ⟨s, hs⟩
    exact scan_isSome (s := s) (by simpa using hs)

/-- `exit` of a thread with joiners wakes every joiner that sleeps on its own slot. -/
theorem exitThread_wakes_joiner (k : Kernel) (cur t : Slot)
    (hj : (k.proc t).joinproc = some cur) (hc : (k.proc t).chan = some (.proc t)) :
    ((exitThread k cur).proc t).state ≠ .sleeping := by
  unfold exitThread
  rw [if_pos ((hasJoiner_iff k cur).mpr ⟨t, hj⟩)]
  simp only [wakeJoiners, Kernel.mapProc_proc, Proc.setJoinproc_state, Proc.setState_state,
    joinerAsleep, hc, hj]
  grind

/-- `exit` of a thread without joiners wakes its parent. -/
theorem exitThread_wakes_parent (k : Kernel) (cur t : Slot) (hj : hasJoiner k cur = false)
    (h : (k.proc t).chan = (k.proc cur).parent.map .proc) :
    ((exitThread k cur).proc t).state ≠ .sleeping := by
  unfold exitThread
  rw [if_neg (by rw [hj]; decide)]
  exact wakeup1_wakes k h

/-- With a joiner in the table, a process that sleeps on itself and is none is not woken. -/
theorem exitThread_sleeps (hj : hasJoiner k cur = true) (hc : (k.proc t).chan = some (.proc t))
    (hne : (k.proc t).joinproc ≠ some cur) (hs : (k.proc t).state = .sleeping) :
    ((exitThread k cur).proc t).state = .sleeping := by
  unfold exitThread
  rw [if_pos hj]
  simp only [wakeJoiners, Kernel.mapProc_proc, Proc.setJoinproc_state, Proc.setState_state,
    joinerAsleep, hc, hne]
  simpa using hs

/-- The table before `exit` sets the state of its caller. -/
theorem exitLocked_of_ne (k : Kernel) {cur t : Slot} (h : t ≠ cur) : (exitLocked k cur).proc t =
    (if (k.proc cur).isthread then exitThread k cur else exitProcess k cur).proc t :=
  Kernel.modify_proc_of_ne _ _ _ h

theorem exitLocked_self (k : Kernel) (cur : Slot) : (exitLocked k cur).proc cur =
    ((if (k.proc cur).isthread then exitThread k cur else exitProcess k cur).proc cur).setState
      .zombie :=
  Kernel.modify_proc_self _ _ _

theorem exitLocked_touch (k : Kernel) {cur t : Slot} (h : t ≠ cur) :
    Touch (k.proc t) ((exitLocked k cur).proc t) := by
  rw [exitLocked_of_ne k h]
  split
  · exact exitThread_touch k cur t
  · exact exitProcess_touch k cur t

/-- Apart from its state, the record of the caller changes as the others may. -/
theorem exitLocked_self_touch (k : Kernel) (cur : Slot) : ∃ p, Touch (k.proc cur) p ∧
    (exitLocked k cur).proc cur = p.setState .zombie := by
  refine ⟨_, ?_, exitLocked_self k cur⟩
  split
  · exact exitThread_touch k cur cur
  · exact exitProcess_touch k cur cur

theorem exitLocked_parent (k : Kernel) (cur t : Slot) : ((exitLocked k cur).proc t).parent =
    if (k.proc cur).isthread = false ∧ adopted k cur t = true then some k.initproc
    else (k.proc t).parent := by
  have : ((if (k.proc cur).isthread then exitThread k cur else exitProcess k cur).proc t).parent =
      if (k.proc cur).isthread = false ∧ adopted k cur t = true then some k.initproc
      else (k.proc t).parent := by
    cases (k.proc cur).isthread with
    | true => simp [(exitThread_rest k cur t).1]
    | false => simp [exitProcess_parent]
  by_cases h : t = cur
  · subst h
    rw [exitLocked_self, Proc.setState_parent, this]
  · rw [exitLocked_of_ne k h, this]

end OsSemester.Xv6
