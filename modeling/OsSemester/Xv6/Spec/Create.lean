import OsSemester.Xv6.Spec.Reap

/-!
# What the statements of `fork` and `clone` do to a slot

A statement works on the new slot `np`; of the other slots only the share arrays of the caller can
change (`exec_proc_of_ne`).
-/

namespace OsSemester.Xv6

variable {k k' : Kernel} {cur np t : Slot} {o : Oracle} {st : Stmt} {nx : Option Stmt}

/-- `allocproc` finds an `UNUSED` slot and writes nothing but its state and its pid. -/
theorem allocproc_some (h : allocproc k = some (np, k')) :
    (k.proc np).state = .unused ∧
      (∀ t, k'.proc t =
        if t = np then { k.proc np with state := .embryo, pid := k.nextpid } else k.proc t) ∧
      k'.nextpid = k.nextpid + 1 ∧ k'.initproc = k.initproc ∧ k'.inuse = k.inuse ∧
      k'.ndir = k.ndir ∧ k'.freed = k.freed ∧ k'.ftable = k.ftable := by
  unfold allocproc at h
  rw [Option.map_eq_some_iff] at h
  obtain ⟨s, hs, h⟩ := h
  obtain ⟨rfl, rfl⟩ := Prod.mk.inj h
  refine ⟨by simpa using scan_some hs, fun t => ?_, rfl, rfl, rfl, rfl, rfl, rfl⟩
  simp only [Kernel.modify_proc]

theorem installDir_proc (k : Kernel) (np t : Slot) : (installDir k np).proc t =
    if t = np then { k.proc np with pgdir := some k.ndir } else k.proc t := by
  unfold installDir
  simp only [Kernel.modify_proc]

theorem dupOfile_ok (h : dupOfile k cur np = .ok k') :
    ∃ ofile ft, k' = { k.modify np (fun p => { p with ofile := ofile }) with ftable := ft } := by
  unfold dupOfile at h
  split at h
  · cases h
  · rename_i ft ofile _
    obtain rfl := Except.ok.inj h
    exact ⟨ofile, ft, rfl⟩

theorem abandon_proc (k : Kernel) (np t : Slot) : (abandon k np).proc t =
    if t = np then { (k.proc np).setKstack none with pgdir := none, state := .unused }
    else k.proc t := by
  unfold abandon
  rw [Kernel.modify_proc]
  split
  · rw [freeKstack_proc, if_pos rfl]
  · rename_i h
    rw [freeKstack_proc, if_neg h]

theorem abandon_inuse (k : Kernel) (np : Slot) (pg : Page) : (abandon k np).inuse pg =
    if (k.proc np).kstack = some pg then false else k.inuse pg :=
  freeKstack_inuse k np pg

theorem abandon_rest (k : Kernel) (np : Slot) :
    (abandon k np).nextpid = k.nextpid ∧ (abandon k np).initproc = k.initproc ∧
      (abandon k np).ndir = k.ndir ∧ (abandon k np).freed = k.freed :=
  freeKstack_rest k np

/-- The `pgdir` of the new slot is set once a statement after the copy is next. -/
def Stmt.PastDir : Stmt → Prop
  | .forkParent | .forkIsthread | .forkTid | .forkOfile | .forkCwd | .forkRun => True
  | .cloneIsthread | .cloneCopyout | .cloneFiles | .cloneFs | .cloneRun => True
  | _ => False

/-- The `parent` of the new slot is set once a statement after the assignment is next. -/
def Stmt.PastParent : Stmt → Prop
  | .forkIsthread | .forkTid | .forkOfile | .forkCwd | .forkRun => True
  | .cloneThreadparent | .cloneIds | .clonePgdir | .cloneIsthread | .cloneCopyout => True
  | .cloneFiles | .cloneFs | .cloneRun => True
  | _ => False

/-- A statement of `fork`. -/
def Stmt.Forking : Stmt → Prop
  | .kstack none | .forkCopyuvm | .forkParent | .forkIsthread | .forkTid | .forkOfile => True
  | .forkCwd | .forkRun => True
  | _ => False

/-- The kernel stack of the new slot is set once any statement but `kalloc` is next. -/
def Stmt.PastKstack : Stmt → Prop
  | .kstack _ => False
  | _ => True

/-- The last statement of `fork` or `clone`, which makes the new slot `RUNNABLE`. -/
def Stmt.Publishes (st : Stmt) : Prop := st = .forkRun ∨ st = .cloneRun

instance : DecidablePred Stmt.Publishes := fun st => by
  unfold Stmt.Publishes
  infer_instance

/-- Other slots keep their records, but for the share arrays of the caller. -/
theorem exec_proc_of_ne (h : st.exec k cur np o = .ok (k', nx)) (ht : t ≠ np) :
    ∃ a b, k'.proc t = { k.proc t with ofileshare := a, cwdshare := b } ∧
      (t ≠ cur → k'.proc t = k.proc t) := by
  have hsame : k'.proc t = k.proc t → ∃ a b, k'.proc t =
      { k.proc t with ofileshare := a, cwdshare := b } ∧ (t ≠ cur → k'.proc t = k.proc t) :=
    fun h => ⟨_, _, h, fun _ => h⟩
  cases st with
  | kstack fl =>
    simp only [Stmt.exec] at h
    split at h
    · obtain ⟨rfl, -⟩ := Prod.mk.inj (Except.ok.inj h)
      exact hsame (by simp [Kernel.modify, ht])
    · split at h
      · cases h
      · obtain ⟨rfl, -⟩ := Prod.mk.inj (Except.ok.inj h)
        exact hsame (by simp [Kernel.modify, ht])
  | forkCopyuvm =>
    simp only [Stmt.exec] at h
    split at h <;> obtain ⟨rfl, -⟩ := Prod.mk.inj (Except.ok.inj h)
    · exact hsame (by simp [installDir_proc, ht])
    · exact hsame (by rw [abandon_proc, if_neg ht])
  | clonePgdir =>
    simp only [Stmt.exec] at h
    split at h
    · obtain ⟨rfl, -⟩ := Prod.mk.inj (Except.ok.inj h)
      exact hsame (by simp [Kernel.modify, ht])
    · split at h <;> obtain ⟨rfl, -⟩ := Prod.mk.inj (Except.ok.inj h)
      · exact hsame (by simp [installDir_proc, ht])
      · exact hsame (by rw [abandon_proc, if_neg ht])
  | forkOfile =>
    simp only [Stmt.exec] at h
    split at h
    · cases h
    · rename_i hd
      obtain ⟨rfl, -⟩ := Prod.mk.inj (Except.ok.inj h)
      obtain ⟨ofile, ft, rfl⟩ := dupOfile_ok hd
      exact hsame (by simp [Kernel.modify, ht])
  | cloneFiles =>
    simp only [Stmt.exec] at h
    split at h
    · cases h
    · rename_i hd
      obtain ⟨rfl, -⟩ := Prod.mk.inj (Except.ok.inj h)
      -- the fill loop writes the arrays of the partners
      unfold cloneOfile at hd
      split at hd
      · obtain rfl := Except.ok.inj hd
        refine ⟨k.ofileshare.fill cur np t, (k.proc t).cwdshare, ?_, fun hc => ?_⟩
        · rw [Kernel.modify_proc_of_ne _ _ _ ht]
          rfl
        · rw [Kernel.modify_proc_of_ne _ _ _ ht]
          simp [Kernel.setOfileshare, ShareGraph.fill, Kernel.ofileshare, hc, ht]
      · obtain ⟨ofile, ft, rfl⟩ := dupOfile_ok hd
        exact hsame (by simp [Kernel.modify, ht])
  | cloneFs =>
    simp only [Stmt.exec] at h
    obtain ⟨rfl, -⟩ := Prod.mk.inj (Except.ok.inj h)
    unfold cloneCwd
    rw [Kernel.modify_proc_of_ne _ _ _ ht]
    cases (k.proc np).cloneFs with
    | false => exact ⟨(k.proc t).ofileshare, (k.proc t).cwdshare, rfl, fun _ => rfl⟩
    | true =>
      refine ⟨(k.proc t).ofileshare, k.cwdshare.fill cur np t, rfl, fun hc => ?_⟩
      simp [Kernel.setCwdshare, ShareGraph.fill, Kernel.cwdshare, hc, ht]
  | cloneCopyout =>
    simp only [Stmt.exec] at h
    obtain ⟨rfl, -⟩ := Prod.mk.inj (Except.ok.inj h)
    exact hsame rfl
  | _ =>
    simp only [Stmt.exec] at h
    obtain ⟨rfl, -⟩ := Prod.mk.inj (Except.ok.inj h)
    exact hsame (by simp [Kernel.modify, ht])

theorem exec_keep_of_ne (h : st.exec k cur np o = .ok (k', nx)) (ht : t ≠ np) :
    Keep (k.proc t) (k'.proc t) := by
  obtain ⟨a, b, he, -⟩ := exec_proc_of_ne h ht
  rw [he]
  exact ⟨Or.inl rfl, rfl, rfl, rfl, rfl, rfl, rfl, rfl, rfl, rfl, rfl, id⟩

theorem exec_state_of_ne (h : st.exec k cur np o = .ok (k', nx)) (ht : t ≠ np) :
    (k'.proc t).state = (k.proc t).state := by
  obtain ⟨a, b, he, -⟩ := exec_proc_of_ne h ht
  rw [he]

/-! ### The fields of the new slot -/

/-- Only the descriptors and share arrays change in the statements that copy the files. -/
theorem cloneOfile_ok (h : cloneOfile k cur np = .ok k') : ∃ ofile share ft g,
    k'.proc np = { k.proc np with ofile := ofile, ofileshare := share } ∧
      k' = { k with proc := g, ftable := ft } := by
  unfold cloneOfile at h
  split at h
  · obtain rfl := Except.ok.inj h
    exact ⟨_, _, _, _, by rw [Kernel.modify_proc_self]; rfl, rfl⟩
  · obtain ⟨ofile, ft, rfl⟩ := dupOfile_ok h
    exact ⟨ofile, (k.proc np).ofileshare, ft, _, by simp, rfl⟩

theorem cloneCwd_proc (k : Kernel) (cur np : Slot) : ∃ share g,
    (cloneCwd k cur np).proc np =
      { k.proc np with cwd := (k.proc cur).cwd, cwdshare := share } ∧
    cloneCwd k cur np = { k with proc := g } := by
  unfold cloneCwd
  simp only [Kernel.modify_proc_self]
  split
  · exact ⟨_, _, rfl, rfl⟩
  · exact ⟨(k.proc np).cwdshare, _, rfl, rfl⟩

/-- What the statements that copy the files and the directory leave alone. -/
theorem exec_copy (hst : st = .forkOfile ∨ st = .cloneFiles ∨ st = .cloneFs)
    (h : st.exec k cur np o = .ok (k', nx)) : ∃ ofile cwd a b ft g,
    k'.proc np = { k.proc np with ofile := ofile, cwd := cwd, ofileshare := a, cwdshare := b } ∧
      k' = { k with proc := g, ftable := ft } := by
  rcases hst with rfl | rfl | rfl <;> simp only [Stmt.exec] at h
  · split at h
    · cases h
    · rename_i hd
      obtain ⟨rfl, -⟩ := Prod.mk.inj (Except.ok.inj h)
      obtain ⟨ofile, ft, rfl⟩ := dupOfile_ok hd
      exact ⟨ofile, (k.proc np).cwd, (k.proc np).ofileshare, (k.proc np).cwdshare, ft, _, by simp,
        rfl⟩
  · split at h
    · cases h
    · rename_i hd
      obtain ⟨rfl, -⟩ := Prod.mk.inj (Except.ok.inj h)
      obtain ⟨ofile, a, ft, g, hp, hk⟩ := cloneOfile_ok hd
      exact ⟨ofile, (k.proc np).cwd, a, (k.proc np).cwdshare, ft, g, hp, hk⟩
  · obtain ⟨rfl, -⟩ := Prod.mk.inj (Except.ok.inj h)
    obtain ⟨b, g, hp, hk⟩ := cloneCwd_proc k cur np
    exact ⟨(k.proc np).ofile, (k.proc cur).cwd, (k.proc np).ofileshare, b, k.ftable, g, hp, hk⟩

/-- The statement after one that neither ends nor fails. -/
def Stmt.succ : Stmt → Stmt
  | .kstack none => .forkCopyuvm
  | .kstack (some fl) => .cloneFlags fl
  | .forkCopyuvm => .forkParent
  | .forkParent => .forkIsthread
  | .forkIsthread => .forkTid
  | .forkTid => .forkOfile
  | .forkOfile => .forkCwd
  | .forkCwd | .forkRun => .forkRun
  | .cloneFlags _ => .cloneParent
  | .cloneParent => .cloneThreadparent
  | .cloneThreadparent => .cloneIds
  | .cloneIds => .clonePgdir
  | .clonePgdir => .cloneIsthread
  | .cloneIsthread => .cloneCopyout
  | .cloneCopyout => .cloneFiles
  | .cloneFiles => .cloneFs
  | .cloneFs | .cloneRun => .cloneRun

theorem Stmt.succ_forking (st : Stmt) : st.succ.Forking ↔ st.Forking := by
  cases st with
  | kstack fl => cases fl <;> simp [Stmt.succ, Stmt.Forking]
  | _ => simp [Stmt.succ, Stmt.Forking]

theorem exec_next {st' : Stmt} (h : st.exec k cur np o = .ok (k', some st')) :
    st' = st.succ ∧ ¬ st.Publishes := by
  cases st with
  | kstack fl => cases fl <;> simp only [Stmt.exec] at h <;> grind [Stmt.succ, Stmt.Publishes]
  | _ => simp only [Stmt.exec] at h; grind [Stmt.succ, Stmt.Publishes]

section Fields

/-- The state of the new slot changes only when the call returns. -/
theorem exec_state (h : st.exec k cur np o = .ok (k', nx)) : (k'.proc np).state =
    if nx = none ∧ st ≠ .cloneCopyout then if st.Publishes then .runnable else .unused
    else (k.proc np).state := by
  by_cases hst : st = .forkOfile ∨ st = .cloneFiles ∨ st = .cloneFs
  · obtain ⟨_, _, _, _, _, _, hp, -⟩ := exec_copy hst h
    rw [hp]
    rcases hst with rfl | rfl | rfl <;> simp only [Stmt.exec] at h <;> grind
  · cases st <;> simp only [Stmt.exec] at h <;>
      grind [Kernel.modify_proc_self, abandon_proc, installDir_proc, Proc.setKstack_state,
        Proc.setState_state, Stmt.Publishes]

/-- A new slot gets a kernel stack that was free, and loses it again when the copy fails. -/
theorem exec_kstack (h : st.exec k cur np o = .ok (k', nx)) :
    (nx ≠ none ∧ ¬ st.PastKstack ∧ ∃ pg, (k'.proc np).kstack = some pg ∧
        k.inuse pg = false ∧ ∀ q, k'.inuse q = if q = pg then true else k.inuse q) ∨
      (nx = none ∧ ¬ st.PastKstack ∧ (k'.proc np).kstack = none ∧ k'.inuse = k.inuse) ∨
      (nx = none ∧ st.PastKstack ∧ ¬ st.PastDir ∧ (k'.proc np).kstack = none ∧
        ∀ pg, k'.inuse pg = if (k.proc np).kstack = some pg then false else k.inuse pg) ∨
      (st.PastKstack ∧ (nx = none → st.Publishes ∨ st = .cloneCopyout) ∧
        (k'.proc np).kstack = (k.proc np).kstack ∧ k'.inuse = k.inuse) := by
  by_cases hst : st = .forkOfile ∨ st = .cloneFiles ∨ st = .cloneFs
  · obtain ⟨_, _, _, _, _, _, hp, hk⟩ := exec_copy hst h
    have hnx : nx ≠ none := by
      rcases hst with rfl | rfl | rfl <;> simp only [Stmt.exec] at h <;> grind
    rw [hp, hk]
    refine Or.inr (Or.inr (Or.inr ⟨?_, fun h => absurd h hnx, rfl, rfl⟩))
    rcases hst with rfl | rfl | rfl <;> trivial
  · cases st with
    | kstack fl =>
      simp only [Stmt.exec] at h
      split at h
      · obtain ⟨rfl, rfl⟩ := Prod.mk.inj (Except.ok.inj h)
        exact Or.inr (Or.inl ⟨rfl, id, by simp, rfl⟩)
      · rename_i pg _
        split at h
        · cases h
        · rename_i hfree
          obtain ⟨rfl, rfl⟩ := Prod.mk.inj (Except.ok.inj h)
          exact Or.inl ⟨by cases fl <;> simp, id, pg, by simp [Kernel.modify], by simpa using hfree,
            fun q => Function.update_apply ..⟩
    | _ =>
      simp only [Stmt.exec] at h
      grind [Kernel.modify_proc_self, abandon_proc, installDir_proc, installDir, abandon_inuse,
        Proc.setKstack_kstack, Proc.setState_kstack, Kernel.modify_inuse, Stmt.PastKstack,
        Stmt.PastDir, Stmt.Publishes]

/-- A call that fails before the stack is copied out gives the slot back: `kalloc` or `copyuvm` has
failed. -/
theorem exec_failed (h : st.exec k cur np o = .ok (k', nx))
    (hu : (k'.proc np).state = .unused) (hemb : (k.proc np).state = .embryo) :
    nx = none ∧ ¬ st.PastDir ∧ ¬ st.Publishes := by
  have hst := exec_state h
  have hpast : ¬ st.PastKstack → ¬ st.PastDir := by
    cases st <;> simp [Stmt.PastKstack, Stmt.PastDir]
  rcases exec_kstack h with ⟨h1, -⟩ | ⟨h1, h2, -⟩ | ⟨h1, -, h2, -⟩ | ⟨-, h1, -⟩ <;> grind

/-- The statements that give the new slot a page directory: a new one, or the caller's.  It has none
when the copy fails. -/
theorem exec_pgdir (h : st.exec k cur np o = .ok (k', nx)) :
    ((st = .forkCopyuvm ∨ st = .clonePgdir ∧ (k.proc np).cloneVm = false) ∧ nx ≠ none ∧
        (k'.proc np).pgdir = some k.ndir ∧ k'.ndir = k.ndir + 1) ∨
      (st = .clonePgdir ∧ (k.proc np).cloneVm = true ∧ (k'.proc np).pgdir = (k.proc cur).pgdir ∧
        nx ≠ none ∧ k'.ndir = k.ndir) ∨
      ((st = .forkCopyuvm ∨ st = .clonePgdir) ∧ nx = none ∧ (k'.proc np).pgdir = none ∧
        k'.ndir = k.ndir) ∨
      (¬ (st = .forkCopyuvm ∨ st = .clonePgdir) ∧
        (k'.proc np).pgdir = (k.proc np).pgdir ∧ k'.ndir = k.ndir) := by
  by_cases hst : st = .forkOfile ∨ st = .cloneFiles ∨ st = .cloneFs
  · obtain ⟨_, _, _, _, _, _, hp, hk⟩ := exec_copy hst h
    rw [hp, hk]
    grind
  · cases st <;> simp only [Stmt.exec] at h <;>
      grind [Kernel.modify_proc_self, abandon_proc, installDir_proc, installDir, abandon_rest,
        Proc.setKstack_pgdir, Proc.setState_pgdir, Kernel.modify_ndir]

theorem exec_parent (h : st.exec k cur np o = .ok (k', nx)) : (k'.proc np).parent =
    match st with
    | .forkParent => some cur
    | .cloneParent => cloneParentOf k cur np o.wild
    | _ => (k.proc np).parent := by
  by_cases hst : st = .forkOfile ∨ st = .cloneFiles ∨ st = .cloneFs
  · obtain ⟨_, _, _, _, _, _, hp, -⟩ := exec_copy hst h
    rw [hp]
    rcases hst with rfl | rfl | rfl <;> rfl
  · cases st <;> simp only [Stmt.exec] at h <;>
      grind [Kernel.modify_proc_self, abandon_proc, installDir_proc, Proc.setKstack_parent,
        Proc.setState_parent]

theorem exec_threadparent (h : st.exec k cur np o = .ok (k', nx)) :
    (k'.proc np).threadparent =
      if st = .cloneThreadparent then some cur else (k.proc np).threadparent := by
  by_cases hst : st = .forkOfile ∨ st = .cloneFiles ∨ st = .cloneFs
  · obtain ⟨_, _, _, _, _, _, hp, -⟩ := exec_copy hst h
    rw [hp]
    rcases hst with rfl | rfl | rfl <;> rfl
  · cases st <;> simp only [Stmt.exec] at h <;>
      grind [Kernel.modify_proc_self, abandon_proc, installDir_proc, Proc.setKstack_threadparent,
        Proc.setState_threadparent]

theorem exec_isthread (h : st.exec k cur np o = .ok (k', nx)) : (k'.proc np).isthread =
    match st with
    | .forkIsthread => false
    | .cloneIsthread => true
    | _ => (k.proc np).isthread := by
  by_cases hst : st = .forkOfile ∨ st = .cloneFiles ∨ st = .cloneFs
  · obtain ⟨_, _, _, _, _, _, hp, -⟩ := exec_copy hst h
    rw [hp]
    rcases hst with rfl | rfl | rfl <;> rfl
  · cases st <;> simp only [Stmt.exec] at h <;>
      grind [Kernel.modify_proc_self, abandon_proc, installDir_proc, Proc.setKstack_isthread,
        Proc.setState_isthread]

theorem exec_tid (h : st.exec k cur np o = .ok (k', nx)) : (k'.proc np).tid =
    if st = .forkTid ∨ st = .cloneIds then (k.proc np).pid else (k.proc np).tid := by
  by_cases hst : st = .forkOfile ∨ st = .cloneFiles ∨ st = .cloneFs
  · obtain ⟨_, _, _, _, _, _, hp, -⟩ := exec_copy hst h
    rw [hp]
    rcases hst with rfl | rfl | rfl <;> rfl
  · cases st <;> simp only [Stmt.exec] at h <;>
      grind [Kernel.modify_proc_self, abandon_proc, installDir_proc, Proc.setKstack_tid,
        Proc.setState_tid]

theorem exec_pid (h : st.exec k cur np o = .ok (k', nx)) : (k'.proc np).pid =
    if st = .cloneIds ∧ (k.proc np).cloneThread = true then (k.proc cur).pid
    else (k.proc np).pid := by
  by_cases hst : st = .forkOfile ∨ st = .cloneFiles ∨ st = .cloneFs
  · obtain ⟨_, _, _, _, _, _, hp, -⟩ := exec_copy hst h
    rw [hp]
    rcases hst with rfl | rfl | rfl <;> rfl
  · cases st <;> simp only [Stmt.exec] at h <;>
      grind [Kernel.modify_proc_self, abandon_proc, installDir_proc, Proc.setKstack_pid,
        Proc.setState_pid]

theorem exec_cloneVm (h : st.exec k cur np o = .ok (k', nx)) : (k'.proc np).cloneVm =
    match st with
    | .cloneFlags fl => flagSet fl 2
    | _ => (k.proc np).cloneVm := by
  by_cases hst : st = .forkOfile ∨ st = .cloneFiles ∨ st = .cloneFs
  · obtain ⟨_, _, _, _, _, _, hp, -⟩ := exec_copy hst h
    rw [hp]
    rcases hst with rfl | rfl | rfl <;> rfl
  · cases st <;> simp only [Stmt.exec] at h <;>
      grind [Kernel.modify_proc_self, abandon_proc, installDir_proc, Proc.setKstack_cloneVm,
        Proc.setState_cloneVm]

theorem exec_joinproc (h : st.exec k cur np o = .ok (k', nx)) :
    (k'.proc np).joinproc = (k.proc np).joinproc := by
  by_cases hst : st = .forkOfile ∨ st = .cloneFiles ∨ st = .cloneFs
  · obtain ⟨_, _, _, _, _, _, hp, -⟩ := exec_copy hst h
    rw [hp]
  · cases st <;> simp only [Stmt.exec] at h <;>
      grind [Kernel.modify_proc_self, abandon_proc, installDir_proc, Proc.setKstack_joinproc,
        Proc.setState_joinproc]

/-- The share arrays of the new slot are written only under its own flags. -/
theorem exec_shares (h : st.exec k cur np o = .ok (k', nx)) :
    ((k'.proc np).ofileshare = (k.proc np).ofileshare ∨
        st = .cloneFiles ∧ (k.proc np).cloneFiles = true) ∧
      ((k'.proc np).cwdshare = (k.proc np).cwdshare ∨ st = .cloneFs ∧ (k.proc np).cloneFs = true) ∧
      ((∀ fl, st ≠ .cloneFlags fl) → (k'.proc np).cloneFiles = (k.proc np).cloneFiles ∧
        (k'.proc np).cloneFs = (k.proc np).cloneFs) := by
  cases st with
  | forkOfile =>
    simp only [Stmt.exec] at h
    split at h
    · cases h
    · rename_i hd
      obtain ⟨rfl, -⟩ := Prod.mk.inj (Except.ok.inj h)
      obtain ⟨ofile, ft, rfl⟩ := dupOfile_ok hd
      simp
  | cloneFiles =>
    simp only [Stmt.exec] at h
    split at h
    · cases h
    · rename_i hd
      obtain ⟨rfl, -⟩ := Prod.mk.inj (Except.ok.inj h)
      unfold cloneOfile at hd
      split at hd
      · rename_i hfl
        obtain rfl := Except.ok.inj hd
        simp [Kernel.setOfileshare, hfl]
      · obtain ⟨ofile, ft, rfl⟩ := dupOfile_ok hd
        simp
  | cloneFs =>
    simp only [Stmt.exec] at h
    obtain ⟨rfl, -⟩ := Prod.mk.inj (Except.ok.inj h)
    unfold cloneCwd
    split <;> rename_i hfl <;> simp [Kernel.setCwdshare, hfl]
  | _ =>
    simp only [Stmt.exec] at h
    grind [Kernel.modify_proc_self, abandon_proc, installDir_proc, Proc.setKstack_ofileshare,
      Proc.setState_ofileshare, Proc.setKstack_cwdshare, Proc.setState_cwdshare,
      Proc.setKstack_cloneFiles, Proc.setState_cloneFiles, Proc.setKstack_cloneFs,
      Proc.setState_cloneFs]

theorem exec_globals (h : st.exec k cur np o = .ok (k', nx)) :
    k'.nextpid = k.nextpid ∧ k'.initproc = k.initproc ∧ k'.freed = k.freed := by
  by_cases hst : st = .forkOfile ∨ st = .cloneFiles ∨ st = .cloneFs
  · obtain ⟨_, _, _, _, _, _, -, hk⟩ := exec_copy hst h
    rw [hk]
    exact ⟨rfl, rfl, rfl⟩
  · cases st <;> simp only [Stmt.exec] at h <;>
      grind [installDir, abandon_rest, Kernel.modify_nextpid, Kernel.modify_initproc,
        Kernel.modify_freed]

end Fields

end OsSemester.Xv6
