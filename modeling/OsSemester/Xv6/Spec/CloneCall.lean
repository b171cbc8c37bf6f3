import OsSemester.Xv6.CloneCall
import OsSemester.Xv6.Spec.Copyout
import OsSemester.Xv6.Spec.Create
import OsSemester.Xv6.Spec.VmDir

/-!
# What `clone` does

The statements of `clone` in three parts: up to the page directory, where the new slot is filled in;
the page directory and the stack, where the call may fail; and the rest, which cannot fail any more.
-/

namespace OsSemester.Xv6

/-- A field that an assignment keeps. -/
theorem Kernel.modify_field {β : Type} {k : Kernel} {s : Slot} {f : Proc → Proc} (g : Proc → β)
    (h : g (f (k.proc s)) = g (k.proc s)) (t : Slot) :
    g ((k.modify s f).proc t) = g (k.proc t) := by
  rw [Kernel.modify_proc]
  split_ifs with ht
  · rw [h, ht]
  · rfl

namespace Host

variable {data : ℕ} {wild : Option Slot} {a : CloneArgs} {cur np : Slot} {σ σ' : Host}

/-! ### Up to the page directory -/

/-- The parent of a new thread with the flags `fl`. -/
def newParent (k : Kernel) (cur : Slot) (fl : ℤ) (wild : Option Slot) : Option Slot :=
  if flagSet fl 4 then
    if (k.proc cur).isthread then grandparent k cur wild else (k.proc cur).parent
  else if (k.proc cur).isthread then (k.proc cur).parent
  else some cur

/-- The slot `np` when `clone` comes to the page directory. -/
def embryo (k : Kernel) (cur np : Slot) (fl : ℤ) (wild : Option Slot) (pg : Page) : Proc :=
  { k.proc np with
    kstack := some pg
    cloneFiles := flagSet fl 0
    cloneFs := flagSet fl 1
    cloneVm := flagSet fl 2
    cloneThread := flagSet fl 3
    cloneParent := flagSet fl 4
    parent := newParent k cur fl wild
    threadparent := some cur
    tid := (k.proc np).pid
    pid := if flagSet fl 3 then (k.proc cur).pid else (k.proc np).pid }

/-- The kernel at that point. -/
def embryoKernel (k : Kernel) (cur np : Slot) (fl : ℤ) (wild : Option Slot) (pg : Page) : Kernel :=
  { k with
    proc := Function.update k.proc np (embryo k cur np fl wild pg)
    inuse := Function.update k.inuse pg true }

theorem runClone_some {n : ℕ} {st st' : Stmt}
    (h : execStmt data wild a cur np σ st = .ok (σ', some st')) :
    runClone data wild a cur np (n + 1) st σ = runClone data wild a cur np n st' σ' := by
  simp only [runClone, h]

theorem runClone_none {n : ℕ} {st : Stmt} (h : execStmt data wild a cur np σ st = .ok (σ', none)) :
    runClone data wild a cur np (n + 1) st σ = .ok (σ', decide (st = .cloneRun)) := by
  simp only [runClone, h]

theorem runClone_error {n : ℕ} {st : Stmt} {e : Fault}
    (h : execStmt data wild a cur np σ st = .error e) :
    runClone data wild a cur np (n + 1) st σ = .error e := by
  simp only [runClone, h]

/-- Without a kernel stack the call is over. -/
theorem runClone_no_kstack (h : kalloc σ.mem = none) :
    runClone data wild a cur np cloneLength (.kstack (some a.flags)) σ =
      .ok ({ σ with k := σ.k.modify np fun p => (p.setKstack none).setState .unused }, false) := by
  refine runClone_none ?_
  unfold execStmt
  rw [h]
  rfl

/-- `kalloc` does not return a page that is in use. -/
theorem runClone_inuse {pg : Page} {mem : PhysMem} (h : kalloc σ.mem = some (pg, mem))
    (hpg : σ.k.inuse pg = true) :
    runClone data wild a cur np cloneLength (.kstack (some a.flags)) σ =
      .error (.halt .disabled) := by
  refine runClone_error ?_
  unfold execStmt
  rw [h]
  simp only [stmt, Stmt.exec, hpg, if_true]

/-- The statements up to the page directory, one after the other. -/
theorem front_steps (data : ℕ) (wild : Option Slot) (a : CloneArgs) (hne : cur ≠ np) {pg : Page}
    {mem : PhysMem} (h : kalloc σ.mem = some (pg, mem)) (hpg : σ.k.inuse pg = false) : ∃ σ1 σ2 σ3 σ4,
    execStmt data wild a cur np σ (.kstack (some a.flags)) = .ok (σ1, some (.cloneFlags a.flags)) ∧
    execStmt data wild a cur np σ1 (.cloneFlags a.flags) = .ok (σ2, some .cloneParent) ∧
    execStmt data wild a cur np σ2 .cloneParent = .ok (σ3, some .cloneThreadparent) ∧
    execStmt data wild a cur np σ3 .cloneThreadparent = .ok (σ4, some .cloneIds) ∧
    execStmt data wild a cur np σ4 .cloneIds =
      .ok ({ σ with mem := mem, k := embryoKernel σ.k cur np a.flags wild pg },
        some .clonePgdir) := by
  have h1 : execStmt data wild a cur np σ (.kstack (some a.flags)) =
      .ok ({ σ with
        mem := mem
        k := { σ.k.modify np (·.setKstack (some pg)) with
          inuse := Function.update σ.k.inuse pg true } }, some (.cloneFlags a.flags)) := by
    unfold execStmt
    rw [h]
    simp only [stmt, Stmt.exec, hpg, Bool.false_eq_true, if_false]
  refine ⟨_, _, _, _, h1, rfl, rfl, rfl, ?_⟩
  simp only [execStmt, stmt, Stmt.exec]
  congr 3
  unfold embryoKernel
  simp only [Kernel.modify, Function.update_idem, Function.update_self]
  congr 1
  refine congrArg (Function.update σ.k.proc np) ?_
  unfold embryo newParent cloneParentOf grandparent
  simp only [Function.update_self, Function.update_of_ne hne, Proc.setKstack]
  -- only the parent is read through another slot
  have hq : ∀ P : Proc, P.parent = (σ.k.proc np).parent →
      ∀ q, (Function.update σ.k.proc np P q).parent = (σ.k.proc q).parent := by
    intro P hP q
    by_cases h : q = np
    · rw [h, Function.update_self, hP]
    · rw [Function.update_of_ne h]
  cases (σ.k.proc cur).parent with
  | none => rfl
  | some q =>
    simp only
    rw [hq]
    rfl

theorem runClone_front (hne : cur ≠ np) {pg : Page} {mem : PhysMem}
    (h : kalloc σ.mem = some (pg, mem)) (hpg : σ.k.inuse pg = false) :
    runClone data wild a cur np cloneLength (.kstack (some a.flags)) σ =
      runClone data wild a cur np 6 .clonePgdir
        { σ with mem := mem, k := embryoKernel σ.k cur np a.flags wild pg } := by
  obtain ⟨_, _, _, _, h1, h2, h3, h4, h5⟩ := front_steps data wild a hne h hpg
  unfold cloneLength
  rw [runClone_some h1, runClone_some h2, runClone_some h3, runClone_some h4, runClone_some h5]

/-! ### The page directory -/

/-- `np->pgdir = curproc->pgdir;` -/
def shareDir (k : Kernel) (cur np : Slot) : Kernel :=
  k.modify np fun p => { p with pgdir := (k.proc cur).pgdir }

theorem shareDir_proc (k : Kernel) (cur np s : Slot) : (shareDir k cur np).proc s =
    if s = np then { k.proc np with pgdir := (k.proc cur).pgdir } else k.proc s := by
  unfold shareDir
  simp only [Kernel.modify_proc]

theorem exec_vm (h : (σ.k.proc np).cloneVm = true) : execStmt data wild a cur np σ .clonePgdir =
    .ok ({ σ with k := shareDir σ.k cur np }, some .cloneIsthread) := by
  simp only [execStmt, stmt, Stmt.exec, h, if_true]
  rfl

theorem runClone_vm (h : (σ.k.proc np).cloneVm = true) :
    runClone data wild a cur np 6 .clonePgdir σ =
      runClone data wild a cur np 5 .cloneIsthread { σ with k := shareDir σ.k cur np } :=
  runClone_some (exec_vm h)

theorem exec_copy (h : (σ.k.proc np).cloneVm = false) {src d : PageDir} {mem : PhysMem}
    (hsrc : σ.pageDir cur = some src)
    (hc : copyuvm data src (σ.k.proc cur).sz σ.mem = .ok (some d, mem)) :
    execStmt data wild a cur np σ .clonePgdir = .ok ({ σ with
      mem := mem
      dir := Function.update σ.dir σ.k.ndir (some d)
      k := installDir σ.k np }, some .cloneIsthread) := by
  simp only [execStmt, stmt, Stmt.exec, h, hsrc, hc, Bool.false_eq_true, if_false, if_true]

theorem runClone_copy (h : (σ.k.proc np).cloneVm = false) {src d : PageDir} {mem : PhysMem}
    (hsrc : σ.pageDir cur = some src)
    (hc : copyuvm data src (σ.k.proc cur).sz σ.mem = .ok (some d, mem)) :
    runClone data wild a cur np 6 .clonePgdir σ = runClone data wild a cur np 5 .cloneIsthread
      { σ with
        mem := mem
        dir := Function.update σ.dir σ.k.ndir (some d)
        k := installDir σ.k np } :=
  runClone_some (exec_copy h hsrc hc)

theorem runClone_no_dir (h : (σ.k.proc np).cloneVm = false) (hsrc : σ.pageDir cur = none) :
    runClone data wild a cur np 6 .clonePgdir σ = .error (.vm .null) := by
  refine runClone_error ?_
  simp only [execStmt, h, hsrc, Bool.false_eq_true, if_false]

theorem exec_copy_error (h : (σ.k.proc np).cloneVm = false) {src : PageDir} {e : VmHalt}
    (hsrc : σ.pageDir cur = some src)
    (hc : copyuvm data src (σ.k.proc cur).sz σ.mem = .error e) :
    execStmt data wild a cur np σ .clonePgdir = .error (.vm e) := by
  simp only [execStmt, h, hsrc, hc, Bool.false_eq_true, if_false]

theorem runClone_copy_error (h : (σ.k.proc np).cloneVm = false) {src : PageDir} {e : VmHalt}
    (hsrc : σ.pageDir cur = some src)
    (hc : copyuvm data src (σ.k.proc cur).sz σ.mem = .error e) :
    runClone data wild a cur np 6 .clonePgdir σ = .error (.vm e) :=
  runClone_error (exec_copy_error h hsrc hc)

theorem exec_copy_none (h : (σ.k.proc np).cloneVm = false) {src : PageDir} {mem : PhysMem}
    {pg : Page} (hsrc : σ.pageDir cur = some src)
    (hc : copyuvm data src (σ.k.proc cur).sz σ.mem = .ok (none, mem))
    (hpg : (σ.k.proc np).kstack = some pg) : execStmt data wild a cur np σ .clonePgdir =
      .ok ({ σ with mem := kfree mem pg, k := abandon σ.k np }, none) := by
  simp only [execStmt, stmt, Stmt.exec, kfreeStack, h, hsrc, hc, hpg, Bool.false_eq_true, if_false]

/-- `copyuvm` has run out of memory. -/
theorem runClone_copy_none (h : (σ.k.proc np).cloneVm = false) {src : PageDir} {mem : PhysMem}
    {pg : Page} (hsrc : σ.pageDir cur = some src)
    (hc : copyuvm data src (σ.k.proc cur).sz σ.mem = .ok (none, mem))
    (hpg : (σ.k.proc np).kstack = some pg) :
    runClone data wild a cur np 6 .clonePgdir σ =
      .ok ({ σ with mem := kfree mem pg, k := abandon σ.k np }, false) :=
  runClone_none (exec_copy_none h hsrc hc hpg)

/-! ### The stack -/

/-- The new slot as a thread with its trap frame. -/
def threaded (σ : Host) (cur np : Slot) (a : CloneArgs) : Host :=
  { σ with
    tf := Function.update σ.tf np a.frame
    k := σ.k.modify np fun p => { p with sz := (σ.k.proc cur).sz, isthread := true } }

theorem threaded_pageDir (σ : Host) (cur np s : Slot) (a : CloneArgs) :
    (σ.threaded cur np a).pageDir s = σ.pageDir s := by
  unfold pageDir threaded
  simp only [Kernel.modify_proc]
  split_ifs with h
  · rw [h]
  · rfl

theorem runClone_stack {d : PageDir} (hd : σ.pageDir np = some d) :
    runClone data wild a cur np 5 .cloneIsthread σ =
      match copyout d a.frame.esp a.ustack σ.mem with
      | .error e => .error (.vm e)
      | .ok (mem, false) => .ok ({ σ.threaded cur np a with mem := mem }, false)
      | .ok (mem, true) =>
        runClone data wild a cur np 3 .cloneFiles { σ.threaded cur np a with mem := mem } := by
  have hd' := threaded_pageDir σ cur np np a
  rw [hd] at hd'
  have hesp : ((σ.threaded cur np a).tf np).esp = a.frame.esp := by
    unfold threaded
    simp only [Function.update_self]
  have hmem : (σ.threaded cur np a).mem = σ.mem := rfl
  have hstep : execStmt data wild a cur np σ .cloneIsthread =
      .ok (σ.threaded cur np a, some .cloneCopyout) := rfl
  rw [runClone_some hstep]
  cases hc : copyout d a.frame.esp a.ustack σ.mem with
  | error e =>
    refine runClone_error ?_
    simp only [execStmt, hd', hesp, hmem, hc]
  | ok r =>
    obtain ⟨mem, ok⟩ := r
    cases ok with
    | false =>
      refine runClone_none ?_
      simp only [execStmt, stmt, Stmt.exec, hd', hesp, hmem, hc, Bool.false_eq_true, if_false]
    | true =>
      refine runClone_some ?_
      simp only [execStmt, stmt, Stmt.exec, hd', hesp, hmem, hc, if_true]

theorem runClone_stack_none (hd : σ.pageDir np = none) :
    runClone data wild a cur np 5 .cloneIsthread σ = .error (.vm .null) := by
  have hd' := threaded_pageDir σ cur np np a
  rw [hd] at hd'
  have hstep : execStmt data wild a cur np σ .cloneIsthread =
      .ok (σ.threaded cur np a, some .cloneCopyout) := rfl
  rw [runClone_some hstep]
  refine runClone_error ?_
  simp only [execStmt, hd']

/-! ### The rest -/

/-- `filedup` works for the descriptors in the list exactly when all their files are referenced. -/
theorem dupFiles_ok_iff {src dst : Fd → Option FileId} {fds : List Fd} {ft : FTable} :
    (∃ r, dupFiles src fds ft dst = .ok r) ↔
      ∀ fd ∈ fds, ∀ f, src fd = some f → 1 ≤ (ft f).ref := by
  induction fds generalizing ft dst with
  | nil => exact iff_of_true ⟨_, rfl⟩ fun _ hfd => absurd hfd List.not_mem_nil
  | cons fd fds ih =>
    unfold dupFiles
    rw [List.forall_mem_cons]
    cases hs : src fd with
    | none =>
      rw [ih]
      exact ⟨fun h => ⟨nofun, h⟩, fun h => h.2⟩
    | some f =>
      simp only
      unfold filedup
      by_cases hf : (ft f).ref < 1
      · rw [if_pos hf]
        refine iff_of_false (fun ⟨r, hr⟩ => nomatch hr) fun h => ?_
        have := h.1 f rfl
        omega
      · rw [if_neg hf, ih]
        -- the counts only grow
        have hge : ∀ g, 1 ≤ (Function.update ft f { ft f with ref := (ft f).ref + 1 } g).ref ↔
            1 ≤ (ft g).ref := by
          intro g
          rw [Function.update_apply]
          split_ifs with hg
          · rw [hg]
            show 1 ≤ (ft f).ref + 1 ↔ _
            omega
          · exact Iff.rfl
        simp only [hge]
        refine ⟨fun h => ⟨fun g hg => ?_, h⟩, fun h => h.2⟩
        rw [← Option.some.inj hg]
        omega

/-- The fields of the slots that the end of `clone` does not set. -/
structure SameDirs (k k' : Kernel) : Prop where
  pgdir : ∀ s, (k'.proc s).pgdir = (k.proc s).pgdir
  state : ∀ s, (k'.proc s).state = (k.proc s).state
  tid : ∀ s, (k'.proc s).tid = (k.proc s).tid

theorem SameDirs.trans {k k' k'' : Kernel} (h : SameDirs k k') (h' : SameDirs k' k'') :
    SameDirs k k'' :=
  ⟨fun s => (h'.pgdir s).trans (h.pgdir s), fun s => (h'.state s).trans (h.state s),
    fun s => (h'.tid s).trans (h.tid s)⟩

theorem SameDirs.modify {k : Kernel} {s : Slot} {f : Proc → Proc}
    (h1 : (f (k.proc s)).pgdir = (k.proc s).pgdir) (h2 : (f (k.proc s)).state = (k.proc s).state)
    (h3 : (f (k.proc s)).tid = (k.proc s).tid) : SameDirs k (k.modify s f) :=
  ⟨Kernel.modify_field (·.pgdir) h1, Kernel.modify_field (·.state) h2,
    Kernel.modify_field (·.tid) h3⟩

theorem cloneOfile_ok {k : Kernel}
    (h : (k.proc np).cloneFiles = true ∨
      ∀ fd f, (k.proc cur).ofile fd = some f → 1 ≤ (k.ftable f).ref) :
    ∃ k', cloneOfile k cur np = .ok k' ∧ SameDirs k k' ∧
      (k'.proc np).cloneFs = (k.proc np).cloneFs ∧ (k'.proc cur).cwd = (k.proc cur).cwd := by
  unfold cloneOfile
  split_ifs with hf
  · have hshare : SameDirs k (k.setOfileshare (k.ofileshare.fill cur np)) :=
      ⟨fun _ => rfl, fun _ => rfl, fun _ => rfl⟩
    exact ⟨_, rfl, hshare.trans (SameDirs.modify rfl rfl rfl),
      Kernel.modify_field (k := k.setOfileshare (k.ofileshare.fill cur np)) (·.cloneFs) rfl np,
      Kernel.modify_field (k := k.setOfileshare (k.ofileshare.fill cur np)) (·.cwd) rfl cur⟩
  · obtain ⟨⟨ft, ofile⟩, hr⟩ : ∃ r, dupFiles (k.proc cur).ofile (List.finRange NOFILE) k.ftable
        (k.proc np).ofile = .ok r := dupFiles_ok_iff.mpr fun fd _ f => h.resolve_left hf fd f
    unfold dupOfile
    rw [hr]
    have hsame : SameDirs k (k.modify np fun p => { p with ofile := ofile }) :=
      SameDirs.modify rfl rfl rfl
    exact ⟨_, rfl, ⟨hsame.pgdir, hsame.state, hsame.tid⟩,
      Kernel.modify_field (f := fun p => { p with ofile := ofile }) (·.cloneFs) rfl np,
      Kernel.modify_field (f := fun p => { p with ofile := ofile }) (·.cwd) rfl cur⟩

theorem cloneOfile_error {k : Kernel}
    (h : ¬ ((k.proc np).cloneFiles = true ∨
      ∀ fd f, (k.proc cur).ofile fd = some f → 1 ≤ (k.ftable f).ref)) :
    ∃ e, cloneOfile k cur np = .error e := by
  obtain ⟨hf, href⟩ := not_or.mp h
  unfold cloneOfile dupOfile
  rw [if_neg hf]
  cases hr : dupFiles (k.proc cur).ofile (List.finRange NOFILE) k.ftable (k.proc np).ofile with
  | error e => exact ⟨e, rfl⟩
  | ok r => exact absurd (fun fd f => dupFiles_ok_iff.mp ⟨r, hr⟩ fd (List.mem_finRange fd) f) href

theorem sameDirs_cloneCwd (k : Kernel) (cur np : Slot) : SameDirs k (cloneCwd k cur np) := by
  unfold cloneCwd
  split_ifs
  · have hshare : SameDirs k (k.setCwdshare (k.cwdshare.fill cur np)) :=
      ⟨fun _ => rfl, fun _ => rfl, fun _ => rfl⟩
    exact hshare.trans (SameDirs.modify rfl rfl rfl)
  · exact SameDirs.modify rfl rfl rfl

/-- The end of `clone` touches neither memory nor the page directories. -/
structure Published (σ σ' : Host) (np : Slot) : Prop where
  mem : σ'.mem = σ.mem
  dir : σ'.dir = σ.dir
  tf : σ'.tf = σ.tf
  pgdir : ∀ s, (σ'.k.proc s).pgdir = (σ.k.proc s).pgdir
  state : ∀ s, (σ'.k.proc s).state = if s = np then .runnable else (σ.k.proc s).state
  tid : ∀ s, (σ'.k.proc s).tid = (σ.k.proc s).tid

/-- The caller can share or duplicate its descriptors and its working directory. -/
structure Lends (k : Kernel) (cur : Slot) (files fs : Bool) : Prop where
  files : files = true ∨ ∀ fd f, (k.proc cur).ofile fd = some f → 1 ≤ (k.ftable f).ref
  cwd : fs = true ∨ (k.proc cur).cwd ≠ none

/-- What the last three statements of `clone` do. -/
theorem runClone_end (data : ℕ) (wild : Option Slot) (a : CloneArgs) (cur np : Slot) (σ : Host) :
    (Lends σ.k cur (σ.k.proc np).cloneFiles (σ.k.proc np).cloneFs →
      ∃ σ', runClone data wild a cur np 3 .cloneFiles σ = .ok (σ', true) ∧ Published σ σ' np) ∧
    (¬ Lends σ.k cur (σ.k.proc np).cloneFiles (σ.k.proc np).cloneFs →
      ∃ e, runClone data wild a cur np 3 .cloneFiles σ = .error e) := by
  have hfiles : execStmt data wild a cur np σ .cloneFiles =
      σ.stmt cur np wild none true .cloneFiles := rfl
  by_cases hf : (σ.k.proc np).cloneFiles = true ∨
      ∀ fd f, (σ.k.proc cur).ofile fd = some f → 1 ≤ (σ.k.ftable f).ref
  · obtain ⟨k1, hk1, hsame, hfs, hcwd⟩ := cloneOfile_ok hf
    have h1 : execStmt data wild a cur np σ .cloneFiles = .ok ({ σ with k := k1 }, some .cloneFs) := by
      rw [hfiles]
      simp only [stmt, Stmt.exec, hk1]
    rw [runClone_some h1]
    -- `idup`, the working directory and the state
    have hlast : ∀ iref : Inode → ℤ, ∃ σ', runClone data wild a cur np 1 .cloneRun
        { σ with iref := iref, k := cloneCwd k1 cur np } = .ok (σ', true) ∧
        Published σ σ' np := by
      intro iref
      have hall := hsame.trans (sameDirs_cloneCwd k1 cur np)
      refine ⟨_, runClone_none rfl, rfl, rfl, rfl, fun s => ?_, fun s => ?_, fun s => ?_⟩
      · exact (Kernel.modify_field (f := (·.setState .runnable)) (·.pgdir) rfl s).trans (hall.pgdir s)
      · show (((cloneCwd k1 cur np).modify np (·.setState .runnable)).proc s).state = _
        rw [Kernel.modify_proc]
        split_ifs
        · rfl
        · exact hall.state s
      · exact (Kernel.modify_field (f := (·.setState .runnable)) (·.tid) rfl s).trans (hall.tid s)
    have hcwd' : ∀ iref : Inode → ℤ, ({ σ with iref := iref, k := k1 } : Host).stmt cur np wild none
        true .cloneFs = .ok ({ σ with iref := iref, k := cloneCwd k1 cur np }, some .cloneRun) :=
      fun _ => rfl
    by_cases hfs1 : (σ.k.proc np).cloneFs = true
    · have hfs2 : execStmt data wild a cur np { σ with k := k1 } .cloneFs =
          .ok ({ σ with k := cloneCwd k1 cur np }, some .cloneRun) := if_pos (hfs.trans hfs1)
      rw [runClone_some hfs2]
      exact ⟨fun _ => hlast σ.iref, fun hL => absurd ⟨hf, Or.inl hfs1⟩ hL⟩
    · have hfs0 : ¬ (k1.proc np).cloneFs = true := fun h => hfs1 (hfs.symm.trans h)
      cases hc : (σ.k.proc cur).cwd with
      | none =>
        have hfs2 : execStmt data wild a cur np { σ with k := k1 } .cloneFs = .error (.vm .null) :=
          (if_neg hfs0).trans (by rw [hcwd, hc]; rfl)
        refine ⟨fun hL => absurd hc (hL.cwd.resolve_left hfs1), fun _ => ⟨_, runClone_error hfs2⟩⟩
      | some ip =>
        have hfs2 : execStmt data wild a cur np { σ with k := k1 } .cloneFs =
            .ok ({ σ with iref := Function.update σ.iref ip (σ.iref ip + 1), k := cloneCwd k1 cur np },
              some .cloneRun) :=
          (if_neg hfs0).trans (by rw [hcwd, hc]; exact hcwd' _)
        rw [runClone_some hfs2]
        refine ⟨fun _ => hlast _, fun hL => absurd ⟨hf, Or.inr ?_⟩ hL⟩
        rw [hc]
        exact fun h => by cases h
  · obtain ⟨e, he⟩ := cloneOfile_error hf
    refine ⟨fun hL => absurd hL.files hf, fun _ => ⟨.halt e, runClone_error ?_⟩⟩
    rw [hfiles]
    simp only [stmt, Stmt.exec, he]

end Host

end OsSemester.Xv6
