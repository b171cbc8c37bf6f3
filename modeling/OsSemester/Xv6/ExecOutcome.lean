import OsSemester.Xv6.Machine
import OsSemester.Xv6.Spec.CloneDir
import OsSemester.Xv6.Spec.Exit
import OsSemester.Xv6.Spec.Program

/-!
# What `exec` leaves behind

A failing `exec` gives back all memory and its inode, but it has left the sharing relations of the
caller before it knows whether the file exists.  A successful `exec` keeps the descriptors and the
working directory of the caller without a new reference, also when former partners have them too:
`exec_outcome`.
-/

namespace OsSemester.Xv6

variable {σ σ' : Host} {cur : Slot} {data : ℕ} {fs : FileSys} {path : List UInt8} {ok : Bool}
variable {argv : List (List UInt8)} {files dirs : Slot → Prop} {k k' : Kernel} {sz : ℕ}

/-! ### The property -/

/-- Nothing has happened; the free list may be in another order. -/
structure Unchanged (σ σ' : Host) : Prop where
  k : σ'.k = σ.k
  free : ∀ pg, pg ∈ σ'.mem.free ↔ pg ∈ σ.mem.free
  data : ∀ pg, pg ∉ σ.mem.free → σ'.mem.data pg = σ.mem.data pg
  dir : σ'.dir = σ.dir
  tf : σ'.tf = σ.tf
  name : σ'.name = σ.name
  iref : σ'.iref = σ.iref
  outstanding : σ'.outstanding = σ.outstanding

/-- The descriptors that `cur` has in common with the processes in `files`, of those that hold `f`. -/
def commonFds (files : Slot → Prop) (k : Kernel) (cur : Slot) (f : FileId) : Set Fd :=
  {fd | (k.proc cur).ofile fd = some f ∧ ∃ q, files q ∧ q ≠ cur ∧ (k.proc q).ofile fd = some f}

/-- The caller owns what it keeps: there is a reference more for all that it had in common with the
processes in `files` and `dirs`, which shared its descriptors and its working directory. -/
structure OwnsKept (files dirs : Slot → Prop) (σ σ' : Host) (cur : Slot) : Prop where
  ofile : (σ'.k.proc cur).ofile = (σ.k.proc cur).ofile
  cwd : (σ'.k.proc cur).cwd = (σ.k.proc cur).cwd
  ref : ∀ f, (σ.k.ftable f).ref + (commonFds files σ.k cur f).ncard ≤ (σ'.k.ftable f).ref
  iref : ∀ ip q, (σ.k.proc cur).cwd = some ip → dirs q → q ≠ cur → (σ.k.proc q).cwd = some ip →
    σ.iref ip + 1 ≤ σ'.iref ip

/-- What is expected of an `exec` that returns -1 (`false`) or 0. -/
def ExecSound (files dirs : Slot → Prop) (σ σ' : Host) (cur : Slot) : Bool → Prop
  | false => Unchanged σ σ'
  | true => OwnsKept files dirs σ σ' cur

/-! ### The condition -/

/-- The share arrays of the caller are empty. -/
def NoPartners (k : Kernel) (cur : Slot) : Prop :=
  (∀ i, (k.proc cur).ofileshare i = none) ∧ ∀ i, (k.proc cur).cwdshare i = none

/-- The caller has no open descriptor and no working directory in common with its partners. -/
structure NothingCommon (files dirs : Slot → Prop) (k : Kernel) (cur : Slot) : Prop where
  ofile : ∀ q fd f, files q → q ≠ cur → (k.proc cur).ofile fd = some f → (k.proc q).ofile fd ≠ some f
  cwd : ∀ q ip, dirs q → q ≠ cur → (k.proc cur).cwd = some ip → (k.proc q).cwd ≠ some ip

def ExecFits (files dirs : Slot → Prop) (k : Kernel) (cur : Slot) : Bool → Prop
  | false => NoPartners k cur
  | true => NothingCommon files dirs k cur

/-! ### A failing call -/

/-- What a failing `exec` does. -/
structure ExecFailed (σ σ' : Host) (cur : Slot) : Prop where
  k : σ'.k = unshareCwd (unshareOfile σ.k cur) cur
  evolves : Evolves noDir σ.mem noDir σ'.mem
  dir : σ'.dir = σ.dir
  tf : σ'.tf = σ.tf
  name : σ'.name = σ.name
  iref : σ'.iref = σ.iref
  outstanding : σ'.outstanding = σ.outstanding

theorem iput_iget (σ : Host) (ip : Inode) (m : PhysMem) :
    ({ σ.iget ip with mem := m }.iput ip).iref = σ.iref := by
  funext jp
  unfold Host.iput Host.iget
  simp only [Function.update_apply]
  split_ifs with h
  · subst h
    omega
  · rfl

/-- At `bad`: the inode is given back, and so is the memory. -/
theorem execFailed_back (cur : Slot) (ip : Inode) (m1 : PhysMem) {m2 : PhysMem}
    (hE : Evolves noDir σ.mem noDir m2) : ExecFailed σ
      { ({ (σ.beginOp.unshare cur).iget ip with mem := m1 }.iput ip).endOp with mem := m2 } cur := by
  refine ⟨by simp [Host.unshare_k], hE, by simp, by simp, by simp, ?_, by simp⟩
  exact iput_iget (σ.beginOp.unshare cur) ip m1

theorem exec_false (hd : LinkerData data) (hn : σ.mem.free.Nodup)
    (h : σ.exec data fs cur path argv = .ok (σ', false)) : ExecFailed σ σ' cur := by
  unfold Host.exec at h
  cases hp : fs.namei path with
  | none =>
    rw [hp] at h
    obtain rfl := (Prod.mk.inj (Except.ok.inj h)).1
    exact ⟨by simp [Host.unshare_k], Evolves.refl _ _, by simp, by simp, by simp, by simp, by simp⟩
  | some ip =>
    rw [hp] at h
    have hmem : ((σ.beginOp.unshare cur).iget ip).mem = σ.mem := rfl
    simp only [hmem] at h
    cases hl : loadImage data (fs.readi ip) σ.mem with
    | error e =>
      rw [hl] at h
      cases h
    | ok r =>
      obtain ⟨m1, img⟩ := r
      rw [hl] at h
      obtain ⟨hnone, hsome⟩ := loadImage_spec hd hn hl
      cases img with
      | none =>
        obtain rfl := (Prod.mk.inj (Except.ok.inj h)).1
        exact execFailed_back cur ip m1 (hnone rfl)
      | some img =>
        simp only at h
        obtain ⟨hI, -⟩ := hsome img rfl
        split at h
        · cases h
        · rename_i m2 hb
          obtain rfl := (Prod.mk.inj (Except.ok.inj h)).1
          have hb' : buildStack img.dir m1 img.sz argv = .ok (m2, none) := hb
          exact execFailed_back cur ip m1 (buildStack_none hn hI hb')
        · split at h
          · cases h
          · cases h

/-- The erase loops leave no entry, and do nothing where there is none. -/
theorem leave_eq_iff : unshareCwd (unshareOfile k cur) cur = k ↔ NoPartners k cur := by
  constructor
  · intro h
    have hfiles := congrArg (fun k : Kernel => (k.proc cur).ofileshare) h
    have hdirs := congrArg (fun k : Kernel => (k.proc cur).cwdshare) h
    simp only [unshareCwd_proc, unshareOfile_proc, unshare_self] at hfiles hdirs
    exact ⟨fun i => (congrFun hfiles i).symm, fun i => (congrFun hdirs i).symm⟩
  · rintro ⟨h1, h2⟩
    have hfiles : unshareOfile k cur = k := by
      unfold unshareOfile
      rw [unshare_empty k.ofileshare cur (funext h1)]
      rfl
    rw [hfiles]
    unfold unshareCwd
    rw [unshare_empty k.cwdshare cur (funext h2)]
    rfl

theorem ExecFailed.unchanged_iff (h : ExecFailed σ σ' cur) (hn : σ.mem.free.Nodup) :
    Unchanged σ σ' ↔ NoPartners σ.k cur := by
  have hP : Pool σ.mem.free noDir := ⟨hn, nofun, nofun⟩
  rw [← leave_eq_iff, ← h.k]
  constructor
  · intro hU
    exact hU.k
  · intro hk
    refine ⟨hk, fun pg => h.evolves.exchange.mem_free_iff hP, fun pg hpg => h.evolves.data pg ?_,
      h.dir, h.tf, h.name, h.iref, h.outstanding⟩
    rintro (hf | ⟨u, hu⟩)
    · exact hpg hf
    · cases hu

/-! ### A successful call -/

theorem execCommit_kept (h : execCommit k cur sz = .ok k') : k'.ftable = k.ftable ∧
    ∀ q, (k'.proc q).ofile = (k.proc q).ofile ∧ (k'.proc q).cwd = (k.proc q).cwd := by
  unfold execCommit freevm at h
  split at h
  · cases h
  · obtain rfl := Except.ok.inj h
    refine ⟨rfl, fun q => ?_⟩
    show (((installDir k cur).modify cur fun p => { p with sz := sz }).proc q).ofile = _ ∧
      (((installDir k cur).modify cur fun p => { p with sz := sz }).proc q).cwd = _
    rw [Kernel.modify_field (f := fun p => { p with sz := sz }) (·.ofile) rfl q,
      Kernel.modify_field (f := fun p => { p with sz := sz }) (·.cwd) rfl q, installDir_proc]
    split_ifs with hq
    · rw [hq]
      exact ⟨rfl, rfl⟩
    · exact ⟨rfl, rfl⟩

theorem commit_kept {d : PageDir} {entry sp : ℕ}
    (h : σ.commit cur path d sz entry sp = .ok σ') : σ'.iref = σ.iref ∧
      execCommit σ.k cur sz = .ok σ'.k := by
  unfold Host.commit at h
  cases hc : execCommit σ.k cur sz with
  | error e =>
    rw [hc] at h
    cases h
  | ok k =>
    rw [hc] at h
    simp only at h
    cases hd : σ.pageDir cur with
    | none =>
      rw [hd] at h
      cases h
    | some old =>
      rw [hd] at h
      obtain rfl := Except.ok.inj h
      exact ⟨rfl, rfl⟩

/-- A successful `exec` keeps descriptors and counts. -/
theorem exec_true (h : σ.exec data fs cur path argv = .ok (σ', true)) :
    (∀ q, (σ'.k.proc q).ofile = (σ.k.proc q).ofile ∧ (σ'.k.proc q).cwd = (σ.k.proc q).cwd) ∧
      σ'.k.ftable = σ.k.ftable ∧ σ'.iref = σ.iref := by
  unfold Host.exec at h
  cases hp : fs.namei path with
  | none =>
    rw [hp] at h
    cases h
  | some ip =>
    rw [hp] at h
    simp only at h
    split at h
    · cases h
    · cases h
    · rename_i m1 img _
      split at h
      · cases h
      · cases h
      · rename_i m2 d sz sp _
        split at h
        · cases h
        · rename_i σ'' hc
          obtain rfl := (Prod.mk.inj (Except.ok.inj h)).1
          obtain ⟨hiref, hk⟩ := commit_kept hc
          obtain ⟨hft, hkept⟩ := execCommit_kept hk
          refine ⟨fun q => ?_, hft, hiref.trans (iput_iget (σ.beginOp.unshare cur) ip m1)⟩
          obtain ⟨h1, h2⟩ := hkept q
          exact ⟨h1, h2⟩

theorem ownsKept_iff (h : σ.exec data fs cur path argv = .ok (σ', true)) :
    OwnsKept files dirs σ σ' cur ↔ NothingCommon files dirs σ.k cur := by
  obtain ⟨hkept, hft, hiref⟩ := exec_true h
  constructor
  · rintro ⟨-, -, href, hcwd⟩
    refine ⟨fun q fd f hq hne hcur hf => ?_, fun q ip hq hne hcur hip => ?_⟩
    · have hle := href f
      rw [hft] at hle
      have hpos : 0 < (commonFds files σ.k cur f).ncard :=
        (Set.ncard_pos (Set.toFinite _)).mpr ⟨fd, hcur, q, hq, hne, hf⟩
      omega
    · have hle := hcwd ip q hcur hq hne hip
      rw [hiref] at hle
      omega
  · rintro ⟨hfiles, hdirs⟩
    refine ⟨(hkept cur).1, (hkept cur).2, fun f => ?_, fun ip q hcur hq hne hip => ?_⟩
    · have hempty : commonFds files σ.k cur f = ∅ := by
        refine Set.eq_empty_iff_forall_notMem.mpr ?_
        rintro fd ⟨hcur, q, hq, hne, hf⟩
        exact hfiles q fd f hq hne hcur hf
      rw [hempty, Set.ncard_empty, hft]
      omega
    · exact absurd hip (hdirs q ip hq hne hcur)

/-- **What `exec` leaves behind.** -/
theorem exec_outcome (hd : LinkerData data) (hn : σ.mem.free.Nodup)
    (h : σ.exec data fs cur path argv = .ok (σ', ok)) :
    ExecSound files dirs σ σ' cur ok ↔ ExecFits files dirs σ.k cur ok := by
  cases ok with
  | false => exact (exec_false hd hn h).unchanged_iff hn
  | true => exact ownsKept_iff h

/-! ### Through the system call -/

/-- `sys_exec` refuses its arguments and does nothing, or it is `exec`. -/
theorem sys_exec_outcome (hd : LinkerData data) (hn : σ.mem.free.Nodup)
    (h : σ.sysExec data fs cur = .ok (σ', ok)) : (σ.execArgs cur = none ∧ σ' = σ ∧ ok = false) ∨
      (ExecSound files dirs σ σ' cur ok ↔ ExecFits files dirs σ.k cur ok) := by
  unfold Host.sysExec at h
  cases ha : σ.execArgs cur with
  | none =>
    rw [ha] at h
    obtain ⟨rfl, rfl⟩ := Prod.mk.inj (Except.ok.inj h)
    exact Or.inl ⟨rfl, rfl, rfl⟩
  | some a =>
    obtain ⟨path, argv⟩ := a
    rw [ha] at h
    cases ok with
    | false => exact Or.inr ((exec_false hd hn h).unchanged_iff hn)
    | true => exact Or.inr (ownsKept_iff h)

/-! ### A program -/

theorem commit_ok {d old : PageDir} (path : List UInt8) (sz entry sp : ℕ) (hold : σ.pageDir cur = some old) :
    ∃ σ', σ.commit cur path d sz entry sp = .ok σ' := by
  unfold Host.commit
  have hk : ∃ k, execCommit σ.k cur sz = .ok k := by
    unfold Host.pageDir at hold
    unfold execCommit freevm
    cases hg : (σ.k.proc cur).pgdir with
    | none =>
      rw [hg] at hold
      cases hold
    | some g => exact ⟨_, rfl⟩
  obtain ⟨k, hk⟩ := hk
  rw [hk, hold]
  exact ⟨_, rfl⟩

/-- **`exec` of a program returns 0**, when its arguments fit a page and there are enough pages. -/
theorem exec_program {ip : Inode} {old : PageDir} (hd : LinkerData data) (hn : σ.mem.free.Nodup)
    (hip : fs.namei path = some ip) (hp : IsProgram (fs.readi ip)) (hargc : argv.length ≤ MAXARG)
    (hfit : argBytes argv + 4 * (argv.length + 4) ≤ PGSIZE)
    (hroom : NPDENTRIES + 1 + (2 + pagesFor (programSize (fs.readi ip))) ≤ σ.mem.free.length)
    (hold : σ.pageDir cur = some old) : ∃ σ', σ.exec data fs cur path argv = .ok (σ', true) := by
  obtain ⟨m1, img, hl, hI, hsize, hA⟩ := loadImage_program hd hn hp hroom
  have hstack := hp.room
  rw [← hsize] at hstack
  obtain ⟨m2, d, top, sp, hb, -⟩ := buildStack_program hn hI hstack hargc hfit hA
  unfold Host.exec
  rw [hip]
  have hmem : ((σ.beginOp.unshare cur).iget ip).mem = σ.mem := rfl
  have hkept : (({ (σ.beginOp.unshare cur).iget ip with mem := m1 }.iput ip).endOp).mem = m1 := rfl
  simp only [hmem, hl, hkept, hb]
  -- leaving the sharing relations changes no page directory
  have hold' : ({ ({ (σ.beginOp.unshare cur).iget ip with mem := m1 }.iput ip).endOp with
      mem := m2 } : Host).pageDir cur = some old := hold
  obtain ⟨σ', hc⟩ := commit_ok (d := d) path top img.entry sp hold'
  exact ⟨σ', by rw [hc]⟩

/-! ### A process that shares its descriptors -/

/-- The first process after a `clone` with `CLONE_FILES` and `CLONE_VM`. -/
def pairHost : Host :=
  match roomyHost.clone 0x80108000 none 0 ⟨0, 0, 5, 0⟩ with
  | .ok (σ, _) => σ
  | .error _ => roomyHost

/-- The thread is in slot 1, and the first process and the thread share their descriptors. -/
theorem pairHost_shares : (pairHost.k.proc 1).state = .runnable ∧ (pairHost.k.proc 1).isthread = true ∧
    (pairHost.k.proc 0).ofileshare 0 = some 1 ∧ (pairHost.k.proc 1).ofileshare 0 = some 0 := by
  decide +kernel

/-- `exec` of a program returns 0, and as nothing was open, nothing is lost. -/
theorem exec_outcome_pair : ∃ σ',
    pairHost.exec 0x80108000 programFiles 0 [] [] = .ok (σ', true) ∧
      (pairHost.k.proc 0).ofileshare 0 = some 1 ∧
      ExecSound (· = 1) (fun _ => False) pairHost σ' 0 true := by
  have hfree : pairHost.mem.free = List.range' 1025 1199 := by decide +kernel
  have hn : pairHost.mem.free.Nodup := by
    rw [hfree]
    exact List.nodup_range'
  have hsize : programSize (programFiles.readi 7) = 16 := programSize_small
  have hroom : NPDENTRIES + 1 + (2 + pagesFor (programSize (programFiles.readi 7))) ≤
      pairHost.mem.free.length := by
    rw [hfree, hsize, List.length_range']
    decide
  have hdir : pairHost.pageDir 0 = some loneDir := rfl
  have hip : programFiles.namei [] = some 7 := rfl
  have hargc : ([] : List (List UInt8)).length ≤ MAXARG := by decide
  obtain ⟨σ', h⟩ := exec_program linkerData hn hip isProgram_small hargc (by decide) hroom hdir
  have hclosed : ∀ fd, (pairHost.k.proc 0).ofile fd = none := by decide +kernel
  have hnothing : NothingCommon (· = 1) (fun _ => False) pairHost.k 0 := by
    refine ⟨fun q fd f _ _ hf => ?_, fun q ip hq => hq.elim⟩
    rw [hclosed fd] at hf
    cases hf
  exact ⟨σ', h, pairHost_shares.2.2.1, (exec_outcome linkerData hn h).mpr hnothing⟩

/-- `exec` of an empty file fails, and the first process does not share any more. -/
theorem exec_outcome_counterexample : ∃ σ',
    pairHost.exec 0x80108000 emptyFiles 0 [] [] = .ok (σ', false) ∧
      (pairHost.k.proc 1).state = .runnable ∧ (pairHost.k.proc 0).ofileshare 0 = some 1 ∧
      (σ'.k.proc 0).ofileshare 0 = none ∧ ∀ files dirs, ¬ ExecSound files dirs pairHost σ' 0 false := by
  have hshares := pairHost_shares
  refine ⟨_, rfl, hshares.1, hshares.2.2.1, by decide +kernel, fun _ _ h => ?_⟩
  have hk := congrArg (fun k : Kernel => (k.proc 0).ofileshare 0) (Unchanged.k h)
  exact absurd hk (by decide +kernel)

end OsSemester.Xv6
