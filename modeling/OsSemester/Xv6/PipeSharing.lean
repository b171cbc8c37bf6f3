import OsSemester.Xv6.FileRefs
import OsSemester.Xv6.Pipe
import OsSemester.Xv6.Propagation

/-!
# `pipe` and the processes that share descriptors
-/

namespace OsSemester.Xv6

variable {σ σ' : Session} {k k' : Kernel} {pm pm' : PipeMem} {s t np : Slot} {fd fd0 fd1 : Fd}
variable {f rf wf : FileId} {ft ft' : FTable}

theorem fdalloc_ftable (h : k.fdalloc s f = some (fd, k')) : k'.ftable = k.ftable := by
  rw [(fdalloc_eq h).2]
  rfl

/-! ### Files without references have no type -/

/-- A file structure without references is of no type. -/
def Closed (ft : FTable) : Prop := ∀ f, (ft f).ref = 0 → (ft f).type = .none

namespace Closed

theorem update (h : Closed ft) {file : File} (hf : file.ref = 0 → file.type = .none) :
    Closed (Function.update ft f file) := by
  intro g hg
  by_cases hgf : g = f
  · rw [hgf, Function.update_self] at hg ⊢
    exact hf hg
  · rw [Function.update_of_ne hgf] at hg ⊢
    exact h g hg

theorem filealloc (h : Closed ft) (ha : filealloc ft = some (f, ft')) : Closed ft' := by
  unfold Xv6.filealloc at ha
  obtain ⟨g, -, he⟩ := Option.map_eq_some_iff.mp ha
  obtain ⟨rfl, rfl⟩ := Prod.mk.inj he
  exact h.update nofun

theorem filedup (h : Closed ft) (hd : filedup ft f = .ok ft') : Closed ft' := by
  unfold Xv6.filedup at hd
  split_ifs at hd with hr
  obtain rfl := Except.ok.inj hd
  refine h.update fun h0 => ?_
  simp only at h0
  omega

theorem fileclose (h : Closed ft) {ff : Option File} (hc : fileclose ft f = .ok (ft', ff)) :
    Closed ft' := by
  unfold Xv6.fileclose at hc
  split_ifs at hc with h1 h2
  · obtain ⟨rfl, -⟩ := Prod.mk.inj (Except.ok.inj hc)
    refine h.update fun h0 => ?_
    simp only at h0
    omega
  · obtain ⟨rfl, -⟩ := Prod.mk.inj (Except.ok.inj hc)
    exact h.update fun _ => rfl

theorem dupFiles {src dst dst' : Fd → Option FileId} {fds : List Fd} (h : Closed ft)
    (hd : dupFiles src fds ft dst = .ok (ft', dst')) : Closed ft' := by
  induction fds generalizing ft dst with
  | nil =>
    obtain ⟨rfl, -⟩ := Prod.mk.inj (Except.ok.inj hd)
    exact h
  | cons fd fds ih =>
    unfold Xv6.dupFiles at hd
    split at hd
    · exact ih h hd
    · split at hd
      · cases hd
      · rename_i ft1 hft
        exact ih (h.filedup hft) hd

theorem closeFiles {ofile ofile' : Fd → Option FileId} {fds : List Fd} (h : Closed ft)
    (hc : closeFiles fds ft ofile = .ok (ft', ofile')) : Closed ft' := by
  induction fds generalizing ft ofile with
  | nil =>
    obtain ⟨rfl, -⟩ := Prod.mk.inj (Except.ok.inj hc)
    exact h
  | cons fd fds ih =>
    unfold Xv6.closeFiles at hc
    split at hc
    · exact ih h hc
    · split at hc
      · cases hc
      · rename_i ft1 ff hft
        exact ih (h.fileclose hft) hc

/-- Only two statements of `fork` and `clone` touch the file table. -/
theorem stmt (h : Closed k.ftable) {st : Stmt} {o : Oracle} {nx : Option Stmt}
    (he : st.exec k s np o = .ok (k', nx)) : Closed k'.ftable := by
  have hdup : ∀ {k'}, dupOfile k s np = .ok k' → Closed k'.ftable := by
    intro k' hk
    unfold dupOfile at hk
    split at hk
    · cases hk
    · rename_i ft' ofile hd
      obtain rfl := Except.ok.inj hk
      exact h.dupFiles hd
  by_cases h1 : st = .forkOfile
  · subst h1
    simp only [Stmt.exec] at he
    split at he
    · cases he
    · rename_i k1 hk
      obtain ⟨rfl, -⟩ := Prod.mk.inj (Except.ok.inj he)
      exact hdup hk
  · by_cases h2 : st = .cloneFiles
    · subst h2
      simp only [Stmt.exec] at he
      split at he
      · cases he
      · rename_i k1 hk
        obtain ⟨rfl, -⟩ := Prod.mk.inj (Except.ok.inj he)
        unfold cloneOfile at hk
        split at hk
        · obtain rfl := Except.ok.inj hk
          exact h
        · exact hdup hk
    · rw [(exec_files he h1 h2).1]
      exact h

theorem closeBoth (h : Closed k.ftable) (hc : closeBoth k rf wf = .ok k') : Closed k'.ftable := by
  unfold Xv6.closeBoth at hc
  split at hc
  · cases hc
  · rename_i ft1 _ h1
    split at hc
    · cases hc
    · rename_i ft2 _ h2
      obtain rfl := Except.ok.inj hc
      exact (h.fileclose h1).fileclose h2

theorem pipealloc {page : Option Page} {r : Option (FileId × FileId)} (h : Closed ft)
    (ha : pipealloc ft page = .ok (ft', r)) : Closed ft' := by
  unfold Xv6.pipealloc at ha
  split at ha
  · obtain ⟨rfl, -⟩ := Prod.mk.inj (Except.ok.inj ha)
    exact h
  · rename_i f0 ft0 h0
    have hft0 := h.filealloc h0
    split at ha
    · split at ha
      · cases ha
      · rename_i h1
        obtain ⟨rfl, -⟩ := Prod.mk.inj (Except.ok.inj ha)
        exact hft0.fileclose h1
    · rename_i f1 ft1 h1
      split at ha
      · cases ha
      · rename_i h2
        split at ha
        · cases ha
        · rename_i h3
          obtain ⟨rfl, -⟩ := Prod.mk.inj (Except.ok.inj ha)
          exact ((hft0.filealloc h1).fileclose h2).fileclose h3
    · rename_i f1 ft1 pg h1
      obtain ⟨rfl, -⟩ := Prod.mk.inj (Except.ok.inj ha)
      obtain ⟨-, hr0⟩ := filealloc_some h0
      obtain ⟨hz1, hr1⟩ := filealloc_some h1
      have hne : f1 ≠ f0 := by
        rintro rfl
        rw [hr0, Function.update_self] at hz1
        cases hz1
      have hr0' : (ft1 f0).ref = 1 := by
        have := congrFun hr1 f0
        rwa [Function.update_of_ne hne.symm, hr0, Function.update_self] at this
      have hr1' : (ft1 f1).ref = 1 := by
        have := congrFun hr1 f1
        rwa [Function.update_self] at this
      refine ((hft0.filealloc h1).update fun hz => ?_).update fun hz => ?_
      · rw [show ((ft1 f0).openPipe pg false).ref = 1 from hr0'] at hz
        cases hz
      · rw [Function.update_of_ne hne] at hz
        rw [show ((ft1 f1).openPipe pg true).ref = 1 from hr1'] at hz
        cases hz

/-- A descriptor call sets the table only through `fdalloc`, which leaves the files alone. -/
theorem sysOpen (h : Closed k.ftable) {ip : Option Inode} {omode : ℕ} {r : Option Fd}
    (ho : sysOpen k s ip omode = .ok (k', r)) : Closed k'.ftable := by
  unfold Xv6.sysOpen at ho
  split at ho
  · obtain ⟨rfl, -⟩ := Prod.mk.inj (Except.ok.inj ho)
    exact h
  · split at ho
    · obtain ⟨rfl, -⟩ := Prod.mk.inj (Except.ok.inj ho)
      exact h
    · rename_i f ft ha
      have hft := h.filealloc ha
      split at ho
      · split at ho
        · cases ho
        · rename_i hc
          obtain ⟨rfl, -⟩ := Prod.mk.inj (Except.ok.inj ho)
          exact hft.fileclose hc
      · rename_i fd k1 hk
        obtain ⟨rfl, -⟩ := Prod.mk.inj (Except.ok.inj ho)
        have h1 : k1.ftable = ft := fdalloc_ftable hk
        obtain ⟨-, hr⟩ := filealloc_some ha
        refine Closed.update (h1 ▸ hft) fun hz => ?_
        have hf : (ft f).ref = 1 := by
          have := congrFun hr f
          rwa [Function.update_self] at this
        rw [h1] at hz
        rw [show ((ft f).openInode _ omode).ref = 1 from hf] at hz
        cases hz

theorem sysDup (h : Closed k.ftable) {n : ℤ} {r : Option Fd}
    (hd : sysDup k s n = .ok (k', r)) : Closed k'.ftable := by
  unfold Xv6.sysDup at hd
  split at hd
  · obtain ⟨rfl, -⟩ := Prod.mk.inj (Except.ok.inj hd)
    exact h
  · split at hd
    · obtain ⟨rfl, -⟩ := Prod.mk.inj (Except.ok.inj hd)
      exact h
    · rename_i fd k1 hk
      split at hd
      · cases hd
      · rename_i ft hft
        obtain ⟨rfl, -⟩ := Prod.mk.inj (Except.ok.inj hd)
        rw [fdalloc_ftable hk] at hft
        exact h.filedup hft

theorem sysClose (h : Closed k.ftable) {n : ℤ} (hc : sysClose k s n = .ok k') :
    Closed k'.ftable := by
  unfold Xv6.sysClose at hc
  split at hc
  · obtain rfl := Except.ok.inj hc
    exact h
  · split at hc
    · cases hc
    · rename_i hft
      obtain rfl := Except.ok.inj hc
      exact h.fileclose hft

theorem sysPipe (h : Closed k.ftable) {page : Option Page} {r : Option (Fd × Fd)}
    (hp : sysPipe k s page = .ok (k', r)) : Closed k'.ftable := by
  have hboth : ∀ {k1 : Kernel} {rf wf}, Closed k1.ftable →
      (Xv6.closeBoth k1 rf wf).map (·, none) = .ok (k', r) → Closed k'.ftable := by
    intro k1 rf wf h1 hm
    cases hc : Xv6.closeBoth k1 rf wf with
    | error e =>
      rw [hc] at hm
      cases hm
    | ok k2 =>
      rw [hc] at hm
      obtain ⟨rfl, -⟩ := Prod.mk.inj (Except.ok.inj hm)
      exact h1.closeBoth hc
  unfold Xv6.sysPipe at hp
  split at hp
  · cases hp
  · rename_i ft ha
    obtain ⟨rfl, -⟩ := Prod.mk.inj (Except.ok.inj hp)
    exact h.pipealloc ha
  · rename_i ft rf wf ha
    have hft := h.pipealloc ha
    split at hp
    · exact hboth hft hp
    · rename_i fd0 k1 h1
      have hk1 : Closed k1.ftable := by
        rw [fdalloc_ftable h1]
        exact hft
      split at hp
      · exact hboth (show Closed (k1.setOfile s fd0 none).ftable from hk1) hp
      · rename_i fd1 k2 h2
        obtain ⟨rfl, -⟩ := Prod.mk.inj (Except.ok.inj hp)
        rw [fdalloc_ftable h2]
        exact hk1

theorem exitCall (h : Closed k.ftable) (he : exitCall k s = .ok k') : Closed k'.ftable := by
  unfold Xv6.exitCall at he
  split_ifs at he
  split at he
  · cases he
  · rename_i k1 hk
    obtain rfl := Except.ok.inj he
    rw [exitLocked_ftable]
    unfold exitFiles at hk
    split_ifs at hk
    · obtain rfl := Except.ok.inj hk
      exact h
    · split at hk
      · cases hk
      · rename_i hcl
        obtain rfl := Except.ok.inj hk
        exact Closed.closeFiles h hcl

theorem waitCall (h : Closed k.ftable) (hw : waitCall k s = .ok k') : Closed k'.ftable := by
  unfold Xv6.waitCall at hw
  split at hw
  · rwa [waitReap_ftable hw]
  · obtain rfl := Except.ok.inj hw
    exact h
  · cases hw

theorem joinCall {tid : ℤ} {wild : Option Slot} (h : Closed k.ftable)
    (hj : joinCall k s tid wild = .ok k') : Closed k'.ftable := by
  unfold Xv6.joinCall at hj
  split at hj
  · rwa [joinReap_ftable hj]
  · obtain rfl := Except.ok.inj hj
    exact h
  · cases hj

theorem create (h : Closed σ.k.ftable) (fl : Option ℤ) : Closed (σ.create s fl).k.ftable := by
  unfold Session.create
  split
  · exact h
  · rename_i np k1 ha
    obtain ⟨-, -, -, -, -, -, -, hft⟩ := allocproc_some ha
    show Closed k1.ftable
    rwa [hft]

/-- A call that keeps the property of the file table keeps it for the session. -/
theorem callStep (h : Closed σ.k.ftable) {c : Call} (hst : σ.callStep s c = .ok σ') :
    Closed σ'.k.ftable := by
  have hmap : ∀ {α : Type} {r : Except Halt α} {g : α → Session},
      (∀ x, r = .ok x → Closed (g x).k.ftable) → r.map g = .ok σ' → Closed σ'.k.ftable := by
    intro α r g hr hm
    cases r with
    | error e => cases hm
    | ok x =>
      obtain rfl := Except.ok.inj hm
      exact hr x rfl
  cases c with
  | next o => cases hst
  | fork =>
    obtain rfl := Except.ok.inj hst
    exact h.create none
  | clone flags =>
    obtain rfl := Except.ok.inj hst
    split_ifs
    · exact h
    · exact h.create _
  | «open» ip omode => exact hmap (fun _ ho => h.sysOpen ho) hst
  | dup n => exact hmap (fun _ hd => h.sysDup hd) hst
  | close n => exact hmap (fun _ hc => h.sysClose hc) hst
  | pipe page => exact hmap (fun _ hp => h.sysPipe hp) hst
  | exec sz =>
    refine hmap (fun k1 he => ?_) hst
    show Closed k1.ftable
    rw [(execCall_ok he).1]
    exact h
  | exit => exact hmap (fun _ he => h.exitCall he) hst
  | wait => exact hmap (fun _ hw => h.waitCall hw) hst
  | join tid wild => exact hmap (fun _ hj => h.joinCall hj) hst

theorem step (h : Closed σ.k.ftable) {a : Slot × Call} (hst : σ.step a = .ok σ') :
    Closed σ'.k.ftable := by
  obtain ⟨s, c⟩ := a
  by_cases hc : ∃ o, c = .next o
  · obtain ⟨o, rfl⟩ := hc
    replace hst : σ.stmtStep o = .ok σ' := hst
    unfold Session.stmtStep at hst
    split at hst
    · cases hst
    · split at hst
      · cases hst
      · rename_i he
        obtain rfl := Except.ok.inj hst
        exact h.stmt he
  · have hcall : (if σ.busy = none ∧ (σ.k.proc s).state.Live then σ.callStep s c
        else .error .disabled) = .ok σ' := by
      cases c with
      | next o => exact absurd ⟨o, rfl⟩ hc
      | _ => exact hst
    split_ifs at hcall
    exact h.callStep hcall

theorem of_reachable (h : session.Reachable σ) : Closed σ.k.ftable := by
  refine h.invariant (I := fun σ => Closed σ.k.ftable) ?_ fun σ a σ' hI _ hst => hI.step hst
  rintro _ rfl f -
  rfl

end Closed

/-! ### The ends of a pipe -/

/-- The file is an end of the pipe in the page `pg`. -/
def File.EndOf (f : File) (pg : Page) (writable : Bool) : Prop :=
  f.type = .pipe ∧ f.pipe = some pg ∧ f.readable = !writable ∧ f.writable = writable

/-- `pipealloc` has made a pipe with the ends `rf` and `wf`. -/
structure Piped (ft ft' : FTable) (pm pm' : PipeMem) (rf wf : FileId) (pg : Page) : Prop where
  page : pm.free = pg :: pm'.free
  isopen : (pm'.pipe pg).writeopen = true
  first : (List.finRange NFILE).find? (fun f => (ft f).ref = 0) = some rf
  second : (List.finRange NFILE).find? (fun f => (ft f).ref = 0 ∧ f ≠ rf) = some wf
  read : (ft' rf).EndOf pg false
  write : (ft' wf).EndOf pg true
  refs : refs ft' = Function.update (Function.update (refs ft) rf 1) wf 1

namespace Piped

variable {pg : Page}

theorem read_free (h : Piped ft ft' pm pm' rf wf pg) : (ft rf).ref = 0 := by
  simpa using List.find?_some h.first

theorem write_free (h : Piped ft ft' pm pm' rf wf pg) : (ft wf).ref = 0 ∧ wf ≠ rf := by
  simpa using List.find?_some h.second

end Piped

theorem filealloc_eq (h : filealloc ft = some (f, ft')) :
    (List.finRange NFILE).find? (fun f => (ft f).ref = 0) = some f ∧
      ft' = Function.update ft f { ft f with ref := 1 } := by
  unfold filealloc at h
  obtain ⟨g, hg, he⟩ := Option.map_eq_some_iff.mp h
  obtain ⟨rfl, rfl⟩ := Prod.mk.inj he
  exact ⟨hg, rfl⟩

theorem filealloc_none (h : filealloc ft = none) (f : FileId) : (ft f).ref ≠ 0 := by
  have hn := Option.map_eq_none_iff.mp h
  simpa using List.find?_eq_none.mp hn f (List.mem_finRange f)

/-- The last reference of a file without type: no pipe is closed. -/
theorem closeEnd_none (hr : (ft f).ref = 1) (ht : (ft f).type = .none) :
    closeEnd ft pm f = .ok (Function.update ft f { ft f with ref := 0, type := .none }, pm) := by
  unfold closeEnd fileclose
  simp [hr, ht]

/-- The last reference of an end of a pipe. -/
theorem closeEnd_pipe {pg : Page} {w : Bool} (hr : (ft f).ref = 1) (he : (ft f).EndOf pg w) :
    closeEnd ft pm f = .ok (Function.update ft f { ft f with ref := 0, type := .none },
      pipeclose pm pg w) := by
  obtain ⟨ht, hp, -, hw⟩ := he
  unfold closeEnd fileclose
  simp [hr, ht, hp, hw]

/-- The page of a pipe is given back with the second end. -/
theorem pipeclose_both {pg : Page} (h : (pm.pipe pg).writeopen = true) :
    (pipeclose (pipeclose pm pg false) pg true).free = pg :: pm.free := by
  simp [pipeclose, PipeMem.set, h]

theorem refs_of_closed (ft : FTable) (f : FileId) :
    refs (Function.update ft f { ft f with ref := 0, type := .none }) =
      Function.update (refs ft) f 0 := refs_update ft f _

/-- Closing two files that were free puts their counts back. -/
theorem refs_of_closed_both {ft ft1 : FTable} (h0 : refs ft rf = 0) (h1 : refs ft wf = 0)
    (hr : refs ft1 = Function.update (Function.update (refs ft) rf 1) wf 1) :
    Function.update (Function.update (refs ft1) rf 0) wf 0 = refs ft := by
  rw [hr]
  funext g
  simp only [Function.update_apply]
  split_ifs with hg1 hg2
  · rw [hg1, h1]
  · rw [hg2, h0]
  · rfl

/-- **The undo of a pipe.** -/
theorem Piped.close {pg : Page} (h : Piped ft ft' pm pm' rf wf pg) :
    ∃ ft'' pm'', closeEnds ft' pm' rf wf = .ok (ft'', pm'') ∧ Xv6.refs ft'' = Xv6.refs ft ∧
      pm''.free = pm.free := by
  obtain ⟨hw0, hne⟩ := h.write_free
  have hr : (ft' rf).ref = 1 := by
    have := congrFun h.refs rf
    rwa [Function.update_of_ne hne.symm, Function.update_self] at this
  have hw : (ft' wf).ref = 1 := by
    have := congrFun h.refs wf
    rwa [Function.update_self] at this
  have h1 : closeEnd ft' pm' rf = _ := closeEnd_pipe hr h.read
  obtain ⟨ft1, hft1⟩ : ∃ ft1, ft1 = Function.update ft' rf { ft' rf with ref := 0, type := .none } :=
    ⟨_, rfl⟩
  rw [← hft1] at h1
  have hwf : ft1 wf = ft' wf := by
    rw [hft1, Function.update_of_ne hne]
  have h2 : closeEnd ft1 (pipeclose pm' pg false) wf = _ :=
    closeEnd_pipe (by rw [hwf, hw]) (by rw [hwf]; exact h.write)
  unfold closeEnds
  simp only [h1, h2]
  refine ⟨_, _, rfl, ?_, ?_⟩
  · rw [refs_of_closed, hft1, refs_of_closed]
    exact refs_of_closed_both h.read_free hw0 h.refs
  · rw [pipeclose_both h.isopen, h.page]

theorem ref_alloc (ft : FTable) (f g : FileId) :
    (Function.update ft f { ft f with ref := 1 } g).ref = 0 ↔ (ft g).ref = 0 ∧ g ≠ f := by
  rw [Function.update_apply]
  split_ifs with hgf
  · exact iff_of_false nofun fun h => h.2 hgf
  · exact ⟨fun h => ⟨h, hgf⟩, fun h => h.1⟩

/-- `pipealloc` makes a pipe when there are two free files and a page, and undoes everything
otherwise. -/
theorem pipeallocMem_cases (hC : Closed k.ftable) (pm : PipeMem) :
    (¬ PipeFits k pm.free.head? ∧ ∃ ft', pipeallocMem k.ftable pm = .ok (ft', pm, none) ∧
      refs ft' = refs k.ftable) ∨
    PipeFits k pm.free.head? ∧ ∃ ft' pm' rf wf pg,
      pipeallocMem k.ftable pm = .ok (ft', pm', some (rf, wf)) ∧
      Piped k.ftable ft' pm pm' rf wf pg := by
  unfold pipeallocMem
  cases ha0 : filealloc k.ftable with
  | none =>
    refine Or.inl ⟨?_, k.ftable, rfl, rfl⟩
    rintro ⟨-, f, -, -, hf, -⟩
    exact filealloc_none ha0 f hf
  | some r =>
    obtain ⟨f0, ft0⟩ := r
    obtain ⟨hfirst, hft0⟩ := filealloc_eq ha0
    have hf0 : (k.ftable f0).ref = 0 := by simpa using List.find?_some hfirst
    have href0 : ∀ g, (ft0 g).ref = 0 ↔ (k.ftable g).ref = 0 ∧ g ≠ f0 := by
      rw [hft0]
      exact ref_alloc k.ftable f0
    have hat0 : (ft0 f0).ref = 1 ∧ (ft0 f0).type = .none := by
      rw [hft0, Function.update_self]
      exact ⟨rfl, hC f0 hf0⟩
    simp only
    cases ha1 : filealloc ft0 with
    | none =>
      -- the one free file is closed again
      simp only [closeEnd_none hat0.1 hat0.2]
      refine Or.inl ⟨?_, _, rfl, ?_⟩
      · rintro ⟨-, f, g, hne, hf, hg⟩
        have hfull : ∀ f, refs k.ftable f = 0 → f = f0 := by
          intro f hf
          by_contra hff
          exact filealloc_none ha1 f ((href0 f).mpr ⟨hf, hff⟩)
        exact hne ((hfull f hf).trans (hfull g hg).symm)
      · rw [refs_of_closed, hft0, refs_update, Function.update_idem]
        exact (congrArg _ hf0.symm).trans (Function.update_eq_self f0 _)
    | some r =>
      obtain ⟨f1, ft1⟩ := r
      obtain ⟨hsecond, hft1⟩ := filealloc_eq ha1
      simp only [href0] at hsecond
      obtain ⟨hf1, hne⟩ : (k.ftable f1).ref = 0 ∧ f1 ≠ f0 := by
        simpa using List.find?_some hsecond
      have hat : ∀ g, ft1 g = if g = f1 then { k.ftable f1 with ref := 1 } else
          if g = f0 then { k.ftable f0 with ref := 1 } else k.ftable g := by
        intro g
        rw [hft1, hft0, Function.update_of_ne hne, Function.update_apply, Function.update_apply]
      have hrefs : refs ft1 = Function.update (Function.update (refs k.ftable) f0 1) f1 1 := by
        rw [hft1, refs_update, hft0, refs_update]
      have h0 : refs k.ftable f0 = 0 := hf0
      have h1 : refs k.ftable f1 = 0 := hf1
      cases hfree : pm.free with
      | nil =>
        have hg0 : ft1 f0 = { k.ftable f0 with ref := 1 } := by
          rw [hat, if_neg hne.symm, if_pos rfl]
        have hg1 : ft1 f1 = { k.ftable f1 with ref := 1 } := by
          rw [hat, if_pos rfl]
        have hc0 : closeEnd ft1 pm f0 = _ :=
          closeEnd_none (by rw [hg0]) (by rw [hg0]; exact hC f0 hf0)
        obtain ⟨ft2, hft2⟩ : ∃ ft2, ft2 = Function.update ft1 f0
          { ft1 f0 with ref := 0, type := .none } := ⟨_, rfl⟩
        rw [← hft2] at hc0
        have hg2 : ft2 f1 = { k.ftable f1 with ref := 1 } := by
          rw [hft2, Function.update_of_ne hne, hg1]
        have hc1 : closeEnd ft2 pm f1 = _ :=
          closeEnd_none (by rw [hg2]) (by rw [hg2]; exact hC f1 hf1)
        simp only [closeEnds, hc0, hc1]
        refine Or.inl ⟨fun h => h.1 rfl, _, rfl, ?_⟩
        rw [refs_of_closed, hft2, refs_of_closed]
        exact refs_of_closed_both h0 h1 hrefs
      | cons pg free =>
        refine Or.inr ⟨⟨nofun, f0, f1, hne.symm, h0, h1⟩, _, _, f0, f1, pg, rfl, ?_⟩
        refine ⟨hfree, ?_, hfirst, hsecond, ?_, ?_, ?_⟩
        · simp [PipeMem.set]
        · rw [Function.update_of_ne hne.symm, Function.update_self]
          exact ⟨rfl, rfl, rfl, rfl⟩
        · rw [Function.update_self]
          exact ⟨rfl, rfl, rfl, rfl⟩
        · rw [refs_update_same, refs_update_same, hrefs]
          · rfl
          · rfl

/-! ### What the other processes get -/

/-- The processes are linked by array entries, in either direction. -/
def ShareGraph.Sharers (g : ShareGraph) : Slot → Slot → Prop :=
  Relation.ReflTransGen fun p q => q ∈ g.neighbours p ∨ p ∈ g.neighbours q

namespace Kernel

/-- `s`, and the processes that have `v` in descriptor `fd`. -/
def having (k : Kernel) (s : Slot) (fd : Fd) (v : Option FileId) : Finset Slot :=
  insert s (Finset.univ.filter fun t => (k.proc t).ofile fd = v)

/-- The processes that have `v` in descriptor `fd` after `s` has written and spread it. -/
def spreadTo (k : Kernel) (s : Slot) (fd : Fd) (v : Option FileId) : Finset Slot :=
  visit k.ofileshare.neighbours spreadDepth s (k.having s fd v)

end Kernel

theorem setSpread_ofile (k : Kernel) (s t : Slot) (fd : Fd) (v : Option FileId) :
    ((k.setSpread s fd v).proc t).ofile fd =
      if t ∈ k.spreadTo s fd v then v else (k.proc t).ofile fd := by
  have hcol : ∀ t, (k.setOfile s fd v).ofileAt fd t = if t = s then v else (k.proc t).ofile fd := by
    intro t
    unfold Kernel.ofileAt
    rw [setOfile_proc]
    split_ifs <;> simp
  have hV : ∀ t, t ∈ k.having s fd v ↔ (k.setOfile s fd v).ofileAt fd t = v := by
    intro t
    rw [hcol, Kernel.having, Finset.mem_insert, Finset.mem_filter]
    split_ifs with hts <;> simp [hts]
  rw [setSpread_proc, spread_eq _ hV]
  simp only [Function.update_self, painted]
  unfold Kernel.spreadTo
  split_ifs with ht
  · rfl
  · have hts : t ≠ s := by
      rintro rfl
      exact ht (subset_visit (Finset.mem_insert_self ..))
    rw [hcol, if_neg hts]

theorem setSpread_ofile_of_ne (k : Kernel) (s t : Slot) {fd fd' : Fd} (v : Option FileId)
    (h : fd' ≠ fd) : ((k.setSpread s fd v).proc t).ofile fd' = (k.proc t).ofile fd' := by
  rw [setSpread_proc]
  exact Function.update_of_ne h _ _

theorem setSpread_ofileshare (k : Kernel) (s : Slot) (fd : Fd) (v : Option FileId) :
    (k.setSpread s fd v).ofileshare = k.ofileshare := by
  funext t
  unfold Kernel.ofileshare
  rw [setSpread_proc]

/-- Nobody but the caller gets the value when its first neighbour has it, or there is none. -/
theorem spreadTo_eq_iff {v : Option FileId} : k.spreadTo s fd v = k.having s fd v ↔
    ∀ q, (k.ofileshare.neighbours s).find? (fun q => q ≠ s) = some q →
      (k.proc q).ofile fd = v := by
  unfold Kernel.spreadTo
  rw [show Kernel.spreadDepth = NPROC + 1 from rfl, visit_eq_self_iff]
  refine forall_congr' fun q => forall_congr' fun hq => ?_
  have hqs : q ≠ s := by simpa using List.find?_some hq
  rw [Kernel.having, Finset.mem_insert, Finset.mem_filter]
  simp [hqs]

/-! ### The property and the conditions -/

/-- The call has changed no descriptor of a process that shares with `s`, no reference count, and not
which pages are free. -/
structure PipeUndone (k k' : Kernel) (pm pm' : PipeMem) (s : Slot) : Prop where
  tables : ∀ t, k.ofileshare.Sharers s t → (k'.proc t).ofile = (k.proc t).ofile
  refs : refs k'.ftable = refs k.ftable
  pages : ∀ pg, pg ∈ pm'.free ↔ pg ∈ pm.free

/-- The two descriptors name the ends of one pipe, for every process that shares with `s`. -/
def PipeInstalled (k k' : Kernel) (s : Slot) (fd0 fd1 : Fd) : Prop :=
  ∃ rf wf pg, (k'.ftable rf).EndOf pg false ∧ (k'.ftable wf).EndOf pg true ∧
    ∀ t, k.ofileshare.Sharers s t →
      (k'.proc t).ofile fd0 = some rf ∧ (k'.proc t).ofile fd1 = some wf

/-- The free descriptors of `s`, and the free files, in the order in which they are taken. -/
def Kernel.freeFds (k : Kernel) (s : Slot) : List Fd :=
  (List.finRange NOFILE).filter fun fd => (k.proc s).ofile fd = none

def freeFiles (ft : FTable) : List FileId :=
  (List.finRange NFILE).filter fun f => (ft f).ref = 0

/-- There is one free descriptor, and the first process `s` shares with does not have the first free
file in it. -/
def PipeLeaks (k : Kernel) (s : Slot) : Prop :=
  ∃ fd f q, k.freeFds s = [fd] ∧ (freeFiles k.ftable).head? = some f ∧
    (k.ofileshare.neighbours s).find? (fun q => q ≠ s) = some q ∧ (k.proc q).ofile fd ≠ some f

/-- Both walks from `s` reach everybody it shares with. -/
def PipeReaches (k : Kernel) (s : Slot) : Prop :=
  ∃ fd0 fd1 fds rf wf fs, k.freeFds s = fd0 :: fd1 :: fds ∧ freeFiles k.ftable = rf :: wf :: fs ∧
    ∀ t, k.ofileshare.Sharers s t →
      t ∈ k.spreadTo s fd0 (some rf) ∧ t ∈ k.spreadTo s fd1 (some wf)

/-! ### Free descriptors and files -/

/-- The first element of a list with a property, and the rest of them. -/
theorem filter_of_find? {α : Type} [DecidableEq α] {p : α → Bool} {l : List α} {a : α}
    (hn : l.Nodup) (h : l.find? p = some a) :
    l.filter p = a :: l.filter fun x => p x && decide (x ≠ a) := by
  induction l with
  | nil => cases h
  | cons x l ih =>
    obtain ⟨hx, hn⟩ := List.nodup_cons.mp hn
    by_cases hp : p x = true
    · rw [List.find?_cons_of_pos hp] at h
      obtain rfl := Option.some.inj h
      rw [List.filter_cons_of_pos hp, List.filter_cons_of_neg (by simp)]
      congr 1
      refine List.filter_congr fun y hy => ?_
      have hyx : y ≠ x := fun he => hx (he ▸ hy)
      simp [hyx]
    · rw [List.find?_cons_of_neg hp] at h
      rw [List.filter_cons_of_neg hp, List.filter_cons_of_neg (by simp [hp])]
      exact ih hn h

theorem freeFds_of_none (h : k.fdalloc s f = none) : k.freeFds s = [] := by
  rw [Kernel.freeFds, List.filter_eq_nil_iff]
  simpa using fdalloc_none h

/-- The first `fdalloc` takes the first free descriptor, the second one the next. -/
theorem freeFds_of_some (h : k.fdalloc s f = some (fd, k')) :
    k.freeFds s = fd :: k'.freeFds s := by
  obtain ⟨hfree, hk'⟩ := fdalloc_eq h
  have hfd : (List.finRange NOFILE).find? (fun fd => (k.proc s).ofile fd = none) = some fd := by
    obtain ⟨fd', hfd, he⟩ := Option.map_eq_some_iff.mp h
    rw [← (Prod.mk.inj he).1]
    exact hfd
  rw [Kernel.freeFds, filter_of_find? (List.nodup_finRange _) hfd, Kernel.freeFds]
  congr 1
  refine List.filter_congr fun fd' _ => ?_
  rw [hk']
  by_cases hne : fd' = fd
  · have hs : s ∈ k.spreadTo s fd (some f) := subset_visit (Finset.mem_insert_self ..)
    rw [hne, setSpread_ofile, if_pos hs]
    simp
  · rw [setSpread_ofile_of_ne _ _ _ _ hne]
    simp [hne]

theorem Piped.freeFiles {pg : Page} (h : Piped ft ft' pm pm' rf wf pg) :
    ∃ fs, freeFiles ft = rf :: wf :: fs := by
  have hn := List.nodup_finRange NFILE
  have h1 := filter_of_find? hn h.first
  simp only [← Bool.decide_and] at h1
  rw [filter_of_find? hn h.second] at h1
  exact ⟨_, h1⟩

/-! ### `sys_pipe` -/

/-- A call that fails before a second process has been written undoes everything. -/
theorem pipeUndone_same (hr : refs k'.ftable = refs k.ftable) (hp : pm'.free = pm.free)
    (ht : ∀ t, (k'.proc t).ofile = (k.proc t).ofile) : PipeUndone k k' pm pm' s :=
  ⟨fun t _ => ht t, hr, fun pg => by rw [hp]⟩

theorem closePipe_ok (h : closeEnds k.ftable pm rf wf = .ok (ft', pm')) :
    closePipe k pm rf wf = .ok (k.setFtable ft', pm', none) := by
  unfold closePipe
  rw [h]
  rfl

/-- The second descriptor is missing: the spread of the first one stays. -/
theorem pipeUndone_iff {pg : Page} (hP : Piped k.ftable ft pm pm' rf wf pg)
    (hfds : k.freeFds s = [fd0]) {k1 k2 : Kernel} {pm2 : PipeMem}
    (hk1 : k1 = (k.setFtable ft).setSpread s fd0 (some rf)) (hfree : (k.proc s).ofile fd0 = none)
    (hk2 : k2.proc = (k1.setOfile s fd0 none).proc) (hr : refs k2.ftable = refs k.ftable)
    (hp : pm2.free = pm.free) : PipeUndone k k2 pm pm2 s ↔ ¬ PipeLeaks k s := by
  have hof : ∀ t, t ≠ s → ∀ fd, (k2.proc t).ofile fd =
      if fd = fd0 ∧ t ∈ k.spreadTo s fd0 (some rf) then some rf else (k.proc t).ofile fd := by
    intro t hts fd
    have hst := setSpread_ofile (k.setFtable ft) s t fd0 (some rf)
    have hne : fd ≠ fd0 → (((k.setFtable ft).setSpread s fd0 (some rf)).proc t).ofile fd = _ :=
      setSpread_ofile_of_ne (k.setFtable ft) s t (some rf)
    rw [hk2, setOfile_proc, if_neg hts, hk1]
    by_cases hfd : fd = fd0
    · rw [hfd, hst]
      simp only [true_and]
      rfl
    · rw [hne hfd, if_neg fun h => hfd h.1]
      rfl
  have hs : (k2.proc s).ofile = (k.proc s).ofile := by
    funext fd
    rw [hk2, setOfile_proc, if_pos rfl]
    by_cases hfd : fd = fd0
    · rw [hfd, hfree]
      exact Function.update_self _ _ _
    · have hne := setSpread_ofile_of_ne (k.setFtable ft) s s (some rf) hfd
      rw [← hk1] at hne
      exact (Function.update_of_ne hfd _ _).trans hne
  have hhead : (freeFiles k.ftable).head? = some rf := by
    obtain ⟨fs, hfs⟩ := hP.freeFiles
    rw [hfs, List.head?_cons]
  constructor
  · rintro ⟨ht, -, -⟩ ⟨fd, f, q, hfd, hf, hq, hne⟩
    obtain rfl : fd0 = fd := by simpa [hfds] using hfd
    obtain rfl : rf = f := Option.some.inj (hhead.symm.trans hf)
    have hqs : q ≠ s := by simpa using List.find?_some hq
    have hadj : q ∈ k.ofileshare.neighbours s := List.mem_of_find?_eq_some hq
    -- the first neighbour is the first one to be written
    have hin : q ∈ k.spreadTo s fd0 (some rf) := mem_visit_of_find? hq
    have heq := congrFun (ht q (.single (Or.inl hadj))) fd0
    rw [hof q hqs, if_pos ⟨rfl, hin⟩] at heq
    exact hne heq.symm
  · intro hno
    refine pipeUndone_same hr hp fun t => ?_
    by_cases hts : t = s
    · rw [hts, hs]
    funext fd
    rw [hof t hts]
    split_ifs with hc
    · obtain ⟨rfl, hin⟩ := hc
      have hself : k.spreadTo s fd (some rf) = k.having s fd (some rf) := by
        rw [spreadTo_eq_iff]
        intro q hq
        by_contra hne
        exact hno ⟨fd, rf, q, hfds, hhead, hq, hne⟩
      rw [hself, Kernel.having, Finset.mem_insert, Finset.mem_filter] at hin
      exact (hin.resolve_left hts).2.symm
    · rfl

/-- The second descriptor has been found as well. -/
theorem pipeInstalled_iff {pg : Page} (hP : Piped k.ftable ft pm pm' rf wf pg) {k1 k2 : Kernel}
    (hk1 : k1 = (k.setFtable ft).setSpread s fd0 (some rf))
    (hk2 : k2 = k1.setSpread s fd1 (some wf)) (hne : fd1 ≠ fd0) {fds : List Fd}
    (hfds : k.freeFds s = fd0 :: fd1 :: fds) :
    PipeInstalled k k2 s fd0 fd1 ↔ PipeReaches k s := by
  obtain ⟨fs, hfs⟩ := hP.freeFiles
  have h0 : ∀ t, (k2.proc t).ofile fd0 =
      if t ∈ k.spreadTo s fd0 (some rf) then some rf else (k.proc t).ofile fd0 := by
    intro t
    have hst := setSpread_ofile (k.setFtable ft) s t fd0 (some rf)
    rw [hk2, setSpread_ofile_of_ne _ _ _ _ hne.symm, hk1, hst]
    rfl
  have h1 : ∀ t, (k2.proc t).ofile fd1 =
      if t ∈ k.spreadTo s fd1 (some wf) then some wf else (k.proc t).ofile fd1 := by
    intro t
    have hold : ∀ t, (k1.proc t).ofile fd1 = (k.proc t).ofile fd1 := fun t => by
      have hst := setSpread_ofile_of_ne (k.setFtable ft) s t (some rf) hne
      rwa [← hk1] at hst
    have hto : k1.spreadTo s fd1 (some wf) = k.spreadTo s fd1 (some wf) := by
      unfold Kernel.spreadTo Kernel.having
      simp only [hold]
      rw [hk1, setSpread_ofileshare]
      rfl
    rw [hk2, setSpread_ofile, hto, hold]
  have hself : ∀ fd v, s ∈ k.spreadTo s fd v := fun fd v =>
    subset_visit (Finset.mem_insert_self ..)
  have hft : k2.ftable = ft := by
    rw [hk2, hk1]
    rfl
  constructor
  · rintro ⟨rf', wf', pg', -, -, hall⟩
    -- the caller's own table says which files these are
    obtain ⟨h0s, h1s⟩ := hall s .refl
    rw [h0, if_pos (hself _ _)] at h0s
    rw [h1, if_pos (hself _ _)] at h1s
    obtain rfl := Option.some.inj h0s
    obtain rfl := Option.some.inj h1s
    refine ⟨fd0, fd1, fds, rf, wf, fs, hfds, hfs, fun t ht => ?_⟩
    obtain ⟨ht0, ht1⟩ := hall t ht
    rw [h0] at ht0
    rw [h1] at ht1
    constructor
    · by_contra hno
      rw [if_neg hno] at ht0
      exact hno (subset_visit (Finset.mem_insert_of_mem (by simp [ht0])))
    · by_contra hno
      rw [if_neg hno] at ht1
      exact hno (subset_visit (Finset.mem_insert_of_mem (by simp [ht1])))
  · rintro ⟨fd0', fd1', fds', rf', wf', fs', hfds', hfs', hall⟩
    obtain ⟨rfl, rfl, -⟩ : fd0 = fd0' ∧ fd1 = fd1' ∧ fds = fds' := by simpa [hfds] using hfds'
    obtain ⟨rfl, rfl, -⟩ : rf = rf' ∧ wf = wf' ∧ fs = fs' := by simpa [hfs] using hfs'
    refine ⟨rf, wf, pg, by rw [hft]; exact hP.read, by rw [hft]; exact hP.write, fun t ht => ?_⟩
    obtain ⟨ht0, ht1⟩ := hall t ht
    rw [h0, h1, if_pos ht0, if_pos ht1]
    exact ⟨rfl, rfl⟩

/-- **`pipe` and the processes that share descriptors.** In a reachable state a call of `pipe`
returns.  If it fails, it has changed nothing for the processes that share with the caller, unless the
address was valid and the pipe could be made, the caller had one free descriptor, and its first
neighbour did not have the new file in that descriptor before: only the caller's own table is cleared
again.  If it succeeds, everybody has the two descriptors exactly when both walks reach everybody. -/
theorem pipe_sharing (h : session.Reachable σ) (pm : PipeMem) (s : Slot) (valid : Bool) :
    ∃ k' pm' r, sysPipeMem σ.k pm s valid = .ok (k', pm', r) ∧
      (r = none → (PipeUndone σ.k k' pm pm' s ↔
        ¬ (valid = true ∧ PipeFits σ.k pm.free.head? ∧ PipeLeaks σ.k s))) ∧
      ∀ fd0 fd1, r = some (fd0, fd1) → (PipeInstalled σ.k k' s fd0 fd1 ↔ PipeReaches σ.k s) := by
  have hC := Closed.of_reachable h
  unfold sysPipeMem
  cases valid with
  | false =>
    refine ⟨σ.k, pm, none, rfl, fun _ => ?_, nofun⟩
    exact iff_of_true (pipeUndone_same rfl rfl fun _ => rfl) fun hc => nomatch hc.1
  | true =>
    simp only [Bool.not_true, Bool.false_eq_true, if_false, true_and]
    rcases pipeallocMem_cases hC pm with ⟨hno, ft, ha, hr⟩ | ⟨hfits, ft, pm1, rf, wf, pg, ha, hP⟩
    · simp only [ha]
      refine ⟨_, _, _, rfl, fun _ => ?_, nofun⟩
      exact iff_of_true (pipeUndone_same hr rfl fun _ => rfl) fun hc => hno hc.1
    · obtain ⟨ft2, pm2, hclose, hr2, hp2⟩ := hP.close
      simp only [ha]
      cases hfd0 : (σ.k.setFtable ft).fdalloc s rf with
      | none =>
        -- no descriptor is free: both ends are closed again
        have hfds : σ.k.freeFds s = [] := freeFds_of_none (k := σ.k.setFtable ft) hfd0
        simp only [closePipe_ok (k := σ.k.setFtable ft) hclose]
        refine ⟨_, _, _, rfl, fun _ => ?_, nofun⟩
        refine iff_of_true (pipeUndone_same hr2 hp2 fun _ => rfl) ?_
        rintro ⟨-, fd, f, q, hfd, -⟩
        rw [hfds] at hfd
        cases hfd
      | some r =>
        obtain ⟨fd0, k1⟩ := r
        obtain ⟨hfree, hk1⟩ := fdalloc_eq hfd0
        have hfds : σ.k.freeFds s = fd0 :: k1.freeFds s :=
          freeFds_of_some (k := σ.k.setFtable ft) hfd0
        have hft1 : k1.ftable = ft := fdalloc_ftable hfd0
        simp only
        cases hfd1 : k1.fdalloc s wf with
        | none =>
          rw [← hft1] at hclose
          simp only [closePipe_ok (k := k1.setOfile s fd0 none) hclose]
          refine ⟨_, _, _, rfl, fun _ => ?_, nofun⟩
          rw [freeFds_of_none hfd1] at hfds
          have hk2 : ((k1.setOfile s fd0 none).setFtable ft2).proc =
              (k1.setOfile s fd0 none).proc := rfl
          -- the first descriptor was spread and is taken back from the caller only
          rw [pipeUndone_iff hP hfds hk1 hfree hk2 hr2 hp2]
          exact not_congr ⟨fun hL => ⟨hfits, hL⟩, fun hL => hL.2⟩
        | some r =>
          obtain ⟨fd1, k2⟩ := r
          obtain ⟨hfree1, hk2⟩ := fdalloc_eq hfd1
          -- the second search does not find the descriptor of the first
          have hne : fd1 ≠ fd0 := by
            rintro rfl
            have hs : s ∈ (σ.k.setFtable ft).spreadTo s fd1 (some rf) :=
              subset_visit (Finset.mem_insert_self ..)
            rw [hk1, setSpread_ofile, if_pos hs] at hfree1
            cases hfree1
          rw [freeFds_of_some hfd1] at hfds
          refine ⟨_, _, _, rfl, nofun, fun fd0' fd1' he => ?_⟩
          obtain ⟨rfl, rfl⟩ := Prod.mk.inj (Option.some.inj he)
          exact pipeInstalled_iff hP hk1 hk2 hne hfds

/-- A process opens a file, fills all descriptors but two and clones a thread that shares them; then
it makes a pipe, and the thread gets both ends. -/
theorem pipe_sharing_installed : ∃ σ : Session, session.Reachable σ ∧ σ.k.ofileshare.Sharers 0 1 ∧
    ∃ k' pm', sysPipeMem σ.k ⟨[5], fun _ => ⟨0, 0, false, false⟩⟩ 0 true =
      .ok (k', pm', some (14, 15)) ∧ PipeReaches σ.k 0 ∧ PipeInstalled σ.k k' 0 14 15 := by
  let as : List (Slot × Call) := (0, .open (some 7) 2) :: List.replicate 13 (0, .dup 0) ++
    (0, .clone 1) :: List.replicate 11 (0, .next ⟨some 1, true, 0, none⟩)
  have hrun : session.Ends (fun σ => (sysPipeMem σ.k ⟨[5], fun _ => ⟨0, 0, false, false⟩⟩ 0
      true).toOption.map (fun r => r.2.2) = some (some (14, 15)) ∧
      σ.k.freeFds 0 = [14, 15] ∧ (freeFiles σ.k.ftable).take 2 = [1, 2] ∧
      (1 ∈ σ.k.ofileshare.neighbours 0 ∧ ∀ p, ∀ q ∈ σ.k.ofileshare.neighbours p,
        p ∈ ({0, 1} : Finset Slot) ∧ q ∈ ({0, 1} : Finset Slot)) ∧
      ∀ t ∈ ({0, 1} : Finset Slot), t ∈ σ.k.spreadTo 0 14 (some 1) ∧ t ∈ σ.k.spreadTo 0 15 (some 2))
        session0 as := by
    decide +kernel
  obtain ⟨σ, hσ, hres, hfds, hfiles, ⟨h1, hclosed⟩, hspread⟩ := System.Reachable.of_ends as rfl hrun
  have hsharers : ∀ t, σ.k.ofileshare.Sharers 0 t → t ∈ ({0, 1} : Finset Slot) := by
    intro t ht
    induction ht with
    | refl => decide
    | tail _ hq _ => exact hq.elim (fun hq => (hclosed _ _ hq).2) fun hq => (hclosed _ _ hq).1
  have hreach : PipeReaches σ.k 0 := by
    refine ⟨14, 15, [], 1, 2, (freeFiles σ.k.ftable).drop 2, hfds, ?_, fun t ht =>
      hspread t (hsharers t ht)⟩
    rw [← List.take_append_drop 2 (freeFiles σ.k.ftable), hfiles]
    rfl
  obtain ⟨k', pm', r, hok, -, hinst⟩ := pipe_sharing hσ ⟨[5], fun _ => ⟨0, 0, false, false⟩⟩ 0 true
  rw [hok] at hres
  obtain rfl : r = some (14, 15) := Option.some.inj hres
  exact ⟨σ, hσ, .single (.inl h1), k', pm', hok, hreach, (hinst 14 15 rfl).mpr hreach⟩

/-- With one free descriptor the thread keeps the read end of a pipe that could not be made, and the
file it names is free. -/
theorem pipe_sharing_counterexample : ∃ σ : Session, session.Reachable σ ∧
    (σ.k.proc 0).state.Live ∧ (σ.k.proc 1).state.Live ∧ ∃ k' pm',
      sysPipeMem σ.k ⟨[5], fun _ => ⟨0, 0, false, false⟩⟩ 0 true = .ok (k', pm', none) ∧
      (k'.proc 1).ofile 15 = some 1 ∧ (k'.ftable 1).ref = 0 ∧
      ¬ PipeUndone σ.k k' ⟨[5], fun _ => ⟨0, 0, false, false⟩⟩ pm' 0 := by
  let as : List (Slot × Call) := (0, .open (some 7) 2) :: List.replicate 14 (0, .dup 0) ++
    (0, .clone 1) :: List.replicate 11 (0, .next ⟨some 1, true, 0, none⟩)
  have hrun : session.Ends (fun σ => (σ.k.proc 0).state.Live ∧ (σ.k.proc 1).state.Live ∧
      1 ∈ σ.k.ofileshare.neighbours 0 ∧ (σ.k.proc 1).ofile 15 = none ∧
      (sysPipeMem σ.k ⟨[5], fun _ => ⟨0, 0, false, false⟩⟩ 0 true).toOption.map
        (fun r => (r.2.2, (r.1.proc 1).ofile 15, (r.1.ftable 1).ref)) =
          some (none, some 1, 0)) session0 as := by
    decide +kernel
  obtain ⟨σ, hσ, h0, h1, hadj, hnone, hres⟩ := System.Reachable.of_ends as rfl hrun
  cases hp : sysPipeMem σ.k ⟨[5], fun _ => ⟨0, 0, false, false⟩⟩ 0 true with
  | error e =>
    rw [hp] at hres
    cases hres
  | ok r =>
    obtain ⟨k', pm', r⟩ := r
    rw [hp] at hres
    obtain ⟨hr, he⟩ := Prod.mk.inj (Option.some.inj hres)
    obtain ⟨hof, href⟩ := Prod.mk.inj he
    simp only at hr hof href
    subst hr
    refine ⟨σ, hσ, h0, h1, k', pm', hp, hof, href, fun hU => ?_⟩
    have ht := congrFun (hU.tables 1 (.single (Or.inl hadj))) 15
    rw [hof, hnone] at ht
    cases ht

end OsSemester.Xv6
