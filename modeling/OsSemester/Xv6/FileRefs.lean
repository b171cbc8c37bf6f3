import OsSemester.Lib.SharedTable
import OsSemester.Xv6.Sharing
import OsSemester.Xv6.Spec.Files

/-!
# File reference counts

`clone` with `CLONE_FILES` copies the descriptors of its caller without counting them, and `exit`
gives no references back when its caller shares.  So `ref` counts a descriptor once for all processes
that share it, as long as the share arrays say who shares with whom: `file_refs`.  Three things break
this: a second `clone` with `CLONE_FILES` by a process that shares already, `exec` by a process that
shares open descriptors, and a `pipe` that fails halfway in a process that shares.
-/

namespace OsSemester.Xv6

variable {σ σ' : Session} {π π' : Pairing Slot} {tab tab' : ℕ → Fd → Option FileId}
variable {s t np : Slot} {st : Stmt} {o : Oracle} {k k' : Kernel} {f : FileId} {fd : Fd}

/-! ### The condition -/

/-- The process `s` has one free descriptor. -/
def OneFree (k : Kernel) (s : Slot) : Prop :=
  ∃ fd, (k.proc s).ofile fd = none ∧ ∀ fd', (k.proc s).ofile fd' = none → fd' = fd

/-- There are two free file structures and a page for a pipe. -/
def PipeFits (k : Kernel) (page : Option Page) : Prop :=
  page ≠ none ∧ ∃ f g, f ≠ g ∧ refs k.ftable f = 0 ∧ refs k.ftable g = 0

instance (k : Kernel) (s : Slot) : Decidable (OneFree k s) := by
  unfold OneFree
  infer_instance

instance (k : Kernel) (page : Option Page) : Decidable (PipeFits k page) := by
  unfold PipeFits refs
  infer_instance

/-- A `clone` with `CLONE_FILES` finds a free entry in its caller's array; a caller that shares does
not call `exec` with open descriptors, nor `pipe` with one free descriptor when the pipe itself can
be made. -/
def Counted (σ : Session) (a : Slot × Call) : Prop :=
  match a, σ.busy with
  | (_, .next _), some (s, .cloneFiles, np) =>
    (σ.k.proc np).cloneFiles = true → ∃ i, (σ.k.proc s).ofileshare i = none
  | (s, .exec _), _ =>
    (∀ i, (σ.k.proc s).ofileshare i = none) ∨ ∀ fd, (σ.k.proc s).ofile fd = none
  | (s, .pipe page), _ =>
    (∀ i, (σ.k.proc s).ofileshare i = none) ∨ ¬ OneFree σ.k s ∨ ¬ PipeFits σ.k page
  | _, _ => True

instance (σ : Session) (a : Slot × Call) : Decidable (Counted σ a) := by
  unfold Counted
  split <;> infer_instance

/-! ### The property -/

/-- The sharing classes and descriptors that hold `f`. -/
def holders (σ : Session) (f : FileId) : Set (ℕ × Fd) :=
  {p | ∃ t, (σ.k.proc t).state.Live ∧ σ.cls t = p.1 ∧ (σ.k.proc t).ofile p.2 = some f}

/-- Every reference count is the number of classes and descriptors that hold the file. -/
def Conserved (σ : Session) : Prop := ∀ f, (σ.k.ftable f).ref = (holders σ f).ncard

/-! ### The invariant -/

namespace Session

/-- The slot holds a process that has not exited. -/
def Present (σ : Session) (t : Slot) : Prop :=
  (σ.k.proc t).state ≠ .unused ∧ (σ.k.proc t).state ≠ .zombie

/-- The descriptor tables. -/
def ofile (σ : Session) (t : Slot) : Fd → Option FileId := (σ.k.proc t).ofile

end Session

/-- The statements of `fork` and `clone` after the descriptors have been copied. -/
def Stmt.PastFiles : Stmt → Prop
  | .forkCwd | .forkRun | .cloneFs | .cloneRun => True
  | _ => False

/-- The arrays store a coupling, and the descriptor tables are copies of counted ones. -/
structure Filed (σ : Session) (π : Pairing Slot) (tab : ℕ → Fd → Option FileId) : Prop where
  represents : Represents σ.k.ofileshare π
  shared : Shared π σ.Present σ.ofile σ.cls σ.next (refs σ.k.ftable) tab

/-- The slot being created is an `EMBRYO`; what creations left behind is empty. -/
structure Making (σ : Session) : Prop where
  creator : ∀ {s st np}, σ.busy = some (s, st, np) →
    (σ.k.proc s).state.Live ∧ (σ.k.proc np).state = .embryo
  newborn : ∀ {s st np}, σ.busy = some (s, st, np) → ¬ st.PastFiles →
    (∀ i, (σ.k.proc np).ofileshare i = none) ∧ (σ.k.proc np).ofile = noEntry
  embryo : ∀ {t}, (σ.k.proc t).state = .embryo →
    ((∀ i, (σ.k.proc t).ofileshare i = none) ∧ (σ.k.proc t).ofile = noEntry) ∨
      ∃ s st, σ.busy = some (s, st, t)

theorem Session.present_of_live (h : (σ.k.proc t).state.Live) : σ.Present t := by
  constructor
  · intro he
    rw [he] at h
    exact not_live_unused h
  · intro he
    rw [he] at h
    exact not_live_zombie h

namespace Making

theorem ne (hM : Making σ) (h : σ.busy = some (s, st, np)) : s ≠ np := by
  rintro rfl
  obtain ⟨hl, he⟩ := hM.creator h
  rw [he] at hl
  exact not_live_embryo hl

/-- A call leaves the embryos alone. -/
theorem rest (hM : Making σ) (hb : σ.busy = none) (hb' : σ'.busy = none)
    (h : ∀ {t}, (σ'.k.proc t).state = .embryo → (σ.k.proc t).state = .embryo ∧
      ((∀ i, (σ.k.proc t).ofileshare i = none) →
        ∀ i, (σ'.k.proc t).ofileshare i = none) ∧
      ((∀ i, (σ.k.proc t).ofileshare i = none) → (σ'.k.proc t).ofile = (σ.k.proc t).ofile)) :
    Making σ' := by
  refine ⟨fun he => ?_, fun he => ?_, fun {t} ht => ?_⟩
  · rw [hb'] at he
    cases he
  · rw [hb'] at he
    cases he
  · obtain ⟨h1, h2, h3⟩ := h ht
    rcases hM.embryo h1 with ⟨h4, h5⟩ | ⟨_, _, he⟩
    · exact Or.inl ⟨h2 h4, by rw [h3 h4, h5]⟩
    · rw [hb] at he
      cases he

end Making

namespace Filed

theorem partner_none (hF : Filed σ π tab) (h : ∃ i, (σ.k.proc t).ofileshare i = none) :
    π.partner t = none := by
  obtain ⟨i, hi⟩ := h
  exact (hF.represents t i).symm.trans hi

theorem array_none (hF : Filed σ π tab) (h : π.partner t = none) (i : Fin NPROC) :
    (σ.k.proc t).ofileshare i = none :=
  (hF.represents t i).trans h

/-- A step that leaves descriptors, arrays and counts alone. -/
theorem frame (hF : Filed σ π tab) (hg : σ'.k.ofileshare = σ.k.ofileshare)
    (ho : ∀ t, (σ'.k.proc t).ofile = (σ.k.proc t).ofile)
    (hr : refs σ'.k.ftable = refs σ.k.ftable) (hc : σ'.cls = σ.cls) (hn : σ'.next = σ.next)
    (hp : ∀ t, σ'.Present t ↔ σ.Present t) : Filed σ' π tab := by
  have hP : σ'.Present = σ.Present := funext fun t => propext (hp t)
  have hO : σ'.ofile = σ.ofile := funext ho
  refine ⟨by rw [hg]; exact hF.represents, ?_⟩
  rw [hP, hO, hc, hn, hr]
  exact hF.shared

end Filed

/-! ### The statements of `fork` and `clone` -/

/-- Only two statements touch descriptors and files. -/
theorem exec_files {nx : Option Stmt} (h : st.exec k s np o = .ok (k', nx))
    (h1 : st ≠ .forkOfile) (h2 : st ≠ .cloneFiles) :
    k'.ftable = k.ftable ∧ ∀ t, (k'.proc t).ofile = (k.proc t).ofile := by
  have hupd : ∀ {k' : Kernel} {q : Slot} {pr : Proc}, k'.ftable = k.ftable →
      k'.proc = Function.update k.proc q pr → pr.ofile = (k.proc q).ofile →
      k'.ftable = k.ftable ∧ ∀ t, (k'.proc t).ofile = (k.proc t).ofile := by
    intro k' q pr hft hp ho
    refine ⟨hft, fun t => ?_⟩
    rw [hp, Function.update_apply]
    split_ifs with hq
    · rw [hq, ho]
    · rfl
  have habandon : (abandon k np).ftable = k.ftable ∧
      ∀ t, ((abandon k np).proc t).ofile = (k.proc t).ofile := by
    refine ⟨rfl, fun t => ?_⟩
    rw [abandon_proc]
    split_ifs with ht
    · rw [ht]
      rfl
    · rfl
  cases st with
  | cloneFiles => exact absurd rfl h2
  | forkOfile => exact absurd rfl h1
  | kstack fl =>
    simp only [Stmt.exec] at h
    split at h
    · obtain ⟨rfl, -⟩ := Prod.mk.inj (Except.ok.inj h)
      exact hupd rfl rfl rfl
    · split at h
      · cases h
      · obtain ⟨rfl, -⟩ := Prod.mk.inj (Except.ok.inj h)
        exact hupd rfl rfl rfl
  | forkCopyuvm =>
    simp only [Stmt.exec] at h
    split at h <;> obtain ⟨rfl, -⟩ := Prod.mk.inj (Except.ok.inj h)
    · exact hupd rfl rfl rfl
    · exact habandon
  | clonePgdir =>
    simp only [Stmt.exec] at h
    split at h
    · obtain ⟨rfl, -⟩ := Prod.mk.inj (Except.ok.inj h)
      exact hupd rfl rfl rfl
    · split at h <;> obtain ⟨rfl, -⟩ := Prod.mk.inj (Except.ok.inj h)
      · exact hupd rfl rfl rfl
      · exact habandon
  | cloneFs =>
    simp only [Stmt.exec] at h
    obtain ⟨rfl, -⟩ := Prod.mk.inj (Except.ok.inj h)
    unfold cloneCwd
    refine ⟨by split_ifs <;> rfl, fun t => ?_⟩
    rw [Kernel.modify_proc]
    split_ifs with ht <;> simp [ht, Kernel.setCwdshare]
  | cloneCopyout =>
    simp only [Stmt.exec] at h
    obtain ⟨rfl, -⟩ := Prod.mk.inj (Except.ok.inj h)
    exact ⟨rfl, fun _ => rfl⟩
  | _ =>
    simp only [Stmt.exec] at h
    obtain ⟨rfl, -⟩ := Prod.mk.inj (Except.ok.inj h)
    exact hupd rfl rfl rfl

/-- The slot in creation after a statement: still an `EMBRYO`, published, or freed. -/
theorem exec_np {nx : Option Stmt} (h : st.exec k s np o = .ok (k', nx))
    (he : (k.proc np).state = .embryo) :
    ((k'.proc np).state = .embryo ∧ (nx = none → st = .cloneCopyout)) ∨
      (nx = none ∧ st.Publishes ∧ (k'.proc np).state = .runnable) ∨
      (nx = none ∧ ¬ st.PastFiles ∧ (k'.proc np).state = .unused) := by
  have hst := exec_state h
  split_ifs at hst with h1 h2
  · exact Or.inr (Or.inl ⟨h1.1, h2, hst⟩)
  · refine Or.inr (Or.inr ⟨h1.1, ?_, hst⟩)
    obtain ⟨rfl, hne⟩ := h1
    cases st <;> simp_all [Stmt.PastFiles, Stmt.Publishes, Stmt.exec]
  · refine Or.inl ⟨hst.trans he, fun hn => ?_⟩
    by_contra hc
    exact h1 ⟨hn, hc⟩

theorem succ_pastFiles (hpub : ¬ st.Publishes) :
    st.succ.PastFiles ↔ st.PastFiles ∨ st = .forkOfile ∨ st = .cloneFiles := by
  cases st with
  | kstack fl => cases fl <;> simp [Stmt.succ, Stmt.PastFiles]
  | _ => simp_all [Stmt.succ, Stmt.PastFiles, Stmt.Publishes]

/-- The session after a statement. -/
def Session.afterStmt (σ : Session) (s np : Slot) (st : Stmt) (k : Kernel) (nx : Option Stmt) :
    Session :=
  { σ with k := k, cls := σ.enter s np st, busy := nx.map fun st' => (s, st', np) }

theorem Making.stmt {nx : Option Stmt} (hM : Making σ) (hb : σ.busy = some (s, st, np))
    (h : st.exec σ.k s np o = .ok (k, nx)) : Making (σ.afterStmt s np st k nx) := by
  obtain ⟨hlive, hemb⟩ := hM.creator hb
  have hne := hM.ne hb
  have hnp := exec_np h hemb
  have hother : ∀ {t}, t ≠ np → (k.proc t).state = (σ.k.proc t).state := fun ht =>
    exec_state_of_ne h ht
  -- before the descriptors are copied, the new slot has none
  have hempty : ¬ st.PastFiles → st ≠ .forkOfile → st ≠ .cloneFiles →
      (∀ i, (k.proc np).ofileshare i = none) ∧ (k.proc np).ofile = noEntry := by
    intro h1 h2 h3
    obtain ⟨h4, h5⟩ := hM.newborn hb h1
    have hg := exec_graph .files h
    rw [if_neg fun hc => h3 hc.1] at hg
    refine ⟨fun i => ?_, by rw [(exec_files h h2 h3).2, h5]⟩
    exact (congrFun (congrFun hg np) i).trans (h4 i)
  refine ⟨fun {s' st' np'} he => ?_, fun {s' st' np'} he hst => ?_, fun {t} ht => ?_⟩
  · cases nx with
    | none => cases he
    | some st'' =>
      obtain ⟨rfl, rfl, rfl⟩ : s = s' ∧ st'' = st' ∧ np = np' := by
        simpa [Session.afterStmt] using he
      refine ⟨by rw [Session.afterStmt, hother hne]; exact hlive, ?_⟩
      rcases hnp with ⟨h1, -⟩ | ⟨h1, -⟩ | ⟨h1, -⟩
      · exact h1
      · cases h1
      · cases h1
  · cases nx with
    | none => cases he
    | some st'' =>
      obtain ⟨rfl, rfl, rfl⟩ : s = s' ∧ st'' = st' ∧ np = np' := by
        simpa [Session.afterStmt] using he
      obtain ⟨rfl, hpub⟩ := exec_next h
      have hsucc := succ_pastFiles hpub
      exact hempty (fun h => hst (hsucc.mpr (Or.inl h)))
        (fun h => hst (hsucc.mpr (Or.inr (Or.inl h))))
        (fun h => hst (hsucc.mpr (Or.inr (Or.inr h))))
  · by_cases htn : t = np
    · subst htn
      rcases hnp with ⟨-, h1⟩ | ⟨-, -, h1⟩ | ⟨-, -, h1⟩
      · cases nx with
        | none =>
          obtain rfl := h1 rfl
          exact Or.inl (hempty id nofun nofun)
        | some st'' => exact Or.inr ⟨s, st'', rfl⟩
      · rw [show ((σ.afterStmt s t st k nx).k.proc t).state = _ from h1] at ht
        cases ht
      · rw [show ((σ.afterStmt s t st k nx).k.proc t).state = _ from h1] at ht
        cases ht
    · have he : (σ.k.proc t).state = .embryo := (hother htn).symm.trans ht
      have hts : t ≠ s := by
        rintro rfl
        rw [he] at hlive
        exact not_live_embryo hlive
      obtain ⟨-, -, -, hp⟩ := exec_proc_of_ne h htn
      rcases hM.embryo he with h1 | ⟨s', st', hb'⟩
      · refine Or.inl ?_
        rw [show (σ.afterStmt s np st k nx).k.proc t = _ from hp hts]
        exact h1
      · rw [hb] at hb'
        cases hb'
        exact absurd rfl htn

/-- A statement that copies no descriptors. -/
theorem Filed.stmt_rest {nx : Option Stmt} (hF : Filed σ π tab) (hM : Making σ)
    (hb : σ.busy = some (s, st, np)) (h : st.exec σ.k s np o = .ok (k, nx))
    (h1 : st ≠ .forkOfile) (h2 : st ≠ .cloneFiles) :
    Filed (σ.afterStmt s np st k nx) π tab := by
  obtain ⟨hft, ho⟩ := exec_files h h1 h2
  obtain ⟨-, hemb⟩ := hM.creator hb
  have hg := exec_graph .files h
  rw [if_neg fun hc => h2 hc.1] at hg
  have hcls : σ.enter s np st = σ.cls := if_neg fun hc => h2 hc.1
  have hother : ∀ {t}, t ≠ np → (k.proc t).state = (σ.k.proc t).state := fun ht =>
    exec_state_of_ne h ht
  have hpres : ∀ {t}, t ≠ np → ((σ.afterStmt s np st k nx).Present t ↔ σ.Present t) := by
    intro t ht
    unfold Session.Present Session.afterStmt
    rw [hother ht]
  by_cases hu : (k.proc np).state = .unused
  · -- the creation failed before the new slot had descriptors
    have hpast : ¬ st.PastFiles := by
      rcases exec_np h hemb with ⟨h3, -⟩ | ⟨-, -, h3⟩ | ⟨-, h3, -⟩
      · rw [h3] at hu
        cases hu
      · rw [h3] at hu
        cases hu
      · exact h3
    obtain ⟨ha, hn⟩ := hM.newborn hb hpast
    have hr := hF.shared.retire (hF.partner_none ⟨0, ha 0⟩) hn
    refine ⟨by rw [show (σ.afterStmt s np st k nx).k.ofileshare = _ from hg]; exact hF.represents, ?_⟩
    have hP : (σ.afterStmt s np st k nx).Present = fun t => σ.Present t ∧ t ≠ np := by
      funext t
      refine propext ?_
      by_cases htn : t = np
      · subst htn
        exact iff_of_false (fun hp => hp.1 hu) fun hp => hp.2 rfl
      · rw [hpres htn]
        simp [htn]
    have hO : (σ.afterStmt s np st k nx).ofile = σ.ofile := funext ho
    rw [hP, hO]
    simp only [Session.afterStmt, hcls, hft]
    exact hr
  · refine hF.frame hg ho (by rw [show (σ.afterStmt s np st k nx).k.ftable = _ from hft]) hcls rfl
      fun t => ?_
    by_cases htn : t = np
    · subst htn
      refine iff_of_true ⟨hu, fun hz => ?_⟩ (by unfold Session.Present; rw [hemb]; decide)
      have hz : (k.proc t).state = .zombie := hz
      rcases exec_np h hemb with ⟨h3, -⟩ | ⟨-, -, h3⟩ | ⟨-, -, h3⟩ <;> rw [h3] at hz <;> cases hz
    · exact hpres htn

/-- The new slot receives counted copies of the caller's descriptors. -/
theorem Filed.dup (hF : Filed σ π tab) (hs : σ.Present s) (hnp : σ.Present np)
    (hp : π.partner np = none) (hn : (σ.k.proc np).ofile = noEntry) : ∃ ft,
      dupOfile σ.k s np = .ok { σ.k.modify np (fun p => { p with ofile := (σ.k.proc s).ofile }) with
        ftable := ft } ∧
      Shared π σ.Present (Function.update σ.ofile np (σ.k.proc s).ofile) σ.cls σ.next (refs ft)
        (Function.update tab (σ.cls np) (σ.k.proc s).ofile) := by
  have hfree : ∀ fd ∈ List.finRange NOFILE, tab (σ.cls np) fd = none := by
    intro fd _
    rw [hF.shared.entry hnp]
    exact congrFun hn fd
  have hsrc : ∀ fd f, (σ.k.proc s).ofile fd = some f →
      ∃ κ : ℕ × Fd, tab κ.1 κ.2 = some f := fun fd f h =>
    ⟨(σ.cls s, fd), (hF.shared.entry hs fd).trans h⟩
  obtain ⟨ft, h1, h2⟩ := dupFiles_counts hF.shared.counts (List.nodup_finRange NOFILE) hfree hsrc
  have hcopy : (fun fd => if fd ∈ List.finRange NOFILE ∧ ((σ.k.proc s).ofile fd).isSome then
      (σ.k.proc s).ofile fd else (σ.k.proc np).ofile fd) = (σ.k.proc s).ofile := by
    funext fd
    rw [hn]
    cases (σ.k.proc s).ofile fd with
    | none => simp [noEntry]
    | some f => rw [if_pos ⟨List.mem_finRange fd, rfl⟩]
  rw [hcopy] at h1
  refine ⟨ft, ?_, hF.shared.fill hnp hp _ ?_⟩
  · unfold dupOfile
    rw [h1]
  · simpa only [List.mem_finRange, and_true] using h2

/-- The session in which `np` has the descriptors of `s` and `ft` is the file table. -/
theorem Filed.dup_session (hF : Filed σ π tab) {ft : FTable} {l : Option (Slot × Stmt × Slot)}
    (hS : Shared π σ.Present (Function.update σ.ofile np (σ.k.proc s).ofile) σ.cls σ.next (refs ft)
      (Function.update tab (σ.cls np) (σ.k.proc s).ofile)) :
    Filed { σ with
        k := { σ.k.modify np (fun p => { p with ofile := (σ.k.proc s).ofile }) with ftable := ft }
        busy := l } π (Function.update tab (σ.cls np) (σ.k.proc s).ofile) := by
  have hproc : ∀ t, (σ.k.modify np (fun p => { p with ofile := (σ.k.proc s).ofile })).proc t =
      if t = np then { σ.k.proc np with ofile := (σ.k.proc s).ofile } else σ.k.proc t :=
    fun t => Kernel.modify_proc _ _ _ t
  refine ⟨fun t i => ?_, ?_⟩
  · rw [← hF.represents t i]
    simp only [Kernel.ofileshare, hproc]
    split_ifs with h <;> simp [h]
  · convert hS using 1
    · funext t
      unfold Session.Present
      simp only [hproc]
      split_ifs with h <;> simp [h]
    · funext t
      unfold Session.ofile
      simp only [hproc, Function.update_apply]
      split_ifs <;> rfl

theorem Filed.stmt (hF : Filed σ π tab) (hM : Making σ) (hb : σ.busy = some (s, st, np))
    (hok : Counted σ (t, .next o)) {nx : Option Stmt} (h : st.exec σ.k s np o = .ok (k, nx)) :
    ∃ π' tab', Filed (σ.afterStmt s np st k nx) π' tab' := by
  obtain ⟨hlive, hemb⟩ := hM.creator hb
  have hs := Session.present_of_live hlive
  have hnp : σ.Present np := by
    unfold Session.Present
    rw [hemb]
    decide
  -- the descriptors are copied, and each copy counts
  by_cases h1 : st = .forkOfile ∨ st = .cloneFiles ∧ (σ.k.proc np).cloneFiles = false
  · have hpast : ¬ st.PastFiles := by rcases h1 with rfl | ⟨rfl, -⟩ <;> exact id
    obtain ⟨ha, hn⟩ := hM.newborn hb hpast
    obtain ⟨ft, hd, hS⟩ := hF.dup hs hnp (hF.partner_none ⟨0, ha 0⟩) hn
    have hcls : σ.enter s np st = σ.cls := by
      refine if_neg fun hc => ?_
      rcases h1 with rfl | ⟨-, hfl⟩
      · cases hc.1
      · rw [hfl] at hc
        cases hc.2
    have hk : k = { σ.k.modify np (fun p => { p with ofile := (σ.k.proc s).ofile }) with
        ftable := ft } := by
      rcases h1 with rfl | ⟨rfl, hfl⟩ <;> simp only [Stmt.exec] at h
      · rw [hd] at h
        exact (Prod.mk.inj (Except.ok.inj h)).1.symm
      · unfold cloneOfile at h
        rw [hfl, if_neg Bool.false_ne_true, hd] at h
        exact (Prod.mk.inj (Except.ok.inj h)).1.symm
    refine ⟨π, Function.update tab (σ.cls np) (σ.k.proc s).ofile, ?_⟩
    unfold Session.afterStmt
    rw [hcls, hk]
    exact hF.dup_session hS
  -- the new process shares the table of the caller: no count changes
  · by_cases h2 : st = .cloneFiles
    · subst h2
      have hfl : (σ.k.proc np).cloneFiles = true := by
        simpa using fun hf => h1 (Or.inr ⟨rfl, hf⟩)
      obtain ⟨ha, hn⟩ := hM.newborn hb id
      have hok : ∃ i, (σ.k.proc s).ofileshare i = none := by
        simp only [Counted, hb] at hok
        exact hok hfl
      have hps := hF.partner_none hok
      have hpn := hF.partner_none ⟨0, ha 0⟩
      have hne := hM.ne hb
      have hS := hF.shared.couple hs hnp hne hps hpn hn
      have hcls : σ.enter s np .cloneFiles = Function.update σ.cls np (σ.cls s) :=
        if_pos ⟨rfl, hfl⟩
      have hk : k = (σ.k.setOfileshare (σ.k.ofileshare.fill s np)).modify np fun p =>
          { p with ofile := copyFiles (σ.k.proc s).ofile p.ofile } := by
        simp only [Stmt.exec, cloneOfile, if_pos hfl] at h
        exact (Prod.mk.inj (Except.ok.inj h)).1.symm
      have hproc : ∀ q, (k.proc q).state = (σ.k.proc q).state ∧
          (k.proc q).ofileshare = σ.k.ofileshare.fill s np q ∧
          (k.proc q).ofile = Function.update σ.ofile np (σ.k.proc s).ofile q := by
        intro q
        rw [hk, Kernel.modify_proc, Function.update_apply]
        split_ifs with hq
        · subst hq
          refine ⟨rfl, rfl, ?_⟩
          funext fd
          simp only [copyFiles, Kernel.setOfileshare, Kernel.mapProc_proc, hn]
          cases (σ.k.proc s).ofile fd <;> rfl
        · exact ⟨rfl, rfl, rfl⟩
      have hg : k.ofileshare = σ.k.ofileshare.fill s np := funext fun q => (hproc q).2.1
      refine ⟨π.join s np hne hps hpn, tab, ?_, ?_⟩
      · rw [show (σ.afterStmt s np .cloneFiles k nx).k.ofileshare = _ from hg]
        exact hF.represents.fill hne hps hpn
      · unfold Session.afterStmt
        rw [hcls]
        convert hS using 1
        · funext q
          unfold Session.Present
          simp only [(hproc q).1]
        · exact funext fun q => (hproc q).2.2
        · simp only [hk]
          rfl
    · exact ⟨π, tab, hF.stmt_rest hM hb h (fun hf => h1 (Or.inl hf)) h2⟩

/-- Copying descriptors never finds an unreferenced file. -/
theorem Filed.stmt_error (hF : Filed σ π tab) (hM : Making σ) (hb : σ.busy = some (s, st, np))
    {e : Halt} (h : st.exec σ.k s np o = .error e) : e = .disabled := by
  obtain ⟨hlive, hemb⟩ := hM.creator hb
  have hs := Session.present_of_live hlive
  have hnp : σ.Present np := by
    unfold Session.Present
    rw [hemb]
    decide
  have hdup : ¬ st.PastFiles → ∃ k, dupOfile σ.k s np = .ok k := by
    intro hpast
    obtain ⟨ha, hn⟩ := hM.newborn hb hpast
    obtain ⟨ft, hd, -⟩ := hF.dup hs hnp (hF.partner_none ⟨0, ha 0⟩) hn
    exact ⟨_, hd⟩
  cases st with
  | forkOfile =>
    obtain ⟨k, hd⟩ := hdup id
    simp only [Stmt.exec, hd] at h
    cases h
  | cloneFiles =>
    obtain ⟨k, hd⟩ := hdup id
    simp only [Stmt.exec, cloneOfile, hd] at h
    split_ifs at h
  | kstack fl =>
    simp only [Stmt.exec] at h
    split at h
    · cases h
    · split at h
      · exact (Except.error.inj h).symm
      · cases h
  | forkCopyuvm =>
    simp only [Stmt.exec] at h
    split at h <;> cases h
  | clonePgdir =>
    simp only [Stmt.exec] at h
    split at h
    · cases h
    · split at h <;> cases h
  | _ =>
    simp only [Stmt.exec] at h
    cases h

/-! ### The descriptor calls -/

/-- The session in which descriptor `fd` of `s` and of its partner is `v`. -/
def Session.write (σ : Session) (π : Pairing Slot) (s : Slot) (fd : Fd) (v : Option FileId)
    (ft : FTable) : Session :=
  σ.setK ((σ.k.setShared π s fd v).setFtable ft)

theorem Session.write_ofile (σ : Session) (π : Pairing Slot) (s : Slot) (fd : Fd)
    (v : Option FileId) (ft : FTable) : (σ.write π s fd v ft).ofile =
      fun t => if t = s ∨ π.partner s = some t then Function.update (σ.ofile t) fd v
        else σ.ofile t := by
  funext t
  unfold Session.write Session.ofile
  simp only [Session.setK, Kernel.setFtable, setShared_proc]
  split_ifs <;> rfl

theorem Session.write_same (σ : Session) (π : Pairing Slot) (s t : Slot) (fd : Fd)
    (v : Option FileId) (ft : FTable) :
    ((σ.write π s fd v ft).k.proc t).state = (σ.k.proc t).state ∧
      ((σ.write π s fd v ft).k.proc t).ofileshare = (σ.k.proc t).ofileshare := by
  unfold Session.write
  simp only [Session.setK, Kernel.setFtable, setShared_proc]
  split_ifs <;> exact ⟨rfl, rfl⟩

theorem Filed.of_write (hF : Filed σ π tab) {v : Option FileId} {ft : FTable}
    (hS : Shared π σ.Present
      (fun t => if t = s ∨ π.partner s = some t then Function.update (σ.ofile t) fd v
        else σ.ofile t) σ.cls σ.next (refs ft) tab') : Filed (σ.write π s fd v ft) π tab' := by
  have hsame := fun t => σ.write_same π s t fd v ft
  refine ⟨fun t i => ?_, ?_⟩
  · rw [← hF.represents t i]
    exact congrFun (hsame t).2 i
  · have hP : (σ.write π s fd v ft).Present = σ.Present := by
      funext t
      unfold Session.Present
      rw [(hsame t).1]
    rw [hP, σ.write_ofile π s fd v ft]
    exact hS

/-- A reference to `f` moves into a free descriptor. -/
theorem Filed.put (hF : Filed σ π tab) (hs : σ.Present s) (hfd : (σ.k.proc s).ofile fd = none)
    {ft : FTable}
    (hr : refs ft = Function.update (refs σ.k.ftable) f (refs σ.k.ftable f + 1)) :
    ∃ tab', Filed (σ.write π s fd (some f) ft) π tab' := by
  have hS := hF.shared.write_add (f := f) hs hfd
  rw [← hr] at hS
  exact ⟨_, hF.of_write hS⟩

/-- A descriptor gives its reference to `f` up. -/
theorem Filed.take (hF : Filed σ π tab) (hs : σ.Present s)
    (hfd : (σ.k.proc s).ofile fd = some f) {ft : FTable}
    (hr : refs ft = Function.update (refs σ.k.ftable) f (refs σ.k.ftable f - 1)) :
    ∃ tab', Filed (σ.write π s fd none ft) π tab' := by
  have hS := hF.shared.write_drop hs hfd
  rw [← hr] at hS
  exact ⟨_, hF.of_write hS⟩

theorem Making.write (hM : Making σ) (hb : σ.busy = none) (hF : Filed σ π tab)
    (hs : (σ.k.proc s).state.Live) {v : Option FileId} {ft : FTable} :
    Making (σ.write π s fd v ft) := by
  have hsame := fun t => σ.write_same π s t fd v ft
  refine hM.rest hb hb fun {t} ht => ?_
  rw [(hsame t).1] at ht
  refine ⟨ht, fun h i => by rw [(hsame t).2, h i], fun h => ?_⟩
  refine (congrFun (σ.write_ofile π s fd v ft) t).trans (if_neg ?_)
  rintro (rfl | hp)
  · rw [ht] at hs
    exact not_live_embryo hs
  · have h0 := (hF.represents t 0).symm.trans (h 0)
    rw [π.symm hp] at h0
    cases h0

/-- The invariant for some coupling and tables. -/
def Sharp (σ : Session) : Prop := Making σ ∧ ∃ π tab, Filed σ π tab

/-- A step that ends in an invariant state, or fails for another reason than a missing reference. -/
def Fine (r : Except Halt Session) : Prop :=
  match r with
  | .ok σ => Sharp σ
  | .error e => e ≠ .panic "filedup" ∧ e ≠ .panic "fileclose"

/-- Only the file table changes, and no reference count. -/
theorem Filed.setFtable (hF : Filed σ π tab) {ft : FTable} (hr : refs ft = refs σ.k.ftable) :
    Filed (σ.setK (σ.k.setFtable ft)) π tab :=
  hF.frame rfl (fun _ => rfl) hr rfl rfl fun _ => Iff.rfl

theorem Making.setFtable (hM : Making σ) (hb : σ.busy = none) (ft : FTable) :
    Making (σ.setK (σ.k.setFtable ft)) :=
  hM.rest hb hb fun ht => ⟨ht, fun h => h, fun _ => rfl⟩

theorem fine_open (hF : Filed σ π tab) (hM : Making σ) (hb : σ.busy = none)
    (hs : (σ.k.proc s).state.Live) (ip : Option Inode) (omode : ℕ) :
    Fine ((sysOpen σ.k s ip omode).map fun r => σ.setK r.1) := by
  have hsame : Sharp (σ.setK σ.k) := ⟨hM, π, tab, hF⟩
  cases ip with
  | none => exact hsame
  | some ip =>
    unfold sysOpen
    cases ha : filealloc σ.k.ftable with
    | none => exact hsame
    | some r =>
      obtain ⟨f, ft⟩ := r
      obtain ⟨h0, hr⟩ := filealloc_some ha
      simp only
      cases hfd : (σ.k.setFtable ft).fdalloc s f with
      | none =>
        obtain ⟨ft', ff, hc, hr'⟩ := fileclose_fresh h0 hr
        simp only [hc]
        exact ⟨hM.setFtable hb ft', π, tab, hF.setFtable hr'⟩
      | some r =>
        obtain ⟨fd, k'⟩ := r
        have hrep : Represents (σ.k.setFtable ft).ofileshare π := hF.represents
        obtain ⟨hfree, rfl⟩ := fdalloc_some hrep hfd
        have hr' : refs (Function.update ft f ((ft f).openInode ip omode)) =
            Function.update (refs σ.k.ftable) f (refs σ.k.ftable f + 1) := by
          have hsame : refs (Function.update ft f ((ft f).openInode ip omode)) = refs ft :=
            refs_update_same ft f rfl
          rw [hsame, hr, h0]
          rfl
        obtain ⟨tab', hF'⟩ := hF.put (Session.present_of_live hs) hfree hr'
        exact ⟨hM.write hb hF hs, π, tab', hF'⟩

theorem fine_dup (hF : Filed σ π tab) (hM : Making σ) (hb : σ.busy = none)
    (hs : (σ.k.proc s).state.Live) (n : ℤ) :
    Fine ((sysDup σ.k s n).map fun r => σ.setK r.1) := by
  have hsame : Sharp (σ.setK σ.k) := ⟨hM, π, tab, hF⟩
  have hP := Session.present_of_live hs
  unfold sysDup
  cases ha : argfd σ.k s n with
  | none => exact hsame
  | some r =>
    obtain ⟨i, f⟩ := r
    have hi := argfd_some ha
    simp only
    cases hfd : σ.k.fdalloc s f with
    | none => exact hsame
    | some r =>
      obtain ⟨fd, k'⟩ := r
      obtain ⟨hfree, rfl⟩ := fdalloc_some hF.represents hfd
      have hpos : 0 < refs σ.k.ftable f := hF.shared.pos hP hi
      have hd : filedup (σ.k.setShared π s fd (some f)).ftable f = _ := filedup_of_pos hpos
      simp only [hd]
      have hr : refs (Function.update σ.k.ftable f
          { σ.k.ftable f with ref := (σ.k.ftable f).ref + 1 }) = _ := refs_update _ _ _
      obtain ⟨tab', hF'⟩ := hF.put hP hfree hr
      exact ⟨hM.write hb hF hs, π, tab', hF'⟩

theorem fine_close (hF : Filed σ π tab) (hM : Making σ) (hb : σ.busy = none)
    (hs : (σ.k.proc s).state.Live) (n : ℤ) : Fine ((sysClose σ.k s n).map σ.setK) := by
  have hP := Session.present_of_live hs
  unfold sysClose
  cases ha : argfd σ.k s n with
  | none => exact ⟨hM, π, tab, hF⟩
  | some r =>
    obtain ⟨i, f⟩ := r
    have hi := argfd_some ha
    obtain ⟨ft, ff, hc, hr⟩ := fileclose_of_pos (hF.shared.pos hP hi)
    simp only [hc]
    obtain ⟨tab', hF'⟩ := hF.take hP hi hr
    have hk : ((σ.k.setOfile s i none).setFtable ft).ofileshareclose s i =
        (σ.k.setShared π s i none).setFtable ft :=
      congrArg (fun k : Kernel => k.setFtable ft) (setOfileAt_spread (v := none) hF.represents)
    rw [hk]
    exact ⟨hM.write hb hF hs, π, tab', hF'⟩

/-- `pipealloc` takes two unreferenced files, or nothing. -/
theorem pipealloc_fine (ft : FTable) (page : Option Page) :
    (∃ ft', pipealloc ft page = .ok (ft', none) ∧ refs ft' = refs ft) ∨
    ∃ ft' rf wf, pipealloc ft page = .ok (ft', some (rf, wf)) ∧ page ≠ none ∧ rf ≠ wf ∧
      refs ft rf = 0 ∧ refs ft wf = 0 ∧
      refs ft' = Function.update (Function.update (refs ft) rf 1) wf 1 := by
  unfold pipealloc
  cases h0 : filealloc ft with
  | none => exact Or.inl ⟨ft, rfl, rfl⟩
  | some r =>
    obtain ⟨f0, ft0⟩ := r
    obtain ⟨hf0, hr0⟩ := filealloc_some h0
    simp only
    cases h1 : filealloc ft0 with
    | none =>
      obtain ⟨ft', ff, hc, hr⟩ := fileclose_fresh hf0 hr0
      simp only [hc]
      exact Or.inl ⟨ft', rfl, hr⟩
    | some r =>
      obtain ⟨f1, ft1⟩ := r
      obtain ⟨hf1, hr1⟩ := filealloc_some h1
      have hne : f0 ≠ f1 := by
        rintro rfl
        rw [hr0, Function.update_self] at hf1
        cases hf1
      rw [hr0, Function.update_of_ne hne.symm] at hf1
      rw [hr0] at hr1
      cases page with
      | none =>
        have hr1' : refs ft1 = Function.update (Function.update (refs ft) f1 1) f0 1 := by
          rw [hr1, Function.update_comm hne]
        have hf0' : Function.update (refs ft) f1 1 f0 = 0 := by
          rw [Function.update_of_ne hne, hf0]
        have hpos : 0 < refs ft1 f0 := by
          rw [hr1', Function.update_self]
          decide
        obtain ⟨ft2, ff, hc, hr2⟩ := fileclose_of_pos hpos
        have hr2' : refs ft2 = Function.update (refs ft) f1 1 := by
          rw [hr2, hr1', Function.update_self, Function.update_idem, sub_self, ← hf0',
            Function.update_eq_self]
        obtain ⟨ft3, ff', hc', hr3⟩ := fileclose_fresh hf1 hr2'
        simp only [hc, hc']
        exact Or.inl ⟨ft3, rfl, hr3⟩
      | some pg =>
        refine Or.inr ⟨_, f0, f1, rfl, nofun, hne, hf0, hf1, ?_⟩
        rw [← hr1, refs_update_same, refs_update_same] <;> rfl

/-- `fileclose(rf); fileclose(wf);` undo what `pipealloc` did. -/
theorem closeBoth_fine {ft : FTable} {rf wf : FileId} (hne : rf ≠ wf) (h0 : refs ft rf = 0)
    (h1 : refs ft wf = 0)
    (hr : refs k.ftable = Function.update (Function.update (refs ft) rf 1) wf 1) :
    ∃ ft', closeBoth k rf wf = .ok (k.setFtable ft') ∧ refs ft' = refs ft := by
  have hr' : refs k.ftable = Function.update (Function.update (refs ft) wf 1) rf 1 := by
    rw [hr, Function.update_comm hne]
  have hpos : 0 < refs k.ftable rf := by
    rw [hr', Function.update_self]
    decide
  have h0' : Function.update (refs ft) wf 1 rf = 0 := by rw [Function.update_of_ne hne, h0]
  obtain ⟨ft2, ff, hc, hr2⟩ := fileclose_of_pos hpos
  have hr2' : refs ft2 = Function.update (refs ft) wf 1 := by
    rw [hr2, hr', Function.update_self, Function.update_idem, sub_self, ← h0',
      Function.update_eq_self]
  obtain ⟨ft3, ff', hc', hr3⟩ := fileclose_fresh h1 hr2'
  unfold closeBoth
  simp only [hc, hc']
  exact ⟨ft3, rfl, hr3⟩

theorem fdalloc_none (h : k.fdalloc s f = none) (fd : Fd) : (k.proc s).ofile fd ≠ none := by
  have hn := Option.map_eq_none_iff.mp h
  simpa using List.find?_eq_none.mp hn fd (List.mem_finRange fd)

theorem fine_pipe (hF : Filed σ π tab) (hM : Making σ) (hb : σ.busy = none)
    (hs : (σ.k.proc s).state.Live) {page : Option Page} (hok : Counted σ (s, .pipe page)) :
    Fine ((sysPipe σ.k s page).map fun r => σ.setK r.1) := by
  have hP := Session.present_of_live hs
  unfold sysPipe
  rcases pipealloc_fine σ.k.ftable page with ⟨ft, ha, hr⟩ | ⟨ft, rf, wf, ha, hpg, hne, h0, h1, hr⟩
  · simp only [ha]
    exact ⟨hM.setFtable hb ft, π, tab, hF.setFtable hr⟩
  simp only [ha]
  cases hfd : (σ.k.setFtable ft).fdalloc s rf with
  | none =>
    obtain ⟨ft', hc, hr'⟩ := closeBoth_fine (k := σ.k.setFtable ft) hne h0 h1 hr
    simp only [hc]
    exact ⟨hM.setFtable hb ft', π, tab, hF.setFtable hr'⟩
  | some r =>
    obtain ⟨fd0, k'⟩ := r
    have hrep : Represents (σ.k.setFtable ft).ofileshare π := hF.represents
    obtain ⟨hfree, rfl⟩ := fdalloc_some hrep hfd
    -- the first descriptor, with the count of `wf` still to come
    obtain ⟨ft1, hr1⟩ : ∃ ft1, refs ft1 = Function.update (refs σ.k.ftable) rf 1 :=
      ⟨Function.update σ.k.ftable rf { σ.k.ftable rf with ref := 1 }, refs_update _ _ _⟩
    have hr1' : refs ft1 = Function.update (refs σ.k.ftable) rf (refs σ.k.ftable rf + 1) := by
      rw [hr1, h0]
      rfl
    obtain ⟨tab1, hF1⟩ := hF.put hP hfree hr1'
    have hM1 : Making (σ.write π s fd0 (some rf) ft1) := hM.write hb hF hs
    simp only
    cases hfd1 : ((σ.k.setFtable ft).setShared π s fd0 (some rf)).fdalloc s wf with
    | none =>
      have hfull := fdalloc_none hfd1
      have hone : OneFree σ.k s := by
        refine ⟨fd0, hfree, fun fd hfd' => ?_⟩
        by_contra hne'
        refine hfull fd ?_
        rw [setShared_proc, if_pos (Or.inl rfl)]
        exact (Function.update_of_ne hne' _ _).trans hfd'
      have halone : π.partner s = none := by
        rcases hok with h | h | h
        · exact hF.partner_none ⟨0, h 0⟩
        · exact absurd hone h
        · exact absurd ⟨hpg, rf, wf, hne, h0, h1⟩ h
      have hk : ((σ.k.setFtable ft).setShared π s fd0 (some rf)).setOfile s fd0 none =
          σ.k.setFtable ft := by
        have hp : (((σ.k.setFtable ft).setShared π s fd0 (some rf)).setOfile s fd0 none).proc =
            σ.k.proc := by
          funext t
          simp only [Kernel.setOfile, Kernel.modify_proc, setShared_proc, halone, reduceCtorEq,
            or_false, if_true]
          split_ifs with ht
          · subst ht
            have hback : Function.update (σ.k.proc t).ofile fd0 none = (σ.k.proc t).ofile := by
              conv_rhs => rw [← Function.update_eq_self fd0 (σ.k.proc t).ofile]
              rw [show (σ.k.proc t).ofile fd0 = none from hfree]
            simp only [Kernel.setFtable, Function.update_idem, hback]
          · rfl
        exact congrArg (fun p => { σ.k.setFtable ft with proc := p }) hp
      obtain ⟨ft', hc, hr'⟩ := closeBoth_fine (k := σ.k.setFtable ft) hne h0 h1 hr
      simp only [hk, hc]
      exact ⟨hM.setFtable hb ft', π, tab, hF.setFtable hr'⟩
    | some r =>
      obtain ⟨fd1, k''⟩ := r
      have hrep1 : Represents ((σ.k.setFtable ft).setShared π s fd0 (some rf)).ofileshare π :=
        hF1.represents
      obtain ⟨hfree1, rfl⟩ := fdalloc_some hrep1 hfd1
      have hr2 : refs ft = Function.update (refs ft1) wf (refs ft1 wf + 1) := by
        rw [hr, hr1, Function.update_of_ne hne.symm, h1]
        rfl
      have hlive1 := (σ.write_same π s s fd0 (some rf) ft1).1
      have hs1 : ((σ.write π s fd0 (some rf) ft1).k.proc s).state.Live := by rwa [hlive1]
      obtain ⟨tab2, hF2⟩ := hF1.put (Session.present_of_live hs1) hfree1 hr2
      exact ⟨hM1.write hb hF1 hs1, π, tab2, hF2⟩

/-! ### `exec`, `exit`, `wait` and `join` -/

/-- A call that leaves the descriptors of every embryo alone and takes nobody into the arrays. -/
theorem sharp_of (hM : Making σ) (hb : σ.busy = none) (hb' : σ'.busy = none) {P : Slot → Prop}
    {col : Slot → Fd → Option FileId}
    (hS : Shared π P col σ'.cls σ'.next (refs σ'.k.ftable) tab)
    (hrep : Represents σ'.k.ofileshare π)
    (hg : ∀ t i, (σ'.k.proc t).ofileshare i = none ∨
      (σ'.k.proc t).ofileshare i = (σ.k.proc t).ofileshare i)
    (hP : ∀ t, σ'.Present t ↔ P t) (ho : ∀ t, (σ'.k.proc t).ofile = col t)
    (he : ∀ t, (σ'.k.proc t).state = .embryo →
      (σ.k.proc t).state = .embryo ∧ (σ'.k.proc t).ofile = (σ.k.proc t).ofile) : Sharp σ' := by
  refine ⟨hM.rest hb hb' fun {t} ht => ⟨(he t ht).1, fun h i => ?_, fun _ => (he t ht).2⟩, π, tab,
    hrep, ?_⟩
  · rcases hg t i with h' | h'
    · exact h'
    · rw [h', h i]
  · have hP' : σ'.Present = P := funext fun t => propext (hP t)
    have ho' : σ'.ofile = col := funext ho
    rw [hP', ho']
    exact hS

/-- What `exec` does to descriptors, states and arrays, whether or not it commits. -/
theorem execCall_ok {sz : Option ℕ} (h : execCall k s sz = .ok k') :
    k'.ftable = k.ftable ∧ k'.ofileshare = unshare k.ofileshare s ∧
      ∀ t, (k'.proc t).state = (k.proc t).state ∧ (k'.proc t).ofile = (k.proc t).ofile := by
  unfold execCall at h
  cases sz with
  | none =>
    obtain rfl := Except.ok.inj h
    exact ⟨rfl, rfl, fun t => ⟨rfl, rfl⟩⟩
  | some sz =>
    obtain ⟨_, -, -, -, -, -, -, hft, hp⟩ := execCommit_ok h
    refine ⟨hft, funext fun t => ?_, fun t => ?_⟩
    · unfold Kernel.ofileshare
      rw [hp]
      split_ifs with hts
      · rw [hts]
        rfl
      · rfl
    · rw [hp]
      split_ifs with hts
      · rw [hts]
        exact ⟨rfl, rfl⟩
      · exact ⟨rfl, rfl⟩

theorem execCall_error {sz : Option ℕ} {e : Halt} (h : execCall k s sz = .error e) :
    e = .panic "freevm: no pgdir" := by
  unfold execCall at h
  cases sz with
  | none => cases h
  | some sz =>
    simp only [execCommit] at h
    unfold freevm at h
    split at h
    · exact (Except.error.inj h).symm
    · cases h

theorem fine_exec (hF : Filed σ π tab) (hM : Making σ) (hb : σ.busy = none)
    (hs : (σ.k.proc s).state.Live) {sz : Option ℕ} (hok : Counted σ (s, .exec sz)) :
    Fine ((execCall σ.k s sz).map fun k => (σ.alone s).setK k) := by
  have hcase : π.partner s = none ∨ σ.ofile s = noEntry := by
    rcases hok with h | h
    · exact Or.inl (hF.partner_none ⟨0, h 0⟩)
    · exact Or.inr (funext h)
  have hS := hF.shared.separate (Session.present_of_live hs) hcase
  cases hc : execCall σ.k s sz with
  | error e =>
    obtain rfl := execCall_error hc
    exact ⟨by decide, by decide⟩
  | ok k =>
    obtain ⟨hft, hg, hk⟩ := execCall_ok hc
    rw [← hft] at hS
    show Sharp ((σ.alone s).setK k)
    refine sharp_of hM hb hb hS ?_ (fun t i => ?_) (fun t => ?_)
      (fun t => (hk t).2) fun t ht => ?_
    · rw [Session.setK_k, hg]
      exact hF.represents.unshare s
    · have := unshare_apply σ.k.ofileshare s t i
      rwa [← hg] at this
    · unfold Session.Present
      rw [Session.setK_k, (hk t).1]
    · rw [Session.setK_k, (hk t).1] at ht
      exact ⟨ht, (hk t).2⟩

theorem exitLocked_ftable (k : Kernel) (s : Slot) : (exitLocked k s).ftable = k.ftable := by
  unfold exitLocked exitThread exitProcess
  split
  · split <;> rfl
  · simp only [killThreads, wakeupProc, wakeup1, adopt, Kernel.modify_ftable,
      Kernel.mapProc_ftable]
    split <;> rfl

/-- What the rest of `exit` does to a kernel in which the caller's descriptors are gone. -/
theorem exited_kernel (k : Kernel) (s : Slot) {k1 : Kernel}
    (h : k1 = exitLocked (k.modify s fun p => { p with cwd := none }) s) :
    k1.ofileshare = k.ofileshare ∧ k1.ftable = k.ftable ∧
      (∀ t, (k1.proc t).ofile = (k.proc t).ofile) ∧ (k1.proc s).state = .zombie ∧
      ∀ t st, t ≠ s → ¬ ProcState.Live st → ((k1.proc t).state = st ↔ (k.proc t).state = st) := by
  have hproc : ∀ t, ((k.modify s fun p => { p with cwd := none }).proc t).ofile =
      (k.proc t).ofile ∧
      ((k.modify s fun p => { p with cwd := none }).proc t).state = (k.proc t).state := by
    intro t
    rw [Kernel.modify_proc]
    split_ifs with hts
    · rw [hts]
      exact ⟨rfl, rfl⟩
    · exact ⟨rfl, rfl⟩
  obtain ⟨p, hT, he⟩ := exitLocked_self_touch (k.modify s fun p => { p with cwd := none }) s
  rw [h]
  refine ⟨?_, exitLocked_ftable _ _, fun t => ?_, by rw [he]; rfl, fun t st hts hst => ?_⟩
  · exact (graph_exitLocked .files _ s).trans (graph_modify .files k s _ rfl rfl)
  · by_cases hts : t = s
    · subst hts
      rw [he, Proc.setState_ofile, hT.ofile, (hproc t).1]
    · rw [(exitLocked_touch _ hts).ofile, (hproc t).1]
  · rw [exitLocked_eq_iff _ hts hst, (hproc t).2]

/-- The caller is out of its class once its descriptors are gone. -/
theorem sharp_exit (hF : Filed σ π tab) (hM : Making σ) (hb : σ.busy = none)
    (hs : (σ.k.proc s).state.Live) {b : Bool}
    (hk : exitFiles (unshareCwd (unshareOfile σ.k s) s) s b = .ok k')
    (hS : Shared (π.leave s) (fun t => σ.Present t ∧ t ≠ s) (Function.update σ.ofile s noEntry)
      σ.cls σ.next (refs k'.ftable) tab') :
    Sharp (σ.setK (exitLocked (k'.modify s fun p => { p with cwd := none }) s)) := by
  obtain ⟨-, hp⟩ := exitFiles_ok hk
  have hproc : ∀ t, (k'.proc t).ofile = Function.update σ.ofile s noEntry t ∧
      (k'.proc t).ofileshare = unshare σ.k.ofileshare s t ∧
      (k'.proc t).state = (σ.k.proc t).state := by
    intro t
    rw [hp, Function.update_apply]
    split_ifs with hts
    · rw [hts]
      exact ⟨rfl, rfl, rfl⟩
    · exact ⟨rfl, rfl, rfl⟩
  obtain ⟨k1, hk1⟩ : ∃ k1, k1 = exitLocked (k'.modify s fun p => { p with cwd := none }) s :=
    ⟨_, rfl⟩
  obtain ⟨hg, hft, ho, hz, hst⟩ := exited_kernel k' s hk1
  have hg' : k1.ofileshare = unshare σ.k.ofileshare s :=
    hg.trans (funext fun t => (hproc t).2.1)
  rw [← hk1]
  rw [← hft] at hS
  show Sharp (σ.setK k1)
  refine sharp_of hM hb hb hS ?_ (fun t i => ?_) (fun t => ?_)
    (fun t => (ho t).trans (hproc t).1) fun t ht => ?_
  · rw [Session.setK_k, hg']
    exact hF.represents.unshare s
  · have := unshare_apply σ.k.ofileshare s t i
    rwa [← hg'] at this
  · unfold Session.Present
    rw [Session.setK_k]
    by_cases hts : t = s
    · subst hts
      exact iff_of_false (fun h => h.2 hz) fun h => h.2 rfl
    · rw [ne_eq, ne_eq, hst t _ hts not_live_unused, hst t _ hts not_live_zombie, (hproc t).2.2]
      exact ⟨fun h => ⟨h, hts⟩, fun h => h.1⟩
  · rw [Session.setK_k] at ht ⊢
    have hts : t ≠ s := by
      rintro rfl
      rw [hz] at ht
      cases ht
    rw [hst t _ hts not_live_embryo, (hproc t).2.2] at ht
    refine ⟨ht, ?_⟩
    rw [ho, (hproc t).1, Function.update_of_ne hts]
    rfl

theorem fine_exit (hF : Filed σ π tab) (hM : Making σ) (hb : σ.busy = none)
    (hs : (σ.k.proc s).state.Live) : Fine ((exitCall σ.k s).map σ.setK) := by
  have hP := Session.present_of_live hs
  unfold exitCall
  split_ifs with hi
  · exact ⟨by decide, by decide⟩
  have hiff : (σ.k.proc s).ofileshare.nonempty = true ↔ ∃ q, π.partner s = some q :=
    hF.represents.nonempty_iff s
  cases hp : π.partner s with
  | some q =>
    rw [hiff.mpr ⟨q, hp⟩]
    have hk : exitFiles (unshareCwd (unshareOfile σ.k s) s) s true =
        .ok ((unshareCwd (unshareOfile σ.k s) s).modify s fun p =>
          { p with ofile := fun _ => none }) := rfl
    rw [hk]
    exact sharp_exit hF hM hb hs hk (hF.shared.leave_shared hp)
  | none =>
    have hne : (σ.k.proc s).ofileshare.nonempty = false := by
      rw [← Bool.not_eq_true, hiff]
      rintro ⟨q, hq⟩
      rw [hp] at hq
      cases hq
    rw [hne]
    obtain ⟨ft, h1, h2⟩ := closeFiles_counts
      hF.shared.counts (List.nodup_finRange NOFILE) fun fd _ => hF.shared.entry hP fd
    obtain ⟨k', hk, hft⟩ : ∃ k', exitFiles (unshareCwd (unshareOfile σ.k s) s) s false = .ok k' ∧
        k'.ftable = ft := by
      have h1' : closeFiles (List.finRange NOFILE) (unshareCwd (unshareOfile σ.k s) s).ftable
          ((unshareCwd (unshareOfile σ.k s) s).proc s).ofile = _ := h1
      unfold exitFiles
      rw [if_neg Bool.false_ne_true, h1']
      exact ⟨_, rfl, rfl⟩
    rw [hk]
    refine sharp_exit hF hM hb hs hk (hF.shared.leave_alone hP hp ?_)
    rw [hft]
    simpa only [List.mem_finRange, and_true] using h2

theorem waitReap_ftable {p : Slot} (h : waitReap k p = .ok k') : k'.ftable = k.ftable := by
  unfold waitReap freevm at h
  cases hd : (k.proc p).pgdir <;> rw [hd] at h
  · cases h
  · obtain rfl := Except.ok.inj h
    rfl

theorem joinReap_ftable {p : Slot} (h : joinReap k p = .ok k') : k'.ftable = k.ftable := by
  unfold joinReap freevm at h
  cases hd : (k.proc p).pgdir <;> rw [hd] at h <;> cases hv : (k.proc p).cloneVm <;>
    simp only [hv, if_true, Bool.false_eq_true, if_false] at h
  · cases h
  · obtain rfl := Except.ok.inj h
    rfl
  · obtain rfl := Except.ok.inj h
    rfl
  · obtain rfl := Except.ok.inj h
    rfl

/-- A reclaimed slot had no descriptors any more. -/
theorem sharp_reap (hF : Filed σ π tab) (hM : Making σ) (hb : σ.busy = none) {p : Slot} {b : Bool}
    (hz : (σ.k.proc p).state = .zombie) (hR : Reaped σ.k k p b) (hft : k.ftable = σ.k.ftable) :
    Sharp (σ.setK k) := by
  have hg : k.ofileshare = σ.k.ofileshare := hR.graph .files
  have ho : ∀ t, (k.proc t).ofile = (σ.k.proc t).ofile := by
    intro t
    by_cases htp : t = p
    · rw [htp, hR.ofile]
    · rw [hR.proc_of_ne t htp]
  have hS := hF.shared
  rw [← hft] at hS
  show Sharp (σ.setK k)
  refine sharp_of hM hb hb hS ?_ (fun t i => Or.inr ?_) (fun t => ?_) ho
    fun t ht => ⟨?_, ho t⟩
  · rw [Session.setK_k, hg]
    exact hF.represents
  · exact congrFun (congrFun hg t) i
  · unfold Session.Present
    rw [Session.setK_k]
    by_cases htp : t = p
    · subst htp
      rw [hR.state, hz]
      decide
    · rw [hR.proc_of_ne t htp]
  · rw [Session.setK_k] at ht
    have htp : t ≠ p := by
      rintro rfl
      rw [hR.state] at ht
      cases ht
    rwa [hR.proc_of_ne t htp] at ht

theorem fine_wait (hF : Filed σ π tab) (hM : Making σ) (hb : σ.busy = none) :
    Fine ((waitCall σ.k s).map σ.setK) := by
  unfold waitCall
  cases hw : waitScan σ.k s with
  | fail => exact ⟨hM, π, tab, hF⟩
  | block f => exact ⟨nofun, nofun⟩
  | reap p =>
    simp only
    cases hr : waitReap σ.k p with
    | error e =>
      unfold waitReap freevm at hr
      cases hd : (σ.k.proc p).pgdir <;> rw [hd] at hr <;> cases hr
      exact ⟨by decide, by decide⟩
    | ok k => exact sharp_reap hF hM hb (waitScan_reap hw).2 (waitReap_ok hr).1 (waitReap_ftable hr)

theorem fine_join (hF : Filed σ π tab) (hM : Making σ) (hb : σ.busy = none) {tid : ℤ}
    {wild : Option Slot} : Fine ((joinCall σ.k s tid wild).map σ.setK) := by
  unfold joinCall
  cases hw : joinScan σ.k s tid wild with
  | fail => exact ⟨hM, π, tab, hF⟩
  | block f => exact ⟨nofun, nofun⟩
  | reap p =>
    simp only
    cases hr : joinReap σ.k p with
    | error e =>
      unfold joinReap freevm at hr
      cases hd : (σ.k.proc p).pgdir <;> rw [hd] at hr <;> cases hv : (σ.k.proc p).cloneVm <;>
        simp only [hv, if_true, Bool.false_eq_true, if_false] at hr <;> cases hr
      exact ⟨by decide, by decide⟩
    | ok k =>
      exact sharp_reap hF hM hb (joinLoop_reap hw).2.2 (joinReap_ok hr).1 (joinReap_ftable hr)

/-! ### Creation -/

/-- `allocproc` has found the slot `np`, which becomes a class of its own. -/
theorem sharp_created (hF : Filed σ π tab) (hM : Making σ) (hb : σ.busy = none)
    (hs : (σ.k.proc s).state.Live) (ha : allocproc σ.k = some (np, k)) (hk : σ'.k = k)
    (hc : σ'.cls = Function.update σ.cls np σ.next) (hn : σ'.next = σ.next + 1)
    (hb' : σ'.busy = some (s, st, np)) : Sharp σ' := by
  obtain ⟨hu, hp, -, -, -, -, -, hft⟩ := allocproc_some ha
  have hnP : ¬ σ.Present np := fun h => h.1 hu
  have hsn : s ≠ np := by
    rintro rfl
    rw [hu] at hs
    exact not_live_unused hs
  have hsame : ∀ t, (k.proc t).ofile = (σ.k.proc t).ofile ∧
      (k.proc t).ofileshare = (σ.k.proc t).ofileshare := by
    intro t
    rw [hp]
    split_ifs with ht
    · rw [ht]
      exact ⟨rfl, rfl⟩
    · exact ⟨rfl, rfl⟩
  have hnew : (k.proc np).state = .embryo := by rw [hp, if_pos rfl]
  have hold : ∀ {t}, t ≠ np → (k.proc t).state = (σ.k.proc t).state := by
    intro t ht
    rw [hp, if_neg ht]
  -- a slot that is not in use has no partner and no descriptors
  have hpn : π.partner np = none := by
    cases hq : π.partner np with
    | none => rfl
    | some q => exact absurd (hF.shared.present hq) hnP
  have hempty : (∀ i, (k.proc np).ofileshare i = none) ∧ (k.proc np).ofile = noEntry :=
    ⟨fun i => (congrFun (hsame np).2 i).trans (hF.array_none hpn i),
      (hsame np).1.trans (hF.shared.absent hnP)⟩
  refine ⟨⟨fun {s' st' np'} he => ?_, fun {s' st' np'} he _ => ?_, fun {t} ht => ?_⟩, π, tab, ?_, ?_⟩
  · obtain ⟨rfl, -, rfl⟩ : s = s' ∧ st = st' ∧ np = np' := by simpa [hb'] using he
    rw [hk, hold hsn]
    exact ⟨hs, hnew⟩
  · obtain ⟨rfl, -, rfl⟩ : s = s' ∧ st = st' ∧ np = np' := by simpa [hb'] using he
    rwa [hk]
  · rw [hk] at ht ⊢
    by_cases htn : t = np
    · subst htn
      exact Or.inl hempty
    · rw [hold htn] at ht
      rcases hM.embryo ht with ⟨h1, h2⟩ | ⟨_, _, hb'⟩
      · exact Or.inl ⟨fun i => (congrFun (hsame t).2 i).trans (h1 i), (hsame t).1.trans h2⟩
      · rw [hb] at hb'
        cases hb'
  · have hg : k.ofileshare = σ.k.ofileshare := funext fun t => (hsame t).2
    rw [hk, hg]
    exact hF.represents
  · have hP : σ'.Present = fun t => t = np ∨ σ.Present t := by
      funext t
      unfold Session.Present
      rw [hk]
      by_cases htn : t = np
      · subst htn
        rw [hnew]
        simp
      · rw [hold htn]
        simp [htn]
    have ho : σ'.ofile = σ.ofile := by
      funext t
      unfold Session.ofile
      rw [hk, (hsame t).1]
    rw [hP, ho, hc, hn, hk, hft]
    exact hF.shared.enter hnP

theorem sharp_create (hF : Filed σ π tab) (hM : Making σ) (hb : σ.busy = none)
    (hs : (σ.k.proc s).state.Live) (fl : Option ℤ) : Sharp (σ.create s fl) := by
  unfold Session.create
  cases ha : allocproc σ.k with
  | none => exact ⟨hM, π, tab, hF⟩
  | some r => exact sharp_created hF hM hb hs ha rfl rfl rfl rfl

/-! ### Every reachable state -/

/-- **One step.** A step that meets the condition keeps the invariant, and fails neither in
`filedup` nor in `fileclose`. -/
theorem Sharp.step (h : Sharp σ) {a : Slot × Call} (hok : Counted σ a) : Fine (σ.step a) := by
  obtain ⟨hM, π, tab, hF⟩ := h
  obtain ⟨s, c⟩ := a
  have hidle : ∀ {r : Except Halt Session},
      (σ.busy = none → (σ.k.proc s).state.Live → Fine r) →
      Fine (if σ.busy = none ∧ (σ.k.proc s).state.Live then r else .error .disabled) := by
    intro r hr
    split_ifs with hc
    · exact hr hc.1 hc.2
    · exact ⟨nofun, nofun⟩
  cases c with
  | next o =>
    show Fine (σ.stmtStep o)
    unfold Session.stmtStep
    cases hb : σ.busy with
    | none => exact ⟨nofun, nofun⟩
    | some r =>
      obtain ⟨s', st, np⟩ := r
      simp only
      cases he : st.exec σ.k s' np o with
      | error e =>
        obtain rfl := hF.stmt_error hM hb he
        exact ⟨nofun, nofun⟩
      | ok r =>
        obtain ⟨k, nx⟩ := r
        exact ⟨hM.stmt hb he, hF.stmt hM hb hok he⟩
  | fork => exact hidle fun hb hs => sharp_create hF hM hb hs none
  | clone flags =>
    refine hidle fun hb hs => ?_
    show Sharp (if flags < 0 ∨ flags > 31 then σ else σ.create s (some flags))
    split_ifs
    · exact ⟨hM, π, tab, hF⟩
    · exact sharp_create hF hM hb hs _
  | «open» ip omode => exact hidle fun hb hs => fine_open hF hM hb hs ip omode
  | dup n => exact hidle fun hb hs => fine_dup hF hM hb hs n
  | close n => exact hidle fun hb hs => fine_close hF hM hb hs n
  | pipe page => exact hidle fun hb hs => fine_pipe hF hM hb hs hok
  | exec sz => exact hidle fun hb hs => fine_exec hF hM hb hs hok
  | exit => exact hidle fun hb hs => fine_exit hF hM hb hs
  | wait => exact hidle fun hb _ => fine_wait hF hM hb
  | join tid wild => exact hidle fun hb _ => fine_join hF hM hb

theorem sharp_session0 : Sharp session0 := by
  have hproc : ∀ t, session0.k.proc t = if t = 0 then initProc fun _ => none else Proc.zero :=
    fun t => Function.update_apply (fun _ => Proc.zero) 0 _ t
  have hof : ∀ t, (session0.k.proc t).ofile = noEntry ∧
      (session0.k.proc t).ofileshare = (fun _ => none) ∧
      ((session0.k.proc t).state = if t = 0 then .runnable else .unused) := by
    intro t
    rw [hproc]
    split_ifs <;> exact ⟨rfl, rfl, rfl⟩
  have hpres : ∀ {t}, session0.Present t → t = 0 := by
    intro t ht
    by_contra h0
    refine ht.1 ?_
    rw [(hof t).2.2, if_neg h0]
  refine ⟨⟨nofun, nofun, fun {t} ht => ?_⟩, .empty, fun _ => noEntry, fun t i => ?_, ?_⟩
  · rw [(hof t).2.2] at ht
    split_ifs at ht
  · exact congrFun (hof t).2.1 i
  · have ho : session0.ofile = fun _ => noEntry := funext fun t => (hof t).1
    rw [ho]
    refine ⟨nofun, fun _ => rfl, fun _ => rfl, fun _ => rfl, fun {s t} hs ht hne => ?_,
      fun _ => Nat.one_pos, .empty⟩
    exact absurd ((hpres hs).trans (hpres ht).symm) hne

theorem Reach.sharp (h : session.Reach Counted σ) : Sharp σ := by
  refine h.invariant ?_ fun σ a σ' hI hok hst => ?_
  · rintro _ rfl
    exact sharp_session0
  · have hf := hI.step hok
    rw [show σ.step a = .ok σ' from hst] at hf
    exact hf

/-- **File references.** Between the calls of a run whose steps meet the condition, every `ref` is
the number of sharing classes and descriptors that hold the file.  So what a live process names has
a reference, what no live process names has none, and no step of the run fails in `filedup` or
`fileclose`. -/
theorem file_refs (h : session.Reach Counted σ) :
    (σ.busy = none → Conserved σ ∧
      (∀ t fd f, (σ.k.proc t).state.Live → (σ.k.proc t).ofile fd = some f →
        1 ≤ (σ.k.ftable f).ref) ∧
      ∀ f, (∀ t fd, (σ.k.proc t).state.Live → (σ.k.proc t).ofile fd ≠ some f) →
        (σ.k.ftable f).ref = 0) ∧
    ∀ a, Counted σ a → σ.step a ≠ .error (.panic "filedup") ∧
      σ.step a ≠ .error (.panic "fileclose") := by
  have hI := Reach.sharp h
  refine ⟨fun hb => ?_, fun a hok => ?_⟩
  · obtain ⟨hM, π, tab, hF⟩ := hI
    -- an embryo that is left over has no descriptors
    have hlive : ∀ {t fd f}, σ.Present t → (σ.k.proc t).ofile fd = some f →
        (σ.k.proc t).state.Live := by
      intro t fd f ht hf
      by_contra hn
      have he : (σ.k.proc t).state = .embryo := by
        obtain ⟨h1, h2⟩ := ht
        unfold ProcState.Live at hn
        generalize (σ.k.proc t).state = st at *
        cases st <;> simp_all
      rcases hM.embryo he with ⟨-, h0⟩ | ⟨_, _, hb'⟩
      · rw [h0] at hf
        cases hf
      · rw [hb] at hb'
        cases hb'
    refine ⟨fun f => ?_, fun t fd f ht hf => ?_, fun f hf => ?_⟩
    · have hset : holders σ f =
          {p : ℕ × Fd | ∃ t, σ.Present t ∧ σ.cls t = p.1 ∧ σ.ofile t p.2 = some f} := by
        ext p
        constructor
        · rintro ⟨t, ht, h1, h2⟩
          exact ⟨t, Session.present_of_live ht, h1, h2⟩
        · rintro ⟨t, ht, h1, h2⟩
          exact ⟨t, hlive ht h2, h1, h2⟩
      rw [hset]
      exact hF.shared.card f
    · exact hF.shared.pos (Session.present_of_live ht) hf
    · refine hF.shared.eq_zero fun t fd ht hf' => ?_
      exact hf t fd (hlive ht hf') hf'
  · have hf := hI.step hok
    constructor
    · intro he
      rw [he] at hf
      exact hf.1 rfl
    · intro he
      rw [he] at hf
      exact hf.2 rfl

/-- A process opens a file and clones a thread that shares it; the thread exits. -/
theorem file_refs_clone : ∃ σ : Session, Conserved σ ∧ (σ.k.proc 1).state = .zombie ∧
    (σ.k.proc 0).ofile 0 = some 0 ∧ (σ.k.ftable 0).ref = 1 := by
  let as : List (Slot × Call) := [(0, .open (some 7) 2), (0, .clone 1)] ++
    List.replicate 11 (0, .next ⟨some 1, true, 0, none⟩) ++ [(1, .exit)]
  have hguard : session.Obeys Counted session0 as := by
    decide +kernel
  have hrun : session.Ends (fun σ => σ.busy = none ∧ (σ.k.proc 1).state = .zombie ∧
      (σ.k.proc 0).ofile 0 = some 0 ∧ (σ.k.ftable 0).ref = 1) session0 as := by
    decide +kernel
  obtain ⟨σ, hσ, hb, h1, h2, h3⟩ := System.Reach.of_ends as rfl hguard hrun
  exact ⟨σ, ((file_refs hσ).1 hb).1, h1, h2, h3⟩

/-- A thread that shares an open file calls `exec` and leaves its class, but its descriptor is not
counted.  When the other member closes the file, the thread is left with a file without
references, and its own `close` fails. -/
theorem file_refs_counterexample :
    (∃ σ : Session, session.Reachable σ ∧ σ.busy = none ∧ ¬ Conserved σ) ∧
    ∃ σ : Session, session.Reachable σ ∧ σ.busy = none ∧ (σ.k.proc 1).state.Live ∧
      (σ.k.proc 1).ofile 0 = some 0 ∧ (σ.k.ftable 0).ref = 0 ∧
      ∃ e, σ.step (1, .close 0) = .error e ∧ e = .panic "fileclose" := by
  let as : List (Slot × Call) := [(0, .open (some 7) 2), (0, .clone 1)] ++
    List.replicate 11 (0, .next ⟨some 1, true, 0, none⟩) ++ [(1, .exec (some 4096))]
  constructor
  · have hrun : session.Ends (fun σ => σ.busy = none ∧ (σ.k.ftable 0).ref = 1 ∧
        (σ.k.proc 0).state.Live ∧ (σ.k.proc 1).state.Live ∧ σ.cls 0 ≠ σ.cls 1 ∧
        (σ.k.proc 0).ofile 0 = some 0 ∧ (σ.k.proc 1).ofile 0 = some 0) session0 as := by
      decide +kernel
    obtain ⟨σ, hσ, hb, hr, hl0, hl1, hne, h0, h1⟩ := System.Reachable.of_ends as rfl hrun
    refine ⟨σ, hσ, hb, fun hC => ?_⟩
    have hcard := hC 0
    rw [hr] at hcard
    obtain ⟨p, hp⟩ := Set.ncard_eq_one.mp (by exact_mod_cast hcard.symm : (holders σ 0).ncard = 1)
    have hm0 : (σ.cls 0, (0 : Fd)) ∈ holders σ 0 := ⟨0, hl0, rfl, h0⟩
    have hm1 : (σ.cls 1, (0 : Fd)) ∈ holders σ 0 := ⟨1, hl1, rfl, h1⟩
    rw [hp, Set.mem_singleton_iff] at hm0 hm1
    exact hne (Prod.mk.inj (hm0.trans hm1.symm)).1
  · have hrun : session.Ends (fun σ => σ.busy = none ∧ (σ.k.proc 1).state.Live ∧
        (σ.k.proc 1).ofile 0 = some 0 ∧ (σ.k.ftable 0).ref = 0) session0
        (as ++ [(0, .close 0)]) := by
      decide +kernel
    obtain ⟨σ, hσ, hb, hl, h0, hr⟩ := System.Reachable.of_ends _ rfl hrun
    refine ⟨σ, hσ, hb, hl, h0, hr, .panic "fileclose", ?_, rfl⟩
    have harg : argfd σ.k 1 0 = some (0, 0) := by
      simp [argfd, h0]
    have hclose : sysClose σ.k 1 0 = .error (.panic "fileclose") := by
      unfold sysClose fileclose
      simp [harg, hr]
    show (if σ.busy = none ∧ (σ.k.proc 1).state.Live then σ.callStep 1 (.close 0) else _) = _
    rw [if_pos ⟨hb, hl⟩]
    simp only [Session.callStep, hclose]
    rfl

end OsSemester.Xv6
