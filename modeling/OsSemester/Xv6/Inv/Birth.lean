import OsSemester.Xv6.Inv.Sleep

/-!
# What a process has from its birth

`fork` and `clone` write the ids and the thread fields of the new slot once; until the slot is
reclaimed nobody writes them again.  `Birth C U` packages the induction: `C` holds of a slot in
creation and moves along with the statements, `U` holds of the slot from its publication on.
`Bred` is the instance of this rule for the fields themselves, and `Tids` says that the thread ids
in the table, those left behind in reclaimed slots included, are different.
-/

namespace OsSemester.Xv6

open Machine

variable {n : ℕ} {m m' : Machine n} {a : Action n} {mv : Move} {s np t : Slot}

/-- The fields that only `fork`, `clone`, `wait` and `join` write. -/
structure Fixed (p p' : Proc) : Prop where
  pid : p'.pid = p.pid
  isthread : p'.isthread = p.isthread
  tid : p'.tid = p.tid
  threadparent : p'.threadparent = p.threadparent

theorem Keep.fixed {p p' : Proc} (h : Keep p p') : Fixed p p' :=
  ⟨h.pid, h.isthread, h.tid, h.threadparent⟩

theorem Touch.fixed {p p' : Proc} (h : Touch p p') : Fixed p p' :=
  ⟨h.pid, h.isthread, h.tid, h.threadparent⟩

/-- The slot holds a process between its publication and its reclamation. -/
def Proc.Used (p : Proc) : Prop := p.state.Live ∨ p.state = .zombie

instance : DecidablePred Proc.Used := fun p => by
  unfold Proc.Used
  infer_instance

theorem Keep.used_iff {p p' : Proc} (h : Keep p p') : p'.Used ↔ p.Used := by
  unfold Proc.Used
  rw [h.live_iff, h.eq_iff not_live_zombie]

theorem Proc.Used.ne_unused {p : Proc} (h : p.Used) : p.state ≠ .unused := by
  intro hu
  unfold Proc.Used at h
  rw [hu] at h
  simp [not_live_unused] at h

theorem Proc.Used.ne_embryo {p : Proc} (h : p.Used) : p.state ≠ .embryo := by
  intro hu
  unfold Proc.Used at h
  rw [hu] at h
  simp [not_live_embryo] at h

theorem Proc.used_of {p : Proc} (hu : p.state ≠ .unused) (he : p.state ≠ .embryo) : p.Used := by
  unfold Proc.Used ProcState.Live
  cases h : p.state <;> simp_all

theorem execCommit_fixed {k k' : Kernel} {sz : ℕ} (h : execCommit k s sz = .ok k') (t : Slot) :
    Fixed (k.proc t) (k'.proc t) := by
  obtain ⟨_, -, -, -, -, -, -, -, hp⟩ := execCommit_ok h
  rw [hp]
  split_ifs with hts
  · rw [hts]
    exact ⟨rfl, rfl, rfl, rfl⟩
  · exact ⟨rfl, rfl, rfl, rfl⟩

theorem execCommit_state {k k' : Kernel} {sz : ℕ} (h : execCommit k s sz = .ok k') (t : Slot) :
    (k'.proc t).state = (k.proc t).state := by
  obtain ⟨_, -, -, -, -, -, -, -, hp⟩ := execCommit_ok h
  rw [hp]
  split_ifs with hts
  · rw [hts]
  · rfl

/-- After the critical section of `exit` of `s` the slot `t` holds what it held before. -/
theorem exitLocked_fixed (k : Kernel) (s t : Slot) : Fixed (k.proc t) ((exitLocked k s).proc t) := by
  by_cases hts : t = s
  · subst hts
    obtain ⟨p, hT, he⟩ := exitLocked_self_touch k t
    have hF := hT.fixed
    rw [he]
    exact ⟨hF.pid, hF.isthread, hF.tid, hF.threadparent⟩
  · exact (exitLocked_touch k hts).fixed

theorem exitLocked_live_iff (k : Kernel) {s t : Slot} (hts : t ≠ s) :
    ((exitLocked k s).proc t).state.Live ↔ (k.proc t).state.Live := by
  rcases (exitLocked_touch k hts).woken.keep with h | h
  · rw [h]
  · exact iff_of_true h.2 h.1

theorem exitLocked_eq_iff (k : Kernel) {s t : Slot} (hts : t ≠ s) {st : ProcState}
    (hst : ¬ st.Live) : ((exitLocked k s).proc t).state = st ↔ (k.proc t).state = st := by
  rcases (exitLocked_touch k hts).woken.keep with h | h
  · rw [h]
  · constructor
    · rintro rfl
      exact absurd h.2 hst
    · rintro rfl
      exact absurd h.1 hst

theorem exitLocked_used_iff (k : Kernel) (hs : (k.proc s).state = .running) :
    ((exitLocked k s).proc t).Used ↔ (k.proc t).Used := by
  unfold Proc.Used
  by_cases hts : t = s
  · subst hts
    rw [hs, exitLocked_self]
    exact iff_of_true (Or.inr rfl) (Or.inl live_running)
  · rw [exitLocked_live_iff k hts, exitLocked_eq_iff k hts not_live_zombie]

/-! ### A new slot -/

/-- The process `s` takes the slot `np` with `allocproc` and starts to create in it. -/
structure Allocates (m m' : Machine n) (s np : Slot) (fl : Option ℤ) : Prop where
  life : Life m
  running : (m.k.proc s).state = .running
  alloc : allocproc m.k = some (np, m'.k)
  inc : m'.inc = Function.update m.inc np m.k.nextpid
  next : m'.pc = Function.update m.pc s (.create (.kstack fl) np)

namespace Allocates

variable {fl : Option ℤ}

theorem unused (h : Allocates m m' s np fl) : (m.k.proc np).state = .unused :=
  (allocproc_some h.alloc).1

theorem proc_self (h : Allocates m m' s np fl) :
    m'.k.proc np = { m.k.proc np with state := .embryo, pid := m.k.nextpid } := by
  rw [(allocproc_some h.alloc).2.1, if_pos rfl]

theorem proc_of_ne (h : Allocates m m' s np fl) (ht : t ≠ np) : m'.k.proc t = m.k.proc t := by
  rw [(allocproc_some h.alloc).2.1, if_neg ht]

theorem nextpid (h : Allocates m m' s np fl) : m'.k.nextpid = m.k.nextpid + 1 :=
  (allocproc_some h.alloc).2.2.1

theorem initproc (h : Allocates m m' s np fl) : m'.k.initproc = m.k.initproc :=
  (allocproc_some h.alloc).2.2.2.1

theorem inc_self (h : Allocates m m' s np fl) : m'.inc np = m.k.nextpid := by
  rw [h.inc, Function.update_self]

theorem inc_of_ne (h : Allocates m m' s np fl) (ht : t ≠ np) : m'.inc t = m.inc t := by
  rw [h.inc, Function.update_of_ne ht]

/-- A slot that was in use is another one. -/
theorem ne_of_not_unused (h : Allocates m m' s np fl) (ht : (m.k.proc t).state ≠ .unused) :
    t ≠ np := by
  rintro rfl
  exact ht h.unused

theorem caller_ne (h : Allocates m m' s np fl) : s ≠ np := by
  apply h.ne_of_not_unused
  rw [h.running]
  decide

theorem ne_of_live (h : Allocates m m' s np fl) (ht : (m.k.proc t).state.Live) : t ≠ np :=
  h.ne_of_not_unused (Proc.Used.ne_unused (Or.inl ht))

/-- So is one that holds a process afterwards. -/
theorem ne_of_used (h : Allocates m m' s np fl) (ht : (m'.k.proc t).Used) : t ≠ np := by
  rintro rfl
  apply ht.ne_embryo
  rw [h.proc_self]

/-- The call that begins, or one that was begun before. -/
theorem create (h : Allocates m m' s np fl) {q : Slot} {st : Stmt} (hpc : m'.pc t = .create st q) :
    (t = s ∧ st = .kstack fl ∧ q = np) ∨ (m.pc t = .create st q ∧ q ≠ np ∧ t ≠ np) := by
  rw [h.next, Function.update_apply] at hpc
  split_ifs at hpc with hts
  · obtain ⟨rfl, rfl⟩ := Pc.create.inj hpc
    exact Or.inl ⟨hts, rfl, rfl⟩
  · refine Or.inr ⟨hpc, h.ne_of_not_unused ?_, h.ne_of_live (h.life.busy ?_)⟩
    · rw [h.life.embryo hpc]
      decide
    · rw [hpc]
      nofun

end Allocates

/-! ### The induction -/

/-- `C` holds of the slot that `s` is creating, at every statement, and `U` afterwards; both are
about the record of the slot and the number `allocproc` drew for it. -/
structure Birth (C : Slot → Stmt → Proc → ℤ → Prop) (U : Proc → ℤ → Prop) : Prop where
  create_fixed : ∀ {s st p p' i}, Fixed p p' → C s st p i → C s st p' i
  used_fixed : ∀ {p p' i}, Fixed p p' → U p i → U p' i
  claim : ∀ {s fl p i}, p.pid = i → C s (.kstack fl) p i
  next : ∀ {s np o st k k' i}, st.exec k s np o = .ok (k', some st.succ) → ¬ st.Publishes →
    C s st (k.proc np) i → C s st.succ (k'.proc np) i
  publish : ∀ {s np o st k k' i}, st.exec k s np o = .ok (k', none) → st.Publishes →
    C s st (k.proc np) i → U (k'.proc np) i

/-- The two facts in a state of the machine. -/
structure Born (C : Slot → Stmt → Proc → ℤ → Prop) (U : Proc → ℤ → Prop) (m : Machine n) :
    Prop where
  create : ∀ {s st np}, m.pc s = .create st np → C s st (m.k.proc np) (m.inc np)
  used : ∀ {t}, (m.k.proc t).Used → t ≠ m.k.initproc → U (m.k.proc t) (m.inc t)

section Induction

variable {C : Slot → Stmt → Proc → ℤ → Prop} {U : Proc → ℤ → Prop}

/-- A step that creates and publishes nothing. -/
theorem Born.frame (hC : Birth C U) (hB : Born C U m) (hi : m'.inc = m.inc)
    (hinit : m'.k.initproc = m.k.initproc)
    (hcreate : ∀ {s st np}, m'.pc s = .create st np →
      m.pc s = .create st np ∧ Fixed (m.k.proc np) (m'.k.proc np))
    (hused : ∀ {t}, (m'.k.proc t).Used →
      (m.k.proc t).Used ∧ Fixed (m.k.proc t) (m'.k.proc t)) : Born C U m' where
  create h := by
    rw [hi]
    exact hC.create_fixed (hcreate h).2 (hB.create (hcreate h).1)
  used ht hne := by
    rw [hi]
    rw [hinit] at hne
    exact hC.used_fixed (hused ht).2 (hB.used (hused ht).1 hne)

theorem Reclaim.born {p : Slot} {b : Bool} (hC : Birth C U) (hL : Life m) (hB : Born C U m)
    (h : Reclaim m m' s p b) : Born C U m' := by
  refine hB.frame hC h.inc h.initproc (fun {t st q} hpc => ?_) (fun {t} ht => ?_)
  · rw [h.pc] at hpc
    have hqp : q ≠ p := by
      rintro rfl
      have := hL.embryo hpc
      rw [h.zombie] at this
      cases this
    exact ⟨hpc, (h.keep q hqp).fixed⟩
  · have htp : t ≠ p := by
      rintro rfl
      exact ht.ne_unused h.state
    exact ⟨(h.keep t htp).used_iff.mp ht, (h.keep t htp).fixed⟩

/-- The new slot of an allocation is apart from the slots in use and in creation. -/
theorem Allocates.born {fl : Option ℤ} (hC : Birth C U) (hB : Born C U m)
    (h : Allocates m m' s np fl) : Born C U m' := by
  refine ⟨fun {t st q} hpc => ?_, fun {t} ht hne => ?_⟩
  · rcases h.create hpc with ⟨-, rfl, rfl⟩ | ⟨hpc, hq, -⟩
    · rw [h.inc_self]
      apply hC.claim
      rw [h.proc_self]
    · rw [h.proc_of_ne hq, h.inc_of_ne hq]
      exact hB.create hpc
  · have htn := h.ne_of_used ht
    rw [h.proc_of_ne htn] at ht ⊢
    rw [h.inc_of_ne htn]
    rw [h.initproc] at hne
    exact hB.used ht hne

theorem born_stmt (hC : Birth C U) (hL : Life m) (hB : Born C U m) {st : Stmt} {o : Oracle}
    {nx : Option Stmt} (hpc : m.pc s = .create st np) (hk : st.exec m.k s np o = .ok (m'.k, nx))
    (hpc' : m'.pc = Function.update m.pc s (pcAfter np nx)) (hi : m'.inc = m.inc) :
    Born C U m' := by
  refine ⟨fun {t st' q} h => ?_, fun {t} ht hne => ?_⟩
  · rw [hpc'] at h
    rw [hi]
    rcases pc_create_stmt hpc h with ⟨rfl, rfl, rfl⟩ | ⟨hts, hq⟩
    · obtain ⟨rfl, hpub⟩ := exec_next hk
      exact hC.next hk hpub (hB.create hpc)
    · have hqn : q ≠ np := by
        rintro rfl
        exact hts (hL.creator hq hpc)
      exact hC.create_fixed (exec_keep_of_ne hk hqn).fixed (hB.create hq)
  · rw [hi]
    by_cases htn : t = np
    · subst htn
      obtain ⟨rfl, hpub, -⟩ := exec_published hk (hL.embryo hpc) ht.ne_embryo ht.ne_unused
      exact hC.publish hk hpub (hB.create hpc)
    · have hkeep := exec_keep_of_ne hk htn
      rw [(exec_globals hk).2.1] at hne
      exact hC.used_fixed hkeep.fixed (hB.used (hkeep.used_iff.mp ht) hne)

/-- A process that returns to user code, after a step that leaves the fields of birth alone. -/
theorem born_return (hC : Birth C U) (hB : Born C U m) (hi : m'.inc = m.inc)
    (hinit : m'.k.initproc = m.k.initproc) (hpc : m'.pc = Function.update m.pc s .user)
    (hf : ∀ t, Fixed (m.k.proc t) (m'.k.proc t)) (hu : ∀ t, (m'.k.proc t).Used → (m.k.proc t).Used) :
    Born C U m' := by
  refine hB.frame hC hi hinit (fun {t st q} h => ?_) (fun {t} ht => ⟨hu t ht, hf t⟩)
  rw [hpc] at h
  exact ⟨create_of_update_user h, hf q⟩

theorem Effect.born (hC : Birth C U) (hB : Base m) (hb : Born C U m) (h : Effect m mv m') :
    Born C U m' := by
  cases h.change hB.sched hB.life with
  | quiet _ hq =>
    exact hb.frame hC hq.inc hq.globals.initproc
      (fun hpc => ⟨(hq.create _ _ _).mp hpc, (hq.keep _).fixed⟩)
      (fun ht => ⟨(hq.keep _).used_iff.mp ht, (hq.keep _).fixed⟩)
  | alloc hs _ ha => exact Allocates.born hC hb ⟨hB.life, hs, ha, rfl, rfl⟩
  | stmt _ hpc hk => exact born_stmt hC hB.life hb hpc hk (by simp) (record_inc _ _ _ _ _)
  | @commit s _ k _ _ hk =>
    obtain ⟨_, -, -, -, -, hinit, -⟩ := execCommit_ok hk
    refine born_return hC hb rfl hinit rfl (execCommit_fixed hk) (fun t ht => ?_)
    unfold Proc.Used at ht ⊢
    rwa [setPc_k, setK_k, execCommit_state hk] at ht
  | @exit c s hrun =>
    exact born_return hC hb rfl (exitLocked_globals m.k s).initproc rfl (exitLocked_fixed m.k s)
      fun t => (exitLocked_used_iff m.k hrun).mp
  | waitReap _ hR | joinReap _ _ hR => exact hR.born hC hB.life hb

theorem born_boot (n : ℕ) (ofile : Fd → Option FileId) (ft : FTable) :
    Born C U (boot n ofile ft) := by
  refine ⟨fun {s st np} h => ?_, fun {t} ht hne => ?_⟩
  · cases h
  · have hp : (boot n ofile ft).k.proc t = Proc.zero := by
      simp only [boot, bootKernel]
      exact Function.update_of_ne hne _ _
    rw [hp] at ht
    exact absurd rfl ht.ne_unused

/-- **What holds from birth on, holds in every reachable state.** -/
theorem Reach.born {ok : Machine n → Action n → Prop} (hC : Birth C U)
    (h : (machine n).Reach ok m) : Born C U m := by
  refine h.invariant_of_reach ?_ fun m a m' hr hb _ hst => ?_
  · rintro _ ⟨ofile, ft, rfl⟩
    exact born_boot n ofile ft
  · have hst : m.step a = .ok m' := hst
    exact (step_effect hst).born hC (Reach.base hr) hb

end Induction

/-! ### The ids and the thread fields -/

/-- The `tid` of the new slot is set once a statement after the assignment is next. -/
def Stmt.PastTid : Stmt → Prop
  | .forkOfile | .forkCwd | .forkRun => True
  | .clonePgdir | .cloneIsthread | .cloneCopyout | .cloneFiles | .cloneFs | .cloneRun => True
  | _ => False

/-- The `isthread` of the new slot is set once a statement after the assignment is next. -/
def Stmt.PastThread : Stmt → Prop
  | .forkTid | .forkOfile | .forkCwd | .forkRun => True
  | .cloneCopyout | .cloneFiles | .cloneFs | .cloneRun => True
  | _ => False

/-- The `threadparent` of the new slot is set once a statement after the assignment is next. -/
def Stmt.PastThreadparent : Stmt → Prop
  | .cloneIds => True
  | .clonePgdir | .cloneIsthread | .cloneCopyout | .cloneFiles | .cloneFs | .cloneRun => True
  | _ => False

/-- The record of the slot that `s` is creating. -/
structure Creating (s : Slot) (st : Stmt) (p : Proc) (i : ℤ) : Prop where
  pid : ¬ st.PastTid → p.pid = i
  tid : st.PastTid → p.tid = i
  thread : st.PastThread → (p.isthread = true ↔ ¬ st.Forking)
  threadparent : st.PastThreadparent → p.threadparent = some s

theorem creating_next {k k' : Kernel} {st : Stmt} {o : Oracle} {i : ℤ}
    (h : st.exec k s np o = .ok (k', some st.succ)) (hpub : ¬ st.Publishes)
    (hC : Creating s st (k.proc np) i) : Creating s st.succ (k'.proc np) i := by
  have hpid := exec_pid h
  have htid := exec_tid h
  have hth := exec_isthread h
  have htp := exec_threadparent h
  obtain ⟨h1, h2, h3, h4⟩ := hC
  refine ⟨fun hs => ?_, fun hs => ?_, fun hs => ?_, fun hs => ?_⟩
  · -- only `cloneIds` writes the `pid`, and it is the last statement before `PastTid`
    have hst : ¬ st.PastTid ∧ st ≠ .cloneIds := by
      cases st <;> simp_all [Stmt.PastTid, Stmt.succ, Stmt.Publishes]
    rw [hpid, if_neg fun hc => hst.2 hc.1]
    exact h1 hst.1
  · rw [htid]
    split_ifs with hc
    · exact h1 (by rcases hc with rfl | rfl <;> exact id)
    · refine h2 ?_
      cases st with
      | kstack fl => cases fl <;> exact hs.elim
      | _ => simp_all [Stmt.PastTid, Stmt.succ, Stmt.Publishes]
  · rw [st.succ_forking, hth]
    cases st with
    | kstack fl => cases fl <;> exact hs.elim
    | _ => simp_all [Stmt.PastThread, Stmt.succ, Stmt.Publishes, Stmt.Forking]
  · rw [htp]
    split_ifs with hc
    · rfl
    · refine h4 ?_
      cases st with
      | kstack fl => cases fl <;> exact hs.elim
      | _ => simp_all [Stmt.PastThreadparent, Stmt.succ, Stmt.Publishes]

theorem birth_creating : Birth Creating fun p i => p.tid = i where
  create_fixed hF hC := by
    refine ⟨fun h => ?_, fun h => ?_, fun h => ?_, fun h => ?_⟩
    · rw [hF.pid, hC.pid h]
    · rw [hF.tid, hC.tid h]
    · rw [hF.isthread, hC.thread h]
    · rw [hF.threadparent, hC.threadparent h]
  used_fixed hF hU := hF.tid.trans hU
  claim hp := ⟨fun _ => hp, fun h => h.elim, fun h => h.elim, fun h => h.elim⟩
  next := creating_next
  publish h hpub hC := by
    rw [exec_tid h, if_neg (by rintro (rfl | rfl) <;> rcases hpub with h | h <;> cases h)]
    exact hC.tid (by rcases hpub with rfl | rfl <;> trivial)

/-- A published slot but the first has the number it was allocated with as its `tid`; a slot in
creation gets it on the way. -/
theorem Reach.creating {ok : Machine n → Action n → Prop} (h : (machine n).Reach ok m) :
    Born Creating (fun p i => p.tid = i) m :=
  Reach.born birth_creating h

/-! ### The thread ids in the table -/

/-- The thread ids in the table, of reclaimed slots too, come from different allocations. -/
structure Tids (m : Machine n) : Prop where
  lt : ∀ t, (m.k.proc t).tid < m.k.nextpid
  nonneg : ∀ t, 0 ≤ (m.k.proc t).tid ∧ 0 ≤ m.inc t
  inj : ∀ {t t'}, t ≠ t' → (m.k.proc t).tid = (m.k.proc t').tid → (m.k.proc t).tid = 0
  ne_inc : ∀ {t t'}, t ≠ t' → (m.k.proc t).tid = m.inc t' → m.inc t' = 0
  inc_inj : ∀ {t t'}, t ≠ t' → m.inc t = m.inc t' → m.inc t = 0
  thread : ∀ {t}, (m.k.proc t).isthread = true → (m.k.proc t).tid ≠ 0

namespace Tids

/-- Two slots that hold a thread with the same `tid` are one. -/
theorem unique (hT : Tids m) {p q : Slot} {tid : ℤ} (hp : IsThread m.k tid p)
    (hq : IsThread m.k tid q) : p = q := by
  by_contra hne
  exact hT.thread hp.2 (hT.inj hne (hp.1.trans hq.1.symm))

/-- A step that draws no number; a thread id may be cleared. -/
theorem frame (hT : Tids m) (hi : m'.inc = m.inc) (hn : m'.k.nextpid = m.k.nextpid)
    (h0 : 0 < m.k.nextpid)
    (h : ∀ t, (m'.k.proc t).tid = (m.k.proc t).tid ∨ (m'.k.proc t).tid = 0)
    (hth : ∀ t, (m'.k.proc t).isthread = true → (m'.k.proc t).tid ≠ 0) : Tids m' where
  lt t := by
    rw [hn]
    rcases h t with h1 | h1 <;> rw [h1]
    · exact hT.lt t
    · exact h0
  nonneg t := by
    rw [hi]
    rcases h t with h1 | h1 <;> rw [h1]
    · exact hT.nonneg t
    · exact ⟨le_refl 0, (hT.nonneg t).2⟩
  inj {t t'} hne he := by
    rcases h t with h1 | h1
    · rcases h t' with h2 | h2
      · rw [h1]
        exact hT.inj hne (by rw [← h1, ← h2, he])
      · rw [he, h2]
    · exact h1
  ne_inc {t t'} hne he := by
    rw [hi] at he ⊢
    rcases h t with h1 | h1
    · exact hT.ne_inc hne (h1.symm.trans he)
    · exact he.symm.trans h1
  inc_inj hne he := by
    rw [hi] at he ⊢
    exact hT.inc_inj hne he
  thread {t} ht := hth t ht

end Tids

theorem tids_alloc (hT : Tids m) (hN : Names m) (ha : allocproc m.k = some (np, m'.k))
    (hi : m'.inc = Function.update m.inc np m.k.nextpid) : Tids m' := by
  obtain ⟨-, hp, hn, -⟩ := allocproc_some ha
  have hf : ∀ t, (m'.k.proc t).tid = (m.k.proc t).tid ∧
      (m'.k.proc t).isthread = (m.k.proc t).isthread := by
    intro t
    rw [hp]
    split_ifs with h
    · rw [h]
      exact ⟨rfl, rfl⟩
    · exact ⟨rfl, rfl⟩
  have hlt : ∀ t, m.inc t < m.k.nextpid := hN.lt
  have hnext := hN.next
  refine ⟨fun t => ?_, fun t => ?_, fun {t t'} hne he => ?_, fun {t t'} hne he => ?_,
    fun {t t'} hne he => ?_, fun {t} ht => ?_⟩
  · rw [(hf t).1, hn]
    have := hT.lt t
    omega
  · rw [(hf t).1, hi, Function.update_apply]
    refine ⟨(hT.nonneg t).1, ?_⟩
    split_ifs
    · omega
    · exact (hT.nonneg t).2
  · rw [(hf t).1, (hf t').1] at he
    rw [(hf t).1]
    exact hT.inj hne he
  · rw [(hf t).1, hi, Function.update_apply] at he
    rw [hi, Function.update_apply]
    have := hT.lt t
    split_ifs at he ⊢
    · omega
    · exact hT.ne_inc hne he
  · rw [hi, Function.update_apply, Function.update_apply] at he
    rw [hi, Function.update_apply]
    have h1 := hlt t
    have h2 := hlt t'
    split_ifs at he ⊢ with h3 h4 h4
    · exact absurd (h3.trans h4.symm) hne
    · omega
    · omega
    · exact hT.inc_inj hne he
  · rw [(hf t).2] at ht
    rw [(hf t).1]
    exact hT.thread ht

theorem tids_stmt (hT : Tids m) (hL : Life m) (hN : Names m)
    (hC : Born Creating (fun p i => p.tid = i) m) {st : Stmt} {o : Oracle} {nx : Option Stmt}
    (hpc : m.pc s = .create st np) (hk : st.exec m.k s np o = .ok (m'.k, nx))
    (hi : m'.inc = m.inc) : Tids m' := by
  have hcr := hC.create hpc
  have hn := (exec_globals hk).1
  have hpos := hN.pos (t := np) (by rw [hL.embryo hpc]; decide)
  have hof : ∀ {t}, t ≠ np → (m'.k.proc t).tid = (m.k.proc t).tid ∧
      (m'.k.proc t).isthread = (m.k.proc t).isthread := fun ht =>
    ⟨(exec_keep_of_ne hk ht).tid, (exec_keep_of_ne hk ht).isthread⟩
  by_cases hst : st = .forkTid ∨ st = .cloneIds
  · -- the new slot gets its own number
    have htid : (m'.k.proc np).tid = m.inc np := by
      rw [exec_tid hk, if_pos hst]
      exact hcr.pid (by rcases hst with rfl | rfl <;> exact id)
    -- no other slot has this number as its `tid`
    have hother : ∀ {t}, t ≠ np → (m'.k.proc t).tid ≠ m.inc np := by
      intro t ht he
      rw [(hof ht).1] at he
      have := hT.ne_inc ht he
      omega
    refine ⟨fun t => ?_, fun t => ?_, fun {t t'} hne he => ?_, fun {t t'} hne he => ?_,
      fun {t t'} hne he => ?_, fun {t} ht => ?_⟩
    · rw [hn]
      by_cases htn : t = np
      · rw [htn, htid]
        exact hN.lt np
      · rw [(hof htn).1]
        exact hT.lt t
    · rw [hi]
      refine ⟨?_, (hT.nonneg t).2⟩
      by_cases htn : t = np
      · rw [htn, htid]
        exact (hT.nonneg np).2
      · rw [(hof htn).1]
        exact (hT.nonneg t).1
    · by_cases htn : t = np
      · subst htn
        exact absurd (he.symm.trans htid) (hother hne.symm)
      · by_cases htn' : t' = np
        · subst htn'
          exact absurd (he.trans htid) (hother htn)
        · rw [(hof htn).1, (hof htn').1] at he
          rw [(hof htn).1]
          exact hT.inj hne he
    · rw [hi] at he ⊢
      by_cases htn : t = np
      · rw [htn, htid] at he
        rw [← he]
        exact hT.inc_inj (htn ▸ hne) he
      · exact hT.ne_inc hne ((hof htn).1.symm.trans he)
    · rw [hi] at he ⊢
      exact hT.inc_inj hne he
    · by_cases htn : t = np
      · rw [htn, htid]
        omega
      · rw [(hof htn).1]
        exact hT.thread ((hof htn).2.symm.trans ht)
  · have htid : ∀ t, (m'.k.proc t).tid = (m.k.proc t).tid := by
      intro t
      by_cases htn : t = np
      · rw [htn, exec_tid hk, if_neg hst]
      · exact (hof htn).1
    refine hT.frame hi hn hN.next (fun t => Or.inl (htid t)) (fun t ht => ?_)
    rw [htid]
    by_cases htn : t = np
    · subst htn
      rw [exec_isthread hk] at ht
      split at ht
      · cases ht
      · -- `clone` has set the `tid` before
        rw [hcr.tid trivial]
        omega
      · exact hT.thread ht
    · exact hT.thread ((hof htn).2.symm.trans ht)

/-- A step that leaves the thread fields alone. -/
theorem Tids.of_fixed (hT : Tids m) (hi : m'.inc = m.inc) (hn : m'.k.nextpid = m.k.nextpid)
    (h0 : 0 < m.k.nextpid) (h : ∀ t, Fixed (m.k.proc t) (m'.k.proc t)) : Tids m' := by
  refine hT.frame hi hn h0 (fun t => Or.inl (h t).tid) (fun t ht => ?_)
  rw [(h t).tid]
  exact hT.thread ((h t).isthread.symm.trans ht)

/-- A reclaimed slot keeps its thread fields, or they are cleared together. -/
theorem Reclaim.tids {p : Slot} {b : Bool} (hT : Tids m) (h0 : 0 < m.k.nextpid)
    (h : Reclaim m m' s p b) (hp : ((m'.k.proc p).tid = (m.k.proc p).tid ∧
        (m'.k.proc p).isthread = (m.k.proc p).isthread) ∨
      ((m'.k.proc p).tid = 0 ∧ (m'.k.proc p).isthread = false)) : Tids m' := by
  refine hT.frame h.inc h.nextpid h0 (fun t => ?_) (fun t ht => ?_)
  · by_cases htp : t = p
    · rw [htp]
      exact hp.imp And.left And.left
    · exact Or.inl (h.keep t htp).tid
  · by_cases htp : t = p
    · subst htp
      rcases hp with ⟨h1, h2⟩ | ⟨-, h2⟩
      · rw [h1]
        exact hT.thread (h2.symm.trans ht)
      · rw [h2] at ht
        cases ht
    · rw [(h.keep t htp).tid]
      exact hT.thread ((h.keep t htp).isthread.symm.trans ht)

theorem Effect.tids (hB : Base m) (hN : Names m) (hC : Born Creating (fun p i => p.tid = i) m)
    (hT : Tids m) (h : Effect m mv m') : Tids m' := by
  cases h.change hB.sched hB.life with
  | quiet _ hq => exact hT.of_fixed hq.inc hq.globals.nextpid hN.next fun t => (hq.keep t).fixed
  | alloc _ _ ha => exact tids_alloc hT hN ha rfl
  | stmt _ hpc hk => exact tids_stmt hT hB.life hN hC hpc hk (record_inc _ _ _ _ _)
  | commit _ _ hk =>
    obtain ⟨_, -, -, -, hn, -⟩ := execCommit_ok hk
    exact hT.of_fixed rfl hn hN.next (execCommit_fixed hk)
  | @exit _ s =>
    exact hT.of_fixed rfl (exitLocked_globals m.k s).nextpid hN.next (exitLocked_fixed m.k s)
  | waitReap _ hR hth htid => exact hR.tids hT hN.next (Or.inr ⟨htid, hth⟩)
  | joinReap _ _ hR hth htid => exact hR.tids hT hN.next (Or.inl ⟨htid, hth⟩)

theorem tids_boot (n : ℕ) (ofile : Fd → Option FileId) (ft : FTable) : Tids (boot n ofile ft) := by
  have hp : ∀ t, ((boot n ofile ft).k.proc t).tid = 0 ∧
      ((boot n ofile ft).k.proc t).isthread = false := by
    intro t
    simp only [boot, bootKernel, Function.update_apply]
    split_ifs <;> exact ⟨rfl, rfl⟩
  have hinc : ∀ t, (boot n ofile ft).inc t = if t = 0 then 1 else 0 := fun t => by
    simp only [boot, Function.update_apply]
  refine ⟨fun t => ?_, fun t => ?_, fun _ _ => (hp _).1, fun {t t'} hne he => ?_,
    fun {t t'} hne he => ?_, fun {t} ht => ?_⟩
  · rw [(hp t).1]
    simp [boot, bootKernel]
  · rw [(hp t).1, hinc]
    split_ifs <;> omega
  · rw [← he, (hp t).1]
  · rw [hinc, hinc] at he
    rw [hinc]
    split_ifs at he ⊢ with h1 h2
    · exact absurd (h1.trans h2.symm) hne
    · cases he
    · rfl
    · rfl
  · rw [(hp t).2] at ht
    cases ht

theorem Reach.tids {ok : Machine n → Action n → Prop} (h : (machine n).Reach ok m) : Tids m := by
  refine h.invariant_of_reach ?_ fun m a m' hr hT _ hst => ?_
  · rintro _ ⟨ofile, ft, rfl⟩
    exact tids_boot n ofile ft
  · have hst : m.step a = .ok m' := hst
    exact (step_effect hst).tids (Reach.base hr) (Reach.names hr) (Reach.creating hr) hT

end OsSemester.Xv6
