import OsSemester.Xv6.Inv.Birth

/-!
# Process pointers

`parent` and `threadparent` are raw slot pointers.  They stay with the process they were set to as
long as `exit` leaves no child behind that it does not pass to `initproc`, and no slot is reclaimed
that a thread still has as its `threadparent`: `process_pointers`.  The invariant behind it is `Kin`:
the parent of every process but the first is live.
-/

namespace OsSemester.Xv6

open Machine

variable {n : ℕ} {m m' : Machine n} {a : Action n} {mv : Move} {c : Fin n} {s p q np t w z : Slot}

/-- In this control state the process is creating `t` and has set its parent. -/
def Pc.Places (t : Slot) : Pc → Prop
  | .create st np => np = t ∧ st.PastParent
  | _ => False

instance : DecidablePred Stmt.PastParent := fun st => by
  unfold Stmt.PastParent
  split <;> infer_instance

instance (t : Slot) : DecidablePred (Pc.Places t)
  | .create st np => inferInstanceAs (Decidable (np = t ∧ st.PastParent))
  | .user | .exec | .exit _ => instDecidableFalse

/-- The `parent` of the slot is the one of its present occupant. -/
def Machine.Placed (m : Machine n) (t : Slot) : Prop :=
  (m.k.proc t).Used ∨ ∃ s, (m.pc s).Places t

instance (m : Machine n) : DecidablePred m.Placed := fun t => by
  unfold Placed
  infer_instance

/-- The moves that leave no pointer behind:

* `CLONE_PARENT` is not used by `initproc`, which has no parent, nor by a thread of `initproc`;
* an exiting process has no thread as its child, an exiting thread no child at all;
* a slot is reclaimed when no thread has it as its `threadparent` any more. -/
def Handover (m : Machine n) : Move → Prop
  | .stmt s np _ .cloneParent => (m.k.proc np).cloneParent = true → s ≠ m.k.initproc ∧
      ((m.k.proc s).isthread = true → (m.k.proc s).parent ≠ some m.k.initproc)
  | .exit e => ∀ t, (m.k.proc t).parent = some e → m.Placed t →
      (m.k.proc e).isthread = false ∧ (m.k.proc t).isthread = false
  | .waitReap _ p | .joinReap _ _ p => ∀ t, (m.k.proc t).threadparent = some p →
      (m.k.proc t).isthread = true → ¬ (m.k.proc t).Used
  | _ => True

instance (m : Machine n) : DecidablePred (Handover m)
  | .stmt s np _ st =>
    decidable_of_iff (st = .cloneParent → (m.k.proc np).cloneParent = true → s ≠ m.k.initproc ∧
      ((m.k.proc s).isthread = true → (m.k.proc s).parent ≠ some m.k.initproc))
      (by cases st <;> simp [Handover])
  | .exit e => inferInstanceAs (Decidable (∀ t, (m.k.proc t).parent = some e → m.Placed t →
      (m.k.proc e).isthread = false ∧ (m.k.proc t).isthread = false))
  | .waitReap _ p | .joinReap _ _ p => inferInstanceAs (Decidable (∀ t, (m.k.proc t).threadparent = some p →
      (m.k.proc t).isthread = true → ¬ (m.k.proc t).Used))
  | .other | .alloc _ _ _ | .unshare _ | .commit _ _ | .exitOfile _ | .exitNext _ _ | .waitBlock _
  | .joinBlock _ _ _ | .kill _ | .tkill _ => instDecidableTrue

/-- The move of the step leaves no pointer behind. -/
def HandoverStep (m : Machine n) (a : Action n) : Prop := Handover m (m.move a)

instance (m : Machine n) (a : Action n) : Decidable (HandoverStep m a) := by
  unfold HandoverStep
  infer_instance

/-- A call of `wait`, or of `join` with its `tid`, by `w` reclaims the `ZOMBIE` slot `z`.  Of several
`ZOMBIE` children `wait` reclaims the first in the table first. -/
def Reclaims (k : Kernel) (w z : Slot) : Prop :=
  waitable k w z = true ∨ ∀ found, joinScan k w (k.proc z).tid found = .reap z

/-- Every slot but the first that holds a process points to the occupant its pointers were set to,
and every `ZOMBIE` can be reclaimed. -/
structure Pointers (m : Machine n) : Prop where
  parent : ∀ t, t ≠ m.k.initproc → (m.k.proc t).state ≠ .unused → (m.k.proc t).state ≠ .embryo →
    ∃ q, (m.k.proc t).parent = some q ∧ (m.k.proc q).state ≠ .unused ∧ m.inc q = m.parentInc t
  threadparent : ∀ t, t ≠ m.k.initproc → (m.k.proc t).state ≠ .unused →
    (m.k.proc t).state ≠ .embryo → (m.k.proc t).isthread = true →
    ∃ q, (m.k.proc t).threadparent = some q ∧ (m.k.proc q).state ≠ .unused ∧
      m.inc q = m.threadparentInc t
  reclaimable : ∀ z, (m.k.proc z).state = .zombie →
    ∃ w, (m.k.proc w).state.Live ∧ Reclaims m.k w z

/-- The parents of the slots in use, and of those that will be. -/
structure Kin (m : Machine n) : Prop where
  first : (m.k.proc m.k.initproc).isthread = false
  parent : ∀ {t}, m.Placed t → t ≠ m.k.initproc →
    ∃ q, (m.k.proc t).parent = some q ∧ (m.k.proc q).state.Live ∧ m.inc q = m.parentInc t
  creator : ∀ {s st np}, m.pc s = .create st np → st.PastThreadparent →
    m.threadparentInc np = m.inc s
  threadparent : ∀ {t}, (m.k.proc t).Used → t ≠ m.k.initproc → (m.k.proc t).isthread = true →
    ∃ q, (m.k.proc t).threadparent = some q ∧ (m.k.proc q).Used ∧ m.inc q = m.threadparentInc t

theorem placed_of_create {st : Stmt} (h : m.pc s = .create st np) (hst : st.PastParent) :
    m.Placed np := Or.inr ⟨s, by rw [h]; exact ⟨rfl, hst⟩⟩

theorem Pc.Places.create {pc : Pc} (h : pc.Places t) : ∃ st, pc = .create st t ∧ st.PastParent := by
  cases pc with
  | create st np =>
    obtain ⟨rfl, hst⟩ := h
    exact ⟨st, rfl, hst⟩
  | _ => exact h.elim

/-- The occupants of the table after a step are those before, and so are the slots in creation. -/
theorem placed_mono (hu : (m'.k.proc t).Used → (m.k.proc t).Used)
    (hc : ∀ {s st}, m'.pc s = .create st t → m.pc s = .create st t) (h : m'.Placed t) :
    m.Placed t := by
  rcases h with h | ⟨s, h⟩
  · exact Or.inl (hu h)
  · obtain ⟨st, hpc, hst⟩ := h.create
    exact placed_of_create (hc hpc) hst

namespace Kin

/-- A step that creates nothing and writes no `threadparent`. -/
theorem frame (hK : Kin m) (hi : m'.inc = m.inc) (htp : m'.threadparentInc = m.threadparentInc)
    (hinit : m'.k.initproc = m.k.initproc)
    (hfirst : (m'.k.proc m.k.initproc).isthread = (m.k.proc m.k.initproc).isthread)
    (hpar : ∀ {t}, m'.Placed t → t ≠ m.k.initproc → ∃ q, (m'.k.proc t).parent = some q ∧
      (m'.k.proc q).state.Live ∧ m.inc q = m'.parentInc t)
    (hcreate : ∀ {s st np}, m'.pc s = .create st np → m.pc s = .create st np)
    (hused : ∀ {t}, (m'.k.proc t).Used → (m.k.proc t).Used ∧ Fixed (m.k.proc t) (m'.k.proc t))
    (htarget : ∀ {t q}, (m'.k.proc t).Used → (m.k.proc t).isthread = true →
      (m.k.proc t).threadparent = some q → (m.k.proc q).Used → (m'.k.proc q).Used) : Kin m' where
  first := by
    rw [hinit, hfirst]
    exact hK.first
  parent ht hne := by
    rw [hinit] at hne
    rw [hi]
    exact hpar ht hne
  creator h hst := by
    rw [hi, htp]
    exact hK.creator (hcreate h) hst
  threadparent {t} ht hne hth := by
    obtain ⟨hu, hf⟩ := hused ht
    rw [hinit] at hne
    rw [hf.isthread] at hth
    obtain ⟨q, hq, hqu, hqi⟩ := hK.threadparent hu hne hth
    rw [hi, htp]
    exact ⟨q, hf.threadparent.trans hq, htarget ht hth hq hqu, hqi⟩

/-- The parent of a slot that the step is not about. -/
theorem parent_of (hK : Kin m) (hpl : m.Placed t) (hne : t ≠ m.k.initproc)
    (hpar : (m'.k.proc t).parent = (m.k.proc t).parent) (hpi : m'.parentInc t = m.parentInc t)
    (hlive : ∀ {q}, (m.k.proc q).state.Live → (m'.k.proc q).state.Live) :
    ∃ q, (m'.k.proc t).parent = some q ∧ (m'.k.proc q).state.Live ∧ m.inc q = m'.parentInc t := by
  obtain ⟨q, hq, hl, hqi⟩ := hK.parent hpl hne
  exact ⟨q, hpar.trans hq, hlive hl, hqi.trans hpi.symm⟩

end Kin

theorem Quiet.kin (hK : Kin m) (h : Quiet m m') : Kin m' := by
  refine hK.frame h.inc h.threadparentInc h.globals.initproc (h.keep _).isthread
    (fun {t} ht hne => ?_) (fun hpc => (h.create _ _ _).mp hpc)
    (fun ht => ⟨(h.keep _).used_iff.mp ht, (h.keep _).fixed⟩)
    (fun _ _ _ hq => (h.keep _).used_iff.mpr hq)
  refine hK.parent_of (placed_mono (h.keep t).used_iff.mp (fun hpc => (h.create _ _ _).mp hpc) ht)
    hne (h.keep t).parent ?_ (h.keep _).live_iff.mpr
  rw [h.parentInc]

theorem Allocates.kin (hK : Kin m) {fl : Option ℤ} (hA : Allocates m m' s np fl)
    (hp : m'.parentInc = m.parentInc) (htp : m'.threadparentInc = m.threadparentInc) : Kin m' := by
  have hL := hA.life
  have hof : ∀ {t}, (m.k.proc t).state ≠ .unused →
      m'.k.proc t = m.k.proc t ∧ m'.inc t = m.inc t := by
    intro t ht
    have hne := hA.ne_of_not_unused ht
    exact ⟨hA.proc_of_ne hne, hA.inc_of_ne hne⟩
  have hlive : ∀ {t}, (m.k.proc t).state.Live → m'.k.proc t = m.k.proc t ∧ m'.inc t = m.inc t := by
    intro t ht
    exact hof (Proc.Used.ne_unused (Or.inl ht))
  have hcr : ∀ {t st q}, m'.pc t = .create st q → st.PastKstack → m.pc t = .create st q := by
    intro t st q h hst
    rcases hA.create h with ⟨-, rfl, -⟩ | ⟨h, -⟩
    · exact hst.elim
    · exact h
  have hused : ∀ {t}, (m'.k.proc t).Used → (m.k.proc t).Used := by
    intro t ht
    rwa [hA.proc_of_ne (hA.ne_of_used ht)] at ht
  have hplaced : ∀ {t}, m'.Placed t → m.Placed t ∧ (m.k.proc t).state ≠ .unused := by
    rintro t (ht | ⟨s', h⟩)
    · exact ⟨Or.inl (hused ht), (hused ht).ne_unused⟩
    · obtain ⟨st, h, hst⟩ := h.create
      have h := hcr h (by cases st <;> trivial)
      exact ⟨placed_of_create h hst, by rw [hL.embryo h]; decide⟩
  refine ⟨?_, fun {t} ht hne => ?_, fun {t st q} h hst => ?_, fun {t} ht hne hth => ?_⟩
  · rw [hA.initproc, (hlive hL.initLive).1]
    exact hK.first
  · obtain ⟨hpl, hne'⟩ := hplaced ht
    rw [hA.initproc] at hne
    obtain ⟨q, hq, hl, hqi⟩ := hK.parent hpl hne
    refine ⟨q, by rwa [(hof hne').1], by rwa [(hlive hl).1], ?_⟩
    rw [(hlive hl).2, hp, hqi]
  · have h := hcr h (by cases st <;> trivial)
    rw [htp, (hlive (hL.busy (by rw [h]; simp))).2]
    exact hK.creator h hst
  · have hu' := hused ht
    rw [(hof hu'.ne_unused).1] at hth ⊢
    rw [hA.initproc] at hne
    obtain ⟨q, hq, hqu, hqi⟩ := hK.threadparent hu' hne hth
    refine ⟨q, hq, by rwa [(hof hqu.ne_unused).1], ?_⟩
    rw [(hof hqu.ne_unused).2, htp, hqi]

/-! ### Statements of `fork` and `clone` -/

theorem succ_pastParent' {st : Stmt} (hpub : ¬ st.Publishes) :
    st.succ.PastParent ↔ st.PastParent ∨ st = .forkParent ∨ st = .cloneParent := by
  cases st with
  | kstack fl => cases fl <;> simp [Stmt.succ, Stmt.PastParent]
  | _ => simp_all [Stmt.succ, Stmt.PastParent, Stmt.Publishes]

theorem succ_pastThreadparent {st : Stmt} (hpub : ¬ st.Publishes) :
    st.succ.PastThreadparent ↔ st.PastThreadparent ∨ st = .cloneThreadparent := by
  cases st with
  | kstack fl => cases fl <;> simp [Stmt.succ, Stmt.PastThreadparent]
  | _ => simp_all [Stmt.succ, Stmt.PastThreadparent, Stmt.Publishes]

theorem record_parentInc (m : Machine n) (s np : Slot) (o : Oracle) (st : Stmt) (t : Slot) :
    (m.record s np o st).parentInc t =
      if t = np ∧ st = .forkParent then m.inc s
      else if t = np ∧ st = .cloneParent then m.incOf (cloneParentOf m.k s np o.wild)
      else m.parentInc t := by
  cases st <;> simp [record, Function.update_apply]

theorem record_threadparentInc (m : Machine n) (s np : Slot) (o : Oracle) (st : Stmt) (t : Slot) :
    (m.record s np o st).threadparentInc t =
      if t = np ∧ st = .cloneThreadparent then m.inc s else m.threadparentInc t := by
  cases st <;> simp [record, Function.update_apply]

/-- The parent that `clone` chooses is live, unless the caller has none to give. -/
theorem cloneParentOf_live (hK : Kin m) {o : Oracle} (hrun : (m.k.proc s).state = .running)
    (hok : Handover m (.stmt s np o .cloneParent)) :
    ∃ q, cloneParentOf m.k s np o.wild = some q ∧ (m.k.proc q).state.Live := by
  have hl : (m.k.proc s).state.Live := by
    rw [hrun]
    exact live_running
  have hparent : ∀ {t}, (m.k.proc t).state.Live → t ≠ m.k.initproc →
      ∃ q, (m.k.proc t).parent = some q ∧ (m.k.proc q).state.Live := by
    intro t ht hne
    obtain ⟨q, hq, hql, -⟩ := hK.parent (Or.inl (Or.inl ht)) hne
    exact ⟨q, hq, hql⟩
  unfold cloneParentOf
  cases hcp : (m.k.proc np).cloneParent with
  | true =>
    obtain ⟨hne, hth⟩ := hok hcp
    obtain ⟨q, hq, hql⟩ := hparent hl hne
    simp only [if_true]
    cases hs : (m.k.proc s).isthread with
    | true =>
      -- the grandparent of the thread
      have hqi : q ≠ m.k.initproc := by
        rintro rfl
        exact hth hs hq
      simp only [if_true, grandparent, hq]
      exact hparent hql hqi
    | false =>
      simp only [Bool.false_eq_true, if_false]
      exact ⟨q, hq, hql⟩
  | false =>
    simp only [Bool.false_eq_true, if_false]
    cases hs : (m.k.proc s).isthread with
    | true =>
      simp only [if_true]
      refine hparent hl ?_
      rintro rfl
      rw [hK.first] at hs
      cases hs
    | false =>
      simp only [Bool.false_eq_true, if_false]
      exact ⟨s, rfl, hl⟩

theorem kin_stmt (hL : Life m) (hC : Born Creating (fun p i => p.tid = i) m) (hK : Kin m)
    {st : Stmt} {o : Oracle} {nx : Option Stmt} (hok : Handover m (.stmt s np o st))
    (hrun : (m.k.proc s).state = .running) (hpc : m.pc s = .create st np)
    (hk : st.exec m.k s np o = .ok (m'.k, nx))
    (hpc' : m'.pc = Function.update m.pc s (pcAfter np nx)) (hi : m'.inc = m.inc)
    (hp : m'.parentInc = (m.record s np o st).parentInc)
    (htp : m'.threadparentInc = (m.record s np o st).threadparentInc) : Kin m' := by
  have hemb := hL.embryo hpc
  have hinit := (exec_globals hk).2.1
  have hof : ∀ {t}, t ≠ np → Keep (m.k.proc t) (m'.k.proc t) := fun ht => exec_keep_of_ne hk ht
  have hused : ∀ {t}, (m.k.proc t).Used → t ≠ np := by
    rintro t ht rfl
    exact ht.ne_embryo hemb
  have hlive : ∀ {t}, (m.k.proc t).state.Live → (m'.k.proc t).state.Live := fun ht =>
    (hof (hused (Or.inl ht))).live_iff.mpr ht
  have hs : (m.k.proc s).state.Live := by
    rw [hrun]
    exact live_running
  have hother : ∀ {t st' q}, t ≠ s → m.pc t = .create st' q → q ≠ np := by
    rintro t st' q ht hq rfl
    exact ht (hL.creator hq hpc)
  have hni : m.k.initproc ≠ np := hused (Or.inl hL.initLive)
  have hpar := exec_parent hk
  have hpi := record_parentInc m s np o st
  have hti := record_threadparentInc m s np o st
  refine ⟨?_, fun {t} ht hne => ?_, fun {t st' q} h hst => ?_, fun {t} ht hne hth => ?_⟩
  · rw [hinit, (hof hni).isthread]
    exact hK.first
  · rw [hinit] at hne
    rw [hi, hp]
    by_cases htn : t = np
    · subst htn
      by_cases hset : st = .forkParent ∨ st = .cloneParent
      · -- the statement that sets the parent
        rcases hset with rfl | rfl
        · refine ⟨s, hpar, hlive hs, ?_⟩
          rw [hpi, if_pos ⟨rfl, rfl⟩]
        · obtain ⟨q, hq, hl⟩ := cloneParentOf_live hK hrun hok
          refine ⟨q, hpar.trans hq, hlive hl, ?_⟩
          rw [hpi, if_neg (by simp), if_pos ⟨rfl, rfl⟩, hq]
          rfl
      -- the slot has its parent from an earlier statement
      · have hpast : st.PastParent := by
          rcases ht with ht | ⟨s', h⟩
          · obtain ⟨rfl, hpub, -⟩ := exec_published hk hemb ht.ne_embryo ht.ne_unused
            rcases hpub with rfl | rfl <;> trivial
          · obtain ⟨st', h, hst⟩ := h.create
            rw [hpc'] at h
            rcases pc_create_stmt hpc h with ⟨-, rfl, -⟩ | ⟨hts, h⟩
            · obtain ⟨rfl, hpub⟩ := exec_next hk
              exact ((succ_pastParent' hpub).mp hst).resolve_right hset
            · exact absurd rfl (hother hts h)
        obtain ⟨q, hq, hl, hqi⟩ := hK.parent (placed_of_create hpc hpast) hne
        refine ⟨q, ?_, hlive hl, ?_⟩
        · rw [hpar]
          split
          · exact absurd (Or.inl rfl) hset
          · exact absurd (Or.inr rfl) hset
          · exact hq
        · rw [hpi, if_neg fun h => hset (Or.inl h.2), if_neg fun h => hset (Or.inr h.2), hqi]
    · have hpl : m.Placed t := by
        rcases ht with ht | ⟨s', h⟩
        · exact Or.inl ((hof htn).used_iff.mp ht)
        · obtain ⟨st', h, hst⟩ := h.create
          rw [hpc'] at h
          rcases pc_create_stmt hpc h with ⟨-, -, rfl⟩ | ⟨-, h⟩
          · exact absurd rfl htn
          · exact placed_of_create h hst
      have := hK.parent_of hpl hne (hof htn).parent
        (by rw [hp, hpi, if_neg fun h => htn h.1, if_neg fun h => htn h.1]) hlive
      rwa [hp] at this
  · rw [hpc'] at h
    rw [hi, htp, hti]
    rcases pc_create_stmt hpc h with ⟨rfl, rfl, rfl⟩ | ⟨hts, h⟩
    · obtain ⟨rfl, hpub⟩ := exec_next hk
      split_ifs with hset
      · rfl
      · exact hK.creator hpc (((succ_pastThreadparent hpub).mp hst).resolve_right
          fun h => hset ⟨rfl, h⟩)
    · rw [if_neg fun h' => hother hts h h'.1]
      exact hK.creator h hst
  · rw [hinit] at hne
    rw [hi, htp, hti]
    by_cases htn : t = np
    · subst htn
      obtain ⟨rfl, hpub, -⟩ := exec_published hk hemb ht.ne_embryo ht.ne_unused
      have hcr := hC.create hpc
      rw [exec_isthread hk] at hth
      rcases hpub with rfl | rfl
      · exact absurd trivial ((hcr.thread trivial).mp hth)
      · refine ⟨s, ?_, Or.inl (hlive hs), ?_⟩
        · rw [exec_threadparent hk, if_neg (by simp)]
          exact hcr.threadparent trivial
        · rw [if_neg (by simp)]
          exact (hK.creator hpc trivial).symm
    · have hkp := hof htn
      rw [hkp.isthread] at hth
      obtain ⟨q, hq, hqu, hqi⟩ := hK.threadparent (hkp.used_iff.mp ht) hne hth
      refine ⟨q, hkp.threadparent.trans hq, (hof (hused hqu)).used_iff.mpr hqu, ?_⟩
      rw [if_neg fun h => htn h.1]
      exact hqi

/-! ### `exec`, `exit` and reclamation -/

theorem kin_commit (hK : Kin m) {k : Kernel} {sz : ℕ} (hk : execCommit m.k s sz = .ok k) :
    Kin ((m.setK k).setPc s .user) := by
  obtain ⟨d, -, -, -, -, hinit, -, -, hp⟩ := execCommit_ok hk
  have hst := execCommit_state hk
  have hf := execCommit_fixed hk
  have hpar : ∀ t, (k.proc t).parent = (m.k.proc t).parent := by
    intro t
    rw [hp]
    split_ifs with hts
    · rw [hts]
    · rfl
  have hu : ∀ {t}, (k.proc t).Used ↔ (m.k.proc t).Used := by
    intro t
    unfold Proc.Used
    rw [hst]
  have hcr : ∀ {t st q}, ((m.setK k).setPc s .user).pc t = .create st q →
      m.pc t = .create st q :=
    create_of_update_user
  refine hK.frame rfl rfl hinit (hf _).isthread (fun {t} ht hne => ?_) hcr
    (fun {t} ht => ⟨hu.mp ht, hf t⟩) (fun _ _ _ hq => hu.mpr hq)
  refine hK.parent_of (placed_mono hu.mp hcr ht) hne (hpar t) rfl fun {q} hl => ?_
  rwa [setPc_k, setK_k, hst]

/-- A slot that keeps its parent in the exit of `s` had another one; the others go to
`initproc`. -/
theorem kin_exit (hL : Life m) (hK : Kin m) (hok : Handover m (.exit s))
    (hrun : (m.k.proc s).state = .running) (hpc : m.pc s = .exit .zombie) :
    Kin ((((m.recordExit s).setK (exitLocked m.k s)).setPc s .user).sched c s .yield) := by
  have hinit := (exitLocked_globals m.k s).initproc
  have hf := exitLocked_fixed m.k s
  have hu : ∀ {t}, ((exitLocked m.k s).proc t).Used ↔ (m.k.proc t).Used :=
    exitLocked_used_iff m.k hrun
  have hcr : ∀ {t st q}, Function.update m.pc s .user t = .create st q →
      m.pc t = .create st q :=
    create_of_update_user
  refine hK.frame rfl rfl hinit (hf _).isthread (fun {t} ht hne => ?_) hcr
    (fun {t} ht => ⟨hu.mp ht, hf t⟩) (fun _ _ _ hq => hu.mpr hq)
  have hpl : m.Placed t := placed_mono hu.mp hcr ht
  obtain ⟨q, hq, hl, hqi⟩ := hK.parent hpl hne
  have hpi : ((((m.recordExit s).setK (exitLocked m.k s)).setPc s .user).sched c s .yield).parentInc
      t = if !(m.k.proc s).isthread && adopted m.k s t then m.inc m.k.initproc
        else m.parentInc t := rfl
  rw [hpi]
  simp only [sched_k, setPc_k, setK_k, exitLocked_parent]
  by_cases had : (m.k.proc s).isthread = false ∧ adopted m.k s t = true
  · rw [if_pos had, if_pos (by simp [had.1, had.2])]
    exact ⟨_, rfl, (exitLocked_live_iff m.k (hL.exiting hpc).symm).mpr hL.initLive, rfl⟩
  · rw [if_neg had, if_neg (by simpa using had)]
    have hqs : q ≠ s := by
      rintro rfl
      obtain ⟨h1, h2⟩ := hok t hq hpl
      exact had ⟨h1, by simp [adopted, hq, h2]⟩
    exact ⟨q, hq, (exitLocked_live_iff m.k hqs).mpr hl, hqi⟩

/-- A live process keeps its slot when another slot is reclaimed. -/
theorem Reclaim.kin {b : Bool} (hL : Life m) (hK : Kin m) (h : Reclaim m m' s p b)
    (hok : ∀ t, (m.k.proc t).threadparent = some p → (m.k.proc t).isthread = true →
      ¬ (m.k.proc t).Used) : Kin m' := by
  have hne : ∀ {t}, (m'.k.proc t).Used → t ≠ p := by
    rintro t ht rfl
    exact ht.ne_unused h.state
  have hlp : ∀ {t}, (m.k.proc t).state.Live → t ≠ p := by
    rintro t ht rfl
    rw [h.zombie] at ht
    exact not_live_zombie ht
  have hcr : ∀ {t st q}, m'.pc t = .create st q → m.pc t = .create st q := by
    intro t st q hpc
    rwa [h.pc] at hpc
  refine hK.frame h.inc h.threadparentInc h.initproc (h.keep _ (hlp hL.initLive)).isthread
    (fun {t} ht hni => ?_) hcr
    (fun {t} ht => ⟨(h.keep t (hne ht)).used_iff.mp ht, (h.keep t (hne ht)).fixed⟩)
    (fun {t q} ht hth hq hqu => ?_)
  · have htp : t ≠ p := by
      rcases ht with ht | ⟨s', hpl⟩
      · exact hne ht
      · obtain ⟨st, hpc, -⟩ := hpl.create
        have hemb := hL.embryo (hcr hpc)
        rintro rfl
        rw [h.zombie] at hemb
        cases hemb
    have hk := h.keep t htp
    refine hK.parent_of (placed_mono hk.used_iff.mp hcr ht) hni hk.parent (by rw [h.parentInc])
      fun hl => (h.keep _ (hlp hl)).live_iff.mpr hl
  · have htu := (h.keep t (hne ht)).used_iff.mp ht
    have hqp : q ≠ p := by
      rintro rfl
      exact hok t hq hth htu
    exact (h.keep q hqp).used_iff.mpr hqu

theorem Effect.kin (hB : Base m) (hC : Born Creating (fun p i => p.tid = i) m) (hK : Kin m)
    (hok : Handover m mv) (h : Effect m mv m') : Kin m' := by
  cases h.change hB.sched hB.life with
  | quiet _ hq => exact hq.kin hK
  | alloc hs _ ha => exact Allocates.kin hK ⟨hB.life, hs, ha, rfl, rfl⟩ rfl rfl
  | stmt hrun hpc hk =>
    exact kin_stmt hB.life hC hK hok hrun hpc hk (by simp) (record_inc _ _ _ _ _) rfl rfl
  | commit _ _ hk => exact kin_commit hK hk
  | exit hrun hpc => exact kin_exit hB.life hK hok hrun hpc
  | waitReap _ hR | joinReap _ _ hR => exact hR.kin hB.life hK hok

theorem kin_boot (n : ℕ) (ofile : Fd → Option FileId) (ft : FTable) : Kin (boot n ofile ft) := by
  have hne : ∀ {t}, t ≠ (boot n ofile ft).k.initproc → ¬ ((boot n ofile ft).k.proc t).Used := by
    intro t ht hu
    have hp : (boot n ofile ft).k.proc t = Proc.zero := by
      simp only [boot, bootKernel]
      exact Function.update_of_ne ht _ _
    rw [hp] at hu
    exact hu.ne_unused rfl
  refine ⟨?_, fun {t} ht h => ?_, fun h => ?_, fun ht h => absurd ht (hne h)⟩
  · simp [boot, bootKernel, initProc, Proc.zero]
  · rcases ht with ht | ⟨s, hs⟩
    · exact absurd ht (hne h)
    · exact hs.elim
  · cases h

theorem Reach.kin (h : (machine n).Reach HandoverStep m) : Kin m := by
  refine h.invariant_of_reach ?_ fun m a m' hr hK hok hst => ?_
  · rintro _ ⟨ofile, ft, rfl⟩
    exact kin_boot n ofile ft
  · have hst : m.step a = .ok m' := hst
    exact (step_effect hst).kin (Reach.base hr) (Reach.creating hr) hK hok

/-! ### What the pointers are good for -/

/-- The parent of a `ZOMBIE` can reclaim it. -/
theorem parent_reclaims (hT : Tids m) (hz : (m.k.proc z).state = .zombie)
    (hp : (m.k.proc z).parent = some w) : Reclaims m.k w z := by
  cases hth : (m.k.proc z).isthread with
  | false =>
    refine Or.inl ?_
    simp [waitable, hp, hth]
  | true =>
    refine Or.inr fun found => ?_
    have hz' : IsThread m.k (m.k.proc z).tid z := ⟨rfl, hth⟩
    refine joinLoop_reap_of_unique (fun q hq => hT.unique hq hz') hz' (List.mem_finRange z) ?_ hz
    unfold joinable
    split_ifs <;> simp [hp]

theorem Kin.pointers (hL : Life m) (hT : Tids m) (hK : Kin m) : Pointers m where
  parent t hne hu he := by
    obtain ⟨q, hq, hl, hqi⟩ := hK.parent (Or.inl (Proc.used_of hu he)) hne
    exact ⟨q, hq, Proc.Used.ne_unused (Or.inl hl), hqi⟩
  threadparent t hne hu he hth := by
    obtain ⟨q, hq, hqu, hqi⟩ := hK.threadparent (Proc.used_of hu he) hne hth
    exact ⟨q, hq, hqu.ne_unused, hqi⟩
  reclaimable z hz := by
    have hne : z ≠ m.k.initproc := by
      rintro rfl
      have := hL.initLive
      rw [hz] at this
      exact not_live_zombie this
    obtain ⟨q, hq, hl, -⟩ := hK.parent (Or.inl (Or.inr hz)) hne
    exact ⟨q, hl, parent_reclaims hT hz hq⟩

/-- **Process pointers.** In every state of a run whose steps leave no pointer behind, every slot
but the first that holds a process points to the occupants its pointers were set to, and every
`ZOMBIE` can be reclaimed.  So `wait` and `join` reclaim for a caller only its own children and
threads: what made the caller the parent or creator was done by the caller, not by a former occupant
of its slot. -/
theorem process_pointers (h : (machine n).Reach HandoverStep m) : Pointers m ∧
    (∀ w p, waitScan m.k w = .reap p →
      (m.k.proc p).parent = some w ∧ m.parentInc p = m.inc w) ∧
    ∀ w tid found p, joinScan m.k w tid found = .reap p →
      ((m.k.proc w).isthread = true ∧ (m.k.proc p).pid = (m.k.proc w).pid) ∨
      ((m.k.proc p).parent = some w ∧ m.parentInc p = m.inc w) ∨
      ((m.k.proc p).threadparent = some w ∧ m.threadparentInc p = m.inc w) := by
  have hL := (Reach.base h).life
  have hP := (Reach.kin h).pointers hL (Reach.tids h)
  have hzombie : ∀ {p}, (m.k.proc p).state = .zombie → p ≠ m.k.initproc ∧
      (m.k.proc p).state ≠ .unused ∧ (m.k.proc p).state ≠ .embryo := by
    intro p hz
    refine ⟨?_, by rw [hz]; decide, by rw [hz]; decide⟩
    rintro rfl
    have := hL.initLive
    rw [hz] at this
    exact not_live_zombie this
  have hparent : ∀ {p w}, (m.k.proc p).state = .zombie → (m.k.proc p).parent = some w →
      m.parentInc p = m.inc w := by
    intro p w hz hp
    obtain ⟨h1, h2, h3⟩ := hzombie hz
    obtain ⟨q, hq, -, hqi⟩ := hP.parent p h1 h2 h3
    obtain rfl := Option.some.inj (hq.symm.trans hp)
    exact hqi.symm
  refine ⟨hP, fun w p hw => ?_, fun w tid found p hj => ?_⟩
  · obtain ⟨hwt, hz⟩ := waitScan_reap hw
    simp only [waitable, Bool.and_eq_true, decide_eq_true_eq] at hwt
    exact ⟨hwt.1.1, hparent hz hwt.1.1⟩
  · obtain ⟨hth, hjt, hz⟩ := joinLoop_reap hj
    unfold joinable at hjt
    split_ifs at hjt with hw
    · simp only [Bool.or_eq_true, decide_eq_true_eq] at hjt
      rcases hjt with (hpid | hp) | htp
      · exact Or.inl ⟨hw, hpid⟩
      · exact Or.inr (Or.inl ⟨hp, hparent hz hp⟩)
      · obtain ⟨h1, h2, h3⟩ := hzombie hz
        obtain ⟨q, hq, -, hqi⟩ := hP.threadparent p h1 h2 h3 hth.2
        obtain rfl := Option.some.inj (hq.symm.trans htp)
        exact Or.inr (Or.inr ⟨htp, hqi.symm⟩)
    · simp only [decide_eq_true_eq] at hjt
      exact Or.inr (Or.inl ⟨hjt, hparent hz hjt⟩)

/-- The parent of a process exits and is waited for: the process belongs to `initproc` now. -/
theorem process_pointers_adopted : ∃ m : Machine 2, (m.k.proc 1).state = .unused ∧
    (m.k.proc 2).state = .running ∧ (m.k.proc 2).parent = some 0 ∧ Pointers m := by
  let next (c : Fin 2) : Action 2 := .op c (.next ⟨some (c + 1), true, 0, none⟩)
  let as : List (Action 2) := [.enter 0, .scan 0, .resume 0, .op 0 .fork] ++
    List.replicate 8 (next 0) ++ [.enter 1, .scan 1, .resume 1, .op 1 .fork] ++
    List.replicate 8 (next 1) ++ [.op 1 .exit] ++ List.replicate 4 (next 1) ++
    [.scan 1, .resume 1, .op 0 .wait]
  have hguard : (machine 2).Obeys HandoverStep (boot0 2) as := by
    decide +kernel
  have hrun : (machine 2).Ends (fun m => (m.k.proc 1).state = .unused ∧
      (m.k.proc 2).state = .running ∧ (m.k.proc 2).parent = some 0) (boot0 2) as := by
    decide +kernel
  obtain ⟨m, hm, h1, h2, h3⟩ := System.Reach.of_ends as (init_boot0 2) hguard hrun
  exact ⟨m, h1, h2, h3, (process_pointers hm).1⟩

/-- A process exits before its thread and is waited for.  The next process in its slot is taken for
the parent of the thread and can join it. -/
theorem process_pointers_counterexample : ∃ m : Machine 2, (machine 2).Reachable m ∧
    ¬ Pointers m ∧ joinScan m.k 1 3 none = .reap 2 ∧ m.parentInc 2 ≠ m.inc 1 := by
  let next (c : Fin 2) : Action 2 := .op c (.next ⟨some (c + 1), true, 0, none⟩)
  let as : List (Action 2) := [.enter 0, .scan 0, .resume 0, .op 0 .fork] ++
    List.replicate 8 (next 0) ++ [.enter 1, .scan 1, .resume 1, .op 1 (.clone 4)] ++
    List.replicate 11 (next 1) ++ [.op 1 .exit] ++ List.replicate 4 (next 1) ++
    [.scan 1, .resume 1, .op 0 .wait, .op 0 .fork] ++
    List.replicate 8 (next 0) ++ [.op 1 .exit] ++ List.replicate 4 (next 1) ++ [.scan 1]
  have hrun : (machine 2).Ends (fun m => m.k.initproc = 0 ∧ (m.k.proc 2).state = .zombie ∧
      (m.k.proc 2).parent = some 1 ∧ joinScan m.k 1 3 none = .reap 2 ∧
      m.parentInc 2 ≠ m.inc 1) (boot0 2) as := by
    decide +kernel
  obtain ⟨m, hm, hi, hz, hp, hj, hne⟩ := System.Reachable.of_ends as (init_boot0 2) hrun
  refine ⟨m, hm, fun hP => ?_, hj, hne⟩
  obtain ⟨q, hq, -, hqi⟩ := hP.parent 2 (by rw [hi]; decide) (by rw [hz]; decide)
    (by rw [hz]; decide)
  obtain rfl := Option.some.inj (hq.symm.trans hp)
  exact hne hqi.symm

end OsSemester.Xv6
