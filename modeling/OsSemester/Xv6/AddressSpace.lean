import OsSemester.Lib.Tenure
import OsSemester.Xv6.Inv.Birth

/-!
# Page directories

`exec`, `wait` and `join` free page directories without counting who uses them.  A directory is owned
by the slot whose reclamation or `exec` frees it: a process, or a thread made without `CLONE_VM`.
A thread made with `CLONE_VM` uses the directory of another slot.  The discipline of `Tenure` holds
as long as a directory is freed by its owner, after its last user: `address_space`.
-/

namespace OsSemester.Xv6

open Machine

variable {n : ℕ} {m m' : Machine n} {a : Action n} {mv : Move} {c : Fin n} {s p q np t : Slot}

/-- No other live process uses the page directory of `p`. -/
def Solo (k : Kernel) (p : Slot) : Prop :=
  ∀ t, t ≠ p → (k.proc t).state.Live → (k.proc t).pgdir ≠ (k.proc p).pgdir

/-- The slot uses the directory of another slot. -/
def Borrows (p : Proc) : Prop := p.isthread = true ∧ p.cloneVm = true

/-- The moves that free a page directory free one that its owner is the last to use. -/
def LastUse (k : Kernel) : Move → Prop
  | .commit s _ => ¬ Borrows (k.proc s) ∧ Solo k s
  | .waitReap _ p => Solo k p
  | .joinReap _ _ p => (k.proc p).cloneVm = true ∨ Solo k p
  | _ => True

instance (k : Kernel) (mv : Move) : Decidable (LastUse k mv) := by
  unfold LastUse Borrows Solo
  split <;> infer_instance

/-- If the step frees a page directory, its owner frees it after the last use. -/
def LastUseStep (m : Machine n) (a : Action n) : Prop := LastUse m.k (m.move a)

instance (m : Machine n) (a : Action n) : Decidable (LastUseStep m a) := by
  unfold LastUseStep
  infer_instance

/-- The slot `p` has a page directory that is freed with the slot. -/
inductive Machine.Owns (m : Machine n) (p : Slot) : Prop
  | used : (m.k.proc p).state.Live ∨ (m.k.proc p).state = .zombie → ¬ Borrows (m.k.proc p) →
      Owns m p
  /-- In creation, with its own copy. -/
  | born {s : Slot} {st : Stmt} : m.pc s = .create st p → st.PastDir →
      st.Forking ∨ (m.k.proc p).cloneVm = false → Owns m p
  /-- `clone` has failed and has left the slot `EMBRYO`. -/
  | left : (m.k.proc p).state = .embryo → (∀ s st, m.pc s ≠ .create st p) →
      (m.k.proc p).cloneVm = false → Owns m p

open Classical in
/-- The page directory the slot owns. -/
noncomputable def Machine.own (m : Machine n) (p : Slot) : Option Pgdir :=
  if m.Owns p then (m.k.proc p).pgdir else none

/-- The page directory a live process uses. -/
def Machine.use (m : Machine n) (t : Slot) : Option Pgdir :=
  if (m.k.proc t).state.Live then (m.k.proc t).pgdir else none

theorem own_some {d : Pgdir} : m.own p = some d ↔ m.Owns p ∧ (m.k.proc p).pgdir = some d := by
  unfold own
  split_ifs with h <;> simp [h]

theorem own_none (h : ¬ m.Owns p) : m.own p = none := if_neg h

theorem use_some {d : Pgdir} :
    m.use t = some d ↔ (m.k.proc t).state.Live ∧ (m.k.proc t).pgdir = some d := by
  unfold use
  split_ifs with h <;> simp [h]

/-- Who owns and who uses the page directories. -/
structure Spaces (m : Machine n) : Prop where
  tenure : Tenure m.own m.use m.k.ndir m.k.freed
  borrow : ∀ {s st np}, m.pc s = .create st np → st.PastDir → ¬ st.Forking →
    (m.k.proc np).cloneVm = true → (m.k.proc np).pgdir = (m.k.proc s).pgdir
  thread : ∀ {s st np}, m.pc s = .create st np → st.PastThread →
    ((m.k.proc np).isthread = true ↔ ¬ st.Forking)

/-- The slot `p` keeps what decides whether it owns its directory. -/
theorem owns_congr (hlz : ((m'.k.proc p).state.Live ∨ (m'.k.proc p).state = .zombie) ↔
      ((m.k.proc p).state.Live ∨ (m.k.proc p).state = .zombie))
    (hemb : (m'.k.proc p).state = .embryo ↔ (m.k.proc p).state = .embryo)
    (hth : (m'.k.proc p).isthread = (m.k.proc p).isthread)
    (hvm : (m'.k.proc p).cloneVm = (m.k.proc p).cloneVm)
    (hpc : ∀ s st, m'.pc s = .create st p ↔ m.pc s = .create st p) : m'.Owns p ↔ m.Owns p := by
  have hb : Borrows (m'.k.proc p) ↔ Borrows (m.k.proc p) := by
    unfold Borrows
    rw [hth, hvm]
  constructor
  · rintro (⟨h1, h2⟩ | ⟨h1, h2, h3⟩ | ⟨h1, h2, h3⟩)
    · exact .used (hlz.mp h1) (by rwa [← hb])
    · exact .born ((hpc _ _).mp h1) h2 (by rwa [← hvm])
    · exact .left (hemb.mp h1) (fun s st h => h2 s st ((hpc s st).mpr h)) (by rwa [← hvm])
  · rintro (⟨h1, h2⟩ | ⟨h1, h2, h3⟩ | ⟨h1, h2, h3⟩)
    · exact .used (hlz.mpr h1) (by rwa [hb])
    · exact .born ((hpc _ _).mpr h1) h2 (by rwa [hvm])
    · exact .left (hemb.mpr h1) (fun s st h => h2 s st ((hpc s st).mp h)) (by rwa [hvm])

theorem own_congr (ho : m'.Owns p ↔ m.Owns p) (hd : (m'.k.proc p).pgdir = (m.k.proc p).pgdir) :
    m'.own p = m.own p := by
  by_cases h : m.Owns p
  · unfold own
    rw [if_pos h, if_pos (ho.mpr h), hd]
  · rw [own_none h, own_none (mt ho.mp h)]

theorem Keep.owns (h : Keep (m.k.proc p) (m'.k.proc p))
    (hpc : ∀ s st, m'.pc s = .create st p ↔ m.pc s = .create st p) : m'.own p = m.own p :=
  own_congr (owns_congr (by rw [h.live_iff, h.eq_iff not_live_zombie])
    (h.eq_iff not_live_embryo) h.isthread h.cloneVm hpc) h.pgdir

theorem Keep.use (h : Keep (m.k.proc p) (m'.k.proc p)) : m'.use p = m.use p := by
  unfold Machine.use
  simp only [h.live_iff, h.pgdir]

theorem Quiet.spaces (hS : Spaces m) (h : Quiet m m') : Spaces m' := by
  have ho : m'.own = m.own := funext fun p => (h.keep p).owns fun s st => h.create s st p
  have hu : m'.use = m.use := funext fun p => (h.keep p).use
  refine ⟨?_, fun {s st np} hpc hst hf hvm => ?_, fun {s st np} hpc hst => ?_⟩
  · rw [ho, hu, h.globals.ndir, h.globals.freed]
    exact hS.tenure
  · rw [(h.keep np).cloneVm] at hvm
    rw [(h.keep np).pgdir, (h.keep s).pgdir]
    exact hS.borrow ((h.create _ _ _).mp hpc) hst hf hvm
  · rw [(h.keep np).isthread]
    exact hS.thread ((h.create _ _ _).mp hpc) hst

theorem Allocates.spaces (hS : Spaces m) {fl : Option ℤ} (hA : Allocates m m' s np fl)
    (hpc : m.pc s = .user) : Spaces m' := by
  obtain ⟨-, -, -, -, -, hn, hf, -⟩ := allocproc_some hA.alloc
  have hne : ∀ {t st}, m.pc t ≠ .create st np := by
    intro t st h
    have hemb := hA.life.embryo h
    rw [hA.unused] at hemb
    cases hemb
  have hnp : (m'.k.proc np).state = .embryo := by rw [hA.proc_self]
  have ho : m'.own = m.own := funext fun p => by
    by_cases hpn : p = np
    · -- the new slot owned no directory and owns none yet
      subst hpn
      rw [own_none, own_none]
      · rintro (⟨h, -⟩ | ⟨h, -⟩ | ⟨h, -⟩)
        · rw [hA.unused] at h
          simp [not_live_unused] at h
        · exact hne h
        · rw [hA.unused] at h
          cases h
      · rintro (⟨h, -⟩ | ⟨h, hst, -⟩ | ⟨-, h, -⟩)
        · rw [hnp] at h
          simp [not_live_embryo] at h
        · rcases hA.create h with ⟨-, rfl, -⟩ | ⟨h, -⟩
          · exact hst
          · exact hne h
        · exact h s (.kstack fl) (by rw [hA.next, Function.update_self])
    · refine (Keep.of_eq (hA.proc_of_ne hpn)).owns fun t st => ⟨fun h => ?_, fun h => ?_⟩
      · exact ((hA.create h).resolve_left fun h => hpn h.2.2).1
      · rw [hA.next, Function.update_of_ne, h]
        rintro rfl
        rw [hpc] at h
        cases h
  refine ⟨?_, fun {t st q} h hst hfk hvm => ?_, fun {t st q} h hst => ?_⟩
  · rw [ho, hn, hf]
    refine hS.tenure.reuse fun {t d} ht => Or.inr ⟨t, ?_⟩
    rw [use_some] at ht ⊢
    rwa [hA.proc_of_ne (hA.ne_of_used (Or.inl ht.1))] at ht
  · rcases hA.create h with ⟨-, rfl, -⟩ | ⟨h, hq, ht⟩
    · exact hst.elim
    · rw [hA.proc_of_ne hq] at hvm ⊢
      rw [hA.proc_of_ne ht]
      exact hS.borrow h hst hfk hvm
  · rcases hA.create h with ⟨-, rfl, -⟩ | ⟨h, hq, -⟩
    · exact hst.elim
    · rw [hA.proc_of_ne hq]
      exact hS.thread h hst

/-- The slot `p` is reclaimed: it owned its directory, which is freed now, or it borrowed one. -/
theorem Reclaim.spaces {b : Bool} (hL : Life m) (hS : Spaces m) (h : Reclaim m m' s p b)
    (hb : b = true ↔ ¬ Borrows (m.k.proc p)) (hsolo : b = true → Solo m.k p) : Spaces m' := by
  have hpc : ∀ t st, m'.pc t = .create st p ↔ m.pc t = .create st p := fun _ _ => by rw [h.pc]
  have hno : ∀ t st, m.pc t ≠ .create st p := fun t st hpc => by
    have := hL.embryo hpc
    rw [h.zombie] at this
    cases this
  -- the reclaimed slot owns nothing any more
  have ho : m'.own = Function.update m.own p none := funext fun q => by
    by_cases hq : q = p
    · subst hq
      rw [Function.update_self, own_none]
      rintro (⟨h1, -⟩ | ⟨h1, -⟩ | ⟨h1, -⟩)
      · rw [h.state] at h1
        simp [not_live_unused] at h1
      · exact hno _ _ ((hpc _ _).mp h1)
      · rw [h.state] at h1
        cases h1
    · rw [Function.update_of_ne hq]
      exact (h.keep q hq).owns fun t st => by rw [h.pc]
  -- and did not use a directory before
  have hu : m'.use = m.use := funext fun t => by
    by_cases ht : t = p
    · rw [ht]
      unfold Machine.use
      rw [if_neg, if_neg]
      · rw [h.zombie]
        exact not_live_zombie
      · rw [h.state]
        exact not_live_unused
    · exact (h.keep t ht).use
  have hcp : ∀ {t st q}, m.pc t = .create st q → q ≠ p ∧ t ≠ p := fun {t st q} hc => by
    refine ⟨fun hq => hno t st (hq ▸ hc), ?_⟩
    rintro rfl
    have := hL.busy (by rw [hc]; simp)
    rw [h.zombie] at this
    exact not_live_zombie this
  refine ⟨?_, fun {t st q} hpc hst hfk hvm => ?_, fun {t st q} hpc hst => ?_⟩
  · rw [ho, hu, h.ndir]
    have hf := h.freed_eq
    cases b with
    | true =>
      obtain ⟨d, hd, hf⟩ := hf
      rw [hf]
      have hown : m.own p = some d := own_some.mpr ⟨.used (Or.inr h.zombie) (hb.mp rfl), hd⟩
      refine hS.tenure.release hown fun t ht => ?_
      obtain ⟨hl, ht⟩ := use_some.mp ht
      have htp : t ≠ p := by
        rintro rfl
        rw [h.zombie] at hl
        exact not_live_zombie hl
      exact hsolo rfl t htp hl (ht.trans hd.symm)
    | false =>
      simp only [Bool.false_eq_true, if_false] at hf
      rw [hf, Function.update_eq_self_iff.mpr]
      · exact hS.tenure
      · refine (own_none ?_).symm
        rintro (⟨-, h2⟩ | ⟨h1, -⟩ | ⟨h1, -⟩)
        · exact absurd (hb.mpr h2) (by decide)
        · exact hno _ _ h1
        · rw [h.zombie] at h1
          cases h1
  · rw [h.pc] at hpc
    obtain ⟨h1, h2⟩ := hcp hpc
    rw [(h.keep q h1).cloneVm] at hvm
    rw [(h.keep q h1).pgdir, (h.keep t h2).pgdir]
    exact hS.borrow hpc hst hfk hvm
  · rw [h.pc] at hpc
    rw [(h.keep q (hcp hpc).1).isthread]
    exact hS.thread hpc hst

/-- A slot in creation owns the copy it was given. -/
theorem owns_creating (hL : Life m) {st : Stmt} (hpc : m.pc s = .create st np) :
    m.Owns np ↔ st.PastDir ∧ (st.Forking ∨ (m.k.proc np).cloneVm = false) := by
  have hemb := hL.embryo hpc
  constructor
  · rintro (⟨h, -⟩ | ⟨h, h2, h3⟩ | ⟨-, h, -⟩)
    · rw [hemb] at h
      simp [not_live_embryo] at h
    · obtain rfl := hL.creator h hpc
      obtain ⟨rfl, -⟩ := Pc.create.inj (h.symm.trans hpc)
      exact ⟨h2, h3⟩
    · exact absurd hpc (h s st)
  · rintro ⟨h1, h2⟩
    exact .born hpc h1 h2

/-- What a statement does to the ownership of the new slot's directory. -/
theorem owns_stmt (hL : Life m) (hL' : Life m') (hS : Spaces m) {st : Stmt} {o : Oracle}
    {nx : Option Stmt} (hpc : m.pc s = .create st np) (hk : st.exec m.k s np o = .ok (m'.k, nx))
    (hpc' : m'.pc = Function.update m.pc s (pcAfter np nx)) : m'.Owns np ↔ m.Owns np ∨
      (nx ≠ none ∧ (st = .forkCopyuvm ∨ st = .clonePgdir ∧ (m.k.proc np).cloneVm = false)) := by
  have hemb := hL.embryo hpc
  have hvm := exec_cloneVm hk
  rw [owns_creating hL hpc]
  cases nx with
  | some st' =>
    obtain ⟨rfl, hpub⟩ := exec_next hk
    have hc : m'.pc s = .create st.succ np := by
      rw [hpc', Function.update_self]
      rfl
    have hd := (succ_past st hpub).2
    have hf := st.succ_forking
    rw [owns_creating hL' hc, hd, hf, hvm]
    cases st <;> simp [Stmt.PastDir, Stmt.Forking]
  | none =>
    -- the call is over, so nobody is creating in the slot
    have hno : ∀ t st', m'.pc t ≠ .create st' np := fun t st' h => by
      rw [hpc', Function.update_apply] at h
      split_ifs at h with hts
      · cases h
      · exact hts (hL.creator h hpc)
    have hiff : m'.Owns np ↔ ((m'.k.proc np).state.Live ∨ (m'.k.proc np).state = .zombie) ∧
        ¬ Borrows (m'.k.proc np) ∨ (m'.k.proc np).state = .embryo ∧
          (m'.k.proc np).cloneVm = false := by
      constructor
      · rintro (⟨h1, h2⟩ | ⟨h1, -⟩ | ⟨h1, -, h3⟩)
        · exact Or.inl ⟨h1, h2⟩
        · exact absurd h1 (hno _ _)
        · exact Or.inr ⟨h1, h3⟩
      · rintro (⟨h1, h2⟩ | ⟨h1, h2⟩)
        · exact .used h1 h2
        · exact .left h1 hno h2
    have hst := exec_state hk
    rw [hiff]
    simp only [ne_eq, not_true_eq_false, false_and, or_false]
    by_cases hpub : st.Publishes
    · -- a process owns its copy, a thread unless it was made with `CLONE_VM`
      have hne : st ≠ .cloneCopyout := by
        rintro rfl
        rcases hpub with h | h <;> cases h
      rw [if_pos ⟨rfl, hne⟩, if_pos hpub] at hst
      have hth := exec_isthread hk
      rw [hst]
      unfold Borrows
      rcases hpub with rfl | rfl
      · have := (hS.thread hpc trivial).mp.mt (not_not.mpr trivial)
        simp_all [Stmt.PastDir, Stmt.Forking, live_runnable]
      · have := (hS.thread hpc trivial).mpr id
        simp_all [Stmt.PastDir, Stmt.Forking, live_runnable]
    · by_cases hc : st = .cloneCopyout
      · subst hc
        rw [if_neg (by simp), hemb] at hst
        rw [hst, hvm]
        simp [Stmt.PastDir, Stmt.Forking, not_live_embryo]
      · rw [if_pos ⟨rfl, hc⟩, if_neg hpub] at hst
        have := (exec_failed hk hst hemb).2.1
        rw [hst]
        simp [not_live_unused, this]

section Statement

variable {st : Stmt} {o : Oracle} {nx : Option Stmt}

/-- A statement changes the ownership of no directory but the one of the new slot. -/
theorem own_stmt_of_ne (hpc : m.pc s = .create st np)
    (hk : st.exec m.k s np o = .ok (m'.k, nx))
    (hpc' : m'.pc = Function.update m.pc s (pcAfter np nx)) (hp : p ≠ np) : m'.own p = m.own p := by
  refine (exec_keep_of_ne hk hp).owns fun t st' => ⟨fun h => ?_, fun h => ?_⟩
  · rw [hpc'] at h
    exact ((pc_create_stmt hpc h).resolve_left fun h => hp h.2.2).2
  · rw [hpc', Function.update_of_ne, h]
    rintro rfl
    obtain ⟨-, rfl⟩ := Pc.create.inj (h.symm.trans hpc)
    exact hp rfl

/-- Unless the new slot is published, a statement lets nobody use another directory. -/
theorem use_of_use_stmt (hL : Life m) (hpc : m.pc s = .create st np)
    (hk : st.exec m.k s np o = .ok (m'.k, nx)) (hpub : ¬ (nx = none ∧ st.Publishes)) {d : Pgdir}
    (ht : m'.use t = some d) : m.use t = some d := by
  by_cases htn : t = np
  · subst htn
    have hl := (use_some.mp ht).1
    obtain ⟨hnx, hp, -⟩ := exec_published hk (hL.embryo hpc)
      (by rintro he; rw [he] at hl; exact not_live_embryo hl)
      (by rintro he; rw [he] at hl; exact not_live_unused hl)
    exact absurd ⟨hnx, hp⟩ hpub
  · rwa [(exec_keep_of_ne hk htn).use] at ht

/-- The copy of the caller's directory belongs to the new slot. -/
theorem tenure_copy (hL : Life m) (hL' : Life m') (hS : Spaces m) (hpc : m.pc s = .create st np)
    (hk : st.exec m.k s np o = .ok (m'.k, nx))
    (hpc' : m'.pc = Function.update m.pc s (pcAfter np nx)) (hnx : nx ≠ none)
    (hst : st = .forkCopyuvm ∨ st = .clonePgdir ∧ (m.k.proc np).cloneVm = false)
    (hd : (m'.k.proc np).pgdir = some m.k.ndir) (hn : m'.k.ndir = m.k.ndir + 1) :
    Tenure m'.own m'.use m'.k.ndir m.k.freed := by
  have hpast : ¬ st.PastDir := by
    rcases hst with rfl | ⟨rfl, -⟩ <;> exact id
  have h0 : m.own np = none := own_none fun h => hpast ((owns_creating hL hpc).mp h).1
  have ho : m'.own = Function.update m.own np (some m.k.ndir) := by
    funext q
    by_cases hq : q = np
    · rw [hq, Function.update_self, own_some, owns_stmt hL hL' hS hpc hk hpc']
      exact ⟨Or.inr ⟨hnx, hst⟩, hd⟩
    · rw [Function.update_of_ne hq, own_stmt_of_ne hpc hk hpc' hq]
  rw [ho, hn]
  exact (hS.tenure.install h0).reuse fun ht =>
    Or.inr ⟨_, use_of_use_stmt hL hpc hk (fun h => hnx h.1) ht⟩

/-- With `CLONE_VM` the new slot will use the directory of its creator, and no copy is made when
`copyuvm` fails. -/
theorem tenure_no_copy (hL : Life m) (hL' : Life m') (hS : Spaces m) (hpc : m.pc s = .create st np)
    (hk : st.exec m.k s np o = .ok (m'.k, nx))
    (hpc' : m'.pc = Function.update m.pc s (pcAfter np nx))
    (hst : st = .forkCopyuvm ∨ st = .clonePgdir)
    (hno : nx = none ∨ st = .clonePgdir ∧ (m.k.proc np).cloneVm = true)
    (hn : m'.k.ndir = m.k.ndir) : Tenure m'.own m'.use m'.k.ndir m.k.freed := by
  have hpast : ¬ st.PastDir := by
    rcases hst with rfl | rfl <;> exact id
  have h0 : ¬ m.Owns np := fun h => hpast ((owns_creating hL hpc).mp h).1
  have h0' : ¬ m'.Owns np := by
    rw [owns_stmt hL hL' hS hpc hk hpc']
    rintro (h | ⟨hnx, h⟩)
    · exact h0 h
    · rcases hno with rfl | ⟨rfl, hvm⟩
      · exact hnx rfl
      · rcases h with h | ⟨-, h⟩
        · cases h
        · rw [hvm] at h
          cases h
  have ho : m'.own = m.own := by
    funext q
    by_cases hq : q = np
    · rw [hq, own_none h0, own_none h0']
    · exact own_stmt_of_ne hpc hk hpc' hq
  rw [ho, hn]
  refine hS.tenure.reuse fun ht => Or.inr ⟨_, use_of_use_stmt hL hpc hk ?_ ht⟩
  rintro ⟨-, h | h⟩ <;> rcases hst with rfl | rfl <;> cases h

/-- When the new slot is published, it uses the copy it owns or the directory of its creator. -/
theorem tenure_other (hL : Life m) (hL' : Life m') (hS : Spaces m)
    (hrun : (m.k.proc s).state = .running) (hpc : m.pc s = .create st np)
    (hk : st.exec m.k s np o = .ok (m'.k, nx))
    (hpc' : m'.pc = Function.update m.pc s (pcAfter np nx))
    (hst : ¬ (st = .forkCopyuvm ∨ st = .clonePgdir))
    (hd : (m'.k.proc np).pgdir = (m.k.proc np).pgdir) (hn : m'.k.ndir = m.k.ndir) :
    Tenure m'.own m'.use m'.k.ndir m.k.freed := by
  have ho : m'.own = m.own := by
    funext q
    by_cases hq : q = np
    · subst hq
      exact own_congr ((owns_stmt hL hL' hS hpc hk hpc').trans (or_iff_left (by grind))) hd
    · exact own_stmt_of_ne hpc hk hpc' hq
  rw [ho, hn]
  refine hS.tenure.reuse fun {t d} ht => ?_
  by_cases hpub : nx = none ∧ st.Publishes
  swap
  · exact Or.inr ⟨t, use_of_use_stmt hL hpc hk hpub ht⟩
  by_cases htn : t = np
  · subst htn
    have ht := (use_some.mp ht).2
    rw [hd] at ht
    by_cases hb : st.Forking ∨ (m.k.proc t).cloneVm = false
    · exact Or.inl ⟨t, own_some.mpr ⟨(owns_creating hL hpc).mpr ⟨hpub.2.past.2, hb⟩, ht⟩⟩
    · rw [not_or, Bool.not_eq_false] at hb
      rw [hS.borrow hpc hpub.2.past.2 hb.1 hb.2] at ht
      exact Or.inr ⟨s, use_some.mpr ⟨by rw [hrun]; exact live_running, ht⟩⟩
  · rw [(exec_keep_of_ne hk htn).use] at ht
    exact Or.inr ⟨t, ht⟩

/-- A thread made with `CLONE_VM` gets the directory of its creator. -/
theorem borrow_succ (hS : Spaces m) (hrun : (m.k.proc s).state = .running)
    (hemb : (m.k.proc np).state = .embryo) (hpc : m.pc s = .create st np)
    (hk : st.exec m.k s np o = .ok (m'.k, some st.succ)) (hpub : ¬ st.Publishes)
    (hst : st.succ.PastDir) (hfk : ¬ st.succ.Forking) (hv : (m'.k.proc np).cloneVm = true) :
    (m'.k.proc np).pgdir = (m'.k.proc s).pgdir := by
  have hsn : s ≠ np := by
    rintro rfl
    rw [hrun] at hemb
    cases hemb
  have hvm := exec_cloneVm hk
  rw [st.succ_forking] at hfk
  rw [(succ_past st hpub).2] at hst
  rw [(exec_keep_of_ne hk hsn).pgdir]
  rcases exec_pgdir hk with ⟨h1 | ⟨rfl, h1⟩, -⟩ | ⟨-, -, hd, -⟩ | ⟨-, h1, -⟩ | ⟨h1, hd, -⟩
  · rw [h1] at hfk
    exact absurd trivial hfk
  · rw [hvm, h1] at hv
    cases hv
  · exact hd
  · cases h1
  · have hst : st.PastDir := hst.resolve_right h1
    rw [hd]
    refine hS.borrow hpc hst hfk ?_
    rw [← hv, hvm]
    cases st <;> first | rfl | exact hst.elim

theorem spaces_stmt (hL : Life m) (hL' : Life m') (hS : Spaces m)
    (hrun : (m.k.proc s).state = .running) (hpc : m.pc s = .create st np)
    (hk : st.exec m.k s np o = .ok (m'.k, nx))
    (hpc' : m'.pc = Function.update m.pc s (pcAfter np nx)) : Spaces m' := by
  have hemb := hL.embryo hpc
  -- the other slots in creation and their creators
  have hother : ∀ {t st' q}, t ≠ s → m.pc t = .create st' q → q ≠ np ∧ t ≠ np := by
    rintro t st' q ht h
    refine ⟨?_, ?_⟩
    · rintro rfl
      exact ht (hL.creator h hpc)
    · rintro rfl
      have hl := hL.busy (s := t) (by rw [h]; simp)
      rw [hemb] at hl
      exact not_live_embryo hl
  refine ⟨?_, fun {t st' q} h hst hfk hv => ?_, fun {t st' q} h hst => ?_⟩
  · rw [(exec_globals hk).2.2]
    rcases exec_pgdir hk with ⟨hst, hnx, hd, hn⟩ | ⟨rfl, hvm, -, -, hn⟩ | ⟨hst, hnx, -, hn⟩ |
      ⟨hst, hd, hn⟩
    · exact tenure_copy hL hL' hS hpc hk hpc' hnx hst hd hn
    · exact tenure_no_copy hL hL' hS hpc hk hpc' (Or.inr rfl) (Or.inr ⟨rfl, hvm⟩) hn
    · exact tenure_no_copy hL hL' hS hpc hk hpc' hst (Or.inl hnx) hn
    · exact tenure_other hL hL' hS hrun hpc hk hpc' hst hd hn
  · rw [hpc'] at h
    rcases pc_create_stmt hpc h with ⟨rfl, rfl, rfl⟩ | ⟨ht, h⟩
    · obtain ⟨rfl, hpub⟩ := exec_next hk
      exact borrow_succ hS hrun hemb hpc hk hpub hst hfk hv
    · obtain ⟨h1, h2⟩ := hother ht h
      rw [(exec_keep_of_ne hk h1).cloneVm] at hv
      rw [(exec_keep_of_ne hk h1).pgdir, (exec_keep_of_ne hk h2).pgdir]
      exact hS.borrow h hst hfk hv
  · rw [hpc'] at h
    rcases pc_create_stmt hpc h with ⟨rfl, rfl, rfl⟩ | ⟨ht, h⟩
    · obtain ⟨rfl, hpub⟩ := exec_next hk
      have hth := hS.thread hpc
      rw [st.succ_forking, exec_isthread hk]
      cases st with
      | kstack fl => cases fl <;> exact hst.elim
      | _ => first
        | exact hst.elim
        | exact hth trivial
        | simp [Stmt.Forking]
    · rw [(exec_keep_of_ne hk (hother ht h).1).isthread]
      exact hS.thread h hst

end Statement

theorem spaces_commit (hL : Life m) (hS : Spaces m) {sz : ℕ}
    (hrun : (m.k.proc s).state = .running) (hpc : m.pc s = .exec)
    (hk : execCommit m.k s sz = .ok m'.k) (hpc' : m'.pc = Function.update m.pc s .user)
    (hok : LastUse m.k (.commit s sz)) : Spaces m' := by
  obtain ⟨d, hd, hf, hn, -, -, -, -, hp⟩ := execCommit_ok hk
  obtain ⟨hb, hsolo⟩ := hok
  have hsl : (m.k.proc s).state.Live := by
    rw [hrun]
    exact live_running
  have hof : ∀ {t}, t ≠ s → m'.k.proc t = m.k.proc t := fun ht => by rw [hp, if_neg ht]
  have hcr : ∀ {t st q}, m'.pc t = .create st q ↔ m.pc t = .create st q := fun {t st q} => by
    rw [hpc', Function.update_apply]
    split_ifs with hts
    · rw [hts, hpc]
      simp
    · rfl
  have hcs : ∀ {t st q}, m.pc t = .create st q → t ≠ s ∧ q ≠ s := fun {t st q} h => by
    constructor
    · rintro rfl
      rw [hpc] at h
      cases h
    · rintro rfl
      have := hL.embryo h
      rw [hrun] at this
      cases this
  have hown : m.own s = some d := own_some.mpr ⟨.used (Or.inl hsl) hb, hd⟩
  have ho : m'.own =
      Function.update (Function.update m.own s none) s (some m.k.ndir) := funext fun q => by
    by_cases hq : q = s
    · rw [hq, Function.update_self, own_some]
      have hps : m'.k.proc s = { m.k.proc s with pgdir := some m.k.ndir, sz := sz } := by
        rw [hp, if_pos rfl]
      rw [hps]
      exact ⟨.used (by rw [hps]; exact Or.inl hsl) (by rw [hps]; exact hb), rfl⟩
    · rw [Function.update_of_ne hq, Function.update_of_ne hq]
      exact (Keep.of_eq (hof hq)).owns fun _ _ => hcr
  refine ⟨?_, fun {t st q} h hst hfk hv => ?_, fun {t st q} h hst => ?_⟩
  · rw [ho, hn, hf]
    -- nobody but the caller uses the old directory, and the caller is about to leave it
    have hothers : Tenure m.own (Function.update m.use s none) m.k.ndir m.k.freed :=
      hS.tenure.reuse fun {t e} ht => by
        rw [Function.update_apply] at ht
        split_ifs at ht
        exact Or.inr ⟨t, ht⟩
    refine ((hothers.release hown fun t ht => ?_).install (Function.update_self ..)).reuse
      fun {t e} ht => ?_
    · rw [Function.update_apply] at ht
      split_ifs at ht with hts
      obtain ⟨hl, ht⟩ := use_some.mp ht
      exact hsolo t hts hl (ht.trans hd.symm)
    · by_cases hts : t = s
      · subst hts
        rw [use_some, hp, if_pos rfl] at ht
        exact Or.inl ⟨t, by rw [Function.update_self]; exact ht.2⟩
      · rw [use_some, hof hts] at ht
        exact Or.inr ⟨t, by rw [Function.update_of_ne hts]; exact use_some.mpr ht⟩
  · have h := hcr.mp h
    obtain ⟨h1, h2⟩ := hcs h
    rw [hof h2] at hv ⊢
    rw [hof h1]
    exact hS.borrow h hst hfk hv
  · have h := hcr.mp h
    rw [hof (hcs h).2]
    exact hS.thread h hst

theorem spaces_exit (hS : Spaces m) (hrun : (m.k.proc s).state = .running)
    (hpc : m.pc s = .exit .zombie) (hk : m'.k = exitLocked m.k s)
    (hpc' : m'.pc = Function.update m.pc s .user) : Spaces m' := by
  have hsl : (m.k.proc s).state.Live := by
    rw [hrun]
    exact live_running
  obtain ⟨ps, hT, hs⟩ := exitLocked_self_touch m.k s
  rw [← hk] at hs
  have htouch : ∀ {t}, t ≠ s → Touch (m.k.proc t) (m'.k.proc t) := fun ht => by
    rw [hk]
    exact exitLocked_touch m.k ht
  -- `exit` touches no page directory
  have hdir : ∀ t, (m'.k.proc t).pgdir = (m.k.proc t).pgdir ∧
      (m'.k.proc t).isthread = (m.k.proc t).isthread ∧
      (m'.k.proc t).cloneVm = (m.k.proc t).cloneVm := fun t => by
    by_cases ht : t = s
    · subst ht
      rw [hs]
      exact ⟨hT.pgdir, hT.isthread, hT.cloneVm⟩
    · exact ⟨(htouch ht).pgdir, (htouch ht).isthread, (htouch ht).cloneVm⟩
  have hcr : ∀ {t st q}, m'.pc t = .create st q ↔ m.pc t = .create st q := fun {t st q} => by
    rw [hpc', Function.update_apply]
    split_ifs with hts
    · rw [hts, hpc]
      simp
    · rfl
  have ho : m'.own = m.own := funext fun q => by
    refine own_congr (owns_congr ?_ ?_ (hdir q).2.1 (hdir q).2.2 fun _ _ => hcr) (hdir q).1
    · by_cases hq : q = s
      · rw [hq, hs, hrun]
        simp [live_running]
      · have hw := (htouch hq).woken
        unfold Woken ProcState.Live at *
        grind
    · by_cases hq : q = s
      · rw [hq, hs, hrun]
        simp
      · have hw := (htouch hq).woken
        unfold Woken at hw
        grind
  refine ⟨?_, fun {t st q} h hst hfk hv => ?_, fun {t st q} h hst => ?_⟩
  · rw [ho, hk, (exitLocked_globals m.k s).ndir, (exitLocked_globals m.k s).freed]
    -- one user less: the process is no longer live
    refine hS.tenure.reuse fun {t d} ht => Or.inr ⟨t, ?_⟩
    rw [use_some, (hdir t).1] at ht
    have hts : t ≠ s := by
      rintro rfl
      rw [hs] at ht
      exact not_live_zombie ht.1
    have hw := (htouch hts).woken
    rw [use_some]
    refine ⟨?_, ht.2⟩
    unfold Woken ProcState.Live at *
    grind
  · rw [(hdir q).2.2] at hv
    rw [(hdir q).1, (hdir t).1]
    exact hS.borrow (hcr.mp h) hst hfk hv
  · rw [(hdir q).2.1]
    exact hS.thread (hcr.mp h) hst

theorem Effect.spaces (hB : Base m) (hS : Spaces m) (h : Effect m mv m')
    (hok : LastUse m.k mv) : Spaces m' := by
  have hL := hB.life
  have hL' := (h.base hB).life
  cases h.change hB.sched hL with
  | quiet _ hq => exact hq.spaces hS
  | alloc hs hpc ha => exact Allocates.spaces hS ⟨hL, hs, ha, rfl, rfl⟩ hpc
  | stmt hrun hpc hk => exact spaces_stmt hL hL' hS hrun hpc hk (by simp)
  | commit hrun hpc hk => exact spaces_commit hL hS hrun hpc hk rfl hok
  | exit hrun hpc => exact spaces_exit hS hrun hpc rfl rfl
  | @waitReap _ p _ hw hR =>
    have hth : (m.k.proc p).isthread = false := by
      have := (waitScan_reap hw).1
      simp only [waitable, Bool.and_eq_true, Bool.not_eq_true'] at this
      exact this.1.2
    exact hR.spaces hL hS (by simp [Borrows, hth]) fun _ => hok
  | @joinReap _ p _ _ hT _ hR =>
    refine hR.spaces hL hS (by simp [Borrows, hT.2]) fun hvm => hok.resolve_left fun h => ?_
    rw [h] at hvm
    cases hvm

theorem spaces_boot (n : ℕ) (ofile : Fd → Option FileId) (ft : FTable) :
    Spaces (boot n ofile ft) := by
  have hp : ∀ t, (boot n ofile ft).k.proc t = if t = 0 then initProc ofile else Proc.zero :=
    fun t => by simp [boot, bootKernel, Function.update_apply]
  have hlive : ∀ {t}, ((boot n ofile ft).k.proc t).state.Live ↔ t = 0 := fun {t} => by
    rw [hp]
    split_ifs with h <;> simp [h, initProc, Proc.zero, not_live_unused, live_runnable]
  have hdir : ((boot n ofile ft).k.proc 0).pgdir = some 0 := by
    rw [hp]
    rfl
  have hown : ∀ {p d}, (boot n ofile ft).own p = some d ↔ p = 0 ∧ d = 0 := fun {p d} => by
    rw [own_some]
    constructor
    · rintro ⟨⟨h, -⟩ | ⟨h, -⟩ | ⟨h, -⟩, hd⟩
      · obtain rfl := hlive.mp (h.resolve_right (by rw [hp]; split_ifs <;> simp [initProc, Proc.zero]))
        rw [hdir] at hd
        exact ⟨rfl, (Option.some.inj hd).symm⟩
      · cases h
      · rw [hp] at h
        split_ifs at h <;> cases h
    · rintro ⟨rfl, rfl⟩
      refine ⟨.used (Or.inl (hlive.mpr rfl)) ?_, hdir⟩
      rw [hp]
      simp [Borrows, initProc, Proc.zero]
  refine ⟨⟨fun h => ?_, fun h h' => ?_, fun {d} hd _ => ⟨0, ?_⟩, fun {t d} h => ?_, List.nodup_nil,
    fun h => absurd h List.not_mem_nil⟩, (fun h => by cases h), (fun h => by cases h)⟩
  · rw [(hown.mp h).2]
    simp [boot, bootKernel]
  · rw [(hown.mp h).1, (hown.mp h').1]
  · rw [hown]
    exact ⟨rfl, Nat.lt_one_iff.mp hd⟩
  · rw [use_some, hlive] at h
    obtain ⟨rfl, h⟩ := h
    rw [hdir] at h
    obtain rfl := Option.some.inj h
    simp [boot, bootKernel]

theorem Reach.spaces (h : (machine n).Reach LastUseStep m) : Spaces m := by
  refine h.invariant_of_reach ?_ fun m a m' hr hS ha hst => ?_
  · rintro _ ⟨ofile, ft, rfl⟩
    exact spaces_boot n ofile ft
  · have hst : m.step a = .ok m' := hst
    exact (step_effect hst).spaces (Reach.base hr) hS ha

/-- **Page directories.** If every step that frees a page directory is by its owner and after its
last use, then in every state of the run the directory of a live process has been made and not been
freed, no directory has been freed twice, and a directory that no slot in use refers to has been
freed once. -/
theorem address_space (h : (machine n).Reach LastUseStep m) :
    (∀ t, (m.k.proc t).state.Live →
      ∃ d, (m.k.proc t).pgdir = some d ∧ d < m.k.ndir ∧ d ∉ m.k.freed) ∧
    (∀ d, m.k.freed.count d ≤ 1) ∧
    ∀ d < m.k.ndir, (∀ t, (m.k.proc t).state ≠ .unused → (m.k.proc t).pgdir ≠ some d) →
      m.k.freed.count d = 1 := by
  have hL := (Reach.base h).life
  have hT := (Reach.spaces h).tenure
  refine ⟨fun t ht => ?_, fun d => List.nodup_iff_count_le_one.mp hT.nodup d, fun d hd hno => ?_⟩
  · obtain ⟨d, hd⟩ := Option.ne_none_iff_exists'.mp (hL.equipped (Or.inl ht)).2
    exact ⟨d, hd, hT.used (use_some.mpr ⟨ht, hd⟩)⟩
  · refine hT.count_of_unowned hd fun p hp => ?_
    obtain ⟨ho, hp⟩ := own_some.mp hp
    refine hno p (fun hu => ?_) hp
    rcases ho with ⟨h, -⟩ | ⟨h, -⟩ | ⟨h, -⟩
    · rw [hu] at h
      simp [not_live_unused] at h
    · have := hL.embryo h
      rw [hu] at this
      cases this
    · rw [hu] at h
      cases h

/-- A thread made with `CLONE_VM` exits and is joined, then a child process that has called `exec` is
waited for: directories 1 and 2 are freed once, directory 0 is still in use. -/
theorem address_space_join : ∃ m : Machine 2, m.k.freed = [2, 1] ∧
    (∀ d, m.k.freed.count d ≤ 1) ∧ ∃ d, (m.k.proc 0).pgdir = some d ∧ d ∉ m.k.freed := by
  let o : Oracle := ⟨some 1, true, 0, none⟩
  let next (c : Fin 2) : Action 2 := .op c (.next o)
  let as : List (Action 2) := [.enter 0, .scan 0, .resume 0, .op 0 (.clone 4)] ++
    List.replicate 11 (next 0) ++ [.enter 1, .scan 1, .resume 1, .op 1 .exit] ++
    List.replicate 4 (next 1) ++ [.scan 1, .op 0 (.join 2 o), .op 0 .fork] ++
    List.replicate 8 (next 0) ++ [.enter 1, .scan 1, .resume 1, .op 1 .exec, next 1, .op 1 .exit] ++
    List.replicate 4 (next 1) ++ [.scan 1, .op 0 .wait]
  have hguard : (machine 2).Obeys LastUseStep (boot0 2) as := by
    decide +kernel
  have hrun : (machine 2).Ends (fun m => m.k.freed = [2, 1] ∧ (m.k.proc 0).state = .running)
      (boot0 2) as := by
    decide +kernel
  obtain ⟨m, hm, hf, hs⟩ := System.Reach.of_ends as (init_boot0 2) hguard hrun
  obtain ⟨h1, h2, -⟩ := address_space hm
  obtain ⟨d, hd, -, hn⟩ := h1 0 (by rw [hs]; exact live_running)
  exact ⟨m, hf, h2, d, hd, hn⟩

/-- A thread made with `CLONE_VM` calls `exec`: the process it belongs to goes on with a page
directory that has been freed. -/
theorem address_space_counterexample : ∃ m : Machine 2, (machine 2).Reachable m ∧
    ∃ t d, (m.k.proc t).state.Live ∧ (m.k.proc t).pgdir = some d ∧ d ∈ m.k.freed := by
  let next (c : Fin 2) : Action 2 := .op c (.next ⟨some 1, true, 0, none⟩)
  let as : List (Action 2) := [.enter 0, .scan 0, .resume 0, .op 0 (.clone 4)] ++
    List.replicate 11 (next 0) ++ [.enter 1, .scan 1, .resume 1, .op 1 .exec, next 1]
  have hrun : (machine 2).Ends (fun m => (m.k.proc 0).state.Live ∧ (m.k.proc 0).pgdir = some 0 ∧
      0 ∈ m.k.freed) (boot0 2) as := by
    decide +kernel
  obtain ⟨m, hm, h⟩ := System.Reachable.of_ends _ (init_boot0 2) hrun
  exact ⟨m, hm, 0, 0, h⟩

end OsSemester.Xv6
