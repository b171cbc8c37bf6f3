import OsSemester.Xv6.CpuOwnership
import OsSemester.Xv6.Inv.Birth

/-!
# `join` reaps a thread once, after its exit
-/

namespace OsSemester.Xv6

open Machine

variable {n : ℕ} {m m' m0 : Machine n} {a : Action n} {mv : Move} {c : Fin n} {s p q np t : Slot}
variable {tid : ℤ}

/-- The slot `p` holds the thread `tid`, from its publication until it is reclaimed. -/
def Machine.Thread (m : Machine n) (tid : ℤ) (p : Slot) : Prop :=
  (m.k.proc p).Used ∧ IsThread m.k tid p

/-- The step is the end of a call of `join` by `s` that reclaims the thread `tid` in the slot `p`.  Of
the other slots only the caller's changes, which `sleep` tidies up when it returns. -/
structure Reaps (m m' : Machine n) (s p : Slot) (tid : ℤ) : Prop where
  log : m'.log = .join (m.inc s) tid :: m.log
  thread : m.Thread tid p
  zombie : (m.k.proc p).state = .zombie
  state : (m'.k.proc p).state = .unused
  kstack : ∃ pg, (m.k.proc p).kstack = some pg ∧ m.k.inuse pg = true ∧
    ∀ pg', m'.k.inuse pg' = if pg' = pg then false else m.k.inuse pg'
  freed : if (m.k.proc p).cloneVm then m'.k.freed = m.k.freed
    else ∃ d, (m.k.proc p).pgdir = some d ∧ m'.k.freed = d :: m.k.freed
  others : ∀ q, q ≠ p → m'.k.proc q = m.k.proc q ∨
    q = s ∧ m'.k.proc q = { m.k.proc q with chan := none }

/-- The slot keeps the thread `tid` with its kernel stack in the step. -/
structure Stays (m m' : Machine n) (p : Slot) (tid : ℤ) : Prop where
  thread : m'.Thread tid p
  cloneVm : (m'.k.proc p).cloneVm = (m.k.proc p).cloneVm
  kstack : (m'.k.proc p).kstack = (m.k.proc p).kstack
  inuse : ∀ pg, (m.k.proc p).kstack = some pg → m'.k.inuse pg = true

/-! ### The events -/

/-- Every `join` that has returned a `tid` came after the thread was cloned and after its exit, and no
`join` has returned the `tid` before. -/
def JoinsInOrder : List Event → Prop
  | [] => True
  | e :: l => JoinsInOrder l ∧ ∀ caller tid, e = .join caller tid →
      .exit tid ∈ l ∧ (∀ c, .join c tid ∉ l) ∧ ∃ f, .clone f tid ∈ l

/-- How the threads in the table and the events of the run belong together. -/
structure Reapings (m : Machine n) : Prop where
  exited : ∀ {z}, (m.k.proc z).state = .zombie → .exit (m.inc z) ∈ m.log
  cloned : ∀ {t}, (m.k.proc t).Used → (m.k.proc t).isthread = true → t ≠ m.k.initproc →
    ∃ f, .clone f (m.inc t) ∈ m.log
  joined : ∀ {c tid}, .join c tid ∈ m.log →
    tid < m.k.nextpid ∧ ∀ t, (m.k.proc t).state ≠ .unused → m.inc t ≠ tid
  right : JoinsInOrder m.log

theorem JoinsInOrder.append {es l : List Event} (h : JoinsInOrder l)
    (hes : ∀ e ∈ es, ∀ c tid, e ≠ .join c tid) : JoinsInOrder (es ++ l) := by
  induction es with
  | nil => exact h
  | cons e es ih =>
    exact ⟨ih fun e he => hes e (List.mem_cons_of_mem _ he),
      fun c tid he => absurd he (hes e (List.mem_cons_self ..) c tid)⟩

theorem JoinsInOrder.split {c : ℤ} {l₁ l₂ : List Event}
    (h : JoinsInOrder (l₁ ++ .join c tid :: l₂)) :
    .exit tid ∈ l₂ ∧ (∀ c', .join c' tid ∉ l₂) ∧ ∃ f, .clone f tid ∈ l₂ := by
  induction l₁ with
  | nil => exact h.2 c tid rfl
  | cons e l₁ ih => exact ih h.1

/-- A step without an allocation that adds events other than a `join`. -/
theorem Reapings.frame (hR : Reapings m) (es : List Event) (hlog : m'.log = es ++ m.log)
    (hes : ∀ e ∈ es, ∀ c tid, e ≠ .join c tid)
    (hi : m'.inc = m.inc) (hn : m'.k.nextpid = m.k.nextpid) (hinit : m'.k.initproc = m.k.initproc)
    (hu : ∀ {t}, (m'.k.proc t).state ≠ .unused → (m.k.proc t).state ≠ .unused)
    (hz : ∀ {t}, (m'.k.proc t).state = .zombie →
      (m.k.proc t).state = .zombie ∨ .exit (m.inc t) ∈ es)
    (hc : ∀ {t}, (m'.k.proc t).Used → (m'.k.proc t).isthread = true →
      (m.k.proc t).Used ∧ (m.k.proc t).isthread = true ∨ ∃ f, .clone f (m.inc t) ∈ es) :
    Reapings m' where
  exited h := by
    rw [hlog, hi, List.mem_append]
    exact (hz h).elim (fun h => Or.inr (hR.exited h)) Or.inl
  cloned h hth hne := by
    rw [hinit] at hne
    rw [hlog, hi]
    rcases hc h hth with ⟨h, hth⟩ | ⟨f, hf⟩
    · obtain ⟨f, hf⟩ := hR.cloned h hth hne
      exact ⟨f, List.mem_append_right _ hf⟩
    · exact ⟨f, List.mem_append_left _ hf⟩
  joined {c tid} h := by
    rw [hlog, List.mem_append] at h
    obtain ⟨h1, h2⟩ := hR.joined (h.resolve_left fun h => hes _ h c tid rfl)
    rw [hi, hn]
    exact ⟨h1, fun t ht => h2 t (hu ht)⟩
  right := by
    rw [hlog]
    exact hR.right.append hes

/-- The event of a statement of `fork` or `clone`. -/
def Stmt.events (m : Machine n) (s np : Slot) : Stmt → List Event
  | .forkRun => [.fork (m.inc s) (m.k.proc np).pid]
  | .cloneRun => [.clone (m.inc s) (m.k.proc np).tid]
  | _ => []

theorem record_events (m : Machine n) (s np : Slot) (o : Oracle) (st : Stmt) :
    (m.record s np o st).log = st.events m s np ++ m.log := by
  cases st <;> rfl

theorem Stmt.not_mem_events {st : Stmt} {e : Event} (he : e ∈ st.events m s np) (c tid : ℤ) :
    e ≠ .join c tid := by
  rintro rfl
  cases st <;> simp [Stmt.events] at he

theorem reapings_stmt (hL : Life m) (hC : Born Creating (fun p i => p.tid = i) m)
    (hR : Reapings m) {st : Stmt} {k : Kernel} {o : Oracle} {nx : Option Stmt}
    (hpc : m.pc s = .create st np) (hk : st.exec m.k s np o = .ok (k, nx)) :
    Reapings (((m.record s np o st).setK k).setPc s (pcAfter np nx)) := by
  have hemb := hL.embryo hpc
  have hother : ∀ {t}, t ≠ np → Keep (m.k.proc t) (k.proc t) := fun ht => exec_keep_of_ne hk ht
  refine hR.frame _ (record_events m s np o st) (fun e he => Stmt.not_mem_events he)
    (record_inc m s np o st) (exec_globals hk).1 (exec_globals hk).2.1 (fun {t} ht => ?_)
    (fun {t} ht => Or.inl ?_) (fun {t} ht hth => ?_)
  · by_cases htn : t = np
    · rw [htn, hemb]
      decide
    · rwa [ne_eq, ← (hother htn).eq_iff not_live_unused]
  · by_cases htn : t = np
    · subst htn
      have := exec_published hk hemb (by rw [show (k.proc t).state = .zombie from ht]; decide)
        (by rw [show (k.proc t).state = .zombie from ht]; decide)
      rw [show (k.proc t).state = .zombie from ht] at this
      cases this.2.2
    · rwa [← (hother htn).eq_iff not_live_zombie]
  · by_cases htn : t = np
    · subst htn
      -- the statement has published the slot; only `clone` publishes a thread
      obtain ⟨-, hpub, -⟩ := exec_published hk hemb ht.ne_embryo ht.ne_unused
      have hcr := hC.create hpc
      rw [show (((m.record s t o st).setK k).setPc s (pcAfter t nx)).k = k from rfl,
        exec_isthread hk] at hth
      rcases hpub with rfl | rfl
      · exact absurd trivial ((hcr.thread trivial).mp hth)
      · refine Or.inr ⟨m.inc s, ?_⟩
        rw [← hcr.tid trivial]
        exact List.mem_singleton.mpr rfl
    · exact Or.inl ⟨(hother htn).used_iff.mp ht, (hother htn).isthread ▸ hth⟩

theorem Allocates.reapings (hR : Reapings m) {fl : Option ℤ} (hA : Allocates m m' s np fl)
    (hlog : m'.log = m.log) : Reapings m' := by
  refine ⟨fun {z} hz => ?_, fun {t} ht hth hi => ?_, fun {c tid} hj => ?_, by rw [hlog]; exact hR.right⟩
  · have hzn := hA.ne_of_used (Or.inr hz)
    rw [hA.proc_of_ne hzn] at hz
    rw [hlog, hA.inc_of_ne hzn]
    exact hR.exited hz
  · have htn := hA.ne_of_used ht
    rw [hA.proc_of_ne htn] at ht hth
    rw [hA.initproc] at hi
    rw [hlog, hA.inc_of_ne htn]
    exact hR.cloned ht hth hi
  · rw [hlog] at hj
    obtain ⟨h1, h2⟩ := hR.joined hj
    refine ⟨?_, fun t ht => ?_⟩
    · rw [hA.nextpid]
      exact h1.trans (Int.lt_succ _)
    · by_cases htn : t = np
      · rw [htn, hA.inc_self]
        exact h1.ne'
      · rw [hA.inc_of_ne htn]
        exact h2 t (by rwa [hA.proc_of_ne htn] at ht)

/-- A slot that is reclaimed is out of the table, the others are in it as before. -/
theorem Reclaim.ne_unused {b : Bool} (h : Reclaim m m' s p b) (ht : (m'.k.proc t).state ≠ .unused) :
    t ≠ p ∧ (m.k.proc t).state ≠ .unused := by
  have htp : t ≠ p := by
    rintro rfl
    exact ht h.state
  exact ⟨htp, by rwa [ne_eq, ← (h.keep t htp).eq_iff not_live_unused]⟩

/-- A thread that is reclaimed has its occupant's number as `tid`. -/
theorem Born.tid_of_zombie (hL : Life m) (hC : Born Creating (fun p i => p.tid = i) m)
    (hz : (m.k.proc p).state = .zombie) : p ≠ m.k.initproc ∧ (m.k.proc p).tid = m.inc p := by
  have hpi : p ≠ m.k.initproc := by
    rintro rfl
    have := hL.initLive
    rw [hz] at this
    exact not_live_zombie this
  exact ⟨hpi, hC.used (Or.inr hz) hpi⟩

theorem reapings_join {b : Bool} (hL : Life m) (hN : Names m)
    (hC : Born Creating (fun p i => p.tid = i) m) (hR : Reapings m) (hT : IsThread m.k tid p)
    (h : Reclaim m m' s p b) (hlog : m'.log = .join (m.inc s) tid :: m.log) : Reapings m' := by
  obtain ⟨hpi, htid⟩ := hC.tid_of_zombie hL h.zombie
  have hpu : (m.k.proc p).state ≠ .unused := by
    rw [h.zombie]
    decide
  rw [hT.1] at htid
  refine ⟨fun {z} hz => ?_, fun {t} ht hth hi => ?_, fun {c q} hj => ?_, ?_⟩
  · have hzp := (h.ne_unused (t := z) (by rw [hz]; decide)).1
    rw [hlog, h.inc]
    exact List.mem_cons_of_mem _ (hR.exited (((h.keep z hzp).eq_iff not_live_zombie).mp hz))
  · have hk := h.keep t (h.ne_unused ht.ne_unused).1
    rw [h.initproc] at hi
    rw [hk.used_iff] at ht
    rw [hk.isthread] at hth
    rw [hlog, h.inc]
    obtain ⟨f, hf⟩ := hR.cloned ht hth hi
    exact ⟨f, List.mem_cons_of_mem _ hf⟩
  · rw [h.inc, h.nextpid]
    rw [hlog] at hj
    rcases List.mem_cons.mp hj with he | hj
    · obtain ⟨-, rfl⟩ := Event.join.inj he
      rw [htid]
      exact ⟨hN.lt p, fun t ht he => (h.ne_unused ht).1 (hN.inj (h.ne_unused ht).2 hpu he)⟩
    · obtain ⟨h1, h2⟩ := hR.joined hj
      exact ⟨h1, fun t ht => h2 t (h.ne_unused ht).2⟩
  · rw [hlog]
    refine ⟨hR.right, fun c q he => ?_⟩
    obtain ⟨-, rfl⟩ := Event.join.inj he
    rw [htid]
    exact ⟨hR.exited h.zombie, fun c hc => (hR.joined hc).2 p hpu rfl,
      hR.cloned (Or.inr h.zombie) hT.2 hpi⟩

theorem Effect.reapings (hB : Base m) (hN : Names m)
    (hC : Born Creating (fun p i => p.tid = i) m) (hR : Reapings m) (h : Effect m mv m') :
    Reapings m' := by
  have hL := hB.life
  cases h.change hB.sched hL with
  | quiet _ hQ =>
    refine hR.frame [] hQ.log (by simp) hQ.inc hQ.globals.nextpid hQ.globals.initproc
      (fun {t} ht => ?_) (fun {t} ht => Or.inl ?_) (fun {t} ht hth => Or.inl ?_)
    · rwa [ne_eq, ← (hQ.keep t).eq_iff not_live_unused]
    · rwa [← (hQ.keep t).eq_iff not_live_zombie]
    · exact ⟨(hQ.keep t).used_iff.mp ht, (hQ.keep t).isthread ▸ hth⟩
  | alloc hs _ ha => exact Allocates.reapings hR ⟨hL, hs, ha, rfl, rfl⟩ rfl
  | stmt _ hpc hk => exact reapings_stmt hL hC hR hpc hk
  | @commit s _ k _ _ hk =>
    obtain ⟨_, -, -, -, hn, hinit, -⟩ := execCommit_ok hk
    have hst := execCommit_state hk
    have hF := execCommit_fixed hk
    refine hR.frame [] rfl (by simp) rfl hn hinit (fun {t} ht => ?_) (fun {t} ht => Or.inl ?_)
      (fun {t} ht hth => Or.inl ?_)
    · rwa [setPc_k, setK_k, hst] at ht
    · rwa [setPc_k, setK_k, hst] at ht
    · rw [setPc_k, setK_k] at ht hth
      unfold Proc.Used at ht ⊢
      rw [hst] at ht
      rw [(hF t).isthread] at hth
      exact ⟨ht, hth⟩
  | @exit c s hrun =>
    have hg := exitLocked_globals m.k s
    refine hR.frame [.exit (m.inc s)] rfl (by simp) rfl hg.nextpid hg.initproc (fun {t} ht => ?_)
      (fun {t} ht => ?_) (fun {t} ht hth => Or.inl ?_)
    · by_cases hts : t = s
      · rw [hts, hrun]
        decide
      · rwa [ne_eq, ← exitLocked_eq_iff m.k hts not_live_unused]
    · by_cases hts : t = s
      · rw [hts]
        exact Or.inr (List.mem_singleton.mpr rfl)
      · exact Or.inl ((exitLocked_eq_iff m.k hts not_live_zombie).mp ht)
    · exact ⟨(exitLocked_used_iff m.k hrun).mp ht, (exitLocked_fixed m.k s t).isthread ▸ hth⟩
  | waitReap _ h _ _ hlog =>
    refine hR.frame [.wait _ _] hlog (by simp) h.inc h.nextpid h.initproc
      (fun ht => (h.ne_unused ht).2) (fun {t} ht => Or.inl ?_) (fun {t} ht hth => Or.inl ?_)
    · have htp := (h.ne_unused (t := t) (by rw [ht]; decide)).1
      rwa [← (h.keep t htp).eq_iff not_live_zombie]
    · have hk := h.keep t (h.ne_unused ht.ne_unused).1
      exact ⟨hk.used_iff.mp ht, hk.isthread ▸ hth⟩
  | joinReap hT _ h _ _ hlog => exact reapings_join hL hN hC hR hT h hlog

theorem reapings_boot (n : ℕ) (ofile : Fd → Option FileId) (ft : FTable) :
    Reapings (boot n ofile ft) := by
  have hp : ∀ {t}, t ≠ 0 → (boot n ofile ft).k.proc t = Proc.zero := fun ht => by
    simp only [boot, bootKernel]
    exact Function.update_of_ne ht _ _
  refine ⟨fun {z} hz => ?_, fun {t} ht _ hne => ?_, fun h => absurd h List.not_mem_nil, trivial⟩
  · by_cases h0 : z = 0
    · subst h0
      cases hz
    · rw [hp h0] at hz
      cases hz
  · rw [hp hne] at ht
    exact absurd rfl ht.ne_unused

theorem Reach.reapings {ok : Machine n → Action n → Prop} (h : (machine n).Reach ok m) :
    Reapings m := by
  refine h.invariant_of_reach ?_ fun m a m' hr hR _ hst => ?_
  · rintro _ ⟨ofile, ft, rfl⟩
    exact reapings_boot n ofile ft
  · have hst : m.step a = .ok m' := hst
    exact (step_effect hst).reapings (Reach.base hr) (Reach.names hr) (Reach.creating hr) hR

/-! ### The step that reclaims a thread -/

theorem Effect.reaps (hB : Base m) (hK : Stacks m) (h : Effect m (.joinReap s tid p) m') :
    Reaps m m' s p tid := by
  obtain ⟨pg, hpg⟩ : ∃ pg, (m.k.proc p).kstack = some pg := by
    cases h.change hB.sched hB.life with
    | quiet hq => exact hq.elim
    | joinReap _ _ hR =>
      exact Option.ne_none_iff_exists'.mp (hB.life.equipped (Or.inr hR.zombie)).1
  have hch := h.change hB.sched hB.life
  cases h with
  | @joinReap _ _ _ _ _ m0 _ hs hw hk =>
    cases hch with
    | quiet hq => exact hq.elim
    | joinReap hT _ hR _ _ hlog =>
      refine ⟨hlog, ⟨Or.inr hR.zombie, hT⟩, hR.zombie, hR.state,
        ⟨pg, hpg, hK.inuse hpg, fun pg' => ?_⟩, ?_, fun q hq => ?_⟩
      · rw [hR.inuse, hpg]
        simp only [Option.some.injEq, eq_comm]
      · have hfreed := hR.freed_eq
        cases hvm : (m.k.proc p).cloneVm <;> simpa [hvm] using hfreed
      · have hq := (joinReap_ok hk).1.proc_of_ne q hq
        cases hs with
        | call => exact Or.inl hq
        | back =>
          have hq : _ = (m.tidyUp s).k.proc q := hq
          simp only [tidyUp, setK, Kernel.modify_proc] at hq
          split_ifs at hq with hqs
          · exact Or.inr ⟨hqs, by rw [hq, hqs]⟩
          · exact Or.inl hq

theorem Stays.of_keep (hK : Stacks m) (hT : m.Thread tid t) (h : Keep (m.k.proc t) (m'.k.proc t))
    (hin : ∀ pg, (m.k.proc t).kstack = some pg → m.k.inuse pg = true → m'.k.inuse pg = true) :
    Stays m m' t tid where
  thread := ⟨h.used_iff.mpr hT.1, h.tid.trans hT.2.1, h.isthread.trans hT.2.2⟩
  cloneVm := h.cloneVm
  kstack := h.kstack
  inuse pg hpg := hin pg hpg (hK.inuse hpg)

theorem exitLocked_memory (k : Kernel) (s t : Slot) :
    ((exitLocked k s).proc t).kstack = (k.proc t).kstack ∧
      ((exitLocked k s).proc t).cloneVm = (k.proc t).cloneVm := by
  by_cases hts : t = s
  · subst hts
    obtain ⟨p, hT, he⟩ := exitLocked_self_touch k t
    rw [he]
    exact ⟨hT.kstack, hT.cloneVm⟩
  · have hT := exitLocked_touch k hts
    exact ⟨hT.kstack, hT.cloneVm⟩

/-- A thread stays in its slot until `join` reclaims it. -/
theorem Change.stays (hL : Life m) (hK : Stacks m) (hT : m.Thread tid t) (h : Change m mv m')
    (hne : ∀ s tid', mv ≠ .joinReap s tid' t) : Stays m m' t tid := by
  have hsame : m'.k.inuse = m.k.inuse → ∀ pg, (m.k.proc t).kstack = some pg →
      m.k.inuse pg = true → m'.k.inuse pg = true := fun he pg _ hin => by rwa [he]
  cases h with
  | quiet _ hQ => exact .of_keep hK hT (hQ.keep t) (hsame hQ.globals.inuse)
  | alloc _ _ ha =>
    obtain ⟨hu, hp, -, -, hi, -⟩ := allocproc_some ha
    have htn : t ≠ _ := fun he => hT.1.ne_unused (he ▸ hu)
    refine .of_keep hK hT (Keep.of_eq ?_) (hsame hi)
    exact (hp t).trans (if_neg htn)
  | @stmt s np _ st _ k _ hpc hk =>
    have htn : t ≠ np := fun he => hT.1.ne_embryo (he ▸ hL.embryo hpc)
    refine .of_keep hK hT (exec_keep_of_ne hk htn) fun pg hpg hin => ?_
    have hnp : (m.k.proc np).kstack ≠ some pg := fun h => htn (hK.inj hpg h)
    rw [setPc_k, setK_k]
    rcases exec_kstack hk with ⟨-, -, _, -, -, hi⟩ | ⟨-, -, -, hi⟩ | ⟨-, -, -, -, hi⟩ | ⟨-, -, -, hi⟩
    · rw [hi]
      split_ifs
      · rfl
      · exact hin
    · rwa [hi]
    · rwa [hi, if_neg hnp]
    · rwa [hi]
  | @commit s _ k _ _ hk =>
    obtain ⟨d, -, -, -, -, -, hi, -, hp⟩ := execCommit_ok hk
    have hF := execCommit_fixed hk t
    refine ⟨⟨?_, hF.tid.trans hT.2.1, hF.isthread.trans hT.2.2⟩, ?_, ?_, fun pg hpg => ?_⟩
    · have hst := execCommit_state hk t
      unfold Proc.Used
      rw [setPc_k, setK_k, hst]
      exact hT.1
    · rw [setPc_k, setK_k, hp]
      split_ifs with hts
      · rw [hts]
      · rfl
    · rw [setPc_k, setK_k, hp]
      split_ifs with hts
      · rw [hts]
      · rfl
    · rw [setPc_k, setK_k, hi]
      exact hK.inuse hpg
  | @exit c s hrun =>
    have hF := exitLocked_fixed m.k s t
    have hg := exitLocked_globals m.k s
    refine ⟨⟨(exitLocked_used_iff m.k hrun).mpr hT.1, hF.tid.trans hT.2.1,
      hF.isthread.trans hT.2.2⟩, ?_, ?_, fun pg hpg => ?_⟩
    · exact (exitLocked_memory m.k s t).2
    · exact (exitLocked_memory m.k s t).1
    · show (exitLocked m.k s).inuse pg = true
      rw [hg.inuse]
      exact hK.inuse hpg
  | @waitReap s p _ hw hR =>
    have htp : t ≠ p := by
      rintro rfl
      have hth := (waitScan_reap hw).1
      simp [waitable, hT.2.2] at hth
    refine .of_keep hK hT (hR.keep t htp) fun pg hpg hin => ?_
    rwa [hR.inuse, if_neg fun h => htp (hK.inj hpg h)]
  | @joinReap s p tid' _ _ _ hR =>
    have htp : t ≠ p := by
      rintro rfl
      exact hne s tid' rfl
    refine .of_keep hK hT (hR.keep t htp) fun pg hpg hin => ?_
    rwa [hR.inuse, if_neg fun h => htp (hK.inj hpg h)]

/-- Only a `join` that reclaims a thread is recorded as one. -/
theorem Change.join_of_log {w : ℤ} (h : Change m mv m') (hlog : m'.log = .join w tid :: m.log) :
    ∃ s p, mv = .joinReap s tid p := by
  have hself : ∀ {e : Event}, m.log ≠ e :: m.log := fun h => by
    have := congrArg List.length h
    simp at this
  cases h with
  | quiet _ hQ => exact absurd (hQ.log.symm.trans hlog) hself
  | alloc => exact absurd hlog hself
  | @stmt s np o st =>
    have hlog : (m.record s np o st).log = [.join w tid] ++ m.log := hlog
    rw [record_events, List.append_left_inj] at hlog
    have hmem : Event.join w tid ∈ st.events m s np := by
      rw [hlog]
      exact List.mem_singleton.mpr rfl
    exact absurd rfl (Stmt.not_mem_events hmem w tid)
  | commit => exact absurd hlog hself
  | exit => cases (List.cons.inj hlog).1
  | waitReap _ _ _ _ hl => cases (List.cons.inj (hl.symm.trans hlog)).1
  | @joinReap s p tid' _ _ _ _ _ _ hl =>
    obtain ⟨-, rfl⟩ := Event.join.inj (List.cons.inj (hl.symm.trans hlog)).1
    exact ⟨s, p, rfl⟩

/-! ### The main result -/

/-- **`join` reaps once, after the exit.** In every reachable state a `tid` that `join` has returned
was returned by no earlier `join`, and the thread had been cloned and had exited before.  A step that
ends with `join` returning a `tid` reclaims the slot of this thread, takes back its kernel stack, and
its page directory unless it was cloned with `CLONE_VM`, and changes no other slot.  In any other step
the thread stays in its slot with its kernel stack. -/
theorem join_reaps (h : (machine n).Reachable m) :
    (∀ l₁ l₂ w tid, m.log = l₁ ++ .join w tid :: l₂ →
      (∀ w', .join w' tid ∉ l₂) ∧ .exit tid ∈ l₂ ∧ ∃ f, .clone f tid ∈ l₂) ∧
    ∀ a m', m.step a = .ok m' →
      (∀ w tid, m'.log = .join w tid :: m.log → ∃ s p, w = m.inc s ∧ Reaps m m' s p tid) ∧
      ∀ tid p, m.Thread tid p → Stays m m' p tid ∨ ∃ s, Reaps m m' s p tid := by
  have hB := Reach.base h
  have hK := Reach.stacks h
  refine ⟨fun l₁ l₂ w tid hlog => ?_, fun a m' hst => ?_⟩
  · have hright := (Reach.reapings h).right
    rw [hlog] at hright
    obtain ⟨hexit, honce, hclone⟩ := hright.split
    exact ⟨honce, hexit, hclone⟩
  · have he := step_effect hst
    have hch := he.change hB.sched hB.life
    refine ⟨fun w tid hlog => ?_, fun tid p hT => ?_⟩
    · obtain ⟨s, p, hmv⟩ := hch.join_of_log hlog
      rw [hmv] at he
      have hR := he.reaps hB hK
      exact ⟨s, p, (Event.join.inj (List.cons.inj (hlog.symm.trans hR.log)).1).1, hR⟩
    · by_cases hmv : ∃ s tid', m.move a = .joinReap s tid' p
      · obtain ⟨s, tid', hmv⟩ := hmv
        rw [hmv] at he
        have hR := he.reaps hB hK
        obtain rfl : tid' = tid := hR.thread.2.1.symm.trans hT.2.1
        exact Or.inr ⟨s, hR⟩
      · exact Or.inl (hch.stays hB.life hK hT fun s tid' he => hmv ⟨s, tid', he⟩)

/-- A process sleeps in `join` until its thread exits, and reclaims it in its second scan. -/
theorem join_reaps_second : ∃ m m' : Machine 1, m.log = [.exit 2, .clone 1 2] ∧
    m.step (.resume 0) = .ok m' ∧ (∃ s p, Reaps m m' s p 2) ∧
    ∀ w, .join w 2 ∉ [Event.exit 2, .clone 1 2] := by
  let o : Oracle := ⟨some 1, true, 0, none⟩
  let as : List (Action 1) := [.enter 0, .scan 0, .resume 0, .op 0 (.clone 4)] ++
    List.replicate 11 (.op 0 (.next o)) ++ [.op 0 (.join 2 o), .scan 0, .resume 0, .op 0 .exit] ++
    List.replicate 4 (.op 0 (.next o)) ++ [.scan 0, .enter 0, .scan 0]
  have hrun : (machine 1).Ends (fun m => m.log = [.exit 2, .clone 1 2] ∧
      (m.step (.resume 0)).toOption.map (·.log) = some (.join 1 2 :: m.log)) (boot0 1) as := by
    decide +kernel
  obtain ⟨m, hm, hlog, hmap⟩ := System.Reachable.of_ends as (init_boot0 1) hrun
  cases hst : m.step (.resume 0) with
  | error e =>
    rw [hst] at hmap
    cases hmap
  | ok m' =>
    rw [hst] at hmap
    have hlog' : m'.log = .join 1 2 :: m.log := Option.some.inj hmap
    obtain ⟨s, p, -, hR⟩ := ((join_reaps hm).2 _ m' hst).1 1 2 hlog'
    have hm' : (machine 1).Reachable m' := System.Reach.step (a := .resume 0) hm trivial hst
    refine ⟨m, m', hlog, hst, ⟨s, p, hR⟩, ?_⟩
    exact ((join_reaps hm').1 [] _ 1 2 (by rw [hlog', hlog]; rfl)).1

end OsSemester.Xv6
