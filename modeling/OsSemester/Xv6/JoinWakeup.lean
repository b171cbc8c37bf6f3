import OsSemester.Xv6.Inv.Birth

/-!
# No lost wakeup in `join`

A process that sleeps in `join(tid)` is woken by the exit of the thread `tid`, which finds it through
`joinproc` or as its parent.  This goes well exactly as long as `join` goes to sleep only for a
thread that is there, a thread that is waited for is not abandoned by `clone`, and a thread that
exits is in the `joinproc` of all who wait for it or of nobody: `join_wakeup`.  `Expects` is the
invariant.
-/

namespace OsSemester.Xv6

open Machine

variable {n : ℕ} {m m' m0 : Machine n} {a : Action n} {mv : Move} {c : Fin n}
variable {s e p q np t : Slot} {tid : ℤ} {f : Option Slot} {o : Oracle} {st : Stmt} {nx : Option Stmt}

/-- The `tid` the process sleeps for in `join`. -/
def Machine.joining (m : Machine n) (s : Slot) : Option ℤ :=
  match m.resume s with
  | .join tid _ => if (m.k.proc s).state = .sleeping then some tid else none
  | _ => none

/-- In this control state the process is inside `clone` and has given the slot `e` its `tid`. -/
def Pc.Cloning (e : Slot) : Pc → Prop
  | .create st np => np = e ∧ st.PastTid ∧ ¬ st.Forking
  | _ => False

instance : DecidablePred Stmt.PastTid := fun st => by
  unfold Stmt.PastTid
  split <;> infer_instance

instance : DecidablePred Stmt.Forking := fun st => by
  unfold Stmt.Forking
  split <;> infer_instance

instance (e : Slot) : DecidablePred (Pc.Cloning e) := fun p => by
  unfold Pc.Cloning
  split <;> infer_instance

/-- The slot `e` holds the thread `tid`, the occupant that was allocated with this number, and the
thread is live or on its way to be. -/
structure Machine.Holds (m : Machine n) (tid : ℤ) (e : Slot) : Prop where
  thread : IsThread m.k tid e
  own : m.inc e = tid
  state : (m.k.proc e).state.Live ∨ ((m.k.proc e).state = .embryo ∧ ∃ s, (m.pc s).Cloning e)

instance (m : Machine n) (tid : ℤ) (e : Slot) : Decidable (m.Holds tid e) :=
  decidable_of_iff (((m.k.proc e).tid = tid ∧ (m.k.proc e).isthread = true) ∧ m.inc e = tid ∧
      ((m.k.proc e).state.Live ∨ ((m.k.proc e).state = .embryo ∧ ∃ s, (m.pc s).Cloning e)))
    ⟨fun h => ⟨h.1, h.2.1, h.2.2⟩, fun h => ⟨h.thread, h.own, h.state⟩⟩

/-- Whoever sleeps in `join` sleeps for a thread in another slot whose exit is still to come. -/
def JoinSafe (m : Machine n) : Prop :=
  ∀ s tid, m.joining s = some tid → ∃ e, e ≠ s ∧ m.Holds tid e

/-- The statement fails and leaves the new slot without a process. -/
def Stmt.Abandons (k : Kernel) (np : Slot) (o : Oracle) : Stmt → Prop
  | .clonePgdir => (k.proc np).cloneVm = false ∧ o.ok = false
  | .cloneCopyout => o.ok = false
  | _ => False

/-- The moves that leave no sleeper of `join` behind:

* `join` goes to sleep only if the slot it has found is not the caller's and holds the thread;
* `clone` does not fail when somebody sleeps for the thread it is creating;
* when a thread exits that is in the `joinproc` of some slot, it is in the `joinproc` of everybody
  who sleeps for it. -/
def Attentive (m : Machine n) : Move → Prop
  | .joinBlock s tid _ =>
    ∀ p, (m.k.proc p).tid = tid ∧ (m.k.proc p).isthread = true → p ≠ s ∧ m.Holds tid p
  | .stmt _ np o st => st.Abandons m.k np o → ∀ s, m.joining s ≠ some (m.inc np)
  | .exit e => (m.k.proc e).isthread = true → hasJoiner m.k e = true →
      ∀ s, m.joining s = some (m.k.proc e).tid → (m.k.proc s).joinproc = some e
  | _ => True

instance (m : Machine n) (mv : Move) : Decidable (Attentive m mv) := by
  unfold Attentive Stmt.Abandons
  split
  · infer_instance
  · split <;> infer_instance
  all_goals infer_instance

/-- The move of the step leaves no sleeper of `join` behind. -/
def AttentiveStep (m : Machine n) (a : Action n) : Prop := Attentive m (m.move a)

instance (m : Machine n) (a : Action n) : Decidable (AttentiveStep m a) := by
  unfold AttentiveStep
  infer_instance

/-- What is known about a process that sleeps in `join(tid)` with its local `found`. -/
structure Expect (m : Machine n) (s : Slot) (tid : ℤ) (found : Option Slot) (e : Slot) : Prop where
  ne : e ≠ s
  holds : m.Holds tid e
  joinproc : (m.k.proc s).joinproc = found
  thread : (m.k.proc s).isthread = true → found = some e
  process : (m.k.proc s).isthread = false → (m.k.proc e).parent = some s

/-- Every sleeper of `join` can expect to be woken. -/
def Expects (m : Machine n) : Prop := ∀ s tid f, m.Joins s tid f → ∃ e, Expect m s tid f e

theorem joining_iff : m.joining s = some tid ↔ ∃ f, m.Joins s tid f := by
  unfold joining
  constructor
  · intro h
    split at h
    · rename_i tid' f hr
      split_ifs at h with hs
      obtain rfl := Option.some.inj h
      exact ⟨f, hs, hr⟩
    · cases h
  · rintro ⟨f, hs, hr⟩
    rw [hr]
    exact if_pos hs

theorem Expects.joinSafe (hE : Expects m) : JoinSafe m := by
  intro s tid hs
  obtain ⟨f, hs⟩ := joining_iff.mp hs
  obtain ⟨e, he⟩ := hE _ _ _ hs
  exact ⟨e, he.ne, he.holds⟩

theorem Pc.Cloning.create {pc : Pc} (h : pc.Cloning e) :
    ∃ st, pc = .create st e ∧ st.PastTid ∧ ¬ st.Forking := by
  cases pc with
  | create st np =>
    obtain ⟨rfl, hst⟩ := h
    exact ⟨st, rfl, hst⟩
  | _ => exact h.elim

theorem cloning_of_create {st : Stmt} (h : m.pc s = .create st e) (hst : st.PastTid)
    (hf : ¬ st.Forking) : (m.pc s).Cloning e := by
  rw [h]
  exact ⟨rfl, hst, hf⟩

namespace Machine.Holds

theorem not_unused (h : m.Holds tid e) : (m.k.proc e).state ≠ .unused := by
  rcases h.state with h | ⟨h, -⟩
  · exact Proc.Used.ne_unused (Or.inl h)
  · rw [h]
    decide

theorem not_zombie (h : m.Holds tid e) : (m.k.proc e).state ≠ .zombie := by
  intro hz
  rcases h.state with h | ⟨h, -⟩ <;> rw [hz] at h
  · exact not_live_zombie h
  · cases h

/-- A step that does not end the thread and does not touch a slot in creation. -/
theorem keep (h : m.Holds tid e) (hf : Fixed (m.k.proc e) (m'.k.proc e)) (hi : m'.inc e = m.inc e)
    (hl : (m.k.proc e).state.Live → (m'.k.proc e).state.Live)
    (he : (m.k.proc e).state = .embryo → (m'.k.proc e).state = .embryo)
    (hc : ∀ {s st}, m.pc s = .create st e → m'.pc s = .create st e) : m'.Holds tid e := by
  refine ⟨⟨hf.tid.trans h.thread.1, hf.isthread.trans h.thread.2⟩, hi.trans h.own, ?_⟩
  rcases h.state with hs | ⟨hs, s, hpc⟩
  · exact Or.inl (hl hs)
  · obtain ⟨st, hpc, hst, hfk⟩ := hpc.create
    exact Or.inr ⟨he hs, s, cloning_of_create (hc hpc) hst hfk⟩

end Machine.Holds

/-! ### Who sleeps in `join` after a step -/

/-- **Who writes `joinproc`.** -/
theorem Effect.joinproc (h : Effect m mv m') (t : Slot) :
    (m'.k.proc t).joinproc = (m.k.proc t).joinproc ∨ (∃ tid f, mv = .joinBlock t tid f) ∨
      ∃ e, mv = .exit e ∧ (m.k.proc e).isthread = true ∧ (m.k.proc t).joinproc = some e := by
  cases h with
  | enter | idle | back | same | execFail | unshare | exitOfile | exitCwd => exact Or.inl rfl
  | pick | yield | sleep | exitIput =>
    refine Or.inl ?_
    simp only [sched_k, setPc_k, setK_k, fallAsleep, Kernel.modify_proc]
    split_ifs with h
    · subst h
      rfl
    · rfl
  | woke hs => exact Or.inl (hs.joinproc t)
  | wakeup => exact Or.inl (wakeup1_joinproc _ _ t)
  | alloc hr hpc ha =>
    obtain ⟨-, hp, -⟩ := allocproc_some ha
    refine Or.inl ?_
    rw [setPc_k, setK_k, hp]
    split_ifs with h
    · rw [h]
    · rfl
  | @stmtLast _ _ np _ _ _ _ _ hk | @stmtNext _ _ np _ _ _ _ _ _ hk =>
    refine Or.inl ?_
    rw [setPc_k, setK_k]
    by_cases h : t = np
    · rw [h, exec_joinproc hk]
    · obtain ⟨_, _, he, -⟩ := exec_proc_of_ne hk h
      rw [he]
  | commit hr hpc hk =>
    obtain ⟨_, -, -, -, -, -, -, -, hp⟩ := execCommit_ok hk
    refine Or.inl ?_
    rw [setPc_k, setK_k, hp]
    split_ifs with h
    · rw [h]
    · rfl
  | exitFiles hr hpc hk =>
    obtain ⟨-, hp⟩ := exitFiles_ok hk
    refine Or.inl ?_
    rw [setPc_k, setK_k, hp]
    split_ifs with h
    · rw [h]
    · rfl
  | @exit _ s hr hpc =>
    -- the last two statements of `exit` leave `joinproc` alone
    have hj : ((exitLocked m.k s).proc t).joinproc =
        ((if (m.k.proc s).isthread then exitThread m.k s else exitProcess m.k s).proc t).joinproc := by
      by_cases h : t = s
      · rw [h, exitLocked_self, Proc.setState_joinproc]
      · rw [exitLocked_of_ne _ h]
    rw [sched_k, setPc_k, setK_k, hj]
    split_ifs with hth
    · rcases (exitThread_rest m.k s t).2.2 with h | ⟨-, h⟩
      · exact Or.inl h
      · exact Or.inr (Or.inr ⟨s, rfl, hth, h⟩)
    · exact Or.inl (exitProcess_joinproc _ _ t)
  | waitBlock hs =>
    refine Or.inl ?_
    rw [sched_k, setK_k, ← hs.joinproc t]
    simp only [fallAsleep, Kernel.modify_proc]
    split_ifs with h
    · rw [h]
    · rfl
  | @joinBlock _ s tid _ f m0 hs =>
    by_cases h : t = s
    · exact Or.inr (Or.inl ⟨tid, f, by rw [h]⟩)
    · refine Or.inl ?_
      rw [sched_k, setK_k, fallAsleep, Kernel.modify_proc_of_ne _ _ _ h,
        Kernel.modify_proc_of_ne _ _ _ h]
      exact hs.joinproc t
  | @waitReap _ _ p _ _ hs _ hk =>
    have hR := (waitReap_ok hk).1
    refine Or.inl ?_
    by_cases h : t = p
    · rw [h, hR.joinproc, hs.joinproc]
    · simp only [hR.proc_of_ne t h, hs.joinproc]
  | @joinReap _ _ p _ _ _ _ hs _ hk =>
    have hR := (joinReap_ok hk).1
    refine Or.inl ?_
    by_cases h : t = p
    · rw [h, hR.joinproc, hs.joinproc]
    · simp only [hR.proc_of_ne t h, hs.joinproc]
  | kill => exact Or.inl (kill_joinproc _ _ t)
  | tkill => exact Or.inl (tkill_joinproc _ _ t)

/-- A sleeper of `join` either slept through the step or has just scanned the table. -/
theorem Effect.joins (hB : Base m) (h : Effect m mv m') (hs : m'.Joins s tid f) :
    (Slept m m' s ∧ m.Joins s tid f) ∨ (mv = .joinBlock s tid f ∧
      (m'.k.proc s).joinproc = f) := by
  rcases h.asleep hB hs.state with hsl | hr | ⟨-, hr, -⟩ | ⟨tid', f', hmv, hr, -, hj⟩
  · exact Or.inl ⟨hsl, hsl.asleep hs⟩
  · rw [hs.resume] at hr
    cases hr
  · rw [hs.resume] at hr
    cases hr
  · rw [hs.resume] at hr
    obtain ⟨rfl, rfl⟩ := Resume.join.inj hr
    exact Or.inr ⟨hmv, hj⟩

/-! ### The sleepers are kept -/

/-- The exit of a thread wakes everybody who sleeps for it. -/
theorem exit_wakes (hB : Base m) (hN : Names m) (hC : Born Creating (fun p i => p.tid = i) m)
    (hS : Sleepers m) (hE : Expects m) (hok : Attentive m (.exit e))
    (hrun : (m.k.proc e).state = .running) (hpc : m.pc e = .exit .zombie)
    (hth : (m.k.proc e).isthread = true) (hs : m.Joins s (m.k.proc e).tid f) :
    ((exitLocked m.k e).proc s).state ≠ .sleeping := by
  have hu : (m.k.proc e).Used := by
    refine Or.inl ?_
    rw [hrun]
    exact live_running
  have hse : s ≠ e := by
    rintro rfl
    have := hs.state
    rw [hrun] at this
    cases this
  obtain ⟨q, hx⟩ := hE _ _ _ hs
  have htid := hC.used hu (hB.life.exiting hpc)
  obtain rfl : q = e := hN.inj hx.holds.not_unused hu.ne_unused (hx.holds.own.trans htid)
  have hchan := hS.chan_of_joins hs
  rw [exitLocked_of_ne _ hse, if_pos hth]
  cases hj : hasJoiner m.k q with
  | true => exact exitThread_wakes_joiner _ _ _ (hok hth hj s (joining_iff.mpr ⟨f, hs⟩)) hchan
  | false =>
    -- without a `joinproc` only the parent is woken
    refine exitThread_wakes_parent _ _ _ hj ?_
    cases hst : (m.k.proc s).isthread with
    | true =>
      have hjp := hx.joinproc.trans (hx.thread hst)
      rw [(hasJoiner_iff m.k q).mpr ⟨s, hjp⟩] at hj
      cases hj
    | false =>
      rw [hchan, hx.process hst]
      rfl

theorem Expect.of_holds (hx : Expect m s tid f e) (hh : m'.Holds tid e)
    (hs : Fixed (m.k.proc s) (m'.k.proc s)) (hj : (m'.k.proc s).joinproc = (m.k.proc s).joinproc)
    (hp : (m'.k.proc e).parent = (m.k.proc e).parent) : Expect m' s tid f e where
  ne := hx.ne
  holds := hh
  joinproc := hj.trans hx.joinproc
  thread h := hx.thread (hs.isthread.symm.trans h)
  process h := hp.trans (hx.process (hs.isthread.symm.trans h))

/-- A statement of `clone` leaves the thread in its slot, unless it fails. -/
theorem holds_stmt {st : Stmt} {o : Oracle} {nx : Option Stmt} (hpc : m.pc s = .create st np)
    (hemb : (m.k.proc np).state = .embryo) (hk : st.exec m.k s np o = .ok (m'.k, nx))
    (hst : st.PastTid) (hf : ¬ st.Forking) (hok : ¬ st.Abandons m.k np o) (hi : m'.inc = m.inc)
    (hpc' : m'.pc = Function.update m.pc s (pcAfter np nx)) (h : m.Holds tid np) :
    m'.Holds tid np := by
  have htid : (m'.k.proc np).tid = (m.k.proc np).tid := by
    rw [exec_tid hk, if_neg]
    rintro (rfl | rfl) <;> exact hst
  have hth : (m'.k.proc np).isthread = true := by
    rw [exec_isthread hk]
    split
    · exact absurd trivial hf
    · rfl
    · exact h.thread.2
  refine ⟨⟨htid.trans h.thread.1, hth⟩, by rw [hi]; exact h.own, ?_⟩
  have hstate := exec_state hk
  cases nx with
  | some st' =>
    obtain ⟨rfl, hpub⟩ := exec_next hk
    rw [if_neg (by simp), hemb] at hstate
    have hpc1 : m'.pc s = .create st.succ np := by
      rw [hpc', Function.update_self]
      rfl
    refine Or.inr ⟨hstate, s, cloning_of_create hpc1 ?_ ?_⟩
    · cases st <;> simp_all [Stmt.PastTid, Stmt.succ, Stmt.Publishes]
    · rwa [st.succ_forking]
  | none =>
    have hpub : st.Publishes ∧ st ≠ .cloneCopyout := by
      cases st <;> simp only [Stmt.exec] at hk <;>
        simp_all [Stmt.PastTid, Stmt.Forking, Stmt.Publishes, Stmt.Abandons]
      all_goals grind
    rw [if_pos ⟨rfl, hpub.2⟩, if_pos hpub.1] at hstate
    refine Or.inl ?_
    rw [hstate]
    exact live_runnable

theorem Allocates.expect {fl : Option ℤ} (hx : Expect m s tid f e)
    (hs : (m.k.proc s).state ≠ .unused) (hpc : m.pc p = .user) (hA : Allocates m m' p np fl) :
    Expect m' s tid f e := by
  have hen := hA.ne_of_not_unused hx.holds.not_unused
  have he := hA.proc_of_ne hen
  have hof := hA.proc_of_ne (hA.ne_of_not_unused hs)
  refine hx.of_holds (hx.holds.keep ?_ (hA.inc_of_ne hen) ?_ ?_ fun {t st} ht => ?_) ?_ ?_ ?_
  · rw [he]
    exact ⟨rfl, rfl, rfl, rfl⟩
  · rw [he]
    exact id
  · rw [he]
    exact id
  · have htp : t ≠ p := by
      rintro rfl
      rw [hpc] at ht
      cases ht
    rw [hA.next, Function.update_of_ne htp, ht]
  · rw [hof]
    exact ⟨rfl, rfl, rfl, rfl⟩
  · rw [hof]
  · rw [he]

theorem expect_stmt (hL : Life m) (hx : Expect m s tid f e)
    (hs : m.Joins s tid f) (hok : Attentive m (.stmt p np o st))
    (hpc : m.pc p = .create st np) (hk : st.exec m.k p np o = .ok (m'.k, nx))
    (hpc' : m'.pc = Function.update m.pc p (pcAfter np nx)) (hi : m'.inc = m.inc)
    (hj : (m'.k.proc s).joinproc = (m.k.proc s).joinproc) : Expect m' s tid f e := by
  have hemb := hL.embryo hpc
  have hkeep : ∀ {t}, t ≠ np → Keep (m.k.proc t) (m'.k.proc t) := fun ht => exec_keep_of_ne hk ht
  have hsn : s ≠ np := by
    rintro rfl
    have := hs.state
    rw [hemb] at this
    cases this
  by_cases hen : e = np
  · -- the thread is being created
    subst hen
    have hin : m.inc e = tid := hx.holds.own
    have hst : st.PastTid ∧ ¬ st.Forking := by
      rcases hx.holds.state with hl | ⟨-, q, hq⟩
      · rw [hemb] at hl
        exact absurd hl not_live_embryo
      · obtain ⟨st', hq, h1, h2⟩ := hq.create
        obtain rfl := hL.creator hq hpc
        obtain ⟨rfl, -⟩ := Pc.create.inj (hq.symm.trans hpc)
        exact ⟨h1, h2⟩
    have hpar : (m'.k.proc e).parent = (m.k.proc e).parent := by
      rw [exec_parent hk]
      split
      · exact absurd trivial hst.2
      · exact hst.1.elim
      · rfl
    refine hx.of_holds (holds_stmt hpc hemb hk hst.1 hst.2 (fun hab => ?_) hi hpc' hx.holds)
      (hkeep hsn).fixed hj hpar
    exact hok hab s (by rw [hin]; exact joining_iff.mpr ⟨f, hs⟩)
  · have hke := hkeep hen
    refine hx.of_holds (hx.holds.keep hke.fixed (by rw [hi]) hke.live_iff.mpr
      (hke.eq_iff not_live_embryo).mpr fun {t st'} ht => ?_) (hkeep hsn).fixed hj hke.parent
    have htp : t ≠ p := by
      rintro rfl
      obtain ⟨-, rfl⟩ := Pc.create.inj (ht.symm.trans hpc)
      exact hen rfl
    rw [hpc', Function.update_of_ne htp, ht]

/-- A process that creates nothing returns to user code; the records of the sleeper and of the thread
keep what matters. -/
theorem expect_return (hx : Expect m s tid f e) (hpc : ∀ st np, m.pc p ≠ .create st np)
    (hpc' : m'.pc = Function.update m.pc p .user) (hi : m'.inc = m.inc)
    (hf : ∀ t, Fixed (m.k.proc t) (m'.k.proc t))
    (hl : (m.k.proc e).state.Live → (m'.k.proc e).state.Live)
    (hemb : (m.k.proc e).state = .embryo → (m'.k.proc e).state = .embryo)
    (hj : (m'.k.proc s).joinproc = (m.k.proc s).joinproc)
    (hp : (m'.k.proc e).parent = (m.k.proc e).parent) : Expect m' s tid f e := by
  refine hx.of_holds (hx.holds.keep (hf e) (by rw [hi]) hl hemb fun {t st} ht => ?_) (hf s) hj hp
  have htp : t ≠ p := by
    rintro rfl
    exact hpc _ _ ht
  rw [hpc', Function.update_of_ne htp, ht]

theorem Reclaim.expect {b : Bool} (hx : Expect m s tid f e) (hs : m.Joins s tid f)
    (h : Reclaim m m' p q b) (hj : (m'.k.proc s).joinproc = (m.k.proc s).joinproc) :
    Expect m' s tid f e := by
  have hep : e ≠ q := by
    rintro rfl
    exact hx.holds.not_zombie h.zombie
  have hsp : s ≠ q := by
    rintro rfl
    have := hs.state
    rw [h.zombie] at this
    cases this
  have hk := h.keep e hep
  exact hx.of_holds (hx.holds.keep hk.fixed (by rw [h.inc]) hk.live_iff.mpr
    (hk.eq_iff not_live_embryo).mpr fun hpc => by rw [h.pc, hpc]) (h.keep s hsp).fixed hj hk.parent

/-- A process goes to sleep in `join`. -/
theorem expect_block (hok : Attentive m (.joinBlock s tid f)) {found : Option Slot}
    (h : joinScan m.k s tid found = .block f) (hQ : Quiet m m')
    (hj : (m'.k.proc s).joinproc = f) : ∃ e, Expect m' s tid f e := by
  obtain ⟨hall, -, hfound⟩ := joinLoop_block h
  rcases hfound with ⟨h, -⟩ | ⟨e, hmem, ht, hf⟩
  · cases h
  · obtain ⟨hes, hh⟩ := hok e ht
    have hjoin := (hall e hmem ht).1
    have hk := hQ.keep e
    have hth : (m'.k.proc s).isthread = (m.k.proc s).isthread := (hQ.keep s).isthread
    refine ⟨e, hes, hh.keep hk.fixed (by rw [hQ.inc]) hk.live_iff.mpr
      (hk.eq_iff not_live_embryo).mpr fun hpc => (hQ.create _ _ _).mpr hpc, hj, fun h => ?_,
      fun h => ?_⟩
    · rw [hf, if_pos (hth.symm.trans h)]
    · rw [hk.parent]
      rw [hth] at h
      unfold joinable at hjoin
      rw [if_neg (by rw [h]; decide)] at hjoin
      simpa using hjoin

theorem Effect.expects (hB : Base m) (hN : Names m)
    (hC : Born Creating (fun p i => p.tid = i) m) (hS : Sleepers m) (hE : Expects m)
    (hok : Attentive m mv) (h : Effect m mv m') : Expects m' := by
  intro s tid f hs
  have hch := h.change hB.sched hB.life
  rcases h.joins hB hs with ⟨hsl, hms⟩ | ⟨rfl, hj⟩
  · obtain ⟨e, hx⟩ := hE _ _ _ hms
    refine ⟨e, ?_⟩
    have hjp : (∀ q, mv = .exit q → (m.k.proc q).isthread = true →
        (m.k.proc s).joinproc ≠ some q) → (m'.k.proc s).joinproc = (m.k.proc s).joinproc := by
      intro hne
      rcases h.joinproc s with hj | ⟨tid', f', rfl⟩ | ⟨q, hmv, hth, hj⟩
      · exact hj
      · -- the sleeper is not the process that has just gone to sleep
        cases h with
        | joinBlock hsc =>
          have hrun := hB.sched.running_of_scans hsc
          rw [hms.state] at hrun
          cases hrun
      · exact absurd hj (hne q hmv hth)
    cases hch with
    | quiet hmv hq =>
      have hk := hq.keep e
      refine hx.of_holds (hx.holds.keep hk.fixed (by rw [hq.inc]) hk.live_iff.mpr
        (hk.eq_iff not_live_embryo).mpr fun hpc => (hq.create _ _ _).mpr hpc) (hq.keep s).fixed
        (hjp ?_) hk.parent
      rintro q rfl
      exact hmv.elim
    | alloc hrun hpc ha =>
      exact Allocates.expect hx (by rw [hms.state]; decide) hpc ⟨hB.life, hrun, ha, rfl, rfl⟩
    | stmt hrun hpc hk =>
      exact expect_stmt hB.life hx hms hok hpc hk (by simp) (record_inc _ _ _ _ _) (hjp (by simp))
    | commit hrun hpc hk =>
      obtain ⟨_, -, -, -, -, -, -, -, hp⟩ := execCommit_ok hk
      refine expect_return hx (by simp [hpc]) rfl rfl (execCommit_fixed hk) ?_ ?_ (hjp (by simp)) ?_
      · rw [setPc_k, setK_k, execCommit_state hk]
        exact id
      · rw [setPc_k, setK_k, execCommit_state hk]
        exact id
      · rw [setPc_k, setK_k, hp]
        split_ifs with h
        · rw [h]
        · rfl
    | @exit c q hrun hpc =>
      have hsq : s ≠ q := by
        rintro rfl
        rw [hms.state] at hrun
        cases hrun
      have hasleep : ((exitLocked m.k q).proc s).state = .sleeping := hs.state
      -- the exiting process is not the thread that the sleeper waits for
      have heq : e ≠ q := by
        rintro rfl
        refine exit_wakes (f := f) hB hN hC hS hE hok hrun hpc hx.holds.thread.2 ?_ hasleep
        rw [hx.holds.thread.1]
        exact hms
      refine expect_return hx (by simp [hpc]) rfl rfl (exitLocked_fixed m.k q)
        (exitLocked_live_iff m.k heq).mpr (exitLocked_eq_iff m.k heq not_live_embryo).mpr
        (hjp fun q' hmv hth hj => ?_) ?_
      · obtain rfl := Move.exit.inj hmv
        rw [exitLocked_of_ne _ hsq, if_pos hth] at hasleep
        exact exitThread_wakes_joiner _ _ _ hj (hS.chan_of_joins hms) hasleep
      · simp only [sched_k, setPc_k, setK_k]
        rw [exitLocked_parent, if_neg]
        rintro ⟨-, had⟩
        simp [adopted, hx.holds.thread.2] at had
    | waitReap _ hR | joinReap _ _ hR => exact hR.expect hx hms (hjp (by simp))
  · cases hch with
    | quiet _ hq =>
      cases h with
      | joinBlock hsc hscan =>
        rw [hsc.joinScan] at hscan
        exact expect_block hok hscan hq hj

/-! ### The moves that are not attentive -/

theorem Fixed.symm {p p' : Proc} (h : Fixed p p') : Fixed p' p :=
  ⟨h.pid.symm, h.isthread.symm, h.tid.symm, h.threadparent.symm⟩

theorem joining_of_slept (hs : (m.k.proc s).state = .sleeping → (m'.k.proc s).state = .sleeping)
    (hr : m'.resume s = m.resume s) (h : m.joining s = some tid) : m'.joining s = some tid := by
  obtain ⟨f, hj⟩ := joining_iff.mp h
  exact joining_iff.mpr ⟨f, hs hj.state, hr.trans hj.resume⟩

theorem not_joinSafe_block (hS : Sched m) (hL : Life m) (hT : Tids m)
    (hbad : ¬ Attentive m (.joinBlock s tid f)) (h : Effect m (.joinBlock s tid f) m') :
    ¬ JoinSafe m' := by
  intro hJ
  simp only [Attentive, not_forall] at hbad
  obtain ⟨p, hp, hbad⟩ := hbad
  have hq := h.quiet hS hL trivial
  have hj : m'.joining s = some tid := by
    cases h with
    | joinBlock hsc =>
      refine joining_iff.mpr ⟨f, ?_, Function.update_self ..⟩
      rw [sched_k, setK_k, fallAsleep_state, if_pos rfl]
  obtain ⟨e, hes, hh⟩ := hJ s tid hj
  have hk := hq.keep e
  have hh : m.Holds tid e := hh.keep hk.fixed.symm (by rw [hq.inc]) hk.live_iff.mp
    (hk.eq_iff not_live_embryo).mp fun hpc => (hq.create _ _ _).mp hpc
  obtain rfl := hT.unique hp hh.thread
  exact hbad ⟨hes, hh⟩

theorem not_joinSafe_stmt (hL : Life m) (hN : Names m) (hpc : m.pc p = .create st np)
    (hk : st.exec m.k p np o = .ok (m'.k, nx)) (hab : st.Abandons m.k np o)
    (hpc' : m'.pc = Function.update m.pc p (pcAfter np nx)) (hi : m'.inc = m.inc)
    (hr : m'.resume = m.resume) (hs : m.joining s = some (m.inc np)) : ¬ JoinSafe m' := by
  intro hJ
  have hemb := hL.embryo hpc
  have hsn : s ≠ np := by
    rintro rfl
    obtain ⟨f, hj⟩ := joining_iff.mp hs
    have := hj.state
    rw [hemb] at this
    cases this
  obtain ⟨e, -, hh⟩ := hJ s (m.inc np) (joining_of_slept (fun h => by
    rwa [exec_state_of_ne hk hsn]) (by rw [hr]) hs)
  -- only the abandoned slot has the number
  have hen : e = np := by
    by_contra hen
    refine hen (hN.inj ?_ (by rw [hemb]; decide) ((congrFun hi e).symm.trans hh.own))
    rw [← exec_state_of_ne hk hen]
    exact hh.not_unused
  subst hen
  have hstate := exec_state hk
  have hnx : nx = none ∧ ¬ st.Publishes := by
    cases st <;> simp only [Stmt.exec] at hk <;> simp_all [Stmt.Abandons, Stmt.Publishes]
  rcases hh.state with hl | ⟨he, q, hq⟩
  · rw [hstate] at hl
    split_ifs at hl with h1 h2
    · exact hnx.2 h2
    · exact not_live_unused hl
    · rw [hemb] at hl
      exact not_live_embryo hl
  · obtain ⟨st', hq, -⟩ := hq.create
    rw [hpc'] at hq
    rcases pc_create_stmt hpc hq with ⟨-, hnx', -⟩ | ⟨hqp, hq⟩
    · rw [hnx.1] at hnx'
      cases hnx'
    · exact hqp (hL.creator hq hpc)

theorem not_joinSafe_exit (hB : Base m) (hN : Names m)
    (hC : Born Creating (fun p i => p.tid = i) m) (hS : Sleepers m)
    (hbad : ¬ Attentive m (.exit e)) (h : Effect m (.exit e) m') : ¬ JoinSafe m' := by
  intro hJ
  simp only [Attentive, not_forall] at hbad
  obtain ⟨hth, hhas, s, hs, hjp⟩ := hbad
  have hch := h.change hB.sched hB.life
  obtain ⟨f, hj⟩ := joining_iff.mp hs
  cases h with
  | exit hr hpc =>
    have hrun := hB.sched.running hr
    have hse : s ≠ e := by
      rintro rfl
      have := hj.state
      rw [hrun] at this
      cases this
    have hu : (m.k.proc e).Used := by
      refine Or.inl ?_
      rw [hrun]
      exact live_running
    obtain ⟨q, -, hh⟩ := hJ s (m.k.proc e).tid (joining_of_slept (m := m) (fun hsl => by
      rw [sched_k, setPc_k, setK_k, exitLocked_of_ne _ hse, if_pos hth]
      exact exitThread_sleeps hhas (hS.chan_of_joins hj) hjp hsl) (Function.update_of_ne hse ..) hs)
    have hqe : q = e := by
      refine hN.inj (hch.used hB.life (by simp) hh.not_unused) hu.ne_unused ?_
      exact hh.own.trans (hC.used hu (hB.life.exiting hpc))
    subst hqe
    refine hh.not_zombie ?_
    rw [sched_k, setPc_k, setK_k, exitLocked_self]
    rfl

/-- A move that is not attentive leaves a sleeper of `join` behind. -/
theorem Effect.inattentive (hB : Base m) (hN : Names m)
    (hC : Born Creating (fun p i => p.tid = i) m) (hT : Tids m) (hS : Sleepers m)
    (hbad : ¬ Attentive m mv) (h : Effect m mv m') : ¬ JoinSafe m' := by
  have hch := h.change hB.sched hB.life
  cases mv with
  | joinBlock s tid f => exact not_joinSafe_block hB.sched hB.life hT hbad h
  | stmt p np o st =>
    simp only [Attentive, not_forall, not_not] at hbad
    obtain ⟨hab, s, hs⟩ := hbad
    cases hch with
    | quiet hmv => exact hmv.elim
    | stmt _ hpc hk =>
      exact not_joinSafe_stmt hB.life hN hpc hk hab (by simp) (record_inc _ _ _ _ _)
        (record_rest m _ _ _ _).2.2.2 hs
  | exit e => exact not_joinSafe_exit hB hN hC hS hbad h
  | _ => exact absurd trivial hbad

/-! ### The main result -/

/-- What the reachable states of attentive runs satisfy. -/
structure Awaited (m : Machine n) : Prop where
  base : Base m
  names : Names m
  creating : Born Creating (fun p i => p.tid = i) m
  tids : Tids m
  sleepers : Sleepers m
  expects : Expects m

theorem awaited_init (h : (machine n).init m) : Awaited m := by
  have hr : (machine n).Reachable m := .init h
  refine ⟨Reach.base hr, Reach.names hr, Reach.creating hr, Reach.tids hr, Reach.sleepers hr, ?_⟩
  obtain ⟨ofile, ft, rfl⟩ := h
  intro s tid f hs
  cases hs.resume

theorem step_awaited (hA : Awaited m) (hok : AttentiveStep m a) (h : m.step a = .ok m') :
    Awaited m' := by
  have he := step_effect h
  exact ⟨he.base hA.base, he.names hA.base hA.names, he.born birth_creating hA.base hA.creating,
    he.tids hA.base hA.names hA.creating hA.tids, he.sleepers hA.base hA.sleepers,
    he.expects hA.base hA.names hA.creating hA.sleepers hA.expects hok⟩

/-- **No lost wakeup in `join`.** In every state of a run of attentive steps, whoever sleeps in
`join(tid)` sleeps for the thread `tid` in another slot, which is live or being created; and the exit
of that thread makes everybody who sleeps for it `RUNNABLE`.

A run consists of attentive steps exactly when the first part holds in all its states. -/
theorem join_wakeup (n : ℕ) :
    (∀ m, (machine n).Reach AttentiveStep m → JoinSafe m ∧
      ∀ a m' e s, AttentiveStep m a → m.step a = .ok m' → m.move a = .exit e →
        (m.k.proc e).isthread = true → m.joining s = some (m.k.proc e).tid →
        (m'.k.proc s).state = .runnable) ∧
    ∀ m as, (machine n).init m → (machine n).Runs m as →
      ((machine n).Obeys AttentiveStep m as ↔ (machine n).Always JoinSafe m as) := by
  refine ⟨fun m h => ?_, fun m as hi hrun => ?_⟩
  · have hA : Awaited m := h.invariant (fun m => awaited_init)
      fun m a m' hA ha (hst : m.step a = .ok m') => step_awaited hA ha hst
    refine ⟨hA.expects.joinSafe, fun a m' e s hok hst hmv hth hs => ?_⟩
    have he := step_effect hst
    unfold AttentiveStep at hok
    rw [hmv] at he hok
    obtain ⟨f, hj⟩ := joining_iff.mp hs
    cases he with
    | exit hr hpc =>
      have hrun := hA.base.sched.running hr
      have hse : s ≠ e := by
        rintro rfl
        have := hj.state
        rw [hrun] at this
        cases this
      have hw := (exitLocked_touch m.k hse).woken
      have hne := exit_wakes hA.base hA.names hA.creating hA.sleepers hA.expects hok hrun hpc hth hj
      rw [sched_k, setPc_k, setK_k]
      rcases hw with h | ⟨-, h⟩
      · rw [hj.state] at h
        exact absurd h hne
      · exact h
  · refine System.obeys_iff_always (fun m (hA : Awaited m) => hA.expects.joinSafe)
      (fun m a m' hA ha (hst : m.step a = .ok m') => step_awaited hA ha hst)
      (fun m a m' hA ha (hst : m.step a = .ok m') => ?_) (awaited_init hi) as hrun
    exact (step_effect hst).inattentive hA.base hA.names hA.creating hA.tids hA.sleepers ha

/-- A process sleeps in `join` until its thread exits, then reclaims it. -/
theorem join_wakeup_parent : ∃ as : List (Action 1),
    (machine 1).Ends (fun m => m.log = [.join 1 2, .exit 2, .clone 1 2]) (boot0 1) as ∧
      (machine 1).Always JoinSafe (boot0 1) as := by
  let o : Oracle := ⟨some 1, true, 0, none⟩
  let as : List (Action 1) := [.enter 0, .scan 0, .resume 0, .op 0 (.clone 4)] ++
    List.replicate 11 (.op 0 (.next o)) ++ [.op 0 (.join 2 o), .scan 0, .resume 0, .op 0 .exit] ++
    List.replicate 4 (.op 0 (.next o)) ++ [.scan 0, .enter 0, .scan 0, .resume 0]
  have hok : (machine 1).Obeys AttentiveStep (boot0 1) as := by
    decide +kernel
  have hrun : (machine 1).Ends (fun m => m.log = [.join 1 2, .exit 2, .clone 1 2]) (boot0 1) as := by
    decide +kernel
  exact ⟨as, hrun, ((join_wakeup 1).2 _ as (init_boot0 1) hrun.runs).mp hok⟩

/-- A thread and the process it belongs to both wait for another thread.  Its exit wakes only the
thread; the process sleeps on after the thread it waits for has been reclaimed. -/
theorem join_wakeup_counterexample : ∃ m : Machine 1, (machine 1).Reachable m ∧ m.lock = .free ∧
    m.joining 0 = some 2 ∧ (m.k.proc 1).state = .unused ∧ ¬ JoinSafe m := by
  let o (pg : Page) : Oracle := ⟨some pg, true, 0, none⟩
  let next (k : ℕ) (pg : Page) : List (Action 1) := List.replicate k (.op 0 (.next (o pg)))
  let as : List (Action 1) := [.enter 0, .scan 0, .resume 0, .op 0 (.clone 12)] ++ next 11 1 ++
    [.op 0 (.clone 12)] ++ next 11 2 ++
    [.op 0 (.join 2 (o 0)), .scan 0, .resume 0, .op 0 .yield, .scan 0, .resume 0,
      .op 0 (.join 2 (o 0)), .scan 0, .enter 0, .scan 0, .resume 0, .op 0 .exit] ++ next 4 0 ++
    [.scan 0, .resume 0]
  have hrun : (machine 1).Ends (fun m => m.lock = .free ∧ m.joining 0 = some 2 ∧
      (m.k.proc 1).state = .unused ∧ ∀ e, ¬ m.Holds 2 e) (boot0 1) as := by
    decide +kernel
  obtain ⟨m, hm, hl, hj, hu, hno⟩ := System.Reachable.of_ends as (init_boot0 1) hrun
  refine ⟨m, hm, hl, hj, hu, fun hJ => ?_⟩
  obtain ⟨e, -, he⟩ := hJ 0 2 hj
  exact hno e he

end OsSemester.Xv6
