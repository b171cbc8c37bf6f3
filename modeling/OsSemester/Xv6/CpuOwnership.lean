import OsSemester.Xv6.Inv.Base

/-!
# CPU ownership

The `RUNNING` slots and the CPUs' `proc` pointers correspond in every state in which `ptable.lock`
is free, for any number of CPUs.  With the ownership of the kernel stacks (`Stacks`) this means that
`wait` and `join` never free a stack that a CPU is executing on, and that the checks of `switchuvm`
never fail.
-/

namespace OsSemester.Xv6

open Machine

variable {n : ℕ} {m m' : Machine n} {a : Action n} {mv : Move} {c c' : Fin n} {s p np t t' : Slot}

/-! ### Kernel stacks -/

/-- Every kernel stack is a page in use and belongs to one slot; a slot without a process has
none. -/
structure Stacks (m : Machine n) : Prop where
  bare : ∀ {t}, (m.k.proc t).state = .unused → (m.k.proc t).kstack = none
  fresh : ∀ {s st np}, m.pc s = .create st np → ¬ st.PastKstack → (m.k.proc np).kstack = none
  inuse : ∀ {t pg}, (m.k.proc t).kstack = some pg → m.k.inuse pg = true
  inj : ∀ {t t' pg}, (m.k.proc t).kstack = some pg → (m.k.proc t').kstack = some pg → t = t'

/-- A step that moves no kernel stack. -/
theorem Stacks.frame (hK : Stacks m) (hk : ∀ t, (m'.k.proc t).kstack = (m.k.proc t).kstack)
    (hi : m'.k.inuse = m.k.inuse)
    (hu : ∀ {t}, (m'.k.proc t).state = .unused → (m.k.proc t).state = .unused)
    (hf : ∀ {s st np}, m'.pc s = .create st np → ¬ st.PastKstack →
      (m.k.proc np).kstack = none) : Stacks m' where
  bare h := (hk _).trans (hK.bare (hu h))
  fresh h hst := (hk _).trans (hf h hst)
  inuse h := by
    rw [hi]
    exact hK.inuse (by rwa [← hk])
  inj h h' := hK.inj (by rwa [← hk]) (by rwa [← hk])

theorem Reclaim.stacks {b : Bool} (hL : Life m) (hK : Stacks m) (h : Reclaim m m' s p b) :
    Stacks m' := by
  have hk : ∀ {t pg}, (m'.k.proc t).kstack = some pg → t ≠ p ∧ (m.k.proc t).kstack = some pg := by
    intro t pg ht
    by_cases htp : t = p
    · subst htp
      rw [h.kstack] at ht
      cases ht
    · exact ⟨htp, by rwa [← (h.keep t htp).kstack]⟩
  refine ⟨fun {t} ht => ?_, fun {s st np} hpc hst => ?_, fun ht => ?_, fun ht ht' => ?_⟩
  · by_cases htp : t = p
    · rw [htp, h.kstack]
    · have hkeep := h.keep t htp
      rw [hkeep.kstack]
      exact hK.bare ((hkeep.eq_iff not_live_unused).mp ht)
  · rw [h.pc] at hpc
    have hne : np ≠ p := by
      rintro rfl
      have := hL.embryo hpc
      rw [h.zombie] at this
      cases this
    rw [(h.keep np hne).kstack]
    exact hK.fresh hpc hst
  · obtain ⟨hne, ht⟩ := hk ht
    rw [h.inuse, if_neg fun hp => hne (hK.inj ht hp)]
    exact hK.inuse ht
  · exact hK.inj (hk ht).2 (hk ht').2

theorem stacks_stmt (hL : Life m) (hK : Stacks m) {st : Stmt} {k : Kernel} {o : Oracle}
    {nx : Option Stmt} (hpc : m.pc s = .create st np) (hk : st.exec m.k s np o = .ok (k, nx)) :
    Stacks (((m.record s np o st).setK k).setPc s (pcAfter np nx)) := by
  have hof : ∀ t, t ≠ np → (k.proc t).kstack = (m.k.proc t).kstack := fun t ht =>
    (exec_keep_of_ne hk ht).kstack
  have hst : ∀ t, t ≠ np → (k.proc t).state = (m.k.proc t).state := fun t => exec_state_of_ne hk
  have hstate := exec_state hk
  rw [hL.embryo hpc] at hstate
  have hfresh := hK.fresh hpc
  have hin : ∀ t pg, (m.k.proc t).kstack = some pg → m.k.inuse pg = true := fun _ _ => hK.inuse
  have hinj : ∀ t t' pg, (m.k.proc t).kstack = some pg → (m.k.proc t').kstack = some pg → t = t' :=
    fun _ _ _ => hK.inj
  have hcreate : ∀ {t st' q}, (((m.record s np o st).setK k).setPc s (pcAfter np nx)).pc t =
      .create st' q → ¬ st'.PastKstack → (k.proc q).kstack = none := by
    intro t st' q hp hp'
    simp only [setPc_pc, setK_pc, record_pc] at hp
    rcases pc_create_stmt hpc hp with ⟨-, rfl, rfl⟩ | ⟨ht, hq⟩
    · obtain ⟨rfl, hpub⟩ := exec_next hk
      exact absurd (succ_past st hpub).1 hp'
    · rw [hof q (by rintro rfl; exact ht (hL.creator hq hpc))]
      exact hK.fresh hq hp'
  rcases exec_kstack hk with ⟨hnx, hp, pg, hpg, hfree, hi⟩ | ⟨hnx, hp, hpg, hi⟩ |
    ⟨hnx, hp, hp', hpg, hi⟩ | ⟨hp, hnx, hpg, hi⟩
  -- `kalloc` has returned a page; it has failed; `copyuvm` has failed; another statement
  all_goals
    refine ⟨fun {t} ht => ?_, hcreate, fun {t pg} ht => ?_, fun {t t' pg} ht ht' => ?_⟩
    all_goals simp only [setPc_k, setK_k] at *
  · have := @hK.bare t
    grind
  · grind
  · grind
  · have := @hK.bare t
    grind
  · grind
  · grind
  · have := @hK.bare t
    grind
  · grind
  · grind
  · have := @hK.bare t
    grind
  · grind
  · grind

theorem Effect.stacks (hB : Base m) (hK : Stacks m) (h : Effect m mv m') : Stacks m' := by
  have huser : ∀ {s t st q}, Function.update m.pc s .user t = .create st q →
      ¬ st.PastKstack → (m.k.proc q).kstack = none := fun h hst => by
    rw [(pc_of_update_user (by rw [h]; simp)).2] at h
    exact hK.fresh h hst
  cases h.change hB.sched hB.life with
  | quiet _ hq =>
    exact hK.frame (fun t => (hq.keep t).kstack) hq.globals.inuse
      (fun ht => ((hq.keep _).eq_iff not_live_unused).mp ht)
      (fun hpc hst => hK.fresh ((hq.create _ _ _).mp hpc) hst)
  | @alloc s np _ _ hrun hpc ha =>
    obtain ⟨hu, hp, -, -, hi, -⟩ := allocproc_some ha
    refine hK.frame (fun t => ?_) hi (fun {t} ht => ?_) (fun {t st q} ht hst => ?_)
    all_goals simp only [setPc_k, setK_k, setPc_pc, setK_pc, hp] at *
    · grind
    · grind
    · by_cases hts : t = s
      · subst hts
        rw [Function.update_self] at ht
        obtain ⟨-, rfl⟩ := Pc.create.inj ht
        exact hK.bare hu
      · rw [Function.update_of_ne hts] at ht
        exact hK.fresh ht hst
  | stmt hrun hpc hk => exact stacks_stmt hB.life hK hpc hk
  | commit hrun _ hk =>
    obtain ⟨d, -, -, -, -, -, hi, -, hp⟩ := execCommit_ok hk
    refine hK.frame (fun t => ?_) hi (fun {t} ht => ?_) huser
    all_goals simp only [setPc_k, setK_k, hp] at *
    · grind
    · grind
  | @exit c s hrun hpc =>
    have hk : ∀ t, ((exitLocked m.k s).proc t).kstack = (m.k.proc t).kstack ∧
        (((exitLocked m.k s).proc t).state = .unused → (m.k.proc t).state = .unused) := fun t => by
      by_cases ht : t = s
      · subst ht
        obtain ⟨p, hT, he⟩ := exitLocked_self_touch m.k t
        rw [he]
        exact ⟨hT.kstack, fun h => by cases h⟩
      · have hT := exitLocked_touch m.k ht
        have hw := hT.woken
        unfold Woken at hw
        exact ⟨hT.kstack, by grind⟩
    exact hK.frame (fun t => (hk t).1) (exitLocked_globals m.k s).inuse (fun ht => (hk _).2 ht)
      huser
  | waitReap _ hR => exact hR.stacks hB.life hK
  | joinReap _ _ hR => exact hR.stacks hB.life hK

theorem stacks_boot (n : ℕ) (ofile : Fd → Option FileId) (ft : FTable) :
    Stacks (boot n ofile ft) := by
  have hp : ∀ t, ((boot n ofile ft).k.proc t).kstack = if t = 0 then some 0 else none := fun t => by
    simp only [boot, bootKernel, Function.update_apply]
    split_ifs <;> rfl
  have hst : ∀ t, ((boot n ofile ft).k.proc t).state = if t = 0 then .runnable else .unused :=
    fun t => by
      simp only [boot, bootKernel, Function.update_apply]
      split_ifs <;> rfl
  refine ⟨fun {t} ht => ?_, fun h => (by cases h), fun {t pg} ht => ?_, fun {t t' pg} ht ht' => ?_⟩
  · rw [hst] at ht
    rw [hp]
    grind
  · rw [hp] at ht
    simp only [boot, bootKernel]
    grind
  · rw [hp] at ht ht'
    grind

theorem Reach.stacks {ok : Machine n → Action n → Prop} (h : (machine n).Reach ok m) :
    Stacks m := by
  refine h.invariant_of_reach ?_ fun m a m' hr hK _ hst => ?_
  · rintro _ ⟨ofile, ft, rfl⟩
    exact stacks_boot n ofile ft
  · have hst : m.step a = .ok m' := hst
    exact (step_effect hst).stacks (Reach.base hr) hK

/-! ### Ownership -/

/-- With `ptable.lock` free, being executed is being some CPU's `proc`. -/
theorem onCpu_of_free (hl : m.lock = .free) : m.OnCpu c t ↔ m.cpu c = some t :=
  ⟨And.left, fun h => ⟨h, fun i hi => by rw [hl] at hi; cases hi⟩⟩

theorem Sched.existsUnique (hS : Sched m) (hl : m.lock = .free) (t : Slot) :
    (m.k.proc t).state = .running ↔ ∃! c, m.cpu c = some t := by
  rw [hS.running_iff t]
  simp only [onCpu_of_free hl]
  constructor
  · rintro ⟨c, hc⟩
    exact ⟨c, hc, fun c' hc' => hS.unique ((onCpu_of_free hl).mpr hc') ((onCpu_of_free hl).mpr hc)⟩
  · rintro ⟨c, hc, -⟩
    exact ⟨c, hc⟩

/-- The scheduler never fails a check of `switchuvm`. -/
theorem schedule_no_panic (hL : Life m) (c : Fin n) (i : ℕ) (msg : String) :
    m.schedule c i ≠ .error (.panic msg) := by
  unfold schedule
  split
  · simp
  · rename_i s hs
    have hrun := scan_some hs
    simp only [Bool.and_eq_true, decide_eq_true_eq] at hrun
    obtain ⟨h1, h2⟩ := hL.equipped (Or.inl (by rw [hrun.2]; exact live_runnable))
    rw [if_neg h1, if_neg h2]
    simp

/-- The pages taken back by a step: the stack of a slot that no CPU executes. -/
theorem Effect.inuse_of_onCpu (hB : Base m) (hK : Stacks m) (h : Effect m mv m') {pg : Page}
    (ht : m.OnCpu c t) (hpg : (m.k.proc t).kstack = some pg) : m'.k.inuse pg = true := by
  have hrun := (hB.sched.running_iff t).mpr ⟨c, ht⟩
  have hin := hK.inuse hpg
  have hother : ∀ {p}, (m.k.proc p).state ≠ .running → (m.k.proc p).kstack ≠ some pg := by
    intro p hp h
    rw [hK.inj h hpg] at hp
    exact hp hrun
  cases h.change hB.sched hB.life with
  | quiet _ hq =>
    rw [hq.globals.inuse]
    exact hin
  | alloc _ _ ha =>
    obtain ⟨-, -, -, -, hi, -⟩ := allocproc_some ha
    rw [setPc_k, setK_k, hi]
    exact hin
  | stmt _ hpc hk =>
    have := hother (by rw [hB.life.embryo hpc]; decide)
    rw [setPc_k, setK_k]
    rcases exec_kstack hk with ⟨-, -, _, -, -, hi⟩ | ⟨-, -, -, hi⟩ | ⟨-, -, -, -, hi⟩ | ⟨-, -, -, hi⟩
    · rw [hi]
      split_ifs
      · rfl
      · exact hin
    · rw [hi]
      exact hin
    · rw [hi, if_neg this]
      exact hin
    · rw [hi]
      exact hin
  | commit _ _ hk =>
    obtain ⟨d, -, -, -, -, -, hi, -⟩ := execCommit_ok hk
    rw [setPc_k, setK_k, hi]
    exact hin
  | exit =>
    show (exitLocked _ _).inuse pg = true
    rw [(exitLocked_globals _ _).inuse]
    exact hin
  | waitReap _ hR =>
    rw [hR.inuse, if_neg (hother (by rw [hR.zombie]; decide))]
    exact hin
  | joinReap _ _ hR =>
    rw [hR.inuse, if_neg (hother (by rw [hR.zombie]; decide))]
    exact hin

/-- **CPU ownership.** In every reachable state:

* with `ptable.lock` free a slot is `RUNNING` exactly when one CPU has `proc` pointing to it, and a
  slot in another state is no CPU's `proc`;
* no process executes on two CPUs, whoever holds the lock;
* a process that a CPU executes has a kernel stack, no step frees that page, and a slot that `wait`
  or `join` reclaims has another one;
* a slot the scheduler may pick has a kernel stack and a page directory, and the scheduler does not
  panic. -/
theorem cpu_ownership (h : (machine n).Reachable m) :
    (m.lock = .free → ∀ t, ((m.k.proc t).state = .running ↔ ∃! c, m.cpu c = some t) ∧
      ((m.k.proc t).state ≠ .running → ∀ c, m.cpu c ≠ some t)) ∧
    (∀ c c' t, m.OnCpu c t → m.OnCpu c' t → c = c') ∧
    (∀ c t, m.OnCpu c t → ∃ pg, (m.k.proc t).kstack = some pg ∧
      ∀ a m', m.step a = .ok m' → m'.k.inuse pg = true ∧
        ∀ s p tid, m.move a = .waitReap s p ∨ m.move a = .joinReap s tid p →
          (m.k.proc p).kstack ≠ some pg) ∧
    (∀ t, (m.k.proc t).state = .runnable →
      (m.k.proc t).kstack ≠ none ∧ (m.k.proc t).pgdir ≠ none) ∧
    (∀ c msg, m.step (.scan c) ≠ .error (.panic msg)) := by
  have hB := Reach.base h
  have hK := Reach.stacks h
  refine ⟨fun hl t => ⟨hB.sched.existsUnique hl t, fun hne c hc => ?_⟩, fun c c' t => hB.sched.unique,
    fun c t ht => ?_, fun t ht => ?_, fun c msg => ?_⟩
  · exact hne ((hB.sched.running_iff t).mpr ⟨c, (onCpu_of_free hl).mpr hc⟩)
  · have hrun := (hB.sched.running_iff t).mpr ⟨c, ht⟩
    obtain ⟨pg, hpg⟩ := Option.ne_none_iff_exists'.mp
      (hB.life.equipped (Or.inl (by rw [hrun]; exact live_running))).1
    refine ⟨pg, hpg, fun a m' hst => ⟨(step_effect hst).inuse_of_onCpu hB hK ht hpg,
      fun s p tid hmv hp => ?_⟩⟩
    have hz : (m.k.proc p).state = .zombie := by
      have hch := (step_effect hst).change hB.sched hB.life
      rcases hmv with hmv | hmv <;> rw [hmv] at hch
      · cases hch with
        | quiet hq => exact hq.elim
        | waitReap _ hR => exact hR.zombie
      · cases hch with
        | quiet hq => exact hq.elim
        | joinReap _ _ hR => exact hR.zombie
    rw [hK.inj hp hpg, hrun] at hz
    cases hz
  · exact hB.life.equipped (Or.inl (by rw [ht]; exact live_runnable))
  · simp only [step]
    split
    · split
      · exact schedule_no_panic hB.life _ _ msg
      · simp
    · simp

/-- The second CPU runs the first process, and the first CPU its child. -/
theorem cpu_ownership_two : ∃ m : Machine 2, m.cpu 1 = some 0 ∧ m.cpu 0 = some 1 ∧
    (∃! c, m.cpu c = some 0) ∧ (∃! c, m.cpu c = some 1) ∧
    ∃ pg, (m.k.proc 1).kstack = some pg ∧ ∀ a m', m.step a = .ok m' → m'.k.inuse pg = true := by
  let as : List (Action 2) := [.enter 1, .scan 1, .resume 1, .op 1 .fork] ++
    List.replicate 8 (.op 1 (.next ⟨some 1, true, 0, none⟩)) ++ [.enter 0, .scan 0, .resume 0]
  have hrun : (machine 2).Ends (fun m => m.lock = .free ∧ m.cpu 1 = some 0 ∧ m.cpu 0 = some 1)
      (boot0 2) as := by
    decide +kernel
  obtain ⟨m, hm, hl, h0, h1⟩ := System.Reachable.of_ends _ (init_boot0 2) hrun
  obtain ⟨hfree, -, hstack, -⟩ := cpu_ownership hm
  have hS := (Reach.base hm).sched
  have hon : m.OnCpu 0 1 := (onCpu_of_free hl).mpr h1
  obtain ⟨pg, hpg, hstep⟩ := hstack 0 1 hon
  exact ⟨m, h0, h1, (hfree hl 0).1.mp ((hS.running_iff 0).mpr ⟨1, (onCpu_of_free hl).mpr h0⟩),
    (hfree hl 1).1.mp ((hS.running_iff 1).mpr ⟨0, hon⟩), pg, hpg,
    fun a m' hst => (hstep a m' hst).1⟩

end OsSemester.Xv6
