import OsSemester.Xv6.Inv.Base

/-!
# Occupant numbers and sleepers

* `Names`: the numbers that `allocproc` draws tell the processes in the table apart.
* `Effect.asleep`: a process that sleeps after a step slept before, on the same channel, or has just
  gone to sleep in a scan of `wait` or `join`, or on another channel.
* `Sleepers`: who sleeps in `wait` or `join` sleeps on its own slot.
-/

namespace OsSemester.Xv6

open Machine

variable {n : ℕ} {m m' m0 : Machine n} {a : Action n} {mv : Move} {c : Fin n} {s np t : Slot}

/-! ### Occupant numbers -/

/-- The occupant numbers of the slots in use are drawn from `nextpid` and different. -/
structure Names (m : Machine n) : Prop where
  lt : ∀ t, m.inc t < m.k.nextpid
  pos : ∀ {t}, (m.k.proc t).state ≠ .unused → 0 < m.inc t
  inj : ∀ {t t'}, (m.k.proc t).state ≠ .unused → (m.k.proc t').state ≠ .unused →
    m.inc t = m.inc t' → t = t'
  next : 0 < m.k.nextpid

/-- A step that draws no number and occupies no slot. -/
theorem Names.frame (hN : Names m) (hi : m'.inc = m.inc) (hn : m'.k.nextpid = m.k.nextpid)
    (hu : ∀ {t}, (m'.k.proc t).state ≠ .unused → (m.k.proc t).state ≠ .unused) : Names m' where
  lt t := by
    rw [hi, hn]
    exact hN.lt t
  pos ht := by
    rw [hi]
    exact hN.pos (hu ht)
  inj ht ht' h := hN.inj (hu ht) (hu ht') (by rwa [hi] at h)
  next := by
    rw [hn]
    exact hN.next

/-- A slot that is in use after a step other than an allocation was in use before. -/
theorem Change.used (hL : Life m) (h : Change m mv m') (hne : ∀ s np fl, mv ≠ .alloc s np fl)
    (ht : (m'.k.proc t).state ≠ .unused) : (m.k.proc t).state ≠ .unused := by
  cases h with
  | quiet _ hq => exact fun hu => ht (((hq.keep t).eq_iff not_live_unused).mpr hu)
  | alloc => exact absurd rfl (hne _ _ _)
  | @stmt s np _ _ _ _ _ hpc hk =>
    by_cases htn : t = np
    · rw [htn, hL.embryo hpc]
      decide
    · rw [setPc_k, setK_k, exec_state_of_ne hk htn] at ht
      exact ht
  | commit _ _ hk =>
    obtain ⟨_, -, -, -, -, -, -, -, hp⟩ := execCommit_ok hk
    rw [setPc_k, setK_k, hp] at ht
    grind
  | @exit _ s hrun =>
    by_cases hts : t = s
    · rw [hts, hrun]
      decide
    · have hw := (exitLocked_touch m.k hts).woken
      unfold Woken at hw
      simp only [sched_k, setPc_k, setK_k] at ht
      grind
  | @waitReap _ p _ _ hR | @joinReap _ p _ _ _ _ hR =>
    have htp : t ≠ p := by
      rintro rfl
      exact ht hR.state
    exact fun hu => ht (((hR.keep t htp).eq_iff not_live_unused).mpr hu)

/-- A `ZOMBIE` after a step was one before, with the same record but for what `exit` adopts, or has
just exited. -/
theorem Change.zombie (hL : Life m) (h : Change m mv m') (hz : (m'.k.proc t).state = .zombie) :
    mv = .exit t ∨ ((m.k.proc t).state = .zombie ∧
      ((∀ s, mv ≠ .exit s) → Keep (m.k.proc t) (m'.k.proc t))) := by
  cases h with
  | quiet _ hq => exact Or.inr ⟨((hq.keep t).eq_iff not_live_zombie).mp hz, fun _ => hq.keep t⟩
  | @alloc _ np _ _ _ _ ha =>
    obtain ⟨-, hp, -⟩ := allocproc_some ha
    have htn : t ≠ np := by
      rintro rfl
      rw [setPc_k, setK_k, hp, if_pos rfl] at hz
      cases hz
    rw [setPc_k, setK_k, hp, if_neg htn] at *
    exact Or.inr ⟨hz, fun _ => Keep.refl _⟩
  | @stmt _ np _ _ _ _ _ hpc hk =>
    rw [setPc_k, setK_k] at *
    have htn : t ≠ np := by
      rintro rfl
      have := (exec_published hk (hL.embryo hpc) (by rw [hz]; decide) (by rw [hz]; decide)).2.2
      rw [hz] at this
      cases this
    have hk := exec_keep_of_ne hk htn
    exact Or.inr ⟨(hk.eq_iff not_live_zombie).mp hz, fun _ => hk⟩
  | @commit s _ _ hrun _ hk =>
    obtain ⟨_, -, -, -, -, -, -, -, hp⟩ := execCommit_ok hk
    have hts : t ≠ s := by
      rintro rfl
      rw [setPc_k, setK_k, hp, if_pos rfl, hrun] at hz
      cases hz
    rw [setPc_k, setK_k, hp, if_neg hts] at *
    exact Or.inr ⟨hz, fun _ => Keep.refl _⟩
  | @exit _ s hrun =>
    by_cases hts : t = s
    · exact Or.inl (by rw [hts])
    · have hw := (exitLocked_touch m.k hts).woken
      unfold Woken at hw
      simp only [sched_k, setPc_k, setK_k] at hz
      exact Or.inr ⟨by grind, fun hne => absurd rfl (hne s)⟩
  | @waitReap _ p _ _ hR | @joinReap _ p _ _ _ _ hR =>
    have htp : t ≠ p := by
      rintro rfl
      rw [hR.state] at hz
      cases hz
    exact Or.inr ⟨((hR.keep t htp).eq_iff not_live_zombie).mp hz, fun _ => hR.keep t htp⟩

theorem record_inc (m : Machine n) (s np : Slot) (o : Oracle) (st : Stmt) :
    (m.record s np o st).inc = m.inc :=
  (record_rest m s np o st).2.2.1

/-- Only an allocation draws a number. -/
theorem Change.inc_eq (h : Change m mv m') (hne : ∀ s np fl, mv ≠ .alloc s np fl) :
    m'.inc = m.inc ∧ m'.k.nextpid = m.k.nextpid := by
  cases h with
  | quiet _ hq => exact ⟨hq.inc, hq.globals.nextpid⟩
  | alloc => exact absurd rfl (hne _ _ _)
  | stmt _ _ hk => exact ⟨record_inc _ _ _ _ _, (exec_globals hk).1⟩
  | commit _ _ hk =>
    obtain ⟨_, -, -, -, hn, -⟩ := execCommit_ok hk
    exact ⟨rfl, hn⟩
  | exit => exact ⟨rfl, (exitLocked_globals _ _).nextpid⟩
  | waitReap _ hR | joinReap _ _ hR => exact ⟨hR.inc, hR.nextpid⟩

theorem Effect.names (hB : Base m) (hN : Names m) (h : Effect m mv m') : Names m' := by
  have hch := h.change hB.sched hB.life
  by_cases hal : ∃ s np fl, mv = .alloc s np fl
  · obtain ⟨s, np, fl, rfl⟩ := hal
    cases hch with
    | quiet hq => exact hq.elim
    | alloc _ _ ha =>
      obtain ⟨hu, hp, hn, -⟩ := allocproc_some ha
      have hlt := hN.lt
      have hpos := fun t => @hN.pos t
      have hinj := fun t t' => @hN.inj t t'
      have hnx := hN.next
      refine ⟨fun t => ?_, fun {t} ht => ?_, fun {t t'} ht ht' he => ?_, ?_⟩ <;>
        simp only [setPc_k, setK_k, hp, hn, Function.update_apply] at *
      · have := hlt t
        split_ifs <;> omega
      · have := hpos t
        grind
      · have h1 := hlt t
        have h2 := hlt t'
        have h3 := hinj t t'
        split_ifs at * with h4 h5 h5 <;> grind
      · omega
  · have hne : ∀ s np fl, mv ≠ .alloc s np fl := fun s np fl he => hal ⟨s, np, fl, he⟩
    obtain ⟨hi, hn⟩ := hch.inc_eq hne
    exact hN.frame hi hn (hch.used hB.life hne)

theorem Reach.names {ok : Machine n → Action n → Prop} (h : (machine n).Reach ok m) : Names m := by
  refine h.invariant_of_reach ?_ fun m a m' hr hN _ hst => ?_
  · rintro _ ⟨ofile, ft, rfl⟩
    have hinc : ∀ t, (boot n ofile ft).inc t = if t = 0 then 1 else 0 := fun t => by
      simp only [boot, Function.update_apply]
    have hst : ∀ t, ((boot n ofile ft).k.proc t).state ≠ .unused → t = 0 := fun t ht => by
      simp only [boot, bootKernel, Function.update_apply] at ht
      split_ifs at ht with h
      · exact h
      · exact absurd rfl ht
    refine ⟨fun t => ?_, fun ht => ?_, fun ht ht' _ => (hst _ ht).trans (hst _ ht').symm, ?_⟩
    · rw [hinc]
      simp only [boot, bootKernel]
      split_ifs <;> decide
    · rw [hinc, hst _ ht]
      decide
    · simp [boot, bootKernel]
  · have hst : m.step a = .ok m' := hst
    exact (step_effect hst).names (Reach.base hr) hN

/-! ### Sleepers -/

/-- The process `t` sleeps, and continues at `r` when it is woken. -/
structure Machine.Asleep (m : Machine n) (t : Slot) (r : Resume) : Prop where
  state : (m.k.proc t).state = .sleeping
  resume : m.resume t = r

/-- The process `t` sleeps in `wait`. -/
abbrev Machine.Waits (m : Machine n) (t : Slot) : Prop := m.Asleep t .wait

/-- The process `t` sleeps in `join(tid)` with its local `found`. -/
abbrev Machine.Joins (m : Machine n) (t : Slot) (tid : ℤ) (found : Option Slot) : Prop :=
  m.Asleep t (.join tid found)

/-- A process `t` in `m'` that has slept through the step from `m`. -/
structure Slept (m m' : Machine n) (t : Slot) : Prop where
  state : (m.k.proc t).state = .sleeping
  chan : (m'.k.proc t).chan = (m.k.proc t).chan
  resume : m'.resume t = m.resume t

theorem Slept.asleep {r : Resume} (h : Slept m m' t) (ha : m'.Asleep t r) : m.Asleep t r :=
  ⟨h.state, h.resume.symm.trans ha.resume⟩

theorem Touch.slept {p p' : Proc} (h : Touch p p') (hs : p'.state = .sleeping) :
    p.state = .sleeping ∧ p'.chan = p.chan := by
  have hw := h.woken
  unfold Woken at hw
  exact ⟨by grind, h.chan⟩

theorem exec_asleep {k k' : Kernel} {st : Stmt} {o : Oracle} {nx : Option Stmt}
    (h : st.exec k s np o = .ok (k', nx)) (hemb : (k.proc np).state = .embryo)
    (ht : (k'.proc t).state = .sleeping) :
    (k.proc t).state = .sleeping ∧ (k'.proc t).chan = (k.proc t).chan := by
  have htn : t ≠ np := by
    rintro rfl
    have := exec_state h
    grind
  obtain ⟨a, b, he, -⟩ := exec_proc_of_ne h htn
  rw [he] at ht ⊢
  exact ⟨ht, rfl⟩

theorem Machine.Scans.chan (h : m.Scans c s m0) (ht : t ≠ s) :
    (m0.k.proc t).chan = (m.k.proc t).chan := by
  cases h with
  | call => rfl
  | back => rw [tidyUp, setK_k, Kernel.modify_proc_of_ne _ _ _ ht]

theorem Machine.Scans.joinproc (h : m.Scans c s m0) (t : Slot) :
    (m0.k.proc t).joinproc = (m.k.proc t).joinproc := by
  cases h with
  | call => rfl
  | back =>
    simp only [tidyUp, setK_k, Kernel.modify_proc]
    grind

/-- What a scan has reclaimed wakes nobody up and puts nobody to sleep. -/
theorem Reaped.slept {k : Kernel} {p : Slot} {b : Bool} (h : Reaped m0.k k p b)
    (hs : m.Scans c s m0) (hts : (m.k.proc t).state = .sleeping → t ≠ s)
    (ht : (k.proc t).state = .sleeping) :
    (m.k.proc t).state = .sleeping ∧ (k.proc t).chan = (m.k.proc t).chan := by
  have htp : t ≠ p := by
    rintro rfl
    rw [h.state] at ht
    cases ht
  rw [h.proc_of_ne t htp, hs.state] at ht
  rw [h.proc_of_ne t htp, hs.chan (hts ht)]
  exact ⟨ht, rfl⟩

/-- **Who sleeps after a step.** -/
theorem Effect.asleep (hB : Base m) (h : Effect m mv m') (ht : (m'.k.proc t).state = .sleeping) :
    Slept m m' t ∨ m'.resume t = .sleep ∨
      (mv = .waitBlock t ∧ m'.resume t = .wait ∧ (m'.k.proc t).chan = some (.proc t)) ∨
      ∃ tid f, mv = .joinBlock t tid f ∧ m'.resume t = .join tid f ∧
        (m'.k.proc t).chan = some (.proc t) ∧ (m'.k.proc t).joinproc = f := by
  -- the caller is running, so another process sleeps
  have hrun : ∀ {c s}, m.Runs c s → (m.k.proc t).state = .sleeping → t ≠ s := by
    rintro c s hr hs rfl
    rw [hB.sched.running hr] at hs
    cases hs
  have hscan : ∀ {c s m0}, m.Scans c s m0 → (m.k.proc t).state = .sleeping → t ≠ s := by
    rintro c s m0 hr hs rfl
    rw [hB.sched.running_of_scans hr] at hs
    cases hs
  cases h with
  | enter | idle | back | same | execFail | unshare | exitOfile | exitCwd =>
    exact Or.inl ⟨ht, rfl, rfl⟩
  | @pick _ _ s _ hr =>
    have hts : t ≠ s := by
      rintro rfl
      rw [Kernel.modify_proc_self] at ht
      cases ht
    rw [Kernel.modify_proc_of_ne _ _ _ hts] at ht
    exact Or.inl ⟨ht, by rw [Kernel.modify_proc_of_ne _ _ _ hts], rfl⟩
  | woke hs =>
    rw [hs.state] at ht
    exact Or.inl ⟨ht, hs.chan (hscan hs ht), by rw [hs.rest.2.2.2.2.2.2.2.2]⟩
  | wakeup =>
    -- `wakeup1` only wakes
    obtain ⟨h1, h2⟩ := (wakeup1_touch _ _ t).slept ht
    exact Or.inl ⟨h1, h2, rfl⟩
  | @yield _ s hr =>
    by_cases hts : t = s
    · subst hts
      rw [sched_k, setK_k, Kernel.modify_proc_self] at ht
      cases ht
    · rw [sched_k, setK_k, Kernel.modify_proc_of_ne _ _ _ hts] at ht
      exact Or.inl ⟨ht, by rw [sched_k, setK_k, Kernel.modify_proc_of_ne _ _ _ hts],
        Function.update_of_ne hts ..⟩
  | @sleep _ s ch hr =>
    by_cases hts : t = s
    · subst hts
      exact Or.inr (Or.inl (Function.update_self ..))
    · rw [sched_k, setK_k, fallAsleep, Kernel.modify_proc_of_ne _ _ _ hts] at ht
      exact Or.inl ⟨ht, by rw [sched_k, setK_k, fallAsleep, Kernel.modify_proc_of_ne _ _ _ hts],
        Function.update_of_ne hts ..⟩
  | @alloc _ s np fl k hr hpc ha =>
    obtain ⟨hu, hp, -⟩ := allocproc_some ha
    rw [setPc_k, setK_k, hp] at ht
    have htn : t ≠ np := by
      rintro rfl
      simp at ht
    rw [if_neg htn] at ht
    refine Or.inl ⟨ht, ?_, Function.update_of_ne htn ..⟩
    rw [setPc_k, setK_k, hp, if_neg htn]
  | stmtLast hr hpc hk | stmtNext hr hpc hk =>
    obtain ⟨h1, h2⟩ := exec_asleep hk (hB.life.embryo hpc) ht
    exact Or.inl ⟨h1, h2, by
      rw [setPc_resume, setK_resume, (record_rest m _ _ _ _).2.2.2]⟩
  | commit hr hpc hk =>
    obtain ⟨_, -, -, -, -, -, -, -, hp⟩ := execCommit_ok hk
    rw [setPc_k, setK_k, hp] at ht
    refine Or.inl ⟨?_, ?_, rfl⟩
    · grind
    · rw [setPc_k, setK_k, hp]
      grind
  | exitFiles hr hpc hk =>
    obtain ⟨-, hp⟩ := exitFiles_ok hk
    rw [setPc_k, setK_k, hp] at ht
    refine Or.inl ⟨?_, ?_, rfl⟩
    · grind
    · rw [setPc_k, setK_k, hp]
      grind
  | exitIput hr hpc =>
    rw [setPc_k, setK_k, Kernel.modify_proc] at ht
    refine Or.inl ⟨?_, ?_, rfl⟩
    · grind
    · rw [setPc_k, setK_k, Kernel.modify_proc]
      grind
  | @exit _ s hr hpc =>
    have hts : t ≠ s := by
      rintro rfl
      rw [sched_k, setPc_k, setK_k, exitLocked_self] at ht
      cases ht
    obtain ⟨h1, h2⟩ := (exitLocked_touch m.k hts).slept ht
    exact Or.inl ⟨h1, h2, Function.update_of_ne hts ..⟩
  | @waitBlock _ s m0 _ hs =>
    by_cases hts : t = s
    · subst hts
      refine Or.inr (Or.inr (Or.inl ⟨rfl, Function.update_self .., ?_⟩))
      rw [sched_k, setK_k, fallAsleep, Kernel.modify_proc_self]
    · rw [sched_k, setK_k, fallAsleep, Kernel.modify_proc_of_ne _ _ _ hts, hs.state] at ht
      refine Or.inl ⟨ht, ?_, ?_⟩
      · rw [sched_k, setK_k, fallAsleep, Kernel.modify_proc_of_ne _ _ _ hts, hs.chan hts]
      · rw [sched_resume, Function.update_of_ne hts, setK_resume, hs.rest.2.2.2.2.2.2.2.2]
  | @joinBlock _ s tid _ f m0 hs =>
    by_cases hts : t = s
    · subst hts
      refine Or.inr (Or.inr (Or.inr ⟨tid, f, rfl, Function.update_self .., ?_, ?_⟩)) <;>
        rw [sched_k, setK_k, fallAsleep, Kernel.modify_proc_self]
      rw [Kernel.modify_proc_self, Proc.setJoinproc_joinproc]
    · rw [sched_k, setK_k, fallAsleep, Kernel.modify_proc_of_ne _ _ _ hts,
        Kernel.modify_proc_of_ne _ _ _ hts, hs.state] at ht
      refine Or.inl ⟨ht, ?_, ?_⟩
      · rw [sched_k, setK_k, fallAsleep, Kernel.modify_proc_of_ne _ _ _ hts,
          Kernel.modify_proc_of_ne _ _ _ hts, hs.chan hts]
      · rw [sched_resume, Function.update_of_ne hts, setK_resume, hs.rest.2.2.2.2.2.2.2.2]
  | waitReap hs hw hk =>
    obtain ⟨h1, h2⟩ := (waitReap_ok hk).1.slept hs (hscan hs) ht
    exact Or.inl ⟨h1, h2, by rw [hs.rest.2.2.2.2.2.2.2.2]⟩
  | joinReap hs hw hk =>
    obtain ⟨h1, h2⟩ := (joinReap_ok hk).1.slept hs (hscan hs) ht
    exact Or.inl ⟨h1, h2, by rw [hs.rest.2.2.2.2.2.2.2.2]⟩
  | kill =>
    obtain ⟨h1, h2⟩ := (kill_touch _ _ t).slept ht
    exact Or.inl ⟨h1, h2, rfl⟩
  | tkill =>
    obtain ⟨h1, h2⟩ := (tkill_touch _ _ t).slept ht
    exact Or.inl ⟨h1, h2, rfl⟩

/-- Who sleeps in `wait` or `join` sleeps on its own slot. -/
def Sleepers (m : Machine n) : Prop :=
  ∀ t, (m.k.proc t).state = .sleeping →
    m.resume t = .sleep ∨ (m.k.proc t).chan = some (.proc t)

theorem Sleepers.chan_of_waits (h : Sleepers m) (ht : m.Waits t) :
    (m.k.proc t).chan = some (.proc t) := by
  refine (h t ht.state).resolve_left fun hr => ?_
  rw [ht.resume] at hr
  cases hr

theorem Sleepers.chan_of_joins (h : Sleepers m) {tid : ℤ} {f : Option Slot} (ht : m.Joins t tid f) :
    (m.k.proc t).chan = some (.proc t) := by
  refine (h t ht.state).resolve_left fun hr => ?_
  rw [ht.resume] at hr
  cases hr

theorem Effect.sleepers (hB : Base m) (hS : Sleepers m) (h : Effect m mv m') : Sleepers m' := by
  intro t ht
  rcases h.asleep hB ht with hs | hr | ⟨-, -, hc⟩ | ⟨_, _, -, -, hc, -⟩
  · rw [hs.resume, hs.chan]
    exact hS t hs.state
  · exact Or.inl hr
  · exact Or.inr hc
  · exact Or.inr hc

theorem Reach.sleepers {ok : Machine n → Action n → Prop} (h : (machine n).Reach ok m) :
    Sleepers m := by
  refine h.invariant_of_reach ?_ fun m a m' hr hS _ hst => ?_
  · rintro _ ⟨ofile, ft, rfl⟩ t ht
    simp only [boot, bootKernel, Function.update_apply] at ht
    split_ifs at ht <;> cases ht
  · have hst : m.step a = .ok m' := hst
    exact (step_effect hst).sleepers (Reach.base hr) hS

end OsSemester.Xv6
