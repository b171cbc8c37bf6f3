import OsSemester.Xv6.Inv.Birth

/-!
# Who has created whom

`cloning` is the machine with a record of the `clone` calls that were begun: the number of the
caller and the number that `allocproc` drew for the new thread, also when the call fails later.
Every number is drawn once, so a thread has one creator and a process has none.  `Lineage` says how
the record and the slots fit together.
-/

namespace OsSemester.Xv6

open Machine

variable {n : ℕ} {m m' : Machine n} {a : Action n} {mv : Move} {s np t : Slot} {i j : ℤ}
variable {es : List (ℤ × ℤ)} {st : Stmt}

/-- The process `s` executes a statement on the slot it is creating. -/
structure Executes (m m' : Machine n) (s np : Slot) (o : Oracle) (st : Stmt) (nx : Option Stmt) :
    Prop where
  base : Base m
  creating : Born Creating (fun p i => p.tid = i) m
  running : (m.k.proc s).state = .running
  pc : m.pc s = .create st np
  exec : st.exec m.k s np o = .ok (m'.k, nx)
  inc : m'.inc = m.inc
  next : m'.pc = Function.update m.pc s (pcAfter np nx)

namespace Executes

variable {o : Oracle} {nx : Option Stmt}

theorem embryo (h : Executes m m' s np o st nx) : (m.k.proc np).state = .embryo :=
  h.base.life.embryo h.pc

theorem live (h : Executes m m' s np o st nx) : (m.k.proc s).state.Live := by
  rw [h.running]
  exact live_running

theorem ne_of_live (h : Executes m m' s np o st nx) (ht : (m.k.proc t).state.Live) : t ≠ np := by
  rintro rfl
  rw [h.embryo] at ht
  exact not_live_embryo ht

theorem keep (h : Executes m m' s np o st nx) (ht : t ≠ np) : Keep (m.k.proc t) (m'.k.proc t) :=
  exec_keep_of_ne h.exec ht

/-- The slots in creation after the statement. -/
theorem create (h : Executes m m' s np o st nx) {q : Slot} {st' : Stmt}
    (hq : m'.pc t = .create st' q) : (t = s ∧ q = np ∧ st' = st.succ ∧ ¬ st.Publishes) ∨
      (m.pc t = .create st' q ∧ q ≠ np ∧ t ≠ np) := by
  rw [h.next] at hq
  rcases pc_create_stmt h.pc hq with ⟨rfl, hnx, rfl⟩ | ⟨hts, hold⟩
  · obtain ⟨rfl, hpub⟩ := exec_next (hnx ▸ h.exec)
    exact Or.inl ⟨rfl, rfl, rfl, hpub⟩
  · refine Or.inr ⟨hold, ?_, h.ne_of_live (h.base.life.busy (by rw [hold]; nofun))⟩
    rintro rfl
    exact hts (h.base.life.creator hold h.pc)

/-- What a statement publishes: `fork` a process, and `clone` a thread. -/
theorem published (h : Executes m m' s np o st nx) (ht : (m'.k.proc np).Used) :
    (st = .forkRun ∧ (m'.k.proc np).isthread = false) ∨
      (st = .cloneRun ∧ (m'.k.proc np).isthread = true) := by
  have hk := h.exec
  obtain ⟨rfl, hpub, -⟩ := exec_published hk h.embryo ht.ne_embryo ht.ne_unused
  have hth := (h.creating.create h.pc).thread
  rcases hpub with rfl | rfl
  · have hsame : (m'.k.proc np).isthread = (m.k.proc np).isthread := exec_isthread hk
    refine Or.inl ⟨rfl, ?_⟩
    rw [hsame, ← Bool.not_eq_true]
    exact fun ht => (hth trivial).mp ht trivial
  · have hsame : (m'.k.proc np).isthread = (m.k.proc np).isthread := exec_isthread hk
    refine Or.inr ⟨rfl, ?_⟩
    rw [hsame]
    exact (hth trivial).mpr id

end Executes

/-- The `clone` call that a step begins, if it begins one. -/
def Move.spawn (m : Machine n) : Move → List (ℤ × ℤ)
  | .alloc s _ (some _) => [(m.inc s, m.k.nextpid)]
  | _ => []

/-- The machine with the list of its `clone` calls, latest first. -/
def cloning (n : ℕ) : System Halt (Machine n × List (ℤ × ℤ)) (Action n) :=
  (machine n).recorded fun m a => (m.move a).spawn m

/-- A chain of `clone` calls leads from the first occupant to the second. -/
def Spawned (es : List (ℤ × ℤ)) : ℤ → ℤ → Prop := Relation.TransGen fun i j => (i, j) ∈ es

theorem Spawned.append (l : List (ℤ × ℤ)) (h : Spawned es i j) : Spawned (l ++ es) i j :=
  Relation.TransGen.mono (fun _ _ => List.mem_append_right l) i j h

/-- The record and the slots. -/
structure Lineage (m : Machine n) (es : List (ℤ × ℤ)) : Prop where
  lt : ∀ {i j}, (i, j) ∈ es → i < m.k.nextpid ∧ j < m.k.nextpid
  unique : ∀ {i i' j}, (i, j) ∈ es → (i', j) ∈ es → i = i'
  creator : ∀ {s st np}, m.pc s = .create st np → ¬ st.Forking → (m.inc s, m.inc np) ∈ es
  forked : ∀ {s st np i}, m.pc s = .create st np → st.Forking → (i, m.inc np) ∉ es
  childless : ∀ {s st np j}, m.pc s = .create st np → (m.inc np, j) ∉ es
  process : ∀ {t i}, (m.k.proc t).Used → (m.k.proc t).isthread = false → (i, m.inc t) ∉ es

theorem mem_spawn_alloc {fl : Option ℤ} : (i, j) ∈ (Move.alloc s np fl).spawn m ++ es ↔
    (fl.isSome ∧ i = m.inc s ∧ j = m.k.nextpid) ∨ (i, j) ∈ es := by
  cases fl with
  | none => simp [Move.spawn]
  | some fl => simp [Move.spawn]

namespace Lineage

/-- The chains that end at an earlier number do not use the new call. -/
theorem spawned_of_alloc (hG : Lineage m es) {fl : Option ℤ}
    (h : Spawned ((Move.alloc s np fl).spawn m ++ es) i j) (hj : j < m.k.nextpid) :
    Spawned es i j := by
  have hedge : ∀ {i j}, (i, j) ∈ (Move.alloc s np fl).spawn m ++ es → j < m.k.nextpid →
      (i, j) ∈ es := by
    intro i j h hj
    rcases mem_spawn_alloc.mp h with ⟨-, -, rfl⟩ | h
    · exact absurd hj (lt_irrefl _)
    · exact h
  induction h with
  | single h => exact .single (hedge h hj)
  | tail _ h ih =>
    have hbc := hedge h hj
    exact .tail (ih (hG.lt hbc).1) hbc

/-- A thread in creation comes from its creator. -/
theorem spawned_creator (hG : Lineage m es) (hpc : m.pc s = .create st np) (hst : ¬ st.Forking)
    (h : Spawned es i (m.inc np)) : i = m.inc s ∨ Spawned es i (m.inc s) := by
  cases h with
  | single h => exact Or.inl (hG.unique h (hG.creator hpc hst))
  | tail hib h =>
    rw [← hG.unique h (hG.creator hpc hst)]
    exact Or.inr hib

theorem spawned_of_creator (hG : Lineage m es) (hpc : m.pc s = .create st np) (hst : ¬ st.Forking)
    (h : i = m.inc s ∨ Spawned es i (m.inc s)) : Spawned es i (m.inc np) := by
  have hedge := hG.creator hpc hst
  rcases h with rfl | h
  · exact .single hedge
  · exact .tail h hedge

/-- No chain ends at a process that `fork` is making. -/
theorem not_spawned_forked (hG : Lineage m es) (hpc : m.pc s = .create st np) (hst : st.Forking) :
    ¬ Spawned es i (m.inc np) := by
  intro h
  cases h with
  | single h => exact hG.forked hpc hst h
  | tail _ h => exact hG.forked hpc hst h

/-- No chain starts at a slot in creation. -/
theorem not_spawned_childless (hG : Lineage m es) (hpc : m.pc s = .create st np) :
    ¬ Spawned es (m.inc np) j := by
  intro h
  induction h with
  | single h => exact hG.childless hpc h
  | tail _ _ ih => exact ih

/-- What a chain leads to is a thread. -/
theorem isthread_of_spawned (hG : Lineage m es) (ht : (m.k.proc t).Used)
    (h : Spawned es i (m.inc t)) : (m.k.proc t).isthread = true := by
  by_contra hth
  rw [Bool.not_eq_true] at hth
  cases h with
  | single h => exact hG.process ht hth h
  | tail _ h => exact hG.process ht hth h

/-- A step that begins no call and publishes nobody. -/
theorem frame (hG : Lineage m es) (hi : m'.inc = m.inc) (hn : m'.k.nextpid = m.k.nextpid)
    (hu : ∀ {t}, (m'.k.proc t).Used → (m.k.proc t).Used ∧ Fixed (m.k.proc t) (m'.k.proc t))
    (hc : ∀ {s st np}, m'.pc s = .create st np → m.pc s = .create st np) : Lineage m' es where
  lt h := by
    rw [hn]
    exact hG.lt h
  unique := hG.unique
  creator h hst := by
    rw [hi]
    exact hG.creator (hc h) hst
  forked h hst := by
    rw [hi]
    exact hG.forked (hc h) hst
  childless h := by
    rw [hi]
    exact hG.childless (hc h)
  process ht hth := by
    obtain ⟨hu, hf⟩ := hu ht
    rw [hf.isthread] at hth
    rw [hi]
    exact hG.process hu hth

/-- `allocproc` draws a number that is not in the record. -/
theorem alloc (hG : Lineage m es) (hN : Names m) {fl : Option ℤ} (hA : Allocates m m' s np fl) :
    Lineage m' ((Move.alloc s np fl).spawn m ++ es) := by
  have hlt := hN.lt
  refine ⟨fun {i j} h => ?_, fun {i i' j} h h' => ?_, fun {t st q} h hst => ?_,
    fun {t st q i} h hst hmem => ?_, fun {t st q j} h hmem => ?_, fun {t i} ht hth hmem => ?_⟩
  · rw [hA.nextpid]
    rcases mem_spawn_alloc.mp h with ⟨-, rfl, rfl⟩ | h
    · have := hlt s
      omega
    · have := hG.lt h
      omega
  · rcases mem_spawn_alloc.mp h with ⟨-, rfl, rfl⟩ | h <;>
      rcases mem_spawn_alloc.mp h' with ⟨-, rfl, hj⟩ | h'
    · rfl
    · exact absurd (hG.lt h').2 (lt_irrefl _)
    · rw [hj] at h
      exact absurd (hG.lt h).2 (lt_irrefl _)
    · exact hG.unique h h'
  · rcases hA.create h with ⟨rfl, rfl, rfl⟩ | ⟨h, hq, ht⟩
    · rw [hA.inc_of_ne hA.caller_ne, hA.inc_self]
      cases fl with
      | none => exact absurd trivial hst
      | some fl => exact mem_spawn_alloc.mpr (Or.inl ⟨rfl, rfl, rfl⟩)
    · rw [hA.inc_of_ne ht, hA.inc_of_ne hq]
      exact mem_spawn_alloc.mpr (Or.inr (hG.creator h hst))
  · rcases hA.create h with ⟨rfl, rfl, rfl⟩ | ⟨h, hq, ht⟩
    · rw [hA.inc_self] at hmem
      rcases mem_spawn_alloc.mp hmem with ⟨hfl, -⟩ | hmem
      · cases fl with
        | none => cases hfl
        | some fl => exact hst
      · exact absurd (hG.lt hmem).2 (lt_irrefl _)
    · rw [hA.inc_of_ne hq] at hmem
      rcases mem_spawn_alloc.mp hmem with ⟨-, -, he⟩ | hmem
      · exact absurd he (hlt q).ne
      · exact hG.forked h hst hmem
  · rcases hA.create h with ⟨rfl, rfl, rfl⟩ | ⟨h, hq, ht⟩
    · rw [hA.inc_self] at hmem
      rcases mem_spawn_alloc.mp hmem with ⟨-, he, -⟩ | hmem
      · exact absurd he.symm (hlt t).ne
      · exact absurd (hG.lt hmem).1 (lt_irrefl _)
    · rw [hA.inc_of_ne hq] at hmem
      rcases mem_spawn_alloc.mp hmem with ⟨-, he, -⟩ | hmem
      · -- the caller is running and the slot in creation is not
        have hemb := hA.life.embryo h
        obtain rfl := hN.inj (by rw [hemb]; decide) (by rw [hA.running]; decide) he
        rw [hA.running] at hemb
        cases hemb
      · exact hG.childless h hmem
  · have htn := hA.ne_of_used ht
    rw [hA.proc_of_ne htn] at ht hth
    rw [hA.inc_of_ne htn] at hmem
    rcases mem_spawn_alloc.mp hmem with ⟨-, -, he⟩ | hmem
    · exact absurd he (hlt t).ne
    · exact hG.process ht hth hmem

/-- `fork` publishes a process and `clone` a thread. -/
theorem stmt (hG : Lineage m es) {o : Oracle} {nx : Option Stmt}
    (hX : Executes m m' s np o st nx) : Lineage m' es := by
  -- a call goes on in the same function
  have hcr : ∀ {t st' q}, m'.pc t = .create st' q →
      ∃ st0, m.pc t = .create st0 q ∧ (st'.Forking ↔ st0.Forking) := by
    intro t st' q h
    rcases hX.create h with ⟨rfl, rfl, rfl, -⟩ | ⟨h, -⟩
    · exact ⟨st, hX.pc, st.succ_forking⟩
    · exact ⟨st', h, Iff.rfl⟩
  refine ⟨fun {i j} h => ?_, hG.unique, fun {t st' q} h hst => ?_, fun {t st' q i} h hst => ?_,
    fun {t st' q j} h => ?_, fun {t i} ht hth => ?_⟩
  · rw [(exec_globals hX.exec).1]
    exact hG.lt h
  · obtain ⟨st0, h, hiff⟩ := hcr h
    rw [hX.inc]
    exact hG.creator h fun hf => hst (hiff.mpr hf)
  · obtain ⟨st0, h, hiff⟩ := hcr h
    rw [hX.inc]
    exact hG.forked h (hiff.mp hst)
  · obtain ⟨st0, h, -⟩ := hcr h
    rw [hX.inc]
    exact hG.childless h
  · rw [hX.inc]
    by_cases htn : t = np
    · subst htn
      rcases hX.published ht with ⟨rfl, -⟩ | ⟨rfl, hth'⟩
      · exact hG.forked hX.pc trivial
      · rw [hth'] at hth
        cases hth
    · have hkeep := hX.keep htn
      rw [hkeep.isthread] at hth
      exact hG.process (hkeep.used_iff.mp ht) hth

end Lineage

theorem Reclaim.lineage {p : Slot} {b : Bool} (hG : Lineage m es) (h : Reclaim m m' s p b) :
    Lineage m' es := by
  refine hG.frame h.inc h.nextpid (fun {t} ht => ?_) (fun hpc => by rwa [h.pc] at hpc)
  have htp : t ≠ p := by
    rintro rfl
    exact ht.ne_unused h.state
  exact ⟨(h.keep t htp).used_iff.mp ht, (h.keep t htp).fixed⟩

theorem Effect.lineage (hB : Base m) (hN : Names m) (hC : Born Creating (fun p i => p.tid = i) m)
    (hG : Lineage m es) (h : Effect m mv m') : Lineage m' (mv.spawn m ++ es) := by
  cases h.change hB.sched hB.life with
  | quiet hmv hq =>
    have hnil : mv.spawn m = [] := by
      cases mv with
      | alloc => exact hmv.elim
      | _ => rfl
    rw [hnil]
    exact hG.frame hq.inc hq.globals.nextpid
      (fun ht => ⟨(hq.keep _).used_iff.mp ht, (hq.keep _).fixed⟩) (hq.create _ _ _).mp
  | alloc hs _ ha => exact hG.alloc hN ⟨hB.life, hs, ha, rfl, rfl⟩
  | stmt hs hpc hk =>
    refine hG.stmt ⟨hB, hC, hs, hpc, hk, record_inc _ _ _ _ _, ?_⟩
    rw [setPc_pc, setK_pc, record_pc]
  | commit _ _ hk =>
    obtain ⟨_, -, -, -, hn, -⟩ := execCommit_ok hk
    refine hG.frame rfl hn (fun {t} ht => ⟨?_, execCommit_fixed hk t⟩) create_of_update_user
    have hst := execCommit_state hk t
    unfold Proc.Used at ht ⊢
    rwa [setPc_k, setK_k, hst] at ht
  | @exit _ s hs =>
    exact hG.frame rfl (exitLocked_globals m.k s).nextpid
      (fun ht => ⟨(exitLocked_used_iff m.k hs).mp ht, exitLocked_fixed m.k s _⟩)
      create_of_update_user
  | waitReap _ hR => exact hR.lineage hG
  | joinReap _ _ hR => exact hR.lineage hG

theorem lineage_boot (n : ℕ) (ofile : Fd → Option FileId) (ft : FTable) :
    Lineage (boot n ofile ft) [] := by
  refine ⟨fun h => ?_, fun h => ?_, fun h => ?_, fun h => ?_, fun _ => List.not_mem_nil,
    fun _ _ => List.not_mem_nil⟩ <;> cases h

/-- **The record fits the slots.** -/
theorem Reach.lineage {ok : Machine n → Action n → Prop}
    (h : (cloning n).Reach (fun x => ok x.1) (m, es)) : Lineage m es := by
  refine System.Reach.recorded Lineage ?_ (fun m es a m' hr hG _ hst => ?_) h
  · rintro _ ⟨ofile, ft, rfl⟩
    exact lineage_boot n ofile ft
  · have hm := System.Reach.of_recorded hr
    exact (step_effect hst).lineage (Reach.base hm) (Reach.names hm) (Reach.creating hm) hG

end OsSemester.Xv6
