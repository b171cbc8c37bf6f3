import OsSemester.Xv6.Inv.Birth

/-!
# Process and thread identities

A number that `allocproc` draws becomes the `tid` of one slot.  It becomes the `pid` of that slot as
well, except that `clone` with `CLONE_THREAD` gives the new thread the `pid` of its caller.  So the
`tid`s in the table are different, also those that reclaimed slots have kept, and two processes have
the same `pid` exactly when a chain of such `clone` calls connects them: `identity`.

The chain is about calls of the past, so the run is recorded: `traced` is the machine with the list
of all `clone` calls made with `CLONE_THREAD`, as pairs of the numbers of caller and new thread.
-/

namespace OsSemester.Xv6

open Machine

variable {n : ℕ} {m m' m0 : Machine n} {a : Action n} {mv : Move} {c : Fin n} {s np t : Slot}
variable {k k' : Kernel} {st : Stmt} {o : Oracle} {es : List (ℤ × ℤ)} {ρ : ℤ → ℤ}

/-! ### The recorded machine -/

/-- The `clone` call with `CLONE_THREAD` that a step begins, if it begins one. -/
def Move.thread (m : Machine n) : Move → List (ℤ × ℤ)
  | .alloc s _ (some fl) => if flagSet fl 3 then [(m.inc s, m.k.nextpid)] else []
  | _ => []

/-- The machine with the list of its `clone` calls made with `CLONE_THREAD`, latest first. -/
def traced (n : ℕ) : System Halt (Machine n × List (ℤ × ℤ)) (Action n) where
  init p := (machine n).init p.1 ∧ p.2 = []
  step p a :=
    match p.1.step a with
    | .error e => .error e
    | .ok m' => .ok (m', (p.1.move a).thread p.1 ++ p.2)

/-- The two occupants are connected by a chain of recorded calls. -/
def Connected (es : List (ℤ × ℤ)) : ℤ → ℤ → Prop := Relation.EqvGen fun a b => (a, b) ∈ es

theorem Connected.mono {es' : List (ℤ × ℤ)} (h : ∀ p, p ∈ es → p ∈ es') {a b : ℤ}
    (hc : Connected es a b) : Connected es' a b :=
  Relation.EqvGen.mono (fun _ _ => h _) _ _ hc

theorem traced_eq (n : ℕ) :
    traced n = (Xv6.machine n).recorded fun m a => (m.move a).thread m := by
  unfold traced System.recorded
  congr 1
  funext p a
  have hstep : (Xv6.machine n).step p.1 a = p.1.step a := rfl
  rw [hstep]
  cases p.1.step a <;> rfl

theorem Reach.of_traced (h : (traced n).Reachable (m, es)) : (Xv6.machine n).Reachable m := by
  rw [traced_eq] at h
  exact System.Reachable.of_recorded h

/-! ### The mark `CLONE_THREAD` of the new slot -/

theorem execCommit_cloneThread {sz : ℕ} (h : execCommit k s sz = .ok k') (t : Slot) :
    (k'.proc t).cloneThread = (k.proc t).cloneThread := by
  obtain ⟨_, -, -, -, -, -, -, -, hp⟩ := execCommit_ok h
  rw [hp]
  split_ifs with hts
  · rw [hts]
  · rfl

theorem exec_cloneThread {nx : Option Stmt} (h : st.exec k s np o = .ok (k', nx)) :
    (k'.proc np).cloneThread =
      match st with
      | .cloneFlags fl => flagSet fl 3
      | _ => (k.proc np).cloneThread := by
  by_cases hst : st = .forkOfile ∨ st = .cloneFiles ∨ st = .cloneFs
  · obtain ⟨_, _, _, _, _, _, hp, -⟩ := exec_copy hst h
    rw [hp]
    rcases hst with rfl | rfl | rfl <;> rfl
  · cases st <;> simp only [Stmt.exec] at h <;>
      grind [Kernel.modify_proc_self, abandon_proc, installDir_proc, Proc.setKstack_cloneThread,
        Proc.setState_cloneThread]

/-! ### The groups -/

/-- The record of the slot with number `i` that the process with number `j` is creating: `ρ` says
under which `pid` it will be known. -/
def Joining (ρ : ℤ → ℤ) (j i : ℤ) (p : Proc) : Stmt → Prop
  | .kstack (some fl) | .cloneFlags fl => p.pid = i ∧ ρ i = if flagSet fl 3 then ρ j else i
  | .cloneParent | .cloneThreadparent | .cloneIds =>
    p.pid = i ∧ ρ i = if p.cloneThread then ρ j else i
  | _ => p.pid = ρ i

/-- `ρ` gives every number the `pid` of its occupant: the oldest number of its group. -/
structure Groups (m : Machine n) (es : List (ℤ × ℤ)) (ρ : ℤ → ℤ) : Prop where
  edge : ∀ {i j}, (i, j) ∈ es → ρ i = ρ j ∧ i < m.k.nextpid ∧ j < m.k.nextpid
  root : ∀ i, Connected es i (ρ i)
  pid : ∀ {t}, (m.k.proc t).Used → (m.k.proc t).pid = ρ (m.inc t)
  create : ∀ {s st np}, m.pc s = .create st np →
    Joining ρ (m.inc s) (m.inc np) (m.k.proc np) st

namespace Groups

/-- Numbers of one group belong to occupants with one `pid`. -/
theorem connected_iff (hG : Groups m es ρ) {i j : ℤ} : ρ i = ρ j ↔ Connected es i j := by
  constructor
  · intro h
    have hj := hG.root j
    rw [← h] at hj
    exact .trans _ _ _ (hG.root i) (.symm _ _ hj)
  · intro h
    induction h with
    | rel i j h => exact (hG.edge h).1
    | refl i => rfl
    | symm i j _ ih => exact ih.symm
    | trans i j l _ _ ih1 ih2 => exact ih1.trans ih2

/-- A step that begins no call and executes no statement. -/
theorem frame (hG : Groups m es ρ) (hi : m'.inc = m.inc) (hn : m'.k.nextpid = m.k.nextpid)
    (hu : ∀ {t}, (m'.k.proc t).Used → (m.k.proc t).Used ∧ (m'.k.proc t).pid = (m.k.proc t).pid)
    (hc : ∀ {s st np}, m'.pc s = .create st np → m.pc s = .create st np ∧
      (m'.k.proc np).pid = (m.k.proc np).pid ∧
      (m'.k.proc np).cloneThread = (m.k.proc np).cloneThread) : Groups m' es ρ where
  edge h := by
    rw [hn]
    exact hG.edge h
  root := hG.root
  pid ht := by
    rw [(hu ht).2, hi]
    exact hG.pid (hu ht).1
  create {s st np} hpc := by
    obtain ⟨h1, h2, h3⟩ := hc hpc
    have hJ := hG.create h1
    rw [hi]
    cases st with
    | kstack fl => cases fl <;> simp_all [Joining]
    | _ => simp_all [Joining]

/-- `allocproc`: the number it draws belongs to the caller's group or to a new one. -/
theorem alloc (hG : Groups m es ρ) (hN : Names m) {fl : Option ℤ}
    (hA : Allocates m m' s np fl) :
    ∃ ρ', Groups m' ((Move.alloc s np fl).thread m ++ es) ρ' := by
  have hlt := hN.lt
  -- the group of the new number
  obtain ⟨r, hr⟩ : ∃ r, r = if fl.any (flagSet · 3) then ρ (m.inc s) else m.k.nextpid := ⟨_, rfl⟩
  have hold : ∀ {i}, i < m.k.nextpid → Function.update ρ m.k.nextpid r i = ρ i := fun hi =>
    Function.update_of_ne (by omega) _ _
  have hthread : (Move.alloc s np fl).thread m =
      if fl.any (flagSet · 3) then [(m.inc s, m.k.nextpid)] else [] := by
    cases fl <;> rfl
  refine ⟨Function.update ρ m.k.nextpid r, ⟨fun {i j} h => ?_, fun i => ?_, fun {t} ht => ?_,
    fun {t st q} h => ?_⟩⟩
  · rw [hA.nextpid]
    rcases List.mem_append.mp h with h | h
    · rw [hthread] at h
      split_ifs at h with hfl
      · obtain ⟨rfl, rfl⟩ := Prod.mk.inj (List.mem_singleton.mp h)
        have := hlt s
        rw [hold this, Function.update_self, hr, if_pos hfl]
        exact ⟨rfl, by omega, by omega⟩
      · cases h
    · obtain ⟨h1, h2, h3⟩ := hG.edge h
      rw [hold h2, hold h3]
      exact ⟨h1, by omega, by omega⟩
  · have hmono : ∀ {i j}, Connected es i j →
        Connected ((Move.alloc s np fl).thread m ++ es) i j :=
      Connected.mono fun p hp => List.mem_append_right _ hp
    by_cases hin : i = m.k.nextpid
    · rw [hin, Function.update_self, hr]
      split_ifs with hfl
      · have hedge : (m.inc s, m.k.nextpid) ∈ (Move.alloc s np fl).thread m ++ es := by
          rw [hthread, if_pos hfl]
          exact List.mem_cons_self ..
        exact .trans _ _ _ (.symm _ _ (.rel _ _ hedge)) (hmono (hG.root _))
      · exact .refl _
    · rw [Function.update_of_ne hin]
      exact hmono (hG.root i)
  · have htn := hA.ne_of_used ht
    rw [hA.proc_of_ne htn] at ht ⊢
    rw [hA.inc_of_ne htn, hold (hlt t)]
    exact hG.pid ht
  · rcases hA.create h with ⟨rfl, rfl, rfl⟩ | ⟨h, hqn, htn⟩
    · rw [hA.inc_self, hA.inc_of_ne hA.caller_ne, hA.proc_self]
      cases fl with
      | none =>
        simp only [Joining, Function.update_self]
        rw [hr]
        rfl
      | some fl =>
        simp only [Joining, Function.update_self, hold (hlt t)]
        exact ⟨trivial, hr⟩
    · have hJ := hG.create h
      rw [hA.inc_of_ne hqn, hA.inc_of_ne htn, hA.proc_of_ne hqn]
      have h1 := hold (hlt t)
      have h2 := hold (hlt q)
      cases st with
      | kstack fl => cases fl <;> simp_all [Joining]
      | _ => simp_all [Joining]

/-- A statement takes the new slot one step closer to its `pid`. -/
theorem stmt (hG : Groups m es ρ) (hB : Base m) {nx : Option Stmt}
    (hs : (m.k.proc s).state = .running) (hpc : m.pc s = .create st np)
    (hk : st.exec m.k s np o = .ok (m'.k, nx)) (hi : m'.inc = m.inc)
    (hpc' : m'.pc = Function.update m.pc s (pcAfter np nx)) : Groups m' es ρ := by
  have hn := (exec_globals hk).1
  have hpid := exec_pid hk
  have hct := exec_cloneThread hk
  have hJ := hG.create hpc
  have hemb := hB.life.embryo hpc
  have hpids : (m.k.proc s).pid = ρ (m.inc s) := hG.pid (Or.inl (Or.inr (Or.inr hs)))
  have hof : ∀ {t}, t ≠ np → (m'.k.proc t).pid = (m.k.proc t).pid ∧
      (m'.k.proc t).cloneThread = (m.k.proc t).cloneThread ∧
      ((m'.k.proc t).Used ↔ (m.k.proc t).Used) := by
    intro t ht
    obtain ⟨a, b, hp, -⟩ := exec_proc_of_ne hk ht
    rw [hp]
    exact ⟨rfl, rfl, Iff.rfl⟩
  refine ⟨fun h => ?_, hG.root, fun {t} ht => ?_, fun {t st' q} h => ?_⟩
  · rw [hn]
    exact hG.edge h
  · rw [hi]
    by_cases htn : t = np
    · subst htn
      -- only the last statement publishes the slot
      obtain ⟨-, hpub, -⟩ := exec_published hk hemb ht.ne_embryo ht.ne_unused
      rw [hpid, if_neg (by rintro ⟨rfl, -⟩; rcases hpub with h | h <;> cases h)]
      rcases hpub with rfl | rfl <;> exact hJ
    · rw [(hof htn).1]
      exact hG.pid ((hof htn).2.2.mp ht)
  · rw [hpc'] at h
    rw [hi]
    rcases pc_create_stmt hpc h with ⟨rfl, rfl, rfl⟩ | ⟨hts, hq⟩
    · obtain ⟨rfl, hpub⟩ := exec_next hk
      cases st with
      | kstack fl => cases fl <;> simp_all [Joining, Stmt.succ]
      | cloneIds =>
        simp only [Joining, Stmt.succ] at hJ hpid ⊢
        rw [hpid, hJ.2, hpids]
        split_ifs with h1 h2 h2
        · rfl
        · exact absurd h1.2 h2
        · exact absurd ⟨trivial, h2⟩ h1
        · exact hJ.1
      | _ => simp_all [Joining, Stmt.succ, Stmt.Publishes]
    · have hqn : q ≠ np := by
        rintro rfl
        exact hts (hB.life.creator hq hpc)
      have hJ := hG.create hq
      obtain ⟨h1, h2, -⟩ := hof hqn
      cases st' with
      | kstack fl => cases fl <;> simp_all [Joining]
      | _ => simp_all [Joining]

end Groups

/-- A step that makes nobody live keeps the groups. -/
theorem Reclaim.groups {p : Slot} {b : Bool} (hL : Life m) (h : Reclaim m m' s p b)
    (hG : Groups m es ρ) : Groups m' es ρ := by
  refine hG.frame h.inc h.nextpid (fun {t} ht => ?_) (fun {t st q} hq => ?_)
  · have htp : t ≠ p := by
      rintro rfl
      exact ht.ne_unused h.state
    exact ⟨(h.keep t htp).used_iff.mp ht, (h.keep t htp).pid⟩
  · rw [h.pc] at hq
    have hemb := hL.embryo hq
    have hqp : q ≠ p := by
      rintro rfl
      rw [h.zombie] at hemb
      cases hemb
    exact ⟨hq, (h.keep q hqp).pid, (h.keep q hqp).cloneThread⟩

/-- **One step.** -/
theorem Effect.groups (hB : Base m) (hN : Names m) (hG : Groups m es ρ) (h : Effect m mv m') :
    ∃ ρ', Groups m' (mv.thread m ++ es) ρ' := by
  cases h.change hB.sched hB.life with
  | quiet hmv hq =>
    have hnil : mv.thread m = [] := by
      cases mv with
      | alloc => exact hmv.elim
      | _ => rfl
    rw [hnil]
    refine ⟨ρ, hG.frame hq.inc hq.globals.nextpid (fun {t} ht => ?_) fun {t st q} hpc => ?_⟩
    · exact ⟨(hq.keep t).used_iff.mp ht, (hq.keep t).pid⟩
    · exact ⟨(hq.create t st q).mp hpc, (hq.keep q).pid, (hq.keep q).cloneThread⟩
  | alloc hs _ ha => exact hG.alloc hN ⟨hB.life, hs, ha, rfl, rfl⟩
  | stmt hs hpc hk =>
    refine ⟨ρ, hG.stmt hB hs hpc hk (record_inc _ _ _ _ _) ?_⟩
    rw [setPc_pc, setK_pc, record_pc]
  | commit _ hpc hk =>
    obtain ⟨_, -, -, -, hn, -⟩ := execCommit_ok hk
    refine ⟨ρ, hG.frame rfl hn (fun {t} ht => ⟨?_, (execCommit_fixed hk t).pid⟩) fun {t st q} hq =>
      ⟨create_of_update_user hq, (execCommit_fixed hk q).pid, execCommit_cloneThread hk q⟩⟩
    have hst := execCommit_state hk t
    unfold Proc.Used at ht ⊢
    rwa [setPc_k, setK_k, hst] at ht
  | @exit _ s hs hpc =>
    refine ⟨ρ, hG.frame rfl (exitLocked_globals m.k s).nextpid (fun {t} ht => ?_)
      fun {t st q} hq => ?_⟩
    · exact ⟨(exitLocked_used_iff m.k hs).mp ht, (exitLocked_fixed m.k s t).pid⟩
    · have hq := create_of_update_user hq
      have hqs : q ≠ s := by
        rintro rfl
        have hemb := hB.life.embryo hq
        rw [hs] at hemb
        cases hemb
      exact ⟨hq, (exitLocked_fixed m.k s q).pid, (exitLocked_touch m.k hqs).cloneThread⟩
  | waitReap _ hR => exact ⟨ρ, hR.groups hB.life hG⟩
  | joinReap _ _ hR => exact ⟨ρ, hR.groups hB.life hG⟩

theorem groups_boot (n : ℕ) (ofile : Fd → Option FileId) (ft : FTable) :
    Groups (boot n ofile ft) [] id := by
  refine ⟨fun {i j} h => ?_, fun i => Relation.EqvGen.refl i, fun {t} ht => ?_,
    fun {s st np} h => ?_⟩
  · cases h
  swap
  · cases h
  have h0 : t = 0 := by
    by_contra ht0
    refine ht.ne_unused ?_
    simp only [boot, bootKernel, Function.update_of_ne ht0]
    rfl
  subst h0
  rfl

/-- Every reachable state of the recorded machine has its groups. -/
theorem Reach.groups (h : (traced n).Reachable (m, es)) : ∃ ρ, Groups m es ρ := by
  rw [traced_eq] at h
  refine System.Reachable.recorded (fun m es => ∃ ρ, Groups m es ρ) ?_
    (fun m es a m' hr hI hst => ?_) h
  · rintro _ ⟨ofile, ft, rfl⟩
    exact ⟨id, groups_boot n ofile ft⟩
  · obtain ⟨ρ, hG⟩ := hI
    exact (step_effect hst).groups (Reach.base hr) (Reach.names hr) hG

/-- **Identities.** The nonzero thread ids in the table are different and less than `nextpid`; two
processes have the same `pid` exactly when a chain of `clone` calls with `CLONE_THREAD` connects
them.  So the scans of `join` and `tkill` have at most one candidate. -/
theorem identity (h : (traced n).Reachable (m, es)) :
    (∀ s t, s ≠ t → (m.k.proc s).tid ≠ 0 → (m.k.proc s).tid ≠ (m.k.proc t).tid) ∧
    (∀ t, (m.k.proc t).tid < m.k.nextpid) ∧
    (∀ s t, (m.k.proc s).state ≠ .unused → (m.k.proc s).state ≠ .embryo →
      (m.k.proc t).state ≠ .unused → (m.k.proc t).state ≠ .embryo →
      ((m.k.proc s).pid = (m.k.proc t).pid ↔ Connected es (m.inc s) (m.inc t))) ∧
    ∀ tid p q, IsThread m.k tid p → IsThread m.k tid q → p = q := by
  have hT := Reach.tids (Reach.of_traced h)
  obtain ⟨ρ, hG⟩ := Reach.groups h
  refine ⟨fun s t hst h0 he => h0 (hT.inj hst he), hT.lt, fun s t hs hs' ht ht' => ?_,
    fun tid p q => hT.unique⟩
  rw [hG.pid (Proc.used_of hs hs'), hG.pid (Proc.used_of ht ht')]
  exact hG.connected_iff

/-- A process, its thread and a thread of that thread are one group. -/
theorem identity_clone : ∃ (m : Machine 1) (es : List (ℤ × ℤ)), es = [(2, 3), (1, 2)] ∧
    (m.k.proc 0).pid = (m.k.proc 2).pid ∧ Connected es (m.inc 0) (m.inc 2) := by
  let o (pg : Page) : Oracle := ⟨some pg, true, 0, none⟩
  let next (k : ℕ) (pg : Page) : List (Action 1) := List.replicate k (.op 0 (.next (o pg)))
  let as : List (Action 1) := [.enter 0, .scan 0, .resume 0, .op 0 (.clone 8)] ++ next 11 1 ++
    [.op 0 .yield, .scan 0, .resume 0, .op 0 (.clone 8)] ++ next 11 2
  have hrun : (traced 1).Ends (fun p => p.2 = [(2, 3), (1, 2)] ∧
      (p.1.k.proc 0).state = .runnable ∧ (p.1.k.proc 2).state = .runnable ∧
      (p.1.k.proc 0).pid = (p.1.k.proc 2).pid) (boot0 1, []) as := by
    decide +kernel
  obtain ⟨⟨m, es⟩, hm, hes, h0, h2, hpid⟩ :=
    System.Reachable.of_ends (S := traced 1) as ⟨init_boot0 1, rfl⟩ hrun
  refine ⟨m, es, hes, hpid, ?_⟩
  have h0 : (m.k.proc 0).state = .runnable := h0
  have h2 : (m.k.proc 2).state = .runnable := h2
  refine ((identity hm).2.2.1 0 2 ?_ ?_ ?_ ?_).mp hpid <;> simp [h0, h2]

end OsSemester.Xv6
