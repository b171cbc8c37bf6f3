import OsSemester.Xv6.Inv.Lineage
import OsSemester.Xv6.ProcessPointers

/-!
# Whom `kill` takes down

`kill(pid)` stops at the first slot with the `pid` and kills, when that is a process, the slots with
`isthread` set whose parent it is.  This takes down the process and its threads and nobody else, as
long as no thread has the `pid` of its process in an earlier slot, the threads have their process as
parent, and no other slot with `isthread` set has: `kill_process`.  The invariant behind it is
`Household`, and `KillSafe` says which steps keep it.
-/

namespace OsSemester.Xv6

open Machine

variable {n : ℕ} {m m' : Machine n} {a : Action n} {mv : Move} {s np p q t : Slot} {pid : ℤ}
variable {k : Kernel} {st : Stmt} {o : Oracle} {nx : Option Stmt} {es : List (ℤ × ℤ)}

/-! ### The claim -/

/-- The slot `t` holds what was created in the process at `p`: a `clone` call of the process made it,
or one of a thread created in the process. -/
def Machine.Inside (m : Machine n) (es : List (ℤ × ℤ)) (p t : Slot) : Prop :=
  (m.k.proc t).state ≠ .unused ∧ Spawned es (m.inc p) (m.inc t)

/-- In `k'` the process at `p` and the live threads created in it are killed and awake, and the slots
outside of it are as they were in `m`. -/
structure TakenDown (m : Machine n) (es : List (ℤ × ℤ)) (k' : Kernel) (p : Slot) : Prop where
  killed : ∀ t, t = p ∨ ((m.k.proc t).state.Live ∧ m.Inside es p t) →
    (k'.proc t).killed = true ∧ (k'.proc t).state ≠ .sleeping
  others : ∀ t, t ≠ p → ¬ m.Inside es p t → k'.proc t = m.k.proc t

/-- The slot holds a live process. -/
def Proc.LiveProcess (p : Proc) : Prop := p.state.Live ∧ p.isthread = false

/-- The slot holds a process that has exited and does not change any more when it is killed. -/
def Proc.Settled (p : Proc) : Prop := p.state = .zombie ∧ p.killed = true

instance : DecidablePred Proc.LiveProcess := fun p => by
  unfold Proc.LiveProcess
  infer_instance

instance : DecidablePred Proc.Settled := fun p => by
  unfold Proc.Settled
  infer_instance

/-- The moves after which `kill` finds a process and all of its threads.

* `clone` is not called with `CLONE_PARENT`, and with `CLONE_THREAD` it gets a slot behind the one of
  the process with the `pid`.
* A slot whose `isthread` is still set, from a thread that was joined, does not go to a process that
  forks, nor to a `clone` that cannot copy the pages.
* When `fork` is done, the threads of an earlier process of the slot are killed `ZOMBIE`s.
* No process exits while `clone` makes a thread of it that has its parent and no `isthread` yet. -/
def KillSafe (m : Machine n) : Move → Prop
  | .stmt _ np _ .cloneParent => (m.k.proc np).cloneParent = false
  | .stmt s np _ .cloneIds => (m.k.proc np).cloneThread = true →
      ∀ p, (m.k.proc p).LiveProcess → (m.k.proc p).pid = (m.k.proc s).pid → p < np
  | .stmt _ np o .clonePgdir => (m.k.proc np).cloneVm = false → o.ok = false →
      (m.k.proc np).isthread = false
  | .stmt s np _ .forkParent => (m.k.proc np).isthread = true → (m.k.proc s).isthread = true
  | .stmt _ np _ .forkRun => ∀ t, (m.k.proc t).isthread = true → (m.k.proc t).parent = some np →
      (m.k.proc t).Settled
  | .exit e => (m.k.proc e).isthread = false → ∀ t, (m.k.proc t).parent = some e →
      (m.k.proc t).isthread = false → ¬ ∃ s, (m.pc s).Places t
  | _ => True

instance (m : Machine n) : DecidablePred (KillSafe m)
  | .stmt s np o st =>
    decidable_of_iff ((st = .cloneParent → (m.k.proc np).cloneParent = false) ∧
      (st = .cloneIds → (m.k.proc np).cloneThread = true → ∀ p, (m.k.proc p).LiveProcess →
        (m.k.proc p).pid = (m.k.proc s).pid → p < np) ∧
      (st = .clonePgdir → (m.k.proc np).cloneVm = false → o.ok = false →
        (m.k.proc np).isthread = false) ∧
      (st = .forkParent → (m.k.proc np).isthread = true → (m.k.proc s).isthread = true) ∧
      (st = .forkRun → ∀ t, (m.k.proc t).isthread = true → (m.k.proc t).parent = some np →
        (m.k.proc t).Settled)) (by cases st <;> simp [KillSafe])
  | .exit e => inferInstanceAs (Decidable ((m.k.proc e).isthread = false → ∀ t,
      (m.k.proc t).parent = some e → (m.k.proc t).isthread = false → ¬ ∃ s, (m.pc s).Places t))
  | .other | .alloc _ _ _ | .unshare _ | .commit _ _ | .exitOfile _ | .exitNext _ _ | .waitBlock _
  | .waitReap _ _ | .joinBlock _ _ _ | .joinReap _ _ _ | .kill _ | .tkill _ => instDecidableTrue

/-- The move of the step keeps every process within the reach of `kill`. -/
def KillSafeStep (m : Machine n) (a : Action n) : Prop := KillSafe m (m.move a)

instance (m : Machine n) (a : Action n) : Decidable (KillSafeStep m a) := by
  unfold KillSafeStep
  infer_instance

/-! ### The slots of a process -/

/-- The parent of a thread that `s` makes without `CLONE_PARENT`. -/
def threadParent (k : Kernel) (s : Slot) : Option Slot :=
  if (k.proc s).isthread then (k.proc s).parent else some s

/-- Where `kill` looks for a process and its threads, there they are, and nothing else is. -/
structure Household (m : Machine n) (es : List (ℤ × ℤ)) : Prop where
  pidLt : ∀ t, (m.k.proc t).pid < m.k.nextpid
  /-- A live process has the first slot with its `pid`. -/
  first : ∀ {p q}, (m.k.proc p).LiveProcess → 0 < (m.k.proc p).pid →
    (m.k.proc q).pid = (m.k.proc p).pid → p ≤ q
  /-- A process in creation has the only slot with its `pid`. -/
  alone : ∀ {s st np q}, m.pc s = .create st np → st.Forking → q ≠ np → 0 < (m.k.proc np).pid →
    (m.k.proc q).pid ≠ (m.k.proc np).pid
  clean : ∀ {t}, (m.k.proc t).state = .unused → (m.k.proc t).isthread = true →
    (m.k.proc t).parent = none
  blank : ∀ {s st np}, m.pc s = .create st np → ¬ st.PastParent → (m.k.proc np).isthread = true →
    (m.k.proc np).parent = none
  making : ∀ {s st np}, m.pc s = .create st np → ¬ st.Forking → st.PastParent →
    (m.k.proc np).parent = threadParent m.k s
  /-- The slots that the scan over the threads hits were created in the process. -/
  kin : ∀ {t q}, (m.k.proc t).isthread = true → (m.k.proc t).parent = some q →
    (m.k.proc q).LiveProcess → Spawned es (m.inc q) (m.inc t) ∨ (m.k.proc t).Settled
  /-- The live threads created in a process have it as their parent. -/
  found : ∀ {p t}, (m.k.proc p).LiveProcess → (m.k.proc t).state.Live →
    Spawned es (m.inc p) (m.inc t) → (m.k.proc t).parent = some p

/-- The record still belongs to the occupant it belonged to. -/
structure Older (p p' : Proc) : Prop where
  pid : p'.pid = p.pid
  isthread : p'.isthread = p.isthread
  parent : p.isthread = true → p'.parent = p.parent
  unused : p'.state = .unused → p.state = .unused
  live : p'.state.Live → p.state.Live
  settled : p.Settled → p'.Settled

/-- The record of a slot that was reclaimed. -/
structure Cleared (p : Proc) : Prop where
  state : p.state = .unused
  pid : p.pid = 0
  parent : p.parent = none

theorem Keep.older {p p' : Proc} (h : Keep p p') : Older p p' :=
  ⟨h.pid, h.isthread, fun _ => h.parent, (h.eq_iff not_live_unused).mp, h.live_iff.mp,
    fun hs => ⟨(h.eq_iff not_live_zombie).mpr hs.1, h.killed hs.2⟩⟩

theorem Older.liveProcess {p p' : Proc} (h : Older p p') (hp : p'.LiveProcess) : p.LiveProcess :=
  ⟨h.live hp.1, h.isthread.symm.trans hp.2⟩

theorem Cleared.not_live {p : Proc} (h : Cleared p) : ¬ p.state.Live := by
  rw [h.state]
  exact not_live_unused

theorem threadParent_congr {k' : Kernel} (hth : (k'.proc s).isthread = (k.proc s).isthread)
    (hp : (k.proc s).isthread = true → (k'.proc s).parent = (k.proc s).parent) :
    threadParent k' s = threadParent k s := by
  unfold threadParent
  rw [hth]
  split_ifs with h
  · exact hp h
  · rfl

namespace Household

/-- A step that creates nothing: some slots may be reclaimed. -/
theorem frame (hF : Household m es) (hG : Lineage m es) (hn : m'.k.nextpid = m.k.nextpid)
    (h0 : 0 < m.k.nextpid) (hi : m'.inc = m.inc)
    (hp : ∀ t, Older (m.k.proc t) (m'.k.proc t) ∨ Cleared (m'.k.proc t))
    (hc : ∀ {s st np}, m'.pc s = .create st np → m.pc s = .create st np ∧
      Older (m.k.proc s) (m'.k.proc s) ∧ Older (m.k.proc np) (m'.k.proc np) ∧
      (st.PastParent → (m'.k.proc np).parent = (m.k.proc np).parent)) : Household m' es := by
  have hlive : ∀ {t}, (m'.k.proc t).state.Live → Older (m.k.proc t) (m'.k.proc t) := fun {t} ht =>
    (hp t).resolve_right fun hcl => hcl.not_live ht
  refine ⟨fun t => ?_, fun {p q} hpr hpos he => ?_, fun {s st np q} hpc hst hq hpos => ?_,
    fun {t} hu hth => ?_, fun {s st np} hpc hst hth => ?_, fun {s st np} hpc hst hpast => ?_,
    fun {t q} hth hpar hpr => ?_, fun {p t} hpr hl hsp => ?_⟩
  · rw [hn]
    rcases hp t with h | h
    · rw [h.pid]
      exact hF.pidLt t
    · rw [h.pid]
      exact h0
  · have hold := hlive hpr.1
    rw [hold.pid] at hpos he
    rcases hp q with h | h
    · exact hF.first (hold.liveProcess hpr) hpos (h.pid.symm.trans he)
    · rw [h.pid] at he
      exact absurd he hpos.ne
  · obtain ⟨hpc, -, hnp, -⟩ := hc hpc
    rw [hnp.pid] at hpos ⊢
    rcases hp q with h | h
    · rw [h.pid]
      exact hF.alone hpc hst hq hpos
    · rw [h.pid]
      exact hpos.ne
  · rcases hp t with h | h
    · rw [h.isthread] at hth
      rw [h.parent hth]
      exact hF.clean (h.unused hu) hth
    · exact h.parent
  · obtain ⟨hpc, -, hnp, -⟩ := hc hpc
    rw [hnp.isthread] at hth
    rw [hnp.parent hth]
    exact hF.blank hpc hst hth
  · obtain ⟨hpc, hs, -, hpar⟩ := hc hpc
    rw [hpar hpast, threadParent_congr hs.isthread hs.parent]
    exact hF.making hpc hst hpast
  · rcases hp t with h | h
    · rw [h.isthread] at hth
      rw [h.parent hth] at hpar
      rw [hi]
      exact (hF.kin hth hpar ((hlive hpr.1).liveProcess hpr)).imp_right h.settled
    · rw [h.parent] at hpar
      cases hpar
  · have hold := hlive hl
    rw [hi] at hsp
    rw [hold.parent (hG.isthread_of_spawned (Or.inl (hold.live hl)) hsp)]
    exact hF.found ((hlive hpr.1).liveProcess hpr) (hold.live hl) hsp

/-- `allocproc` takes a slot that no pointer leads to a process from. -/
theorem alloc (hF : Household m es) (hG : Lineage m es) (hN : Names m) {fl : Option ℤ}
    (hA : Allocates m m' s np fl) : Household m' ((Move.alloc s np fl).spawn m ++ es) := by
  have hlive : ∀ {t}, (m'.k.proc t).state.Live → t ≠ np := fun ht => hA.ne_of_used (Or.inl ht)
  have hlt := hF.pidLt
  refine ⟨fun t => ?_, fun {p q} hpr hpos he => ?_, fun {t st r q} hpc hst hq hpos => ?_,
    fun {t} hu hth => ?_, fun {t st r} hpc hst hth => ?_, fun {t st r} hpc hst hpast => ?_,
    fun {t q} hth hpar hpr => ?_, fun {p t} hpr hl hsp => ?_⟩
  · rw [hA.nextpid]
    by_cases ht : t = np
    · rw [ht, hA.proc_self]
      exact Int.lt_succ _
    · rw [hA.proc_of_ne ht]
      exact (hlt t).trans (Int.lt_succ _)
  · have hp := hlive hpr.1
    rw [hA.proc_of_ne hp] at hpr hpos he
    by_cases hq : q = np
    · rw [hq, hA.proc_self] at he
      exact absurd he.symm (hlt p).ne
    · rw [hA.proc_of_ne hq] at he
      exact hF.first hpr hpos he
  · rcases hA.create hpc with ⟨-, -, rfl⟩ | ⟨hpc, hr, -⟩
    · rw [hA.proc_of_ne hq, hA.proc_self]
      exact (hlt q).ne
    · rw [hA.proc_of_ne hr] at hpos ⊢
      by_cases hqn : q = np
      · rw [hqn, hA.proc_self]
        exact (hlt r).ne'
      · rw [hA.proc_of_ne hqn]
        exact hF.alone hpc hst hq hpos
  · by_cases ht : t = np
    · rw [ht, hA.proc_self] at hu
      cases hu
    · rw [hA.proc_of_ne ht] at hu hth ⊢
      exact hF.clean hu hth
  · rcases hA.create hpc with ⟨-, -, rfl⟩ | ⟨hpc, hr, -⟩
    · rw [hA.proc_self] at hth ⊢
      exact hF.clean hA.unused hth
    · rw [hA.proc_of_ne hr] at hth ⊢
      exact hF.blank hpc hst hth
  · rcases hA.create hpc with ⟨-, rfl, -⟩ | ⟨hpc, hr, ht⟩
    · exact hpast.elim
    · have hs : threadParent m'.k t = threadParent m.k t := by
        unfold threadParent
        rw [hA.proc_of_ne ht]
      rw [hA.proc_of_ne hr, hs]
      exact hF.making hpc hst hpast
  · have hq := hlive hpr.1
    by_cases ht : t = np
    · rw [ht, hA.proc_self] at hth hpar
      rw [hF.clean hA.unused hth] at hpar
      cases hpar
    · rw [hA.proc_of_ne ht] at hth hpar ⊢
      rw [hA.proc_of_ne hq] at hpr
      rw [hA.inc_of_ne ht, hA.inc_of_ne hq]
      exact (hF.kin hth hpar hpr).imp_left (Spawned.append _)
  · have hp := hlive hpr.1
    have ht := hlive hl
    rw [hA.proc_of_ne hp] at hpr
    rw [hA.proc_of_ne ht] at hl ⊢
    rw [hA.inc_of_ne hp, hA.inc_of_ne ht] at hsp
    exact hF.found hpr hl (hG.spawned_of_alloc hsp (hN.lt t))

/-- The threads that `s` makes are in the process they get as their parent. -/
theorem spawned_of_threadParent (hF : Household m es) (hG : Lineage m es)
    (hs : (m.k.proc s).state = .running) (hpc : m.pc s = .create st np) (hst : ¬ st.Forking)
    (hpar : threadParent m.k s = some q) (hq : (m.k.proc q).LiveProcess) :
    Spawned es (m.inc q) (m.inc np) := by
  apply hG.spawned_of_creator hpc hst
  unfold threadParent at hpar
  split_ifs at hpar with hth
  · rcases hF.kin hth hpar hq with h | h
    · exact Or.inr h
    · have hz := h.1
      rw [hs] at hz
      cases hz
  · exact Or.inl (congrArg m.inc (Option.some.inj hpar).symm)

/-- They get the process as their parent in which they are created. -/
theorem threadParent_of_spawned (hF : Household m es) (hG : Lineage m es) (hN : Names m)
    (hs : (m.k.proc s).state = .running) (hpc : m.pc s = .create st np) (hst : ¬ st.Forking)
    (hp : (m.k.proc p).LiveProcess) (h : Spawned es (m.inc p) (m.inc np)) :
    threadParent m.k s = some p := by
  have hl : (m.k.proc s).state.Live := by
    rw [hs]
    exact live_running
  unfold threadParent
  rcases hG.spawned_creator hpc hst h with he | h
  · obtain rfl := hN.inj (Proc.Used.ne_unused (Or.inl hp.1)) (Proc.Used.ne_unused (Or.inl hl)) he
    rw [if_neg (by rw [hp.2]; decide)]
  · rw [if_pos (hG.isthread_of_spawned (Or.inl hl) h)]
    exact hF.found hp hl h

end Household

/-! ### Statements of `fork` and `clone` -/

/-- The statements with which a call can end. -/
theorem exec_last {k' : Kernel} (h : st.exec k s np o = .ok (k', none)) :
    st.Publishes ∨ st = .cloneCopyout ∨ (∃ fl, st = .kstack fl) ∨ st = .forkCopyuvm ∨
      (st = .clonePgdir ∧ (k.proc np).cloneVm = false ∧ o.ok = false) := by
  cases st <;> simp only [Stmt.exec] at h <;> grind [Stmt.Publishes]

theorem cloneParentOf_eq {wild : Option Slot} (h : (k.proc np).cloneParent = false) :
    cloneParentOf k s np wild = threadParent k s := by
  unfold cloneParentOf threadParent
  rw [h]
  rfl

theorem exec_forking_pid {k' : Kernel} (h : st.exec k s np o = .ok (k', nx)) (hst : st.Forking) :
    (k'.proc np).pid = (k.proc np).pid := by
  rw [exec_pid h, if_neg]
  rintro ⟨rfl, -⟩
  exact hst

namespace Household

variable (hF : Household m es) (hG : Lineage m es) (hN : Names m)
  (hok : KillSafe m (.stmt s np o st)) (hX : Executes m m' s np o st nx)

include hF hX

theorem pidLt_stmt (t : Slot) : (m'.k.proc t).pid < m'.k.nextpid := by
  rw [(exec_globals hX.exec).1]
  by_cases ht : t = np
  · rw [ht, exec_pid hX.exec]
    split_ifs
    · exact hF.pidLt s
    · exact hF.pidLt np
  · rw [(hX.keep ht).pid]
    exact hF.pidLt t

include hok in
/-- Only `CLONE_THREAD` gives a slot the `pid` of another one. -/
theorem first_stmt (hp : (m'.k.proc p).LiveProcess) (hpos : 0 < (m'.k.proc p).pid)
    (he : (m'.k.proc q).pid = (m'.k.proc p).pid) : p ≤ q := by
  by_cases hpn : p = np
  · -- `fork` publishes the only slot with this number
    subst hpn
    by_contra hlt
    have hqp : q ≠ p := fun h => hlt h.ge
    rcases hX.published (Or.inl hp.1) with ⟨rfl, -⟩ | ⟨-, hth⟩
    · rw [exec_forking_pid hX.exec trivial] at hpos he
      rw [(hX.keep hqp).pid] at he
      exact hF.alone hX.pc trivial hqp hpos he
    · rw [hp.2] at hth
      cases hth
  · have hold := (hX.keep hpn).older
    have hp := hold.liveProcess hp
    rw [hold.pid] at hpos he
    by_cases hqn : q = np
    · rw [hqn, exec_pid hX.exec] at he
      rw [hqn]
      split_ifs at he with hset
      · obtain ⟨rfl, hfl⟩ := hset
        exact (hok hfl p hp he.symm).le
      · exact hF.first hp hpos he
    · rw [(hX.keep hqn).pid] at he
      exact hF.first hp hpos he

theorem alone_stmt {st' : Stmt} {r : Slot} (hpc : m'.pc t = .create st' r) (hst : st'.Forking)
    (hq : q ≠ r) (hpos : 0 < (m'.k.proc r).pid) : (m'.k.proc q).pid ≠ (m'.k.proc r).pid := by
  rcases hX.create hpc with ⟨-, rfl, rfl, -⟩ | ⟨hold, hr, -⟩
  · have hst := st.succ_forking.mp hst
    rw [exec_forking_pid hX.exec hst] at hpos ⊢
    rw [(hX.keep hq).pid]
    exact hF.alone hX.pc hst hq hpos
  · rw [(hX.keep hr).pid] at hpos ⊢
    by_cases hqn : q = np
    · rw [hqn, exec_pid hX.exec]
      split_ifs
      · -- the caller is no slot in creation
        refine hF.alone hold hst ?_ hpos
        rintro rfl
        have hemb := hX.base.life.embryo hold
        rw [hX.running] at hemb
        cases hemb
      · exact hF.alone hold hst hr.symm hpos
    · rw [(hX.keep hqn).pid]
      exact hF.alone hold hst hq hpos

/-- Before the parent is set, the new slot is as it was when it was `UNUSED`. -/
theorem unset_stmt (hst : ¬ st.PastParent) (hset : st ≠ .forkParent ∧ st ≠ .cloneParent)
    (hth : (m'.k.proc np).isthread = true) : (m'.k.proc np).parent = none := by
  have hpar : (m'.k.proc np).parent = (m.k.proc np).parent := by
    rw [exec_parent hX.exec]
    split
    · exact absurd rfl hset.1
    · exact absurd rfl hset.2
    · rfl
  have hsame : (m'.k.proc np).isthread = (m.k.proc np).isthread := by
    rw [exec_isthread hX.exec]
    split
    · exact absurd trivial hst
    · exact absurd trivial hst
    · rfl
  rw [hsame] at hth
  rw [hpar]
  exact hF.blank hX.pc hst hth

include hok in
theorem clean_stmt (hu : (m'.k.proc t).state = .unused) (hth : (m'.k.proc t).isthread = true) :
    (m'.k.proc t).parent = none := by
  by_cases ht : t = np
  · subst ht
    obtain ⟨rfl, hdir, hpub⟩ := exec_failed hX.exec hu hX.embryo
    rcases exec_last hX.exec with h | rfl | ⟨fl, rfl⟩ | rfl | ⟨rfl, hvm, hfail⟩
    · exact absurd h hpub
    · exact absurd trivial hdir
    · exact hF.unset_stmt hX id ⟨nofun, nofun⟩ hth
    · exact hF.unset_stmt hX id ⟨nofun, nofun⟩ hth
    · -- the copy of the pages has failed, and the parent is set
      have hsame : (m'.k.proc t).isthread = (m.k.proc t).isthread := exec_isthread hX.exec
      rw [hsame, hok hvm hfail] at hth
      cases hth
  · have hold := (hX.keep ht).older
    rw [hold.isthread] at hth
    rw [hold.parent hth]
    exact hF.clean (hold.unused hu) hth

theorem blank_stmt {st' : Stmt} {r : Slot} (hpc : m'.pc t = .create st' r)
    (hst : ¬ st'.PastParent) (hth : (m'.k.proc r).isthread = true) :
    (m'.k.proc r).parent = none := by
  rcases hX.create hpc with ⟨-, rfl, rfl, hpub⟩ | ⟨hold, hr, -⟩
  · have hiff := succ_pastParent' hpub
    exact hF.unset_stmt hX (fun h => hst (hiff.mpr (Or.inl h)))
      ⟨fun h => hst (hiff.mpr (Or.inr (Or.inl h))), fun h => hst (hiff.mpr (Or.inr (Or.inr h)))⟩ hth
  · rw [(hX.keep hr).isthread] at hth
    rw [(hX.keep hr).parent]
    exact hF.blank hold hst hth

include hok in
/-- Without `CLONE_PARENT` the parent is the caller, or the one of the caller. -/
theorem making_stmt {st' : Stmt} {r : Slot} (hpc : m'.pc t = .create st' r)
    (hst : ¬ st'.Forking) (hpast : st'.PastParent) :
    (m'.k.proc r).parent = threadParent m'.k t := by
  rcases hX.create hpc with ⟨rfl, rfl, rfl, hpub⟩ | ⟨hold, hr, ht⟩
  · have hkeep := hX.keep (hX.ne_of_live hX.live)
    rw [st.succ_forking] at hst
    rw [threadParent_congr hkeep.isthread fun _ => hkeep.parent]
    have hpar := exec_parent hX.exec
    rcases (succ_pastParent' hpub).mp hpast with hpast | rfl | rfl
    · have hsame : (m'.k.proc r).parent = (m.k.proc r).parent := by
        rw [hpar]
        split
        · exact hpast.elim
        · exact hpast.elim
        · rfl
      rw [hsame]
      exact hF.making hX.pc hst hpast
    · exact absurd trivial hst
    · exact hpar.trans (cloneParentOf_eq hok)
  · have hkeep := hX.keep ht
    rw [(hX.keep hr).parent, threadParent_congr hkeep.isthread fun _ => hkeep.parent]
    exact hF.making hold hst hpast

include hG hok in
/-- The slot that is being made gets its parent, its `isthread`, or neither. -/
theorem kin_new (hth : (m'.k.proc np).isthread = true) (hpar : (m'.k.proc np).parent = some q)
    (hq : (m.k.proc q).LiveProcess) : Spawned es (m.inc q) (m.inc np) := by
  have hset := exec_parent hX.exec
  have hmark := exec_isthread hX.exec
  cases st with
  | forkIsthread =>
    rw [hmark] at hth
    cases hth
  | forkParent =>
    -- the caller is a process, and the slot was not one of a thread
    obtain rfl := Option.some.inj (hset.symm.trans hpar)
    have hs := hok (hmark.symm.trans hth)
    rw [hq.2] at hs
    cases hs
  | cloneParent =>
    refine hF.spawned_of_threadParent hG hX.running hX.pc id ?_ hq
    exact ((hset.trans (cloneParentOf_eq hok)).symm.trans hpar)
  | cloneIsthread =>
    refine hF.spawned_of_threadParent hG hX.running hX.pc id ?_ hq
    exact (hF.making hX.pc id trivial).symm.trans (hset.symm.trans hpar)
  | _ =>
    refine (hF.kin (hmark.symm.trans hth) (hset.symm.trans hpar) hq).resolve_right fun h => ?_
    have hz := h.1
    rw [hX.embryo] at hz
    cases hz

include hG hok in
/-- The slots with `isthread` set that have a live process as parent. -/
theorem kin_stmt (hth : (m'.k.proc t).isthread = true) (hpar : (m'.k.proc t).parent = some q)
    (hq : (m'.k.proc q).LiveProcess) :
    Spawned es (m'.inc q) (m'.inc t) ∨ (m'.k.proc t).Settled := by
  rw [hX.inc]
  by_cases hqn : q = np
  · -- a new process: the guard is about the slots that point to it
    subst hqn
    rcases hX.published (Or.inl hq.1) with ⟨rfl, -⟩ | ⟨-, h⟩
    · have htq : t ≠ q := by
        rintro rfl
        rw [hq.2] at hth
        cases hth
      have hold := (hX.keep htq).older
      rw [hold.isthread] at hth
      rw [hold.parent hth] at hpar
      exact Or.inr (hold.settled (hok t hth hpar))
    · rw [hq.2] at h
      cases h
  have hq := (hX.keep hqn).older.liveProcess hq
  by_cases ht : t = np
  · subst ht
    exact Or.inl (hF.kin_new hG hok hX hth hpar hq)
  · have hold := (hX.keep ht).older
    rw [hold.isthread] at hth
    rw [hold.parent hth] at hpar
    exact (hF.kin hth hpar hq).imp_right hold.settled

include hG hN in
/-- `clone` publishes a thread with its process as the parent. -/
theorem found_stmt (hp : (m'.k.proc p).LiveProcess) (hl : (m'.k.proc t).state.Live)
    (hsp : Spawned es (m'.inc p) (m'.inc t)) : (m'.k.proc t).parent = some p := by
  rw [hX.inc] at hsp
  by_cases hpn : p = np
  · subst hpn
    exact absurd hsp (hG.not_spawned_childless hX.pc)
  have hp := (hX.keep hpn).older.liveProcess hp
  by_cases ht : t = np
  · subst ht
    rcases hX.published (Or.inl hl) with ⟨rfl, -⟩ | ⟨rfl, -⟩
    · exact absurd hsp (hG.not_spawned_forked hX.pc trivial)
    · have hset := exec_parent hX.exec
      have hmade := hF.making hX.pc id trivial
      have hthread := hF.threadParent_of_spawned hG hN hX.running hX.pc id hp hsp
      exact hset.trans (hmade.trans hthread)
  · have hkeep := hX.keep ht
    rw [hkeep.parent]
    exact hF.found hp (hkeep.live_iff.mp hl) hsp

include hG hN hok in
theorem stmt : Household m' es where
  pidLt := hF.pidLt_stmt hX
  first := hF.first_stmt hok hX
  alone := hF.alone_stmt hX
  clean := hF.clean_stmt hok hX
  blank := hF.blank_stmt hX
  making := hF.making_stmt hok hX
  kin := hF.kin_stmt hG hok hX
  found := hF.found_stmt hG hN hX

end Household

/-! ### The run -/

theorem Reclaim.household {b : Bool} (hB : Base m) (hN : Names m) (hG : Lineage m es)
    (hF : Household m es) (h : Reclaim m m' s p b) : Household m' es := by
  refine hF.frame hG h.nextpid hN.next h.inc (fun t => ?_) fun {t st q} hpc => ?_
  · by_cases ht : t = p
    · subst ht
      exact Or.inr ⟨h.state, h.pid, h.parent⟩
    · exact Or.inl (h.keep t ht).older
  · rw [h.pc] at hpc
    have htp : t ≠ p := by
      rintro rfl
      have hl := hB.life.busy (s := t) (by rw [hpc]; nofun)
      rw [h.zombie] at hl
      exact not_live_zombie hl
    have hqp : q ≠ p := by
      rintro rfl
      have hemb := hB.life.embryo hpc
      rw [h.zombie] at hemb
      cases hemb
    exact ⟨hpc, (h.keep t htp).older, (h.keep q hqp).older, fun _ => (h.keep q hqp).parent⟩

/-- `exit` passes on only processes. -/
theorem exitLocked_older (hs : (k.proc s).state = .running) (t : Slot) :
    Older (k.proc t) ((exitLocked k s).proc t) := by
  have hfix := exitLocked_fixed k s t
  refine ⟨hfix.pid, hfix.isthread, fun hth => ?_, fun hu => ?_, fun hl => ?_, fun hz => ?_⟩
  · rw [exitLocked_parent, if_neg]
    rintro ⟨-, had⟩
    simp [adopted, hth] at had
  all_goals by_cases hts : t = s
  · rw [hts, exitLocked_self] at hu
    cases hu
  · exact (exitLocked_eq_iff k hts not_live_unused).mp hu
  · rw [hts, hs]
    exact live_running
  · exact (exitLocked_live_iff k hts).mp hl
  · have hz := hz.1
    rw [hts, hs] at hz
    cases hz
  · exact ⟨(exitLocked_eq_iff k hts not_live_zombie).mpr hz.1, (exitLocked_touch k hts).killed hz.2⟩

theorem household_exit {c : Fin n} (hN : Names m) (hG : Lineage m es)
    (hF : Household m es) (hok : KillSafe m (.exit s)) (hs : (m.k.proc s).state = .running) :
    Household ((((m.recordExit s).setK (exitLocked m.k s)).setPc s .user).sched c s .yield) es := by
  have hold := exitLocked_older hs
  refine hF.frame hG (exitLocked_globals m.k s).nextpid hN.next rfl (fun t => Or.inl (hold t))
    fun {t st q} hpc => ?_
  have hpc : m.pc t = .create st q := create_of_update_user hpc
  refine ⟨hpc, hold t, hold q, fun hpast => ?_⟩
  show ((exitLocked m.k s).proc q).parent = _
  rw [exitLocked_parent, if_neg]
  rintro ⟨hth, had⟩
  simp only [adopted, Bool.and_eq_true, decide_eq_true_eq, Bool.not_eq_true'] at had
  refine hok hth q had.1 had.2 ⟨t, ?_⟩
  rw [hpc]
  exact ⟨rfl, hpast⟩

theorem execCommit_older {k' : Kernel} {sz : ℕ} (h : execCommit k s sz = .ok k') (t : Slot) :
    Older (k.proc t) (k'.proc t) := by
  obtain ⟨_, -, -, -, -, -, -, -, hp⟩ := execCommit_ok h
  rw [hp]
  split_ifs with hts
  · rw [hts]
    exact ⟨rfl, rfl, fun _ => rfl, id, id, id⟩
  · exact (Keep.refl _).older

theorem execCommit_parent {k' : Kernel} {sz : ℕ} (h : execCommit k s sz = .ok k') (t : Slot) :
    (k'.proc t).parent = (k.proc t).parent := by
  obtain ⟨_, -, -, -, -, -, -, -, hp⟩ := execCommit_ok h
  rw [hp]
  split_ifs with hts
  · rw [hts]
  · rfl

theorem Effect.household (hB : Base m) (hN : Names m) (hC : Born Creating (fun p i => p.tid = i) m)
    (hG : Lineage m es) (hF : Household m es) (hok : KillSafe m mv) (h : Effect m mv m') :
    Household m' (mv.spawn m ++ es) := by
  cases h.change hB.sched hB.life with
  | quiet hmv hq =>
    have hnil : mv.spawn m = [] := by
      cases mv with
      | alloc => exact hmv.elim
      | _ => rfl
    rw [hnil]
    refine hF.frame hG hq.globals.nextpid hN.next hq.inc (fun t => Or.inl (hq.keep t).older)
      fun {t st q} hpc => ?_
    exact ⟨(hq.create _ _ _).mp hpc, (hq.keep t).older, (hq.keep q).older,
      fun _ => (hq.keep q).parent⟩
  | alloc hs _ ha => exact hF.alloc hG hN ⟨hB.life, hs, ha, rfl, rfl⟩
  | stmt hs hpc hk =>
    refine hF.stmt hG hN hok ⟨hB, hC, hs, hpc, hk, record_inc _ _ _ _ _, ?_⟩
    rw [setPc_pc, setK_pc, record_pc]
  | commit _ _ hk =>
    obtain ⟨_, -, -, -, hn, -⟩ := execCommit_ok hk
    have hold := execCommit_older hk
    refine hF.frame hG hn hN.next rfl (fun t => Or.inl (hold t)) fun {t st q} hpc => ?_
    exact ⟨create_of_update_user hpc, hold t, hold q, fun _ => execCommit_parent hk q⟩
  | exit hs => exact household_exit hN hG hF hok hs
  | waitReap _ hR => exact hR.household hB hN hG hF
  | joinReap _ _ hR => exact hR.household hB hN hG hF

theorem household_boot (n : ℕ) (ofile : Fd → Option FileId) (ft : FTable) :
    Household (boot n ofile ft) [] := by
  have hzero : ∀ {t}, t ≠ 0 → (boot n ofile ft).k.proc t = Proc.zero := by
    intro t ht
    simp only [boot, bootKernel]
    exact Function.update_of_ne ht _ _
  have hinit : (boot n ofile ft).k.proc 0 = initProc ofile := by
    simp only [boot, bootKernel]
    exact Function.update_self ..
  have hth : ∀ t, ((boot n ofile ft).k.proc t).isthread = false := by
    intro t
    by_cases ht : t = 0
    · rw [ht, hinit]
      rfl
    · rw [hzero ht]
      rfl
  have hpc : ∀ {s st np}, (boot n ofile ft).pc s ≠ .create st np := by
    intro s st np h
    cases h
  refine ⟨fun t => ?_, fun {p q} hp _ _ => ?_, fun h => (hpc h).elim, fun {t} _ h => ?_,
    fun h => (hpc h).elim, fun h => (hpc h).elim, fun {t q} h _ _ => ?_,
    fun {p t} _ hl hsp => ?_⟩
  · by_cases ht : t = 0
    · rw [ht, hinit]
      exact one_lt_two
    · rw [hzero ht]
      exact two_pos
  · have hp0 : p = 0 := by
      by_contra h
      rw [hzero h] at hp
      exact not_live_unused hp.1
    rw [hp0]
    exact Fin.zero_le q
  · rw [hth] at h
    cases h
  · rw [hth] at h
    cases h
  · have h := (lineage_boot n ofile ft).isthread_of_spawned (Or.inl hl) hsp
    rw [hth] at h
    cases h

/-- **The invariant of the runs whose steps keep every process within the reach of `kill`.** -/
theorem Reach.household (h : (cloning n).Reach (fun x => KillSafeStep x.1) (m, es)) :
    Household m es := by
  refine System.Reach.recorded Household ?_ (fun m es a m' hr hF hok hst => ?_) h
  · rintro _ ⟨ofile, ft, rfl⟩
    exact household_boot n ofile ft
  · have hm := System.Reach.of_recorded hr
    exact (step_effect hst).household (Reach.base hm) (Reach.names hm) (Reach.creating hm)
      (Reach.lineage hr) hF hok

/-! ### The call -/

theorem Proc.Settled.kill {p : Proc} (h : p.Settled) : p.kill = p := by
  obtain ⟨hz, hk⟩ := h
  cases p
  simp_all [Proc.kill]

theorem Proc.kill_down (p : Proc) : p.kill.killed = true ∧ p.kill.state ≠ .sleeping := by
  refine ⟨rfl, ?_⟩
  simp only [Proc.kill_state]
  split_ifs with h
  · decide
  · exact h

/-- The scan of `kill` stops at the process. -/
theorem Household.killTarget (hF : Household m es) (hp : (m.k.proc p).LiveProcess)
    (hpos : 0 < (m.k.proc p).pid) : killTarget m.k (m.k.proc p).pid = some p := by
  unfold Xv6.killTarget scan
  rw [← Fin.find?_eq_find?_finRange, Fin.find?_eq_some_iff]
  refine ⟨decide_eq_true rfl, fun q hq => decide_eq_false fun he => ?_⟩
  exact absurd (hF.first hp hpos he) (not_le.mpr hq)

/-- **`kill` takes down the whole process.** In every state of a run whose steps keep the processes
within its reach, `kill` with the `pid` of a live process returns 0; it kills and wakes the process
and every live thread created in it, and leaves the slots outside of it alone. -/
theorem kill_process (h : (cloning n).Reach (fun x => KillSafeStep x.1) (m, es))
    (hl : (m.k.proc p).state.Live) (hth : (m.k.proc p).isthread = false)
    (hpid : 0 < (m.k.proc p).pid) : (kill m.k (m.k.proc p).pid).2 = true ∧
      TakenDown m es (kill m.k (m.k.proc p).pid).1 p := by
  have hG := Reach.lineage h
  have hF := Reach.household h
  have htarget := hF.killTarget ⟨hl, hth⟩ hpid
  have hhits : ∀ t, killHits m.k (m.k.proc p).pid t ↔
      t = p ∨ ((m.k.proc t).isthread = true ∧ (m.k.proc t).parent = some p) := by
    intro t
    unfold killHits
    rw [htarget]
    simp [hth]
  refine ⟨by simp only [kill, htarget], fun t ht => ?_, fun t hne hout => ?_⟩
  · -- the live threads of the process have it as their parent
    have hhit : killHits m.k (m.k.proc p).pid t := by
      rw [hhits]
      rcases ht with ht | ⟨htl, -, hsp⟩
      · exact Or.inl ht
      · exact Or.inr ⟨hG.isthread_of_spawned (Or.inl htl) hsp, hF.found ⟨hl, hth⟩ htl hsp⟩
    rcases kill_proc m.k (m.k.proc p).pid t with ⟨-, he⟩ | ⟨hno, -⟩
    · rw [he]
      exact Proc.kill_down _
    · exact absurd hhit hno
  · rcases kill_proc m.k (m.k.proc p).pid t with ⟨hhit, he⟩ | ⟨-, he⟩
    · -- what is hit outside of the process is a killed `ZOMBIE`
      obtain ⟨hthread, hpar⟩ := ((hhits t).mp hhit).resolve_left hne
      rw [he]
      rcases hF.kin hthread hpar ⟨hl, hth⟩ with hsp | hz
      · have hused : (m.k.proc t).state ≠ .unused := by
          intro hu
          rw [hF.clean hu hthread] at hpar
          cases hpar
        exact absurd ⟨hused, hsp⟩ hout
      · exact hz.kill
    · exact he

/-- The process with `pid` 2 has a thread with the same `pid`, which has made a thread that sleeps and
has forked.  `kill` takes down the three of them. -/
theorem kill_process_nested : ∃ (m : Machine 1) (es : List (ℤ × ℤ)), es = [(3, 4), (2, 3)] ∧
    (m.k.proc 1).pid = 2 ∧ (m.k.proc 2).pid = 2 ∧ (m.k.proc 3).state = .sleeping ∧
    (m.k.proc 4).state = .runnable ∧ (kill m.k 2).2 = true ∧
    TakenDown m es (kill m.k 2).1 1 := by
  let next (j : ℕ) (pg : Page) : List (Action 1) :=
    List.replicate j (.op 0 (.next ⟨some pg, true, 0, none⟩))
  let switch : List (Action 1) := [.op 0 .yield, .scan 0, .resume 0]
  let as : List (Action 1) := [.enter 0, .scan 0, .resume 0, .op 0 .fork] ++ next 8 1 ++ switch ++
    [.op 0 (.clone 12)] ++ next 11 2 ++ switch ++ [.op 0 (.clone 4)] ++ next 11 3 ++
    [.op 0 .fork] ++ next 8 4 ++ switch ++ [.op 0 (.sleep 0)]
  have hguard : (cloning 1).Obeys (fun x => KillSafeStep x.1) (boot0 1, []) as := by
    decide +kernel
  have hrun : (cloning 1).Ends (fun x => x.2 = [(3, 4), (2, 3)] ∧ (x.1.k.proc 1).pid = 2 ∧
      (x.1.k.proc 2).pid = 2 ∧ (x.1.k.proc 3).state = .sleeping ∧
      (x.1.k.proc 4).state = .runnable ∧ (x.1.k.proc 1).state.Live ∧
      (x.1.k.proc 1).isthread = false) (boot0 1, []) as := by
    decide +kernel
  obtain ⟨⟨m, es⟩, hm, hes, h1, h2, h3, h4, hl, hth⟩ :=
    System.Reach.of_ends (S := cloning 1) as ⟨init_boot0 1, rfl⟩ hguard hrun
  have h1 : (m.k.proc 1).pid = 2 := h1
  have hkill := kill_process hm hl hth (by rw [h1]; decide)
  rw [h1] at hkill
  exact ⟨m, es, hes, h1, h2, h3, h4, hkill⟩

/-- A process in slot 2 makes a `CLONE_THREAD` thread, which gets the free slot 1 and with it the
first place in the table for their pid.  `kill` kills the thread and leaves the process alone. -/
theorem kill_process_counterexample : ∃ (m : Machine 1) (es : List (ℤ × ℤ)),
    (cloning 1).Reachable (m, es) ∧ (m.k.proc 2).state.Live ∧ (m.k.proc 2).isthread = false ∧
    (m.k.proc 2).pid = 3 ∧ ¬ TakenDown m es (kill m.k 3).1 2 := by
  let next (j : ℕ) (pg : Page) : List (Action 1) :=
    List.replicate j (.op 0 (.next ⟨some pg, true, 0, none⟩))
  let switch : List (Action 1) := [.op 0 .yield, .scan 0, .resume 0]
  let as : List (Action 1) := [.enter 0, .scan 0, .resume 0, .op 0 .fork] ++ next 8 1 ++
    [.op 0 .fork] ++ next 8 2 ++ switch ++ [.op 0 .exit] ++ next 4 0 ++ [.scan 0, .resume 0] ++
    [.op 0 .yield, .scan 0, .enter 0, .scan 0, .resume 0, .op 0 .wait] ++ switch ++
    [.op 0 (.clone 12)] ++ next 11 1
  have hrun : (cloning 1).Ends (fun x => (x.1.k.proc 2).state.Live ∧
      (x.1.k.proc 2).isthread = false ∧ (x.1.k.proc 2).pid = 3 ∧
      ((kill x.1.k 3).1.proc 2).killed = false) (boot0 1, []) as := by
    decide +kernel
  obtain ⟨⟨m, es⟩, hm, hl, hth, hpid, hk⟩ :=
    System.Reachable.of_ends (S := cloning 1) as ⟨init_boot0 1, rfl⟩ hrun
  refine ⟨m, es, hm, hl, hth, hpid, fun hT => ?_⟩
  have hk : ((kill m.k 3).1.proc 2).killed = false := hk
  rw [(hT.killed 2 (Or.inl rfl)).1] at hk
  cases hk

end OsSemester.Xv6
