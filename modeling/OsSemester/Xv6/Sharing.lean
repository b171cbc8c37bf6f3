import OsSemester.Xv6.Inv.Birth

/-!
# The share graph

`ofileshare` and `cwdshare` store who shares descriptors and who shares the working directory.  The
fill loops of `clone` take every free entry, so a process has one partner at most.  As long as
`clone` finds a free entry in its caller's array, the arrays store a coupling (`Represents`) of
processes that have not ended, and every `clone` with the flag couples the two: `sharing_sound`.
`Sharing` names the two relations; all results are about both.
-/

namespace OsSemester.Xv6

open Machine

variable {n : ℕ} {m m' m0 : Machine n} {a : Action n} {mv : Move} {c : Fin n} {s p q np t : Slot}
variable {k k' : Kernel} {st : Stmt} {o : Oracle} {nx : Option Stmt}

/-- The two relations that the share arrays store. -/
inductive Sharing
  | files
  | dirs
  deriving DecidableEq

namespace Sharing

/-- The arrays of the relation. -/
def graph : Sharing → Kernel → ShareGraph
  | files => Kernel.ofileshare
  | dirs => Kernel.cwdshare

/-- The statement of `clone` that enters the relation. -/
def entry : Sharing → Stmt
  | files => .cloneFiles
  | dirs => .cloneFs

/-- The flag under which it does. -/
def flag : Sharing → Proc → Bool
  | files, p => p.cloneFiles
  | dirs, p => p.cloneFs

/-- The statements of `clone` after the entry. -/
def Past : Sharing → Stmt → Prop
  | files, .cloneFs | _, .cloneRun => True
  | _, _ => False

/-- The parts of `exit` after the relation has been left. -/
def Left : Sharing → ExitStmt → Prop
  | dirs, .cwd _ => False
  | _, _ => True

/-- The process that leaves the relation in the move. -/
def leaver : Sharing → Move → Option Slot
  | _, .unshare s => some s
  | files, .exitOfile s => some s
  | dirs, .exitNext s (.cwd _) => some s
  | _, _ => none

end Sharing

/-- `q` occurs in the share array of `p`. -/
def Shares (g : ShareGraph) (p q : Slot) : Prop := ∃ i, g p i = some q

instance (g : ShareGraph) (p q : Slot) : Decidable (Shares g p q) := by
  unfold Shares
  infer_instance

/-- The relation is symmetric, irreflexive, and between slots that are neither `UNUSED` nor
`ZOMBIE`. -/
structure Sound (k : Kernel) (g : ShareGraph) : Prop where
  symm : ∀ p q, Shares g p q → Shares g q p
  irrefl : ∀ p, ¬ Shares g p p
  live : ∀ p q, Shares g p q → (k.proc p).state ≠ .unused ∧ (k.proc p).state ≠ .zombie

/-- Both relations are sound. -/
def SharingSound (m : Machine n) : Prop := ∀ R : Sharing, Sound m.k (R.graph m.k)

/-- A `clone` that enters a relation finds a free entry in its caller's array. -/
def Roomy (k : Kernel) : Move → Prop
  | .stmt s np _ .cloneFiles => (k.proc np).cloneFiles = true → ∃ i, (k.proc s).ofileshare i = none
  | .stmt s np _ .cloneFs => (k.proc np).cloneFs = true → ∃ i, (k.proc s).cwdshare i = none
  | _ => True

instance (k : Kernel) (mv : Move) : Decidable (Roomy k mv) := by
  unfold Roomy
  split <;> infer_instance

/-- The move of the step finds a free entry if it needs one. -/
def RoomyStep (m : Machine n) (a : Action n) : Prop := Roomy m.k (m.move a)

instance (m : Machine n) (a : Action n) : Decidable (RoomyStep m a) := by
  unfold RoomyStep
  infer_instance

/-! ### Who writes the share arrays -/

/-- An update of one slot that leaves its arrays alone. -/
theorem graph_update (R : Sharing) {pr : Proc} (hp : k'.proc = Function.update k.proc s pr)
    (hf : pr.ofileshare = (k.proc s).ofileshare) (hd : pr.cwdshare = (k.proc s).cwdshare) :
    R.graph k' = R.graph k := by
  funext t
  cases R <;> simp only [Sharing.graph, Kernel.ofileshare, Kernel.cwdshare, hp,
    Function.update_apply] <;> split_ifs with h <;> simp [h, hf, hd]

theorem graph_modify (R : Sharing) (k : Kernel) (s : Slot) (f : Proc → Proc)
    (hf : (f (k.proc s)).ofileshare = (k.proc s).ofileshare)
    (hd : (f (k.proc s)).cwdshare = (k.proc s).cwdshare) : R.graph (k.modify s f) = R.graph k :=
  graph_update R rfl hf hd

theorem graph_congr (R : Sharing) (hf : ∀ t, (k'.proc t).ofileshare = (k.proc t).ofileshare)
    (hd : ∀ t, (k'.proc t).cwdshare = (k.proc t).cwdshare) : R.graph k' = R.graph k := by
  funext t
  cases R
  · exact hf t
  · exact hd t

theorem graph_setOfileshare (R : Sharing) (k : Kernel) (g : ShareGraph) :
    R.graph (k.setOfileshare g) = if R = .files then g else R.graph k := by
  cases R <;> rfl

theorem graph_setCwdshare (R : Sharing) (k : Kernel) (g : ShareGraph) :
    R.graph (k.setCwdshare g) = if R = .dirs then g else R.graph k := by
  cases R <;> rfl

theorem graph_abandon (R : Sharing) (k : Kernel) (np : Slot) :
    R.graph (abandon k np) = R.graph k := by
  refine graph_congr R (fun t => ?_) (fun t => ?_) <;> rw [abandon_proc] <;> split_ifs with h <;>
    simp [h]

theorem graph_dupOfile (R : Sharing) (h : dupOfile k s np = .ok k') : R.graph k' = R.graph k := by
  obtain ⟨ofile, ft, rfl⟩ := dupOfile_ok h
  exact graph_update R rfl rfl rfl

/-- The fill loops are the only statements of `fork` and `clone` that write the arrays. -/
theorem exec_graph (R : Sharing) (h : st.exec k s np o = .ok (k', nx)) : R.graph k' =
    if st = R.entry ∧ R.flag (k.proc np) = true then (R.graph k).fill s np else R.graph k := by
  -- the other statements write neither array
  have hno : st ≠ .cloneFiles → st ≠ .cloneFs → ¬ (st = R.entry ∧ R.flag (k.proc np) = true) := by
    rintro h1 h2 ⟨h3, -⟩
    cases R
    · exact h1 h3
    · exact h2 h3
  by_cases h1 : st = .cloneFiles
  · subst h1
    simp only [Stmt.exec] at h
    split at h
    · cases h
    · rename_i hd
      obtain ⟨rfl, -⟩ := Prod.mk.inj (Except.ok.inj h)
      -- with the flag the fill loop runs, without it the descriptors are only copied
      unfold cloneOfile at hd
      split at hd
      · rename_i hfl
        obtain rfl := Except.ok.inj hd
        rw [graph_modify R _ np (fun p => { p with ofile := copyFiles (k.proc s).ofile p.ofile })
          rfl rfl, graph_setOfileshare]
        cases R
        · rw [if_pos rfl, if_pos ⟨rfl, hfl⟩]
          rfl
        · rw [if_neg (by decide), if_neg (by simp [Sharing.entry])]
      · rename_i hfl
        rw [graph_dupOfile R hd, if_neg]
        rintro ⟨h2, h3⟩
        cases R
        · exact hfl h3
        · cases h2
  · by_cases h2 : st = .cloneFs
    · subst h2
      simp only [Stmt.exec] at h
      obtain ⟨rfl, -⟩ := Prod.mk.inj (Except.ok.inj h)
      unfold cloneCwd
      rw [graph_modify R _ np (fun p => { p with cwd := (k.proc s).cwd }) rfl rfl]
      split_ifs with hfl hen hen
      · rw [graph_setCwdshare]
        cases R
        · cases hen.1
        · rfl
      · rw [graph_setCwdshare, if_neg]
        rintro rfl
        exact hen ⟨rfl, hfl⟩
      · cases R
        · cases hen.1
        · exact absurd hen.2 hfl
      · rfl
    · rw [if_neg (hno h1 h2)]
      cases st with
      | cloneFiles => exact absurd rfl h1
      | cloneFs => exact absurd rfl h2
      | forkOfile =>
        simp only [Stmt.exec] at h
        split at h
        · cases h
        · rename_i hd
          obtain ⟨rfl, -⟩ := Prod.mk.inj (Except.ok.inj h)
          exact graph_dupOfile R hd
      | kstack fl =>
        simp only [Stmt.exec] at h
        split at h
        · obtain ⟨rfl, -⟩ := Prod.mk.inj (Except.ok.inj h)
          exact graph_update R rfl rfl rfl
        · split at h
          · cases h
          · obtain ⟨rfl, -⟩ := Prod.mk.inj (Except.ok.inj h)
            exact graph_update R rfl rfl rfl
      | forkCopyuvm =>
        simp only [Stmt.exec] at h
        split at h
        · obtain ⟨rfl, -⟩ := Prod.mk.inj (Except.ok.inj h)
          exact graph_update R rfl rfl rfl
        · obtain ⟨rfl, -⟩ := Prod.mk.inj (Except.ok.inj h)
          exact graph_abandon R k np
      | clonePgdir =>
        simp only [Stmt.exec] at h
        split at h
        · obtain ⟨rfl, -⟩ := Prod.mk.inj (Except.ok.inj h)
          exact graph_update R rfl rfl rfl
        · split at h
          · obtain ⟨rfl, -⟩ := Prod.mk.inj (Except.ok.inj h)
            exact graph_update R rfl rfl rfl
          · obtain ⟨rfl, -⟩ := Prod.mk.inj (Except.ok.inj h)
            exact graph_abandon R k np
      | cloneCopyout =>
        simp only [Stmt.exec] at h
        obtain ⟨rfl, -⟩ := Prod.mk.inj (Except.ok.inj h)
        rfl
      | _ =>
        simp only [Stmt.exec] at h
        obtain ⟨rfl, -⟩ := Prod.mk.inj (Except.ok.inj h)
        exact graph_update R rfl rfl rfl

theorem graph_unshareOfile (R : Sharing) (k : Kernel) (s : Slot) : R.graph (unshareOfile k s) =
    if R = .files then unshare (R.graph k) s else R.graph k := by
  unfold unshareOfile
  rw [graph_setOfileshare]
  cases R <;> rfl

theorem graph_unshareCwd (R : Sharing) (k : Kernel) (s : Slot) : R.graph (unshareCwd k s) =
    if R = .dirs then unshare (R.graph k) s else R.graph k := by
  unfold unshareCwd
  rw [graph_setCwdshare]
  cases R <;> rfl

theorem graph_fallAsleep (R : Sharing) (k : Kernel) (s : Slot) (ch : Chan) :
    R.graph (fallAsleep k s ch) = R.graph k := graph_update R rfl rfl rfl

theorem Machine.Scans.graph (R : Sharing) (h : m.Scans c s m0) : R.graph m0.k = R.graph m.k := by
  cases h with
  | call => rfl
  | back => exact graph_update R rfl rfl rfl

theorem Reaped.graph (R : Sharing) {b : Bool} (h : Reaped k k' p b) : R.graph k' = R.graph k := by
  refine graph_congr R (fun t => ?_) (fun t => ?_) <;> by_cases ht : t = p
  · rw [ht, h.ofileshare]
  · rw [h.proc_of_ne t ht]
  · rw [ht, h.cwdshare]
  · rw [h.proc_of_ne t ht]

theorem graph_exitLocked (R : Sharing) (k : Kernel) (s : Slot) :
    R.graph (exitLocked k s) = R.graph k := by
  obtain ⟨p, hT, he⟩ := exitLocked_self_touch k s
  refine graph_congr R (fun t => ?_) (fun t => ?_) <;> by_cases ht : t = s
  · rw [ht, he, Proc.setState_ofileshare, hT.ofileshare]
  · rw [(exitLocked_touch k ht).ofileshare]
  · rw [ht, he, Proc.setState_cwdshare, hT.cwdshare]
  · rw [(exitLocked_touch k ht).cwdshare]

/-- **Who writes the share arrays.** -/
theorem Effect.graph (R : Sharing) (h : Effect m mv m') :
    (∃ s np o, mv = .stmt s np o R.entry ∧ R.flag (m.k.proc np) = true ∧
      R.graph m'.k = (R.graph m.k).fill s np) ∨
    (∃ s, R.leaver mv = some s ∧ R.graph m'.k = Xv6.unshare (R.graph m.k) s) ∨
    ((∀ s np o, mv = .stmt s np o R.entry → R.flag (m.k.proc np) = false) ∧ R.leaver mv = none ∧
      R.graph m'.k = R.graph m.k) := by
  have hleaver : ∀ {mv}, mv = Move.other → R.leaver mv = none := by
    rintro _ rfl
    cases R <;> rfl
  cases h with
  | enter | idle | back | same | execFail =>
    exact Or.inr (Or.inr ⟨nofun, hleaver rfl, rfl⟩)
  | pick | yield => exact Or.inr (Or.inr ⟨nofun, hleaver rfl, graph_update R rfl rfl rfl⟩)
  | sleep => exact Or.inr (Or.inr ⟨nofun, hleaver rfl, graph_fallAsleep R _ _ _⟩)
  | woke hs => exact Or.inr (Or.inr ⟨nofun, hleaver rfl, hs.graph R⟩)
  | wakeup =>
    refine Or.inr (Or.inr ⟨nofun, hleaver rfl, graph_congr R (fun t => ?_) fun t => ?_⟩)
    · exact (wakeup1_touch _ _ t).ofileshare
    · exact (wakeup1_touch _ _ t).cwdshare
  | alloc _ _ ha =>
    obtain ⟨-, hp, -⟩ := allocproc_some ha
    refine Or.inr (Or.inr ⟨nofun, by cases R <;> rfl, graph_congr R (fun t => ?_) fun t => ?_⟩) <;>
      rw [setPc_k, setK_k, hp] <;> split_ifs with ht <;> simp [ht]
  | @stmtLast _ s np o st k _ _ hk | @stmtNext _ s np o st _ k _ _ hk =>
    -- the entry of `clone`, or a statement that writes no share array
    have hg := exec_graph R hk
    split_ifs at hg with hen
    · exact Or.inl ⟨s, np, o, by rw [hen.1], hen.2, hg⟩
    · refine Or.inr (Or.inr ⟨fun s' np' o' he => ?_, by cases R <;> rfl, hg⟩)
      obtain ⟨-, rfl, -, hst⟩ := Move.stmt.inj he
      exact Bool.eq_false_iff.mpr fun hfl => hen ⟨hst, hfl⟩
  | @unshare _ s =>
    refine Or.inr (Or.inl ⟨s, by cases R <;> rfl, ?_⟩)
    rw [setPc_k, setK_k, graph_unshareCwd, graph_unshareOfile]
    cases R <;> rfl
  | commit _ _ hk =>
    obtain ⟨_, -, -, -, -, -, -, -, hp⟩ := execCommit_ok hk
    refine Or.inr (Or.inr ⟨nofun, by cases R <;> rfl, graph_congr R (fun t => ?_) fun t => ?_⟩) <;>
      rw [setPc_k, setK_k, hp] <;> split_ifs with ht <;> simp [ht]
  | @exitOfile _ s =>
    -- `exit` erases the two arrays in two steps
    have hg := graph_unshareOfile R m.k s
    cases R
    · exact Or.inr (Or.inl ⟨s, rfl, hg⟩)
    · exact Or.inr (Or.inr ⟨nofun, rfl, hg⟩)
  | @exitCwd _ s =>
    have hg := graph_unshareCwd R m.k s
    cases R
    · exact Or.inr (Or.inr ⟨nofun, rfl, hg⟩)
    · exact Or.inr (Or.inl ⟨s, rfl, hg⟩)
  | exitFiles _ _ hk =>
    obtain ⟨-, hp⟩ := exitFiles_ok hk
    refine Or.inr (Or.inr ⟨nofun, by cases R <;> rfl, graph_congr R (fun t => ?_) fun t => ?_⟩) <;>
      rw [setPc_k, setK_k, hp] <;> split_ifs with ht <;> simp [ht]
  | exitIput =>
    exact Or.inr (Or.inr ⟨nofun, by cases R <;> rfl, graph_update R rfl rfl rfl⟩)
  | exit => exact Or.inr (Or.inr ⟨nofun, by cases R <;> rfl, graph_exitLocked R m.k _⟩)
  | waitBlock hs =>
    refine Or.inr (Or.inr ⟨nofun, by cases R <;> rfl, ?_⟩)
    rw [sched_k, setK_k, graph_fallAsleep, hs.graph R]
  | joinBlock hs =>
    refine Or.inr (Or.inr ⟨nofun, by cases R <;> rfl, ?_⟩)
    rw [sched_k, setK_k, graph_fallAsleep, graph_modify R _ _ _ rfl rfl, hs.graph R]
  | waitReap hs _ hk =>
    refine Or.inr (Or.inr ⟨nofun, by cases R <;> rfl, ?_⟩)
    exact ((waitReap_ok hk).1.graph R).trans (hs.graph R)
  | joinReap hs _ hk =>
    refine Or.inr (Or.inr ⟨nofun, by cases R <;> rfl, ?_⟩)
    exact ((joinReap_ok hk).1.graph R).trans (hs.graph R)
  | @kill _ _ pid =>
    refine Or.inr (Or.inr ⟨nofun, by cases R <;> rfl, graph_congr R (fun t => ?_) fun t => ?_⟩)
    · exact (kill_touch _ _ t).ofileshare
    · exact (kill_touch _ _ t).cwdshare
  | tkill =>
    refine Or.inr (Or.inr ⟨nofun, by cases R <;> rfl, graph_congr R (fun t => ?_) fun t => ?_⟩)
    · exact (tkill_touch _ _ t).ofileshare
    · exact (tkill_touch _ _ t).cwdshare

/-! ### Who is in the relations -/

/-- The process at `p` may be related: it has entered `exit` at most up to the loop that leaves the
relation, or it is being created and the relation has been entered. -/
def Machine.Member (m : Machine n) (R : Sharing) (p : Slot) : Prop :=
  ((m.k.proc p).state.Live ∧ ∀ st, m.pc p = .exit st → ¬ R.Left st) ∨
    ∃ s st, m.pc s = .create st p ∧ R.Past st

/-- The arrays store a coupling of members, and `clone` has coupled its caller with the new slot. -/
structure Coupled (R : Sharing) (m : Machine n) (π : Pairing Slot) : Prop where
  represents : Represents (R.graph m.k) π
  member : ∀ {p q}, π.partner p = some q → m.Member R p
  entered : ∀ {s st np}, m.pc s = .create st np → R.Past st → R.flag (m.k.proc np) = true →
    π.partner s = some np

/-- In `exit`, only the loop that leaves the relation brings a process behind it. -/
theorem Effect.left (R : Sharing) (h : Effect m mv m') {st : ExitStmt} (hp : m'.pc p = .exit st)
    (hst : R.Left st) : (∃ st', m.pc p = .exit st' ∧ R.Left st') ∨ R.leaver mv = some p := by
  have hset : ∀ {s : Slot} {q : Pc}, Function.update m.pc s q p = .exit st →
      (p = s ∧ q = .exit st) ∨ m.pc p = .exit st := by
    intro s q hq
    by_cases hps : p = s
    · subst hps
      rw [Function.update_self] at hq
      exact Or.inl ⟨rfl, hq⟩
    · rw [Function.update_of_ne hps] at hq
      exact Or.inr hq
  have hold : m.pc p = .exit st → (∃ st', m.pc p = .exit st' ∧ R.Left st') ∨
      R.leaver mv = some p := fun hq => Or.inl ⟨st, hq, hst⟩
  cases h with
  | enter | idle | pick | back | wakeup | yield | sleep | same | kill | tkill => exact hold hp
  | woke hs => exact hold (by rwa [← hs.rest.2.2.2.2.2.1])
  | waitBlock hs | joinBlock hs | waitReap hs | joinReap hs =>
    exact hold (by rw [← hs.rest.2.2.2.2.2.1]; exact hp)
  | execFail | alloc | stmtLast | stmtNext | unshare | commit | exit =>
    rcases hset (by simpa using hp) with ⟨-, hq⟩ | hq
    · cases hq
    · exact hold hq
  | @exitOfile _ s =>
    rcases hset (by simpa using hp) with ⟨rfl, hq⟩ | hq
    · obtain rfl := Pc.exit.inj hq
      cases R
      · exact Or.inr rfl
      · exact hst.elim
    · exact hold hq
  | @exitCwd _ s b _ hpc =>
    rcases hset (by simpa using hp) with ⟨rfl, -⟩ | hq
    · cases R
      · exact Or.inl ⟨_, hpc, trivial⟩
      · exact Or.inr rfl
    · exact hold hq
  | exitFiles _ hpc | exitIput _ hpc =>
    rcases hset (by simpa using hp) with ⟨rfl, -⟩ | hq
    · exact Or.inl ⟨_, hpc, by cases R <;> trivial⟩
    · exact hold hq

/-- Only a running process that creates nothing leaves the relation. -/
theorem Effect.leaver_running (R : Sharing) (hS : Sched m) (h : Effect m mv m')
    (hl : R.leaver mv = some s) :
    (m.k.proc s).state = .running ∧ ∀ st np, m.pc s ≠ .create st np := by
  cases h with
  | unshare hr hpc | exitOfile hr hpc | exitCwd hr hpc =>
    cases R <;> cases hl <;>
      exact ⟨hS.running hr, fun st np hcr => by rw [hpc] at hcr; cases hcr⟩
  | _ => cases R <;> cases hl

/-- A process lives until the critical section of its `exit`. -/
theorem Change.live (hL : Life m) (h : Change m mv m') (hp : (m.k.proc p).state.Live)
    (hne : mv ≠ .exit p) : (m'.k.proc p).state.Live := by
  cases h with
  | quiet _ hq => exact (hq.keep p).live_iff.mpr hp
  | alloc _ _ ha =>
    obtain ⟨hu, hk, -⟩ := allocproc_some ha
    rw [setPc_k, setK_k, hk]
    split_ifs with h
    · rw [h, hu] at hp
      exact absurd hp not_live_unused
    · exact hp
  | stmt _ hpc hk =>
    refine (exec_keep_of_ne hk ?_).live_iff.mpr hp
    rintro rfl
    rw [hL.embryo hpc] at hp
    exact not_live_embryo hp
  | commit _ _ hk => rwa [setPc_k, setK_k, execCommit_state hk]
  | @exit _ s => exact (exitLocked_live_iff m.k fun h => hne (by rw [h])).mpr hp
  | waitReap _ hR | joinReap _ _ hR =>
    refine (hR.keep p ?_).live_iff.mpr hp
    rintro rfl
    rw [hR.zombie] at hp
    exact not_live_zombie hp

theorem past_succ (R : Sharing) (hpub : ¬ st.Publishes) :
    R.Past st.succ ↔ st = R.entry ∨ R.Past st := by
  cases R <;> cases st with
  | kstack fl => cases fl <;> simp [Stmt.succ, Sharing.Past, Sharing.entry]
  | _ => simp_all [Stmt.succ, Sharing.Past, Sharing.entry, Stmt.Publishes]

/-- A call that returns behind the entry has published the new slot. -/
theorem past_publishes (R : Sharing) (hp : R.Past st) (h : st.exec k s np o = .ok (k', none)) :
    (k'.proc np).state.Live := by
  have hst := exec_state h
  have hpub : st ≠ .cloneCopyout ∧ st.Publishes := by
    cases R <;> cases st <;> simp_all [Sharing.Past, Stmt.Publishes, Stmt.exec]
  rw [if_pos ⟨rfl, hpub.1⟩, if_pos hpub.2] at hst
  rw [hst]
  exact live_runnable

/-- Members stay members until they leave. -/
theorem Effect.member {R : Sharing} (hB : Base m) (h : Effect m mv m') (hp : m.Member R p)
    (hl : R.leaver mv ≠ some p) : m'.Member R p := by
  have hC := h.change hB.sched hB.life
  rcases hp with ⟨hlive, hexit⟩ | ⟨s, st, hpc, hst⟩
  · refine Or.inl ⟨hC.live hB.life hlive ?_, fun st hq hst => ?_⟩
    · rintro rfl
      cases hC with
      | quiet hq => exact hq
      | exit _ hpc => exact hexit _ hpc (by cases R <;> trivial)
    · rcases h.left R hq hst with ⟨st', hpc, hst'⟩ | h'
      · exact hexit st' hpc hst'
      · exact hl h'
  · have hemb := hB.life.embryo hpc
    -- only its creator moves the new slot
    have hkeep : m'.pc s = m.pc s → m'.Member R p := fun hs => Or.inr ⟨s, st, by rw [hs, hpc], hst⟩
    have hof : ∀ {t q}, m.pc t ≠ .create st p → Function.update m.pc t q s = m.pc s := by
      intro t q ht
      refine Function.update_of_ne ?_ _ _
      rintro rfl
      exact ht hpc
    cases hC with
    | quiet _ hq => exact Or.inr ⟨s, st, (hq.create _ _ _).mpr hpc, hst⟩
    | alloc _ hpc' | commit _ hpc' => exact hkeep (hof (by rw [hpc']; nofun))
    | exit _ hpc' => exact hkeep (hof (by rw [hpc']; nofun))
    | waitReap _ hR | joinReap _ _ hR => exact hkeep (by rw [hR.pc])
    | @stmt s' np _ st' nx _ hrun hpc' hk =>
      by_cases hs : s' = s
      · subst hs
        obtain ⟨rfl, rfl⟩ := Pc.create.inj (hpc'.symm.trans hpc)
        cases nx with
        | none =>
          refine Or.inl ⟨past_publishes R hst hk, fun st'' hq _ => ?_⟩
          -- the new process is still in user code
          have hne : np ≠ s' := by
            rintro rfl
            rw [hrun] at hemb
            cases hemb
          have hbusy := hB.life.busy (s := np)
          rw [setPc_pc, Function.update_of_ne hne, setK_pc, record_pc] at hq
          rw [hq, hemb] at hbusy
          exact not_live_embryo (hbusy nofun)
        | some st'' =>
          obtain ⟨rfl, hpub⟩ := exec_next hk
          exact Or.inr ⟨s', _, Function.update_self _ _ _, (past_succ R hpub).mpr (Or.inr hst)⟩
      · refine hkeep ?_
        rw [setPc_pc, Function.update_of_ne (Ne.symm hs), setK_pc, record_pc]

/-! ### The flags of the new slot -/

theorem flag_congr (R : Sharing) {p p' : Proc} (hf : p'.cloneFiles = p.cloneFiles)
    (hd : p'.cloneFs = p.cloneFs) : R.flag p' = R.flag p := by
  cases R
  · exact hf
  · exact hd

theorem flag_update (R : Sharing) {pr : Proc} (hp : k'.proc = Function.update k.proc s pr)
    (hf : pr.cloneFiles = (k.proc s).cloneFiles) (hd : pr.cloneFs = (k.proc s).cloneFs) :
    R.flag (k'.proc t) = R.flag (k.proc t) := by
  rw [hp, Function.update_apply]
  split_ifs with h
  · rw [h]
    exact flag_congr R hf hd
  · rfl

theorem Touch.flag (R : Sharing) {p p' : Proc} (h : Touch p p') : R.flag p' = R.flag p :=
  flag_congr R h.cloneFiles h.cloneFs

theorem Machine.Scans.flag (R : Sharing) (h : m.Scans c s m0) (t : Slot) :
    R.flag (m0.k.proc t) = R.flag (m.k.proc t) := by
  cases h with
  | call => rfl
  | back => exact flag_update R rfl rfl rfl

/-- The flags of a slot in creation are written once, before the relations are entered. -/
theorem Effect.flag (R : Sharing) (h : Effect m mv m') (ht : (m.k.proc t).state = .embryo)
    (hmv : ∀ s o fl, mv ≠ .stmt s t o (.cloneFlags fl)) :
    R.flag (m'.k.proc t) = R.flag (m.k.proc t) := by
  cases h with
  | enter | idle | back | same | execFail | unshare | exitOfile | exitCwd => cases R <;> rfl
  | pick | yield | sleep | exitIput => exact flag_update R rfl rfl rfl
  | woke hs => exact hs.flag R t
  | wakeup => exact (wakeup1_touch _ _ t).flag R
  | kill => exact (kill_touch _ _ t).flag R
  | tkill => exact (tkill_touch _ _ t).flag R
  | alloc _ _ ha =>
    obtain ⟨-, hp, -⟩ := allocproc_some ha
    rw [setPc_k, setK_k, hp]
    split_ifs with h
    · rw [h]
      exact flag_congr R rfl rfl
    · rfl
  | @stmtLast _ s np o st k _ _ hk | @stmtNext _ s np o st _ k _ _ hk =>
    rw [setPc_k, setK_k]
    by_cases htn : t = np
    · subst htn
      obtain ⟨-, -, hfl⟩ := exec_shares hk
      obtain ⟨hf, hd⟩ := hfl fun fl h => hmv s o fl (by rw [h])
      exact flag_congr R hf hd
    · obtain ⟨a, b, hp, -⟩ := exec_proc_of_ne hk htn
      rw [hp]
      exact flag_congr R rfl rfl
  | commit _ _ hk =>
    obtain ⟨_, -, -, -, -, -, -, -, hp⟩ := execCommit_ok hk
    rw [setPc_k, setK_k, hp]
    split_ifs with h
    · rw [h]
      exact flag_congr R rfl rfl
    · rfl
  | exitFiles _ _ hk =>
    obtain ⟨-, hp⟩ := exitFiles_ok hk
    rw [setPc_k, setK_k, hp]
    split_ifs with h
    · rw [h]
      exact flag_congr R rfl rfl
    · rfl
  | @exit _ s =>
    rw [sched_k, setPc_k, setK_k]
    by_cases hts : t = s
    · subst hts
      obtain ⟨p, hT, he⟩ := exitLocked_self_touch m.k t
      rw [he]
      exact flag_congr R hT.cloneFiles hT.cloneFs
    · exact (exitLocked_touch m.k hts).flag R
  | waitBlock hs =>
    refine Eq.trans ?_ (hs.flag R t)
    exact flag_update R rfl rfl rfl
  | @joinBlock _ s _ _ f m0 hs =>
    have hj : R.flag ((m0.k.modify s (·.setJoinproc f)).proc t) = R.flag (m0.k.proc t) :=
      flag_update R rfl rfl rfl
    rw [← hs.flag R, ← hj]
    exact flag_update R rfl rfl rfl
  | @waitReap _ _ p _ _ hs hw hk =>
    -- a slot that is reclaimed held a `ZOMBIE`
    have htp : t ≠ p := by
      rintro rfl
      have := (waitScan_reap hw).2
      rw [hs.state, ht] at this
      cases this
    have hp := (waitReap_ok hk).1.proc_of_ne t htp
    simp only [hp]
    exact hs.flag R t
  | @joinReap _ _ p _ _ _ _ hs hw hk =>
    have htp : t ≠ p := by
      rintro rfl
      have := (joinLoop_reap hw).2.2
      rw [hs.state, ht] at this
      cases this
    have hp := (joinReap_ok hk).1.proc_of_ne t htp
    simp only [hp]
    exact hs.flag R t

/-- Who is creating behind the entry was there before the step, or has just entered. -/
theorem Effect.entered (R : Sharing) (hB : Base m) (h : Effect m mv m')
    (hpc : m'.pc s = .create st np) (hst : R.Past st) :
    ∃ st', m.pc s = .create st' np ∧ R.flag (m'.k.proc np) = R.flag (m.k.proc np) ∧
      (R.Past st' ∨ ∃ o, mv = .stmt s np o R.entry) := by
  have hof : (∀ t q o fl, mv ≠ .stmt t q o (.cloneFlags fl)) → m.pc s = .create st np →
      ∃ st', m.pc s = .create st' np ∧ R.flag (m'.k.proc np) = R.flag (m.k.proc np) ∧
        (R.Past st' ∨ ∃ o, mv = .stmt s np o R.entry) := fun hmv hs =>
    ⟨st, hs, h.flag R (hB.life.embryo hs) fun t => hmv t np, Or.inl hst⟩
  cases h.change hB.sched hB.life with
  | quiet hq' hq =>
    exact hof (by rintro t q o fl rfl; exact hq') ((hq.create _ _ _).mp hpc)
  | @alloc t q fl =>
    have hpc0 : Function.update m.pc t (.create (.kstack fl) q) s = .create st np := hpc
    rw [Function.update_apply] at hpc0
    split_ifs at hpc0
    · obtain ⟨rfl, -⟩ := Pc.create.inj hpc0
      cases R <;> exact hst.elim
    · exact hof nofun hpc0
  | commit | exit => exact hof nofun (create_of_update_user hpc)
  | waitReap _ hR | joinReap _ _ hR => exact hof nofun (by rwa [← hR.pc])
  | @stmt t q o st0 nx _ hrun hpc' hk =>
    have hpc0 : Function.update m.pc t (pcAfter q nx) s = .create st np := by simpa using hpc
    rcases pc_create_stmt hpc' hpc0 with ⟨rfl, rfl, rfl⟩ | ⟨hne, hs⟩
    · obtain ⟨rfl, hpub⟩ := exec_next hk
      have hp := (past_succ R hpub).mp hst
      refine ⟨st0, hpc', h.flag R (hB.life.embryo hpc') ?_, ?_⟩
      · rintro _ _ fl he
        obtain ⟨-, -, -, rfl⟩ := Move.stmt.inj he
        rcases hp with hp | hp
        · cases R <;> cases hp
        · cases R <;> exact hp
      · rcases hp with rfl | hp
        · exact Or.inr ⟨o, rfl⟩
        · exact Or.inl hp
    · have hqn : q ≠ np := by
        rintro rfl
        exact hne (hB.life.creator hs hpc')
      refine ⟨st, hs, h.flag R (hB.life.embryo hs) ?_, Or.inl hst⟩
      rintro _ _ fl he
      exact hqn (Move.stmt.inj he).2.1

/-! ### The arrays store a coupling -/

theorem coupled_empty (R : Sharing) (hg : R.graph m.k = fun _ _ => none)
    (hpc : ∀ s, m.pc s = .user) : Coupled R m .empty :=
  ⟨fun _ _ => by rw [hg]; rfl, nofun, fun h => by rw [hpc] at h; cases h⟩

/-- Nobody is coupled with a slot that is being created, before the entry. -/
theorem Coupled.free {R : Sharing} {π : Pairing Slot} (hL : Life m) (hC : Coupled R m π)
    (hpc : m.pc s = .create R.entry np) : π.partner np = none := by
  cases hp : π.partner np with
  | none => rfl
  | some q =>
    exfalso
    rcases hC.member hp with ⟨hl, -⟩ | ⟨t, st, hpc', hst⟩
    · rw [hL.embryo hpc] at hl
      exact not_live_embryo hl
    · obtain rfl := hL.creator hpc' hpc
      obtain ⟨rfl, -⟩ := Pc.create.inj (hpc'.symm.trans hpc)
      cases R <;> exact hst

/-- What the guard says when a relation is entered. -/
theorem Roomy.entry {R : Sharing} (h : Roomy k (.stmt s np o R.entry))
    (hfl : R.flag (k.proc np) = true) : ∃ i, R.graph k s i = none := by
  cases R <;> exact h hfl

/-- The call goes on behind the entry. -/
theorem exec_entry (R : Sharing) (h : R.entry.exec k s np o = .ok (k', none)) : False := by
  cases R with
  | dirs => simp [Sharing.entry, Stmt.exec] at h
  | files =>
    simp only [Sharing.entry, Stmt.exec] at h
    split at h <;> simp at h

theorem Effect.coupled {R : Sharing} {π : Pairing Slot} (hB : Base m) (hC : Coupled R m π)
    (hok : Roomy m.k mv) (h : Effect m mv m') : ∃ π', Coupled R m' π' := by
  have hL := hB.life
  -- a creating process has a partner in creation, and neither leaves
  have hcreating : ∀ {t st q}, m.pc t = .create st q → t ≠ q := by
    rintro t st q hpc rfl
    have hlive := hL.busy (s := t) (by rw [hpc]; nofun)
    rw [hL.embryo hpc] at hlive
    exact not_live_embryo hlive
  rcases h.graph R with ⟨s, np, o, rfl, hfl, hg⟩ | ⟨s, hl, hg⟩ | ⟨hno, hl, hg⟩
  · have hpc : m.pc s = .create R.entry np := by
      cases h with
      | stmtLast _ hpc => exact hpc
      | stmtNext _ hpc => exact hpc
    have hne := hcreating hpc
    have hl : R.leaver (.stmt s np o R.entry) = none := by cases R <;> rfl
    obtain ⟨i, hi⟩ := hok.entry hfl
    have hs : π.partner s = none := (hC.represents s i).symm.trans hi
    have hnp := hC.free hL hpc
    have hlive : (m.k.proc s).state.Live := hL.busy (by rw [hpc]; nofun)
    refine ⟨π.join s np hne hs hnp, ?_, fun {p q} hp => ?_, fun {t st q} hpc' hst hfl' => ?_⟩
    · rw [hg]
      exact hC.represents.fill hne hs hnp
    · by_cases hps : p = s
      · rw [hps]
        refine h.member hB (Or.inl ⟨hlive, fun st hpc' => ?_⟩) (by rw [hl]; nofun)
        rw [hpc] at hpc'
        cases hpc'
      · by_cases hpn : p = np
        · subst hpn
          have hpc' : m'.pc s = .create R.entry.succ p := by
            cases h with
            | stmtLast _ _ hk => exact (exec_entry R hk).elim
            | stmtNext _ _ hk =>
              obtain ⟨rfl, -⟩ := exec_next hk
              exact Function.update_self _ _ _
          exact Or.inr ⟨s, _, hpc', by cases R <;> trivial⟩
        · rw [π.partner_join_of_ne hne hs hnp hps hpn] at hp
          exact h.member hB (hC.member hp) (by rw [hl]; nofun)
    · obtain ⟨st', hpc0, hflq, hst'⟩ := h.entered R hB hpc' hst
      by_cases hts : t = s
      · subst hts
        obtain ⟨-, rfl⟩ := Pc.create.inj (hpc0.symm.trans hpc)
        exact π.partner_join_left hne hs hnp
      · have htn : t ≠ np := by
          rintro rfl
          have hbusy := hL.busy (s := t) (by rw [hpc0]; nofun)
          rw [hL.embryo hpc] at hbusy
          exact not_live_embryo hbusy
        rcases hst' with hst' | ⟨o', he⟩
        · rw [π.partner_join_of_ne hne hs hnp hts htn]
          exact hC.entered hpc0 hst' (hflq ▸ hfl')
        · exact absurd (Move.stmt.inj he).1.symm hts
  · obtain ⟨hrun, hnc⟩ := h.leaver_running R hB.sched hl
    refine ⟨π.leave s, ?_, fun {p q} hp => ?_, fun {t st q} hpc hst hfl => ?_⟩
    · rw [hg]
      exact hC.represents.unshare s
    · obtain ⟨hp, hne, -⟩ := π.partner_of_leave hp
      refine h.member hB (hC.member hp) ?_
      rw [hl]
      exact fun he => hne (Option.some.inj he).symm
    · obtain ⟨st', hpc0, hflq, hst'⟩ := h.entered R hB hpc hst
      have hst' : R.Past st' := by
        rcases hst' with hst' | ⟨o, rfl⟩
        · exact hst'
        · cases R <;> cases hl
      have hq := hC.entered hpc0 hst' (hflq ▸ hfl)
      have hts : t ≠ s := by
        rintro rfl
        exact hnc _ _ hpc0
      have hqs : q ≠ s := by
        rintro rfl
        have hemb := hL.embryo hpc0
        rw [hrun] at hemb
        cases hemb
      exact π.partner_leave_of_ne hq hts hqs
  · refine ⟨π, ?_, fun {p q} hp => ?_, fun {t st q} hpc hst hfl => ?_⟩
    · rw [hg]
      exact hC.represents
    · exact h.member hB (hC.member hp) (by rw [hl]; nofun)
    · obtain ⟨st', hpc0, hflq, hst' | ⟨o, rfl⟩⟩ := h.entered R hB hpc hst
      · exact hC.entered hpc0 hst' (hflq ▸ hfl)
      · rw [hflq, hno _ _ _ rfl] at hfl
        cases hfl

/-- Where the caller has a partner already, the fill loops enter it at the new slot only. -/
theorem Coupled.crowded {R : Sharing} {π : Pairing Slot} (hC : Coupled R m π)
    (hne : s ≠ np) (hnp : π.partner np = none) (hs : ∀ i, R.graph m.k s i ≠ none) :
    Shares ((R.graph m.k).fill s np) np s ∧ ¬ Shares ((R.graph m.k).fill s np) s np := by
  have hself : ∀ i, (R.graph m.k).fill s np s i = R.graph m.k s i := by
    intro i
    simp [ShareGraph.fill, ShareArray.fill, hne, hs i]
  have hnew : (R.graph m.k).fill s np np 0 = some s := by
    have h0 := hC.represents np 0
    rw [hnp] at h0
    simp [ShareGraph.fill, ShareArray.fill, hne.symm, h0]
  refine ⟨⟨0, hnew⟩, ?_⟩
  rintro ⟨i, hi⟩
  rw [hself, hC.represents s i] at hi
  rw [π.symm hi] at hnp
  cases hnp

theorem Coupled.sound {R : Sharing} {π : Pairing Slot} (hL : Life m) (hC : Coupled R m π) :
    Sound m.k (R.graph m.k) where
  symm p q := by
    rintro ⟨i, hi⟩
    rw [hC.represents p i] at hi
    exact ⟨i, (hC.represents q i).trans (π.symm hi)⟩
  irrefl p := by
    rintro ⟨i, hi⟩
    rw [hC.represents p i] at hi
    exact π.irrefl p hi
  live p q := by
    rintro ⟨i, hi⟩
    rw [hC.represents p i] at hi
    rcases hC.member hi with ⟨hl, -⟩ | ⟨s, st, hpc, -⟩
    · exact ⟨fun h => not_live_unused (h ▸ hl), fun h => not_live_zombie (h ▸ hl)⟩
    · rw [hL.embryo hpc]
      decide

/-- The base invariants, and a coupling behind each of the two relations. -/
structure SharingInv (m : Machine n) : Prop where
  base : Base m
  coupled : ∀ R : Sharing, ∃ π, Coupled R m π

theorem SharingInv.sound (h : SharingInv m) : SharingSound m := by
  intro R
  obtain ⟨π, hC⟩ := h.coupled R
  exact hC.sound h.base.life

theorem sharingInv_boot (n : ℕ) (ofile : Fd → Option FileId) (ft : FTable) :
    SharingInv (boot n ofile ft) := by
  refine ⟨base_boot n ofile ft, fun R => ⟨_, coupled_empty R ?_ fun _ => rfl⟩⟩
  funext t
  have hp : (boot n ofile ft).k.proc t = if t = 0 then initProc ofile else Proc.zero :=
    Function.update_apply (fun _ => Proc.zero) 0 (initProc ofile) t
  cases R <;> simp only [Sharing.graph, Kernel.ofileshare, Kernel.cwdshare, hp] <;>
    split_ifs <;> rfl

/-- A step that finds an entry where it needs one keeps the couplings. -/
theorem SharingInv.step (h : SharingInv m) (hok : RoomyStep m a) (hst : m.step a = .ok m') :
    SharingInv m' := by
  have he := step_effect hst
  refine ⟨he.base h.base, fun R => ?_⟩
  obtain ⟨π, hC⟩ := h.coupled R
  exact he.coupled h.base hC hok

/-- A step that needs an entry and finds none leaves a one-sided relation. -/
theorem SharingInv.broken (h : SharingInv m) (hok : ¬ RoomyStep m a) (hst : m.step a = .ok m') :
    ¬ SharingSound m' := by
  have he := step_effect hst
  have hmv : ∃ (R : Sharing) (s np : Slot) (o : Oracle), m.move a = .stmt s np o R.entry ∧
      R.flag (m.k.proc np) = true ∧ ∀ i, R.graph m.k s i ≠ none := by
    unfold RoomyStep Roomy at hok
    split at hok
    · rename_i s np o hmv
      push Not at hok
      exact ⟨.files, s, np, o, hmv, hok.1, hok.2⟩
    · rename_i s np o hmv
      push Not at hok
      exact ⟨.dirs, s, np, o, hmv, hok.1, hok.2⟩
    · exact absurd trivial hok
  obtain ⟨R, s, np, o, hmv, hfl, hfull⟩ := hmv
  rw [hmv] at he
  have hpc : m.pc s = .create R.entry np := by
    cases he with
    | stmtLast _ hpc => exact hpc
    | stmtNext _ hpc => exact hpc
  have hne : s ≠ np := by
    rintro rfl
    have hlive := h.base.life.busy (s := s) (by rw [hpc]; nofun)
    rw [h.base.life.embryo hpc] at hlive
    exact not_live_embryo hlive
  obtain ⟨π, hC⟩ := h.coupled R
  obtain ⟨h1, h2⟩ := hC.crowded hne (hC.free h.base.life hpc) hfull
  have hg : R.graph m'.k = (R.graph m.k).fill s np := by
    rcases he.graph R with ⟨s', np', o', hm, -, hg⟩ | ⟨_, hl, -⟩ | ⟨hno, -⟩
    · obtain ⟨rfl, rfl, -⟩ := Move.stmt.inj hm
      exact hg
    · cases R <;> cases hl
    · rw [hno s np o rfl] at hfl
      cases hfl
  intro hS
  have hsym := (hS R).symm np s
  rw [hg] at hsym
  exact h2 (hsym h1)

theorem Reach.sharingInv (h : (machine n).Reach RoomyStep m) : SharingInv m := by
  refine h.invariant ?_ fun m a m' hI hok hst => hI.step hok hst
  rintro _ ⟨ofile, ft, rfl⟩
  exact sharingInv_boot n ofile ft

/-- **The share graph.** As long as every `clone` that enters a relation finds a free entry in its
caller's array, both relations are sound in every state, and after a `clone` with the flag its
caller and the new process are related both ways.  On every run, the relations are sound throughout
exactly when every such `clone` finds a free entry. -/
theorem sharing_sound (n : ℕ) :
    (∀ m : Machine n, (machine n).Reach RoomyStep m → SharingSound m ∧
      ∀ (R : Sharing) a m' s np o, m.move a = .stmt s np o .cloneRun →
        R.flag (m.k.proc np) = true → m.step a = .ok m' →
        Shares (R.graph m'.k) s np ∧ Shares (R.graph m'.k) np s) ∧
    ∀ m0 as, (machine n).init m0 → (machine n).Runs m0 as →
      ((machine n).Obeys RoomyStep m0 as ↔ (machine n).Always SharingSound m0 as) := by
  refine ⟨fun m hm => ⟨(Reach.sharingInv hm).sound, fun R a m' s np o hmv hfl hst => ?_⟩,
    fun m0 as hinit hrun => ?_⟩
  · have hI := Reach.sharingInv hm
    obtain ⟨π, hC⟩ := hI.coupled R
    have he := step_effect hst
    rw [hmv] at he
    have hpc : m.pc s = .create .cloneRun np := by
      cases he with
      | stmtLast _ hpc => exact hpc
      | stmtNext _ hpc => exact hpc
    have hp := hC.entered hpc (by cases R <;> trivial) hfl
    have hg : R.graph m'.k = R.graph m.k := by
      rcases he.graph R with ⟨_, _, _, hm, -⟩ | ⟨_, hl, -⟩ | ⟨-, -, hg⟩
      · cases R <;> cases (Move.stmt.inj hm).2.2.2
      · cases R <;> cases hl
      · exact hg
    rw [hg]
    exact ⟨⟨0, (hC.represents s 0).trans hp⟩, ⟨0, (hC.represents np 0).trans (π.symm hp)⟩⟩
  · refine System.obeys_iff_always (I := SharingInv) (fun _ h => h.sound)
      (fun _ _ _ h hok hst => h.step hok hst) (fun _ _ _ h hok hst => h.broken hok hst) ?_ as hrun
    obtain ⟨ofile, ft, rfl⟩ := hinit
    exact sharingInv_boot n ofile ft

/-- A process clones a thread that shares its files, which exits; it then clones another. -/
theorem sharing_sound_clone : ∃ m : Machine 1, SharingSound m ∧
    (m.k.proc 1).state = .zombie ∧ Shares m.k.ofileshare 0 2 ∧ Shares m.k.ofileshare 2 0 := by
  let next (pg : Page) : Action 1 := .op 0 (.next ⟨some pg, true, 0, none⟩)
  let as : List (Action 1) := [.enter 0, .scan 0, .resume 0, .op 0 (.clone 1)] ++
    List.replicate 11 (next 1) ++ [.op 0 .yield, .scan 0, .resume 0, .op 0 .exit] ++
    List.replicate 4 (next 1) ++ [.scan 0, .enter 0, .scan 0, .resume 0, .op 0 (.clone 1)] ++
    List.replicate 11 (next 2)
  have hguard : (machine 1).Obeys RoomyStep (boot0 1) as := by
    decide +kernel
  have hrun : (machine 1).Ends (fun m => (m.k.proc 1).state = .zombie ∧
      Shares m.k.ofileshare 0 2 ∧ Shares m.k.ofileshare 2 0) (boot0 1) as := by
    decide +kernel
  obtain ⟨m, hm, h1, h2, h3⟩ := System.Reach.of_ends as (init_boot0 1) hguard hrun
  exact ⟨m, ((sharing_sound 1).1 m hm).1, h1, h2, h3⟩

/-- A process that shares its files with one thread clones another: the new thread has the process
in its array, but not the other way round. -/
theorem sharing_sound_counterexample : ∃ m : Machine 1, (machine 1).Reachable m ∧
    m.log.head? = some (.clone 1 3) ∧ Shares m.k.ofileshare 2 0 ∧ ¬ Shares m.k.ofileshare 0 2 ∧
    ¬ SharingSound m := by
  let next (pg : Page) : Action 1 := .op 0 (.next ⟨some pg, true, 0, none⟩)
  let as : List (Action 1) := [.enter 0, .scan 0, .resume 0, .op 0 (.clone 1)] ++
    List.replicate 11 (next 1) ++ [.op 0 (.clone 1)] ++ List.replicate 11 (next 2)
  have hrun : (machine 1).Ends (fun m => m.log.head? = some (.clone 1 3) ∧
      Shares m.k.ofileshare 2 0 ∧ ¬ Shares m.k.ofileshare 0 2) (boot0 1) as := by
    decide +kernel
  obtain ⟨m, hm, hlog, h1, h2⟩ := System.Reachable.of_ends as (init_boot0 1) hrun
  exact ⟨m, hm, hlog, h1, h2, fun hS => h2 ((hS .files).symm 2 0 h1)⟩

end OsSemester.Xv6
