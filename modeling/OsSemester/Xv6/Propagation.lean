import OsSemester.Lib.HaltingWalk
import OsSemester.Xv6.Spec.Files

/-!
# How far a value spreads over the share graph

`ofileshareopen`, `ofileshareclose` and `cwdshare` leave the loop of a process at the first neighbour
that has the value already.  On tables that agree in a component they are halting walks over the share
graph (`spread_eq`), so whether a component stays in agreement depends on the graph and on the order
of the array entries only.
-/

namespace OsSemester.Xv6

variable {k k' : Kernel} {g : ShareGraph} {cur s t : Slot} {fd i : Fd} {f : FileId}

namespace ShareGraph

/-- The processes in the array of `s`, in their order. -/
def neighbours (g : ShareGraph) (s : Slot) : List Slot := (List.finRange NPROC).filterMap (g s)

/-- The component of `s`; on a symmetric graph it is the component of each of its members. -/
def Component (g : ShareGraph) (s : Slot) : Slot → Prop := Linkable g.neighbours s

/-- The walk from `cur`, with the processes in `V` marked, reaches the whole component. -/
def Covers (g : ShareGraph) (cur : Slot) (V : Finset Slot) : Prop :=
  ∀ t, g.Component cur t → t = cur ∨ t ∈ visit g.neighbours Kernel.spreadDepth cur V

theorem component_of_mem (h : g.Component cur s) (ht : t ∈ g.neighbours s) : g.Component cur t :=
  Relation.ReflTransGen.tail h ht

/-- **In a component without cycles** the walk from a caller that counts as visited reaches everybody
exactly when each other member has the entry on the way back to the caller behind all its others. -/
theorem covers_iff_of_forest (hF : Forest g.neighbours (g.Component cur)) :
    g.Covers cur {cur} ↔
      ∀ t, g.Component cur t → t ≠ cur → LeadsLast g.neighbours cur t := by
  have hcard : Fintype.card Slot ≤ NPROC := by rw [Fintype.card_fin]
  refine Iff.trans ?_ (hF.visit_complete Relation.ReflTransGen.refl hcard)
  refine forall₂_congr fun t _ => ⟨?_, Or.inr⟩
  rintro (rfl | ht)
  · exact subset_visit (Finset.mem_singleton_self t)
  · exact ht

end ShareGraph

/-! ### The recursion -/

section Spread

variable {β : Type} {v : β} {col : Slot → β} {V W : Finset Slot}

/-- The field of all processes after the ones in `V` have got the value. -/
def painted (col : Slot → β) (v : β) (V : Finset Slot) : Slot → β :=
  fun t => if t ∈ V then v else col t

theorem painted_self (hV : ∀ t, t ∈ V ↔ col t = v) : painted col v V = col := by
  funext t
  unfold painted
  split_ifs with ht
  · exact ((hV t).mp ht).symm
  · rfl

theorem painted_painted (h : V ⊆ W) : painted (painted col v V) v W = painted col v W := by
  funext t
  unfold painted
  split_ifs with hW hV
  · rfl
  · exact absurd (h hV) hW
  · rfl

theorem mem_iff_painted (hV : ∀ t, t ∈ V ↔ col t = v) (h : V ⊆ W) (t : Slot) :
    t ∈ W ↔ painted col v W t = v := by
  unfold painted
  split_ifs with hW
  · exact iff_of_true hW rfl
  · exact iff_of_false hW fun ht => hW (h ((hV t).mpr ht))

variable [DecidableEq β]

theorem spreadLoop_eq {rec : Slot → (Slot → β) → Slot → β} {walk : Slot → Finset Slot → Finset Slot}
    (hwalk : ∀ q V, V ⊆ walk q V)
    (hrec : ∀ q col V, (∀ t, t ∈ V ↔ col t = v) → rec q col = painted col v (walk q V))
    (l : List (Fin NPROC)) (hV : ∀ t, t ∈ V ↔ col t = v) :
    spreadLoop g v rec cur l col = painted col v (visitLoop walk cur (l.filterMap (g cur)) V) := by
  induction l generalizing col V with
  | nil => exact (painted_self hV).symm
  | cons i l ih =>
    unfold spreadLoop
    cases hi : g cur i with
    | none =>
      rw [List.filterMap_cons_none hi]
      exact ih hV
    | some q =>
      rw [List.filterMap_cons_some hi]
      unfold visitLoop
      simp only [hV q]
      split_ifs with hq hv
      · exact ih hV
      · exact (painted_self hV).symm
      · -- the neighbour gets the value, and the recursion goes on from it
        have hins : ∀ t, t ∈ insert q V ↔ Function.update col q v t = v := by
          intro t
          rw [Finset.mem_insert, Function.update_apply, hV]
          split_ifs with ht <;> simp [ht]
        have hsub : V ⊆ walk q (insert q V) := (Finset.subset_insert q V).trans (hwalk q _)
        have hpaint : painted (Function.update col q v) v (walk q (insert q V)) =
            painted col v (walk q (insert q V)) := by
          funext t
          unfold painted
          split_ifs with ht
          · rfl
          · refine Function.update_of_ne ?_ _ _
            rintro rfl
            exact ht (hwalk _ _ (Finset.mem_insert_self ..))
        rw [hrec q _ _ hins, hpaint, ih (mem_iff_painted hV hsub)]
        exact painted_painted (subset_visitLoop hwalk)

/-- **The recursions are halting walks.** -/
theorem spread_eq (n : ℕ) (hV : ∀ t, t ∈ V ↔ col t = v) :
    spread g v n cur col = painted col v (visit g.neighbours n cur V) := by
  induction n generalizing cur col V with
  | zero => exact (painted_self hV).symm
  | succ n ih =>
    rw [spread, visit]
    refine spreadLoop_eq ?_ ?_ _ hV
    · exact fun q V => subset_visit
    · exact fun q col V h => ih h

/-- The depth granted to the recursions is never reached. -/
theorem spread_depth (m : ℕ) (hV : ∀ t, t ∈ V ↔ col t = v) :
    spread g v (Kernel.spreadDepth + m) cur col = spread g v Kernel.spreadDepth cur col := by
  induction m with
  | zero => rfl
  | succ m ih =>
    rw [← ih, spread_eq _ hV, spread_eq _ hV]
    congr 1
    refine visit_stable ?_
    rw [Fintype.card_fin]
    show NPROC < NPROC + 1 + m + V.card
    omega

/-- In a component whose members had another value, those the walk has reached have the new one. -/
theorem spread_component {u : β} (hV : ∀ t, g.Component cur t → (t ∈ V ↔ col t = v))
    (hcol : ∀ t, g.Component cur t → t ∉ V → col t = u) (ht : g.Component cur t) :
    spread g v Kernel.spreadDepth cur col t =
      if t ∈ visit g.neighbours Kernel.spreadDepth cur V then v else u := by
  have hall : ∀ t, t ∈ Finset.univ.filter (fun t => col t = v) ↔ col t = v := by simp
  have hmem : t ∈ visit g.neighbours Kernel.spreadDepth cur _ ↔
      t ∈ visit g.neighbours Kernel.spreadDepth cur V :=
    visit_congr_on (S := g.Component cur) (fun p hp q hq => ShareGraph.component_of_mem hp hq)
      Relation.ReflTransGen.refl (fun t ht => (hall t).trans (hV t ht).symm) t ht
  rw [spread_eq _ hall]
  unfold painted
  simp only [hmem]
  split_ifs with hW
  · rfl
  · exact hcol t ht fun h => hW (subset_visit h)

/-- The processes outside of the component keep their value. -/
theorem spread_outside (ht : ¬ g.Component cur t) :
    spread g v Kernel.spreadDepth cur col t = col t := by
  have hall : ∀ t, t ∈ Finset.univ.filter (fun t => col t = v) ↔ col t = v := by simp
  rw [spread_eq _ hall]
  unfold painted
  split_ifs with hW
  · rcases mem_visit hW with h | h
    · exact ((hall t).mp h).symm
    · exact absurd h ht
  · rfl

end Spread

/-! ### Descriptor tables -/

/-- The members of the component of `cur` have its old table with `v` in descriptor `fd`, and the
other processes are unchanged. -/
structure Propagated (k k' : Kernel) (cur : Slot) (fd : Fd) (v : Option FileId) : Prop where
  members : ∀ t, k.ofileshare.Component cur t →
    k'.proc t = { k.proc t with ofile := Function.update (k.proc cur).ofile fd v }
  others : ∀ t, ¬ k.ofileshare.Component cur t → k'.proc t = k.proc t

/-- The write of the caller and the recursion. -/
def Kernel.setSpread (k : Kernel) (cur : Slot) (fd : Fd) (v : Option FileId) : Kernel :=
  (k.setOfile cur fd v).setOfileAt fd
    (spread k.ofileshare v Kernel.spreadDepth cur ((k.setOfile cur fd v).ofileAt fd))

theorem setOfile_proc (k : Kernel) (cur t : Slot) (fd : Fd) (v : Option FileId) :
    (k.setOfile cur fd v).proc t = if t = cur then
      { k.proc t with ofile := Function.update (k.proc t).ofile fd v } else k.proc t := by
  unfold Kernel.setOfile
  rw [Kernel.modify_proc]
  split_ifs with ht
  · rw [ht]
  · rfl

theorem setOfile_ofileshare (k : Kernel) (cur : Slot) (fd : Fd) (v : Option FileId) :
    (k.setOfile cur fd v).ofileshare = k.ofileshare := by
  funext t
  unfold Kernel.ofileshare
  rw [setOfile_proc]
  split_ifs <;> rfl

theorem setSpread_proc (k : Kernel) (cur t : Slot) (fd : Fd) (v : Option FileId) :
    (k.setSpread cur fd v).proc t = { k.proc t with
      ofile := Function.update (k.proc t).ofile fd
        (spread k.ofileshare v Kernel.spreadDepth cur ((k.setOfile cur fd v).ofileAt fd) t) } := by
  simp only [Kernel.setSpread, Kernel.setOfileAt, Kernel.mapProc_proc]
  rw [setOfile_proc]
  split_ifs <;> simp

theorem setSpread_iff {u v : Option FileId} (hu : u ≠ v)
    (heq : ∀ t, k.ofileshare.Component cur t → (k.proc t).ofile = (k.proc cur).ofile)
    (hold : (k.proc cur).ofile fd = u) :
    Propagated k (k.setSpread cur fd v) cur fd v ↔ k.ofileshare.Covers cur {cur} := by
  have hcol : ∀ t, (k.setOfile cur fd v).ofileAt fd t =
      if t = cur then v else (k.proc t).ofile fd := fun t => by
    unfold Kernel.ofileAt
    rw [setOfile_proc]
    split_ifs <;> simp
  have hval : ∀ t, k.ofileshare.Component cur t →
      spread k.ofileshare v Kernel.spreadDepth cur ((k.setOfile cur fd v).ofileAt fd) t =
        if t ∈ visit k.ofileshare.neighbours Kernel.spreadDepth cur {cur} then v else u := by
    refine fun t ht => spread_component (fun t ht => ?_) (fun t ht hne => ?_) ht
    · rw [hcol, Finset.mem_singleton]
      split_ifs with htc
      · exact iff_of_true htc rfl
      · rw [heq t ht, hold]
        exact iff_of_false htc hu
    · rw [Finset.mem_singleton] at hne
      rw [hcol, if_neg hne, heq t ht, hold]
  constructor
  · intro h t ht
    right
    have hm := congrFun (congrArg Proc.ofile (h.members t ht)) fd
    rw [setSpread_proc] at hm
    simp only [Function.update_self, hval t ht] at hm
    by_contra hno
    rw [if_neg hno] at hm
    exact hu hm
  · refine fun h => ⟨fun t ht => ?_, fun t ht => ?_⟩
    · have hin : t ∈ visit k.ofileshare.neighbours Kernel.spreadDepth cur {cur} := by
        rcases h t ht with rfl | hin
        · exact subset_visit (Finset.mem_singleton_self t)
        · exact hin
      rw [setSpread_proc, hval t ht, if_pos hin, heq t ht]
    · have htc : t ≠ cur := by
        rintro rfl
        exact ht Relation.ReflTransGen.refl
      rw [setSpread_proc, spread_outside ht, hcol, if_neg htc, Function.update_eq_self]

theorem fdalloc_eq {k' : Kernel} (h : k.fdalloc cur f = some (fd, k')) :
    (k.proc cur).ofile fd = none ∧ k' = k.setSpread cur fd (some f) := by
  unfold Kernel.fdalloc at h
  rw [Option.map_eq_some_iff] at h
  obtain ⟨fd', hfd, he⟩ := h
  obtain ⟨rfl, rfl⟩ := Prod.mk.inj he
  refine ⟨freeFd_some hfd, ?_⟩
  rw [Kernel.setSpread, ← setOfile_ofileshare k cur fd' (some f)]
  rfl

theorem sysOpen_eq {ip : Option Inode} {omode : ℕ} (h : sysOpen k cur ip omode = .ok (k', some fd)) :
    ∃ f ft, filealloc k.ftable = some (f, ft) ∧ (k.proc cur).ofile fd = none ∧
      ∀ t, k'.proc t = (k.setSpread cur fd (some f)).proc t := by
  unfold sysOpen at h
  split at h
  · cases h
  · split at h
    · cases h
    · rename_i f ft hf
      split at h
      · split at h <;> cases h
      · rename_i fd' k1 hk
        obtain ⟨rfl, hfd⟩ := Prod.mk.inj (Except.ok.inj h)
        obtain rfl := Option.some.inj hfd
        obtain ⟨hfree, rfl⟩ := fdalloc_eq hk
        exact ⟨f, ft, hf, hfree, fun t => rfl⟩

theorem sysDup_eq {n : ℤ} (h : sysDup k cur n = .ok (k', some fd)) :
    ∃ i f, argfd k cur n = some (i, f) ∧ (k.proc cur).ofile fd = none ∧
      ∀ t, k'.proc t = (k.setSpread cur fd (some f)).proc t := by
  unfold sysDup at h
  split at h
  · cases h
  · rename_i i f harg
    split at h
    · cases h
    · rename_i fd' k1 hk
      split at h
      · cases h
      · obtain ⟨rfl, hfd⟩ := Prod.mk.inj (Except.ok.inj h)
        obtain rfl := Option.some.inj hfd
        obtain ⟨hfree, rfl⟩ := fdalloc_eq hk
        exact ⟨i, f, harg, hfree, fun t => rfl⟩

theorem sysClose_eq {n : ℤ} (harg : argfd k cur n = some (fd, f)) (h : sysClose k cur n = .ok k') :
    ∀ t, k'.proc t = (k.setSpread cur fd none).proc t := by
  unfold sysClose at h
  rw [harg] at h
  simp only at h
  split at h
  · cases h
  · obtain rfl := Except.ok.inj h
    intro t
    rw [Kernel.setSpread, ← setOfile_ofileshare k cur fd none]
    rfl

theorem Propagated.congr {k₁ k₂ : Kernel} {v : Option FileId} (h : ∀ t, k₁.proc t = k₂.proc t) :
    Propagated k k₁ cur fd v ↔ Propagated k k₂ cur fd v := by
  constructor <;> rintro ⟨h1, h2⟩
  · exact ⟨fun t ht => (h t).symm.trans (h1 t ht), fun t ht => (h t).symm.trans (h2 t ht)⟩
  · exact ⟨fun t ht => (h t).trans (h1 t ht), fun t ht => (h t).trans (h2 t ht)⟩

/-! ### Working directories -/

/-- The members of the component of `cur` have the working directory `ip`, and the other processes are
unchanged. -/
structure PropagatedCwd (k k' : Kernel) (cur : Slot) (ip : Inode) : Prop where
  members : ∀ t, k.cwdshare.Component cur t → k'.proc t = { k.proc t with cwd := some ip }
  others : ∀ t, ¬ k.cwdshare.Component cur t → k'.proc t = k.proc t

theorem sysChdir_proc (k : Kernel) (cur t : Slot) (ip : Inode) :
    (sysChdir k cur (some ip)).1.proc t = { k.proc t with
      cwd := if t = cur then some ip
        else spread k.cwdshare (some ip) Kernel.spreadDepth cur k.cwdAt t } := by
  simp only [sysChdir, Kernel.cwdshareFrom, Kernel.setCwdAt, Kernel.modify_proc,
    Kernel.mapProc_proc]
  split_ifs with ht
  · rw [ht]
  · rfl

theorem sysChdir_iff {ip : Inode}
    (heq : ∀ t, k.cwdshare.Component cur t → (k.proc t).cwd = (k.proc cur).cwd) :
    PropagatedCwd k (sysChdir k cur (some ip)).1 cur ip ↔
      (k.proc cur).cwd = some ip ∨ k.cwdshare.Covers cur ∅ := by
  have hout : ∀ t, ¬ k.cwdshare.Component cur t →
      (sysChdir k cur (some ip)).1.proc t = k.proc t := fun t ht => by
    have htc : t ≠ cur := by
      rintro rfl
      exact ht Relation.ReflTransGen.refl
    rw [sysChdir_proc, if_neg htc, spread_outside ht]
    rfl
  by_cases hcwd : (k.proc cur).cwd = some ip
  · -- everybody is there already
    refine iff_of_true ⟨fun t ht => ?_, hout⟩ (Or.inl hcwd)
    have hval : spread k.cwdshare (some ip) Kernel.spreadDepth cur k.cwdAt t =
        if t ∈ visit k.cwdshare.neighbours Kernel.spreadDepth cur Finset.univ then some ip
        else some ip :=
      spread_component (fun t ht => iff_of_true (Finset.mem_univ t) ((heq t ht).trans hcwd))
        (fun t _ hno => absurd (Finset.mem_univ t) hno) ht
    rw [ite_self] at hval
    rw [sysChdir_proc, hval, ite_self]
  · have hval : ∀ t, k.cwdshare.Component cur t →
        spread k.cwdshare (some ip) Kernel.spreadDepth cur k.cwdAt t =
          if t ∈ visit k.cwdshare.neighbours Kernel.spreadDepth cur ∅ then some ip
          else (k.proc cur).cwd := fun t ht =>
      spread_component (fun t ht => iff_of_false (Finset.notMem_empty t)
        fun he => hcwd ((heq t ht).symm.trans he)) (fun t ht _ => heq t ht) ht
    constructor
    · intro h
      refine Or.inr fun t ht => ?_
      by_cases htc : t = cur
      · exact Or.inl htc
      · have hm := congrArg Proc.cwd (h.members t ht)
        rw [sysChdir_proc] at hm
        simp only [if_neg htc, hval t ht] at hm
        by_contra hno
        rw [if_neg fun h => hno (Or.inr h)] at hm
        exact hcwd hm
    · refine fun h => ⟨fun t ht => ?_, hout⟩
      rw [sysChdir_proc]
      split_ifs with htc
      · rfl
      · have hin := ((h.resolve_left hcwd) t ht).resolve_left htc
        rw [hval t ht, if_pos hin]

/-! ### The main result -/

/-- **How far a call reaches.** In a component whose members have equal descriptor tables, a
successful `open`, `dup` or `close` of a member gives all of them the new table, and changes nobody
else, exactly when the walk from it reaches them.  The same holds for equal working directories and
`chdir`, whose walk starts with the caller unmarked, unless the directory is the old one. -/
theorem propagation (k : Kernel) (cur : Slot) :
    ((∀ t, k.ofileshare.Component cur t → (k.proc t).ofile = (k.proc cur).ofile) →
      (∀ ip omode k' fd, sysOpen k cur ip omode = .ok (k', some fd) →
        ∃ f ft, filealloc k.ftable = some (f, ft) ∧
          (Propagated k k' cur fd (some f) ↔ k.ofileshare.Covers cur {cur})) ∧
      (∀ n k' fd, sysDup k cur n = .ok (k', some fd) →
        ∃ i f, argfd k cur n = some (i, f) ∧
          (Propagated k k' cur fd (some f) ↔ k.ofileshare.Covers cur {cur})) ∧
      ∀ n fd f k', argfd k cur n = some (fd, f) → sysClose k cur n = .ok k' →
        (Propagated k k' cur fd none ↔ k.ofileshare.Covers cur {cur})) ∧
    ((∀ t, k.cwdshare.Component cur t → (k.proc t).cwd = (k.proc cur).cwd) →
      ∀ ip, PropagatedCwd k (sysChdir k cur (some ip)).1 cur ip ↔
        (k.proc cur).cwd = some ip ∨ k.cwdshare.Covers cur ∅) := by
  refine ⟨fun heq => ⟨fun ip omode k' fd h => ?_, fun n k' fd h => ?_, fun n fd f k' harg h => ?_⟩,
    fun heq ip => sysChdir_iff heq⟩
  · obtain ⟨f, ft, hf, hfree, hp⟩ := sysOpen_eq h
    exact ⟨f, ft, hf, (Propagated.congr hp).trans (setSpread_iff (by simp) heq hfree)⟩
  · obtain ⟨i, f, harg, hfree, hp⟩ := sysDup_eq h
    exact ⟨i, f, harg, (Propagated.congr hp).trans (setSpread_iff (by simp) heq hfree)⟩
  · exact (Propagated.congr (sysClose_eq harg h)).trans
      (setSpread_iff (by simp) heq (argfd_some harg))

/-! ### A star of three processes -/

/-- Processes 1 and 2 share with process 0. -/
def starGraph : ShareGraph := fun s i =>
  if s = 0 then if i = 0 then some 1 else if i = 1 then some 2 else none
  else if (s = 1 ∨ s = 2) ∧ i = 0 then some 0
  else none

/-- The three processes have one file open, as descriptor 0. -/
def starKernel : Kernel :=
  { bootKernel (fun _ => none)
      (Function.update (fun _ => File.zero) 0 { File.zero with type := .inode, ref := 1 }) with
    proc := fun s =>
      if s ≤ 2 then
        { initProc fun fd => if fd = 0 then some 0 else none with
          pid := s + 1, ofileshare := starGraph s }
      else Proc.zero }

theorem starKernel_component (h : starKernel.ofileshare.Component cur t) (hc : cur ≤ 2) : t ≤ 2 := by
  have hstep : ∀ p, p ≤ 2 → ∀ q ∈ starKernel.ofileshare.neighbours p, q ≤ 2 := by decide +kernel
  induction h with
  | refl => exact hc
  | tail _ hq ih => exact hstep _ ih _ hq

theorem starKernel_equal (hc : cur ≤ 2) (t : Slot) (h : starKernel.ofileshare.Component cur t) :
    (starKernel.proc t).ofile = (starKernel.proc cur).ofile := by
  have ht := starKernel_component h hc
  simp only [starKernel, if_pos ht, if_pos hc]

/-- The process in the middle closes the file for all three. -/
theorem propagation_star : ∃ k', sysClose starKernel 0 0 = .ok k' ∧
    Propagated starKernel k' 0 0 none := by
  have hcov : ∀ t : Slot, t ≤ 2 → t ∈ visit starKernel.ofileshare.neighbours
      Kernel.spreadDepth 0 {0} := by
    decide +kernel
  have harg : argfd starKernel 0 0 = some (0, 0) := by decide +kernel
  have hok : (sysClose starKernel 0 0).isOk = true := by decide +kernel
  cases h : sysClose starKernel 0 0 with
  | error e =>
    rw [h] at hok
    cases hok
  | ok k' =>
    refine ⟨k', rfl, ?_⟩
    have hmain := ((propagation starKernel 0).1 (starKernel_equal (by decide))).2.2 0 0 0 k' harg h
    exact hmain.mpr fun t ht => Or.inr (hcov t (starKernel_component ht (by decide)))

/-- A process at the edge closes the file: the process in the middle finds the caller at the head of
its array, where the descriptor is closed already, and does not look at the other one. -/
theorem propagation_counterexample : ∃ k',
    (∀ p i q, starGraph p i = some q → ∃ j, starGraph q j = some p) ∧
    (∀ p i j q, starGraph p i = some q → starGraph p j = some q → i = j) ∧
    (∀ t, starKernel.ofileshare.Component 1 t →
      (starKernel.proc t).ofile = (starKernel.proc 1).ofile) ∧
    starKernel.ofileshare.Component 1 2 ∧ sysClose starKernel 1 0 = .ok k' ∧
    (k'.proc 1).ofile 0 = none ∧ (k'.proc 2).ofile 0 = some 0 := by
  have hrun : (sysClose starKernel 1 0).toOption.map
      (fun k => ((k.proc 1).ofile 0, (k.proc 2).ofile 0)) = some (none, some 0) := by
    decide +kernel
  have h10 : 0 ∈ starKernel.ofileshare.neighbours 1 := by decide +kernel
  have h02 : 2 ∈ starKernel.ofileshare.neighbours 0 := by decide +kernel
  cases h : sysClose starKernel 1 0 with
  | error e =>
    rw [h] at hrun
    cases hrun
  | ok k' =>
    rw [h] at hrun
    obtain ⟨h1, h2⟩ := Prod.mk.inj (Option.some.inj hrun)
    refine ⟨k', fun p i q hq => ?_, fun p i j q hi hj => ?_, starKernel_equal (by decide),
      .head h10 (.single h02), rfl, h1, h2⟩
    · unfold starGraph at hq
      split_ifs at hq with hp h0 h1 hs
      · exact ⟨0, by rw [← Option.some.inj hq, hp]; rfl⟩
      · exact ⟨0, by rw [← Option.some.inj hq, hp]; rfl⟩
      · obtain rfl := Option.some.inj hq
        rcases hs.1 with rfl | rfl
        · exact ⟨0, rfl⟩
        · exact ⟨1, rfl⟩
    · unfold starGraph at hi hj
      split_ifs at hi hj <;> simp_all

end OsSemester.Xv6
