import OsSemester.Xv6.Spec.CloneDir
import OsSemester.Xv6.Spec.Reap

/-!
# What a failing `clone` leaves behind

`clone` gives the new slot its parent before the page directory is copied and its other marks before
the stack is written.  When `copyuvm` fails only the kernel stack and the state are taken back, when
`copyout` fails nothing is: the slot stays an `EMBRYO` for ever, with its kernel stack and directory.
`clone_fails_cleanly` says exactly when a failing call leaves nothing behind.
-/

namespace OsSemester.Xv6

variable {data : ℕ} {wild : Option Slot} {a : CloneArgs} {cur np s : Slot} {σ σ' τ : Host}
variable {k k' : Kernel} {pg : Page} {mem : PhysMem}

/-! ### The property -/

/-- The slot that a call of `clone` tries to use. -/
def Host.tried (σ : Host) (a : CloneArgs) : Option Slot :=
  if a.flags < 0 ∨ a.flags > 31 then none else (allocproc σ.k).map (·.1)

/-- Nothing is left of a call of `clone` by `cur`. -/
structure CleanFailure (σ σ' : Host) (cur : Slot) (a : CloneArgs) : Prop where
  others : ∀ s, (σ.k.proc s).state ≠ .unused → σ'.k.proc s = σ.k.proc s
  slot : ∀ np, σ.tried a = some np → (σ'.k.proc np).state = .unused ∧
    (σ'.k.proc np).parent = none ∧ (σ'.k.proc np).isthread = false ∧ (σ'.k.proc np).kstack = none
  pages : ∀ pg, pg ∈ σ'.mem.free ↔ pg ∈ σ.mem.free
  files : σ'.k.ftable = σ.k.ftable
  inodes : σ'.iref = σ.iref
  shares : σ'.k.ofileshare = σ.k.ofileshare ∧ σ'.k.cwdshare = σ.k.cwdshare
  /-- `wait` still returns -1 when there is no child to wait for. -/
  wait : (∀ s, waitable σ.k cur s = false) → waitScan σ'.k cur = .fail

/-! ### The condition -/

/-- `copyuvm` runs out of memory after the kernel stack has been allocated. -/
def CopyFails (σ : Host) (data : ℕ) (cur : Slot) : Prop :=
  ∃ pg mem d mem', kalloc σ.mem = some (pg, mem) ∧ σ.pageDir cur = some d ∧
    copyuvm data d (σ.k.proc cur).sz mem = .ok (none, mem')

/-- The flags are refused, or no slot is free, or the slot is not marked as a thread and either there
is no page for a kernel stack and the slot has no parent, or the copy of the page directory runs out
of memory and the new thread has no parent. -/
def FailsCleanly (σ : Host) (data : ℕ) (wild : Option Slot) (cur : Slot) (a : CloneArgs) : Prop :=
  a.flags < 0 ∨ a.flags > 31 ∨ (∀ s, (σ.k.proc s).state ≠ .unused) ∨
    ∃ np k, allocproc σ.k = some (np, k) ∧ (σ.k.proc np).isthread = false ∧
      (kalloc σ.mem = none ∧ (σ.k.proc np).parent = none ∨
        flagSet a.flags 2 = false ∧ CopyFails σ data cur ∧
          Host.newParent σ.k cur a.flags wild = none)

/-! ### Children -/

/-- The children of a process that `wait` looks for. -/
theorem waitable_iff : waitable k cur s = true ↔
    (k.proc s).parent = some cur ∧ (k.proc s).isthread = false := by
  unfold waitable
  constructor
  · intro h
    simp only [Bool.and_eq_true, decide_eq_true_eq, Bool.not_eq_true'] at h
    exact h.1
  · rintro ⟨h1, h2⟩
    rw [h1, h2]
    simp

theorem waitScan_of_childless (h : ∀ s, waitable k cur s = false) : waitScan k cur = .fail := by
  cases hw : waitScan k cur with
  | fail => rfl
  | reap p =>
    have := (waitScan_reap hw).1
    rw [h p] at this
    cases this
  | block f =>
    obtain ⟨⟨p, hp⟩, -⟩ := waitScan_block hw
    rw [h p] at hp
    cases hp

/-- A slot without a parent is nobody's child. -/
theorem wait_kept (hrest : ∀ s, s ≠ np → k'.proc s = k.proc s)
    (hnp : (k'.proc np).parent = none) (h : ∀ s, waitable k cur s = false) :
    waitScan k' cur = .fail := by
  refine waitScan_of_childless fun s => ?_
  rw [← Bool.not_eq_true, waitable_iff]
  rintro ⟨h1, h2⟩
  by_cases hs : s = np
  · rw [hs, hnp] at h1
    cases h1
  · rw [hrest s hs] at h1 h2
    have := waitable_iff.mpr ⟨h1, h2⟩
    rw [h s] at this
    cases this

/-! ### How a call fails -/

theorem newParent_allocproc (h : allocproc σ.k = some (np, k)) (hne : cur ≠ np) (fl : ℤ) :
    Host.newParent k cur fl wild = Host.newParent σ.k cur fl wild := by
  obtain ⟨-, hproc, -⟩ := allocproc_some h
  have hcur : k.proc cur = σ.k.proc cur := by rw [hproc, if_neg hne]
  have hgrand : grandparent k cur wild = grandparent σ.k cur wild := by
    unfold grandparent
    rw [hcur]
    cases (σ.k.proc cur).parent with
    | none => rfl
    | some q =>
      simp only [hproc]
      split_ifs with hq
      · rw [hq]
      · rfl
  unfold Host.newParent
  rw [hcur, hgrand]

/-- From the stack on a failing call leaves the new slot as it is. -/
theorem stack_failure
    (h : Host.runClone data wild a cur np 5 .cloneIsthread τ = .ok (σ', false)) :
    (σ'.k.proc np).state = (τ.k.proc np).state := by
  cases hd : τ.pageDir np with
  | none =>
    rw [Host.runClone_stack_none hd] at h
    cases h
  | some d =>
    rw [Host.runClone_stack hd] at h
    split at h
    · cases h
    · obtain rfl := (Prod.mk.inj (Except.ok.inj h)).1
      exact Kernel.modify_field (f := fun p =>
        { p with sz := (τ.k.proc cur).sz, isthread := true }) (·.state) rfl np
    · rename_i mem _
      obtain ⟨hyes, hno⟩ := Host.runClone_end data wild a cur np
        { τ.threaded cur np a with mem := mem }
      by_cases hL : Host.Lends ({ τ.threaded cur np a with mem := mem } : Host).k cur
          (({ τ.threaded cur np a with mem := mem } : Host).k.proc np).cloneFiles
          (({ τ.threaded cur np a with mem := mem } : Host).k.proc np).cloneFs
      · obtain ⟨σ'', hok, -⟩ := hyes hL
        rw [hok] at h
        exact absurd (Prod.mk.inj (Except.ok.inj h)).2 (by decide)
      · obtain ⟨e, he⟩ := hno hL
        rw [he] at h
        cases h

/-- A call that touches the slot `np` only, and leaves it `UNUSED` and without a kernel stack. -/
theorem cleanFailure_iff (cur : Slot) (htried : σ.tried a = some np) (hun : (σ.k.proc np).state = .unused)
    (hrest : ∀ s, s ≠ np → σ'.k.proc s = σ.k.proc s)
    (hshare : (σ'.k.proc np).ofileshare = (σ.k.proc np).ofileshare ∧
      (σ'.k.proc np).cwdshare = (σ.k.proc np).cwdshare)
    (hstate : (σ'.k.proc np).state = .unused) (hkstack : (σ'.k.proc np).kstack = none)
    (hpages : ∀ pg, pg ∈ σ'.mem.free ↔ pg ∈ σ.mem.free) (hft : σ'.k.ftable = σ.k.ftable)
    (hi : σ'.iref = σ.iref) : CleanFailure σ σ' cur a ↔
      (σ'.k.proc np).isthread = false ∧ (σ'.k.proc np).parent = none := by
  constructor
  · intro h
    obtain ⟨-, h1, h2, -⟩ := h.slot np htried
    exact ⟨h2, h1⟩
  · rintro ⟨hthread, hparent⟩
    refine ⟨fun s hs => hrest s ?_, fun np' hnp' => ?_, hpages, hft, hi, ⟨?_, ?_⟩,
      fun h => wait_kept hrest hparent h⟩
    · rintro rfl
      exact hs hun
    · rw [htried] at hnp'
      obtain rfl := Option.some.inj hnp'
      exact ⟨hstate, hparent, hthread, hkstack⟩
    · funext s
      by_cases hs : s = np
      · rw [hs]
        exact hshare.1
      · exact congrArg Proc.ofileshare (hrest s hs)
    · funext s
      by_cases hs : s = np
      · rw [hs]
        exact hshare.2
      · exact congrArg Proc.cwdshare (hrest s hs)

/-- There is no page for the kernel stack. -/
theorem no_kstack_clean (ha : allocproc σ.k = some (np, k)) (htried : σ.tried a = some np)
    (hσ' : σ' = { σ with k := k.modify np fun p => (p.setKstack none).setState .unused }) :
    CleanFailure σ σ' cur a ↔
      (σ.k.proc np).isthread = false ∧ (σ.k.proc np).parent = none := by
  obtain ⟨hun, hproc, -, -, -, -, -, hft⟩ := allocproc_some ha
  have hself : σ'.k.proc np = ((k.proc np).setKstack none).setState .unused := by
    rw [hσ']
    exact Kernel.modify_proc_self k np fun p => (p.setKstack none).setState .unused
  have hrest : ∀ s, s ≠ np → σ'.k.proc s = σ.k.proc s := by
    intro s hs
    rw [hσ']
    refine (Kernel.modify_proc_of_ne k np (fun p => (p.setKstack none).setState .unused) hs).trans ?_
    rw [hproc, if_neg hs]
  have hnp := hproc np
  rw [if_pos rfl] at hnp
  rw [hnp] at hself
  have hiff := cleanFailure_iff cur htried hun hrest (by rw [hself]; exact ⟨rfl, rfl⟩)
    (by rw [hself]; rfl) (by rw [hself]; rfl) (by rw [hσ']; exact fun _ => Iff.rfl)
    (by rw [hσ']; exact hft) (by rw [hσ'])
  rw [hself] at hiff
  exact hiff

/-- The copy of the page directory has failed. -/
theorem no_copy_clean (hd : LinkerData data) (hn : σ.mem.free.Nodup)
    (hsz : (σ.k.proc cur).sz ≤ KERNBASE) {d : PageDir} {mem' : PhysMem}
    (ha : allocproc σ.k = some (np, k)) (hne : cur ≠ np) (htried : σ.tried a = some np)
    (hk : kalloc σ.mem = some (pg, mem))
    (hcopy : copyuvm data d (σ.k.proc cur).sz mem = .ok (none, mem'))
    (hσ' : σ' = { σ.begin k mem cur np a.flags wild pg with
      mem := kfree mem' pg
      k := abandon (σ.begin k mem cur np a.flags wild pg).k np }) :
    CleanFailure σ σ' cur a ↔
      (σ.k.proc np).isthread = false ∧ Host.newParent σ.k cur a.flags wild = none := by
  obtain ⟨hun, hproc, -, -, -, -, -, hft⟩ := allocproc_some ha
  have hB := Host.begun cur a.flags wild ha hk
  have hself : σ'.k.proc np = { (Host.embryo k cur np a.flags wild pg).setKstack none with
      pgdir := none, state := .unused } := by
    rw [hσ']
    show (abandon _ np).proc np = _
    have hbegin : (σ.begin k mem cur np a.flags wild pg).k.proc np =
        Host.embryo k cur np a.flags wild pg := Function.update_self ..
    rw [abandon_proc, if_pos rfl, hbegin]
  have hnp := hproc np
  rw [if_pos rfl] at hnp
  have hshare : (k.proc np).ofileshare = (σ.k.proc np).ofileshare ∧
      (k.proc np).cwdshare = (σ.k.proc np).cwdshare ∧
      (k.proc np).isthread = (σ.k.proc np).isthread := by
    rw [hnp]
    exact ⟨rfl, rfl, rfl⟩
  have hrest : ∀ s, s ≠ np → σ'.k.proc s = σ.k.proc s := by
    intro s hs
    rw [hσ']
    show (abandon _ np).proc s = _
    rw [abandon_proc, if_neg hs]
    exact hB.others s hs
  -- the page of the kernel stack goes back to the rest of the free list
  have hfree : σ.mem.free = pg :: mem.free := hB.free
  have hn' : mem.free.Nodup := by
    rw [hfree] at hn
    exact (List.nodup_cons.mp hn).2
  have hpages : ∀ f, f ∈ σ'.mem.free ↔ f ∈ σ.mem.free := by
    intro f
    have hiff := (copyuvm_none hd hn' hsz hcopy).exchange.mem_free_iff (f := f) ⟨hn', nofun, nofun⟩
    rw [hσ', hfree]
    show f ∈ pg :: mem'.free ↔ _
    rw [List.mem_cons, List.mem_cons, hiff]
  have hiff := cleanFailure_iff cur htried hun hrest
    (by rw [hself]; exact ⟨hshare.1, hshare.2.1⟩) (by rw [hself]) (by rw [hself]; rfl) hpages
    (by rw [hσ']; exact hft) (by rw [hσ']; rfl)
  rw [hself] at hiff
  rw [← newParent_allocproc ha hne, ← hshare.2.2]
  exact hiff

/-! ### The call -/

/-- The condition once a slot has been found. -/
theorem failsCleanly_iff (ha : allocproc σ.k = some (np, k)) (hfl : ¬ (a.flags < 0 ∨ a.flags > 31)) :
    FailsCleanly σ data wild cur a ↔ (σ.k.proc np).isthread = false ∧
      (kalloc σ.mem = none ∧ (σ.k.proc np).parent = none ∨
        flagSet a.flags 2 = false ∧ CopyFails σ data cur ∧
          Host.newParent σ.k cur a.flags wild = none) := by
  unfold FailsCleanly
  constructor
  · rintro (h | h | h | ⟨np', k', ha', h1, h2⟩)
    · exact absurd (Or.inl h) hfl
    · exact absurd (Or.inr h) hfl
    · exact absurd (allocproc_some ha).1 (h np)
    · rw [ha] at ha'
      obtain ⟨rfl, -⟩ := Prod.mk.inj (Option.some.inj ha')
      exact ⟨h1, h2⟩
  · rintro ⟨h1, h2⟩
    exact Or.inr (Or.inr (Or.inr ⟨np, k, ha, h1, h2⟩))

theorem allocproc_none (h : allocproc k = none) (s : Slot) : (k.proc s).state ≠ .unused := by
  unfold allocproc at h
  have := scan_none (Option.map_eq_none_iff.mp h) s
  simpa using this

/-- A call that does nothing. -/
theorem cleanFailure_refl (h : σ.tried a = none) : CleanFailure σ σ cur a :=
  ⟨fun _ _ => rfl, fun np hnp => (by rw [h] at hnp; cases hnp), fun _ => Iff.rfl, rfl, rfl, ⟨rfl, rfl⟩,
    waitScan_of_childless⟩

/-- A slot that is left an `EMBRYO` is not clean. -/
theorem not_clean_of_embryo (htried : σ.tried a = some np)
    (h : (σ'.k.proc np).state = .embryo) : ¬ CleanFailure σ σ' cur a := by
  intro hc
  have := (hc.slot np htried).1
  rw [h] at this
  cases this

/-- A call that fails once the slot has its kernel stack. -/
theorem late_failure_iff (hd : LinkerData data) (hn : σ.mem.free.Nodup)
    (hsz : (σ.k.proc cur).sz ≤ KERNBASE) (ha : allocproc σ.k = some (np, k)) (hne : cur ≠ np)
    (htried : σ.tried a = some np) (hk : kalloc σ.mem = some (pg, mem))
    (h : Host.runClone data wild a cur np 6 .clonePgdir
      (σ.begin k mem cur np a.flags wild pg) = .ok (σ', false)) :
    CleanFailure σ σ' cur a ↔ (σ.k.proc np).isthread = false ∧ flagSet a.flags 2 = false ∧
      CopyFails σ data cur ∧ Host.newParent σ.k cur a.flags wild = none := by
  have hB := Host.begun cur a.flags wild ha hk
  -- the call after its first steps, before the page directory
  obtain ⟨τ, hτ⟩ : ∃ τ, τ = σ.begin k mem cur np a.flags wild pg := ⟨_, rfl⟩
  have hstate : (τ.k.proc np).state = .embryo := by
    obtain ⟨-, hproc, -⟩ := allocproc_some ha
    rw [hτ]
    show (Function.update k.proc np _ np).state = _
    rw [Function.update_self]
    show (k.proc np).state = _
    rw [hproc, if_pos rfl]
  rw [← hτ] at hB h
  have hproccur : τ.k.proc cur = σ.k.proc cur := hB.others cur hne
  have hmem : τ.mem = mem := by
    rw [hτ]
    rfl
  by_cases hvm : flagSet a.flags 2 = true
  · rw [Host.runClone_vm (by rw [hB.vm, hvm])] at h
    -- with `CLONE_VM` only the stack can fail, and the slot stays `EMBRYO`
    refine iff_of_false (not_clean_of_embryo htried ?_) fun hc => ?_
    · rw [stack_failure h, ← hstate]
      show ((Host.shareDir τ.k cur np).proc np).state = _
      rw [Host.shareDir_proc, if_pos rfl]
    · rw [hvm] at hc
      cases hc.2.1
  · rw [Bool.not_eq_true] at hvm
    have hvm' : (τ.k.proc np).cloneVm = false := by rw [hB.vm, hvm]
    have hpd : τ.pageDir cur = σ.pageDir cur := by
      unfold Host.pageDir
      rw [hproccur, hB.dir]
    cases hsrc : σ.pageDir cur with
    | none =>
      rw [Host.runClone_no_dir hvm' (by rw [hpd, hsrc])] at h
      cases h
    | some d =>
      rw [hsrc] at hpd
      cases hcopy : copyuvm data d (σ.k.proc cur).sz mem with
      | error e =>
        rw [Host.runClone_copy_error hvm' hpd (by rw [hproccur, hmem]; exact hcopy)] at h
        cases h
      | ok r =>
        obtain ⟨d', mem'⟩ := r
        have hcopy' : copyuvm data d (τ.k.proc cur).sz τ.mem = .ok (d', mem') := by
          rw [hproccur, hmem]
          exact hcopy
        cases d' with
        | some dt =>
          rw [Host.runClone_copy hvm' hpd hcopy'] at h
          refine iff_of_false (not_clean_of_embryo htried ?_) ?_
          · rw [stack_failure h, ← hstate]
            show ((installDir τ.k np).proc np).state = _
            rw [installDir_proc, if_pos rfl]
          · rintro ⟨-, -, ⟨pg', mem1, d1, mem2, hk', hd', hc'⟩, -⟩
            rw [hk] at hk'
            obtain ⟨rfl, rfl⟩ := Prod.mk.inj (Option.some.inj hk')
            rw [hsrc] at hd'
            rw [← Option.some.inj hd', hcopy] at hc'
            cases hc'
        | none =>
          -- `copyuvm` fails: the slot is `UNUSED` again, with what was written to it
          rw [Host.runClone_copy_none hvm' hpd hcopy' hB.kstack] at h
          rw [no_copy_clean hd hn hsz ha hne htried hk hcopy
            (by rw [← hτ]; exact (Prod.mk.inj (Except.ok.inj h)).1.symm)]
          exact and_congr_right fun _ => ⟨fun hp => ⟨hvm, ⟨pg, mem, d, mem', hk, hsrc, hcopy⟩, hp⟩,
            fun hp => hp.2.2⟩

/-- **A failing `clone`** leaves nothing behind exactly when it fails before the new slot has been
written to, or when what has been written does not show. -/
theorem clone_fails_cleanly (hd : LinkerData data) (hn : σ.mem.free.Nodup)
    (hsz : (σ.k.proc cur).sz ≤ KERNBASE) (hcur : (σ.k.proc cur).state ≠ .unused)
    (h : σ.clone data wild cur a = .ok (σ', none)) :
    CleanFailure σ σ' cur a ↔ FailsCleanly σ data wild cur a := by
  unfold Host.clone at h
  by_cases hfl : a.flags < 0 ∨ a.flags > 31
  · rw [if_pos hfl] at h
    obtain rfl := (Prod.mk.inj (Except.ok.inj h)).1
    exact iff_of_true (cleanFailure_refl (if_pos hfl)) (hfl.imp id Or.inl)
  rw [if_neg hfl] at h
  have htried : σ.tried a = (allocproc σ.k).map (·.1) := if_neg hfl
  cases ha : allocproc σ.k with
  | none =>
    rw [ha] at h htried
    obtain rfl := (Prod.mk.inj (Except.ok.inj h)).1
    exact iff_of_true (cleanFailure_refl htried) (Or.inr (Or.inr (Or.inl (allocproc_none ha))))
  | some r =>
    obtain ⟨np, k⟩ := r
    rw [ha] at h htried
    have hne : cur ≠ np := by
      rintro rfl
      exact hcur (allocproc_some ha).1
    have hrun : Host.runClone data wild a cur np Host.cloneLength (.kstack (some a.flags))
        { σ with k := k } = .ok (σ', false) := by
      simp only at h
      split at h
      · cases h
      · rename_i σ'' done hr
        obtain ⟨rfl, hdone⟩ := Prod.mk.inj (Except.ok.inj h)
        cases done with
        | false => exact hr
        | true => cases hdone
    rw [failsCleanly_iff ha hfl]
    have hmem : ({ σ with k := k } : Host).mem = σ.mem := rfl
    cases hk : kalloc σ.mem with
    | none =>
      -- no page for the kernel stack
      rw [Host.runClone_no_kstack (hmem ▸ hk)] at hrun
      rw [no_kstack_clean ha htried (Prod.mk.inj (Except.ok.inj hrun)).1.symm]
      refine and_congr_right fun _ => ⟨fun hp => Or.inl ⟨rfl, hp⟩, ?_⟩
      rintro (⟨-, hp⟩ | ⟨-, ⟨pg, mem, -, -, hk', -⟩, -⟩)
      · exact hp
      · rw [hk] at hk'
        cases hk'
    | some r =>
      obtain ⟨pg, mem⟩ := r
      cases hpg : k.inuse pg with
      | true =>
        rw [Host.runClone_inuse (hmem ▸ hk) hpg] at hrun
        cases hrun
      | false =>
        rw [Host.runClone_front hne (hmem ▸ hk) hpg] at hrun
        rw [late_failure_iff hd hn hsz ha hne htried hk hrun]
        refine and_congr_right fun _ => ⟨Or.inr, ?_⟩
        rintro (⟨hnone, -⟩ | h)
        · cases hnone
        · exact h

/-! ### Calls of the first process -/

/-- The call has returned -1 in a state with the property `P`. -/
def FailsWith (P : Host → Bool) : Except Fault (Host × Option Slot) → Bool
  | .ok (σ', none) => P σ'
  | _ => false

theorem exists_of_failsWith {P : Host → Bool} {r : Except Fault (Host × Option Slot)}
    (h : FailsWith P r = true) : ∃ σ', r = .ok (σ', none) ∧ P σ' = true := by
  unfold FailsWith at h
  split at h
  · exact ⟨_, rfl, h⟩
  · cases h

/-- The first process when there are two free pages. -/
def poorHost : Host := { startHost 0 with mem := { (startHost 0).mem with free := [4, 5] } }

/-- The kernel stack takes one of the pages and the new page directory the other one. -/
theorem copyFails_poorHost : CopyFails poorHost 0x80108000 0 := by
  let mem : PhysMem := { (startHost 0).mem with free := [5] }
  have hnone : (copyuvm 0x80108000 loneDir 4096 mem).toOption.map (fun r => r.1.isNone) =
      some true := by decide +kernel
  cases hcopy : copyuvm 0x80108000 loneDir 4096 mem with
  | error e =>
    rw [hcopy] at hnone
    cases hnone
  | ok r =>
    obtain ⟨d, mem'⟩ := r
    rw [hcopy] at hnone
    obtain rfl : d = none := Option.isNone_iff_eq_none.mp (Option.some.inj hnone)
    refine ⟨4, mem, loneDir, mem', rfl, rfl, ?_⟩
    have hsz : (poorHost.k.proc 0).sz = 4096 := rfl
    rw [hsz, hcopy]

/-- `copyuvm` runs out of memory, and the first process has no parent that the thread could get. -/
theorem clone_fails_cleanly_copy : ∃ σ',
    poorHost.clone 0x80108000 none 0 ⟨0, 0, 16, 0⟩ = .ok (σ', none) ∧
      CopyFails poorHost 0x80108000 0 ∧ CleanFailure poorHost σ' 0 ⟨0, 0, 16, 0⟩ := by
  have hfails : FailsWith (fun _ => true) (poorHost.clone 0x80108000 none 0 ⟨0, 0, 16, 0⟩) = true :=
    by decide +kernel
  obtain ⟨σ', h, -⟩ := exists_of_failsWith hfails
  refine ⟨σ', h, copyFails_poorHost,
    (clone_fails_cleanly linkerData (by decide) (by decide) (by decide) h).mpr ?_⟩
  exact Or.inr (Or.inr (Or.inr ⟨1, _, rfl, rfl, Or.inr ⟨rfl, copyFails_poorHost, rfl⟩⟩))

/-- The top of the stack is behind the last page: the call fails, its slot stays an `EMBRYO`, and a
page is gone. -/
theorem clone_fails_cleanly_counterexample : ∃ σ',
    (startHost 0).clone 0x80108000 none 0 ⟨0, 4092, 4, 0⟩ = .ok (σ', none) ∧
      (σ'.k.proc 1).state = .embryo ∧ 4 ∈ (startHost 0).mem.free ∧ 4 ∉ σ'.mem.free ∧
      ¬ CleanFailure (startHost 0) σ' 0 ⟨0, 4092, 4, 0⟩ := by
  have hfails : FailsWith (fun σ' => (σ'.k.proc 1).state = .embryo && decide (4 ∉ σ'.mem.free))
      ((startHost 0).clone 0x80108000 none 0 ⟨0, 4092, 4, 0⟩) = true := by decide +kernel
  obtain ⟨σ', h, hP⟩ := exists_of_failsWith hfails
  simp only [Bool.and_eq_true, decide_eq_true_eq] at hP
  exact ⟨σ', h, hP.1, by decide, hP.2, not_clean_of_embryo rfl hP.1⟩

end OsSemester.Xv6
