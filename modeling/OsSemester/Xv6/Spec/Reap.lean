import OsSemester.Xv6.Spec.Exit

/-!
# What `wait` and `join` do to a slot

`Reaped` is what the two reclaiming paths have in common; `waitReap_ok` and `joinReap_ok` add what
each of them does to the thread fields.  `waitScan_block` and `joinLoop_block` say what a scan has
established when it puts its caller to sleep.
-/

namespace OsSemester.Xv6

variable {k k' : Kernel} {cur p : Slot}

theorem freeKstack_proc (k : Kernel) (s t : Slot) : (freeKstack k s).proc t =
    if t = s then (k.proc s).setKstack none else k.proc t :=
  Kernel.modify_proc k s (·.setKstack none) t

theorem freeKstack_inuse (k : Kernel) (s : Slot) (pg : Page) : (freeKstack k s).inuse pg =
    if (k.proc s).kstack = some pg then false else k.inuse pg := by
  unfold freeKstack
  cases (k.proc s).kstack with
  | none => simp
  | some pg' =>
    simp only [Function.update_apply, Option.some.injEq]
    grind

theorem freeKstack_rest (k : Kernel) (s : Slot) :
    (freeKstack k s).nextpid = k.nextpid ∧ (freeKstack k s).initproc = k.initproc ∧
      (freeKstack k s).ndir = k.ndir ∧ (freeKstack k s).freed = k.freed :=
  ⟨rfl, rfl, rfl, rfl⟩

/-- What reclaiming the slot `p` has in common in `wait` and `join`; `freed` says whether its page
directory was freed. -/
structure Reaped (k k' : Kernel) (p : Slot) (freed : Bool) : Prop where
  proc_of_ne : ∀ t, t ≠ p → k'.proc t = k.proc t
  state : (k'.proc p).state = .unused
  kstack : (k'.proc p).kstack = none
  pid : (k'.proc p).pid = 0
  parent : (k'.proc p).parent = none
  killed : (k'.proc p).killed = false
  threadparent : (k'.proc p).threadparent = (k.proc p).threadparent
  joinproc : (k'.proc p).joinproc = (k.proc p).joinproc
  ofile : (k'.proc p).ofile = (k.proc p).ofile
  ofileshare : (k'.proc p).ofileshare = (k.proc p).ofileshare
  cwdshare : (k'.proc p).cwdshare = (k.proc p).cwdshare
  nextpid : k'.nextpid = k.nextpid
  initproc : k'.initproc = k.initproc
  ndir : k'.ndir = k.ndir
  inuse : ∀ pg, k'.inuse pg = if (k.proc p).kstack = some pg then false else k.inuse pg
  freed_eq : if freed then ∃ d, (k.proc p).pgdir = some d ∧ k'.freed = d :: k.freed
    else k'.freed = k.freed

/-- `wait` frees the directory and clears the thread fields as well. -/
theorem waitReap_ok (h : waitReap k p = .ok k') :
    Reaped k k' p true ∧ (k'.proc p).isthread = false ∧ (k'.proc p).tid = 0 := by
  unfold waitReap freevm at h
  have hrest := freeKstack_rest k p
  have hinuse := freeKstack_inuse k p
  have hproc := freeKstack_proc k p
  cases hd : (k.proc p).pgdir with
  | none => rw [hd] at h; cases h
  | some d =>
    rw [hd] at h
    obtain rfl := Except.ok.inj h
    refine ⟨⟨fun t ht => ?_, ?_, ?_, ?_, ?_, ?_, ?_, ?_, ?_, ?_, ?_, hrest.1, hrest.2.1, hrest.2.2.1,
      hinuse, ?_⟩, ?_, ?_⟩
    · rw [Kernel.modify_proc_of_ne _ _ _ ht]
      simp [hproc, ht]
    all_goals simp [hproc, hrest, hd]

/-- `join` frees the directory of a thread that was not made with `CLONE_VM`, and leaves the thread
fields as they are. -/
theorem joinReap_ok (h : joinReap k p = .ok k') :
    Reaped k k' p (!(k.proc p).cloneVm) ∧ (k'.proc p).isthread = (k.proc p).isthread ∧
      (k'.proc p).tid = (k.proc p).tid := by
  unfold joinReap freevm at h
  have hrest := freeKstack_rest k p
  have hinuse := freeKstack_inuse k p
  have hproc := freeKstack_proc k p
  cases hvm : (k.proc p).cloneVm with
  | true =>
    rw [hvm] at h
    obtain rfl := Except.ok.inj h
    refine ⟨⟨fun t ht => ?_, ?_, ?_, ?_, ?_, ?_, ?_, ?_, ?_, ?_, ?_, hrest.1, hrest.2.1, hrest.2.2.1,
      hinuse, ?_⟩, ?_, ?_⟩
    · rw [Kernel.modify_proc_of_ne _ _ _ ht]
      simp [hproc, ht]
    all_goals simp [hproc, hrest]
  | false =>
    rw [hvm] at h
    cases hd : (k.proc p).pgdir with
    | none => rw [hd] at h; cases h
    | some d =>
      rw [hd] at h
      obtain rfl := Except.ok.inj h
      refine ⟨⟨fun t ht => ?_, ?_, ?_, ?_, ?_, ?_, ?_, ?_, ?_, ?_, ?_, hrest.1, hrest.2.1,
        hrest.2.2.1, hinuse, ?_⟩, ?_, ?_⟩
      · rw [Kernel.modify_proc_of_ne _ _ _ ht]
        simp [hproc, ht]
      all_goals simp [hproc, hrest, hd]

theorem waitScan_reap (h : waitScan k cur = .reap p) :
    waitable k cur p = true ∧ (k.proc p).state = .zombie := by
  unfold waitScan at h
  split at h
  · rename_i q hq
    obtain rfl := Scan.reap.inj h
    simpa using scan_some hq
  · split at h <;> cases h

/-- `wait` goes to sleep only with a child to wait for, none of them a `ZOMBIE`, and not killed. -/
theorem waitScan_block {f : Option Slot} (h : waitScan k cur = .block f) :
    (∃ p, waitable k cur p = true) ∧
      (∀ p, waitable k cur p = true → (k.proc p).state ≠ .zombie) ∧
      (k.proc cur).killed = false := by
  unfold waitScan at h
  split at h
  · cases h
  · rename_i hnone
    split at h
    · cases h
    · rename_i hcond
      simp only [Bool.or_eq_true, not_or, Bool.not_eq_true, Option.isNone_eq_false_iff] at hcond
      refine ⟨?_, fun p hp hz => ?_, hcond.2⟩
      · obtain ⟨p, hp⟩ := Option.isSome_iff_exists.mp hcond.1
        exact ⟨p, scan_some hp⟩
      · have := scan_none hnone p
        simp [hp, hz] at this

/-- The thread a scan of `join(tid)` looks for. -/
def IsThread (k : Kernel) (tid : ℤ) (p : Slot) : Prop :=
  (k.proc p).tid = tid ∧ (k.proc p).isthread = true

theorem joinLoop_reap {tid : ℤ} {l : List Slot} {found : Option Slot} {hk : Bool}
    (h : joinLoop k cur tid l found hk = .reap p) :
    IsThread k tid p ∧ joinable k cur p = true ∧ (k.proc p).state = .zombie := by
  induction l generalizing found hk with
  | nil =>
    unfold joinLoop at h
    split at h <;> cases h
  | cons q l ih =>
    unfold joinLoop at h
    split at h
    · exact ih h
    · rename_i hm
      split at h
      · cases h
      · rename_i hj
        split at h
        · rename_i hz
          obtain rfl := Scan.reap.inj h
          refine ⟨?_, by simpa using hj, hz⟩
          simpa [IsThread] using hm
        · exact ih h

/-- `join(tid)` finds the only slot with this thread. -/
theorem joinLoop_reap_of_unique {tid : ℤ} {l : List Slot} {found : Option Slot} {hk : Bool}
    (huniq : ∀ q, IsThread k tid q → q = p) (hp : IsThread k tid p) (hmem : p ∈ l)
    (hj : joinable k cur p = true) (hz : (k.proc p).state = .zombie) :
    joinLoop k cur tid l found hk = .reap p := by
  induction l with
  | nil => cases hmem
  | cons q l ih =>
    unfold joinLoop
    by_cases hq : q = p
    · subst hq
      simp [hp.1, hp.2, hj, hz]
    · have hno : ¬ IsThread k tid q := fun h => hq (huniq q h)
      have hskip : ((k.proc q).tid ≠ tid || !(k.proc q).isthread) = true := by
        unfold IsThread at hno
        simp only [Bool.or_eq_true, decide_eq_true_eq, Bool.not_eq_true']
        grind
      rw [if_pos hskip]
      exact ih ((List.mem_cons.mp hmem).resolve_left fun h => hq h.symm)

/-- When `join(tid)` goes to sleep there is such a thread that the caller may join, none of them is
a `ZOMBIE`, and a caller that is a thread remembers one of them in `found`. -/
theorem joinLoop_block {tid : ℤ} {l : List Slot} {found found' : Option Slot} {hk : Bool}
    (h : joinLoop k cur tid l found hk = .block found') :
    (∀ p ∈ l, IsThread k tid p → joinable k cur p = true ∧ (k.proc p).state ≠ .zombie) ∧
      (k.proc cur).killed = false ∧
      ((hk = true ∧ found' = found ∧ ∀ p ∈ l, ¬ IsThread k tid p) ∨
        ∃ p ∈ l, IsThread k tid p ∧
          found' = if (k.proc cur).isthread then some p else found) := by
  induction l generalizing found hk with
  | nil =>
    unfold joinLoop at h
    split at h
    · cases h
    · rename_i hc
      simp only [Bool.or_eq_true, not_or, Bool.not_eq_true] at hc
      exact ⟨by simp, hc.2, Or.inl ⟨by simpa using hc.1, (Scan.block.inj h).symm, by simp⟩⟩
  | cons q l ih =>
    unfold joinLoop at h
    split at h
    · rename_i hm
      have hq : ¬ IsThread k tid q := by
        unfold IsThread
        simp only [Bool.or_eq_true, decide_eq_true_eq, Bool.not_eq_true'] at hm
        grind
      obtain ⟨h1, h2, h3⟩ := ih h
      refine ⟨?_, h2, ?_⟩
      · intro p hp ht
        rcases List.mem_cons.mp hp with rfl | hp
        · exact absurd ht hq
        · exact h1 p hp ht
      · rcases h3 with ⟨ha, hb, hc⟩ | ⟨p, hp, ht, he⟩
        · refine Or.inl ⟨ha, hb, fun p hp => ?_⟩
          rcases List.mem_cons.mp hp with rfl | hp
          · exact hq
          · exact hc p hp
        · exact Or.inr ⟨p, List.mem_cons_of_mem _ hp, ht, he⟩
    · rename_i hm
      have hq : IsThread k tid q := by simpa [IsThread] using hm
      split at h
      · cases h
      · rename_i hj
        split at h
        · cases h
        · rename_i hz
          obtain ⟨h1, h2, h3⟩ := ih h
          refine ⟨?_, h2, Or.inr ?_⟩
          · intro p hp ht
            rcases List.mem_cons.mp hp with rfl | hp
            · exact ⟨by simpa using hj, hz⟩
            · exact h1 p hp ht
          · rcases h3 with ⟨-, hb, -⟩ | ⟨p, hp, ht, he⟩
            · exact ⟨q, List.mem_cons_self .., hq, hb⟩
            · refine ⟨p, List.mem_cons_of_mem _ hp, ht, ?_⟩
              rw [he]
              split <;> rfl

end OsSemester.Xv6
