import OsSemester.Lib.RefCount
import OsSemester.Xv6.Calls

/-!
# What the descriptor functions do

On arrays that store a coupling the recursions `ofileshareopen` and `ofileshareclose` write the
descriptor of the caller and of its partner, and nothing else: `spread_pair`.  The other lemmas say
what the functions of `file.c` do to the reference counts.
-/

namespace OsSemester.Xv6

variable {k k' : Kernel} {s t np : Slot} {fd : Fd} {f : FileId} {ft ft' : FTable}

/-! ### The recursions -/

section Spread

variable {β : Type} [DecidableEq β] {g : ShareGraph} {π : Pairing Slot} {v : β} {col : Slot → β}

/-- A neighbour that has the value already ends the loop. -/
theorem spreadLoop_done (rec : Slot → (Slot → β) → Slot → β) (l : List (Fin NPROC)) {q : Slot}
    (hg : ∀ i, g s i = some q) (hq : q ≠ s) (hv : col q = v) : spreadLoop g v rec s l col = col := by
  cases l with
  | nil => rfl
  | cons i l =>
    unfold spreadLoop
    rw [hg i]
    simp [hq, hv]

theorem spreadLoop_none (rec : Slot → (Slot → β) → Slot → β) (l : List (Fin NPROC))
    (hg : ∀ i, g s i = none) : spreadLoop g v rec s l col = col := by
  induction l with
  | nil => rfl
  | cons i l ih =>
    unfold spreadLoop
    rw [hg i]
    exact ih

/-- The recursion ends at the partner: its array names the caller alone, which has the value. -/
theorem spread_pair (hg : Represents g π) (d : ℕ) (hs : col s = v) :
    spread g v (d + 2) s col =
      match π.partner s with
      | none => col
      | some q => Function.update col q v := by
  rw [spread]
  cases hp : π.partner s with
  | none => exact spreadLoop_none _ _ fun i => (hg s i).trans hp
  | some q =>
    have hsq : ∀ i, g s i = some q := fun i => (hg s i).trans hp
    have hqs : ∀ i, g q i = some s := fun i => (hg q i).trans (π.symm hp)
    have hne : q ≠ s := (π.ne_of_partner hp).symm
    have hback : ∀ col : Slot → β, col s = v → spread g v (d + 1) q col = col := by
      intro col hcol
      rw [spread]
      exact spreadLoop_done _ _ hqs hne.symm hcol
    have hlist : List.finRange NPROC = 0 :: (List.finRange NPROC).tail := by decide
    rw [hlist, spreadLoop, hsq 0]
    simp only [hne, if_false]
    split_ifs with hv
    · rw [← hv, Function.update_eq_self]
    · rw [hback _ (by rw [Function.update_of_ne hne.symm, hs])]
      exact spreadLoop_done _ _ hsq hne (Function.update_self _ _ _)

end Spread

/-! ### Descriptors -/

/-- Descriptor `fd` of `s` and of its partner is set. -/
def Kernel.setShared (k : Kernel) (π : Pairing Slot) (s : Slot) (fd : Fd) (v : Option FileId) :
    Kernel :=
  k.mapProc fun t p =>
    if t = s ∨ π.partner s = some t then { p with ofile := Function.update p.ofile fd v } else p

variable {π : Pairing Slot} {v : Option FileId}

theorem setShared_proc (k : Kernel) (π : Pairing Slot) (s t : Slot) (fd : Fd)
    (v : Option FileId) : (k.setShared π s fd v).proc t =
      if t = s ∨ π.partner s = some t then
        { k.proc t with ofile := Function.update (k.proc t).ofile fd v }
      else k.proc t := rfl

/-- The caller's own write and the recursion that follows it. -/
theorem setOfileAt_spread (hg : Represents k.ofileshare π) : (k.setOfile s fd v).setOfileAt fd
    (spread (k.setOfile s fd v).ofileshare v Kernel.spreadDepth s
      ((k.setOfile s fd v).ofileAt fd)) = k.setShared π s fd v := by
  have hproc : ∀ t, (k.setOfile s fd v).proc t = if t = s then
      { k.proc s with ofile := Function.update (k.proc s).ofile fd v } else k.proc t := by
    intro t
    exact Kernel.modify_proc _ _ _ _
  have hg' : Represents (k.setOfile s fd v).ofileshare π := by
    intro t i
    rw [← hg t i]
    simp only [Kernel.ofileshare, hproc]
    split_ifs with h <;> simp [h]
  have hs : (k.setOfile s fd v).ofileAt fd s = v := by
    simp [Kernel.ofileAt, hproc]
  rw [show Kernel.spreadDepth = 63 + 2 from rfl, spread_pair hg' 63 hs]
  have hsame : ∀ t, Function.update ((k.setOfile s fd v).proc t).ofile fd
      ((k.setOfile s fd v).ofileAt fd t) = ((k.setOfile s fd v).proc t).ofile := by
    intro t
    exact Function.update_eq_self _ _
  have hk : (k.setOfile s fd v).setOfileAt fd ((k.setOfile s fd v).ofileAt fd) =
      k.setOfile s fd v := by
    unfold Kernel.setOfileAt Kernel.mapProc
    simp only [hsame]
  have hext : ∀ k1 k2 : Kernel, k1.proc = k2.proc → { k with proc := k1.proc } =
      { k with proc := k2.proc } := by
    rintro k1 k2 h
    rw [h]
  cases hp : π.partner s with
  | none =>
    simp only [hk]
    refine hext (k.setOfile s fd v) (k.setShared π s fd v) ?_
    funext t
    rw [hproc, setShared_proc]
    simp only [hp, reduceCtorEq, or_false]
    split_ifs with h <;> simp [h]
  | some q =>
    refine hext ((k.setOfile s fd v).setOfileAt fd _) (k.setShared π s fd v) ?_
    funext t
    have hne : s ≠ q := π.ne_of_partner hp
    rw [setShared_proc]
    simp only [Kernel.setOfileAt, Kernel.mapProc_proc, Function.update_apply, hproc,
      Kernel.ofileAt, hp, Option.some.injEq]
    by_cases hts : t = s
    · subst hts
      simp [hne]
    · by_cases htq : t = q
      · subst htq
        simp [hts]
      · simp [hts, htq, Ne.symm htq, Function.update_eq_self]

theorem freeFd_some (h : k.freeFd s = some fd) : (k.proc s).ofile fd = none := by
  simpa using List.find?_some h

/-- `fdalloc` takes a free descriptor of the caller and sets it for its partner as well. -/
theorem fdalloc_some (hg : Represents k.ofileshare π) (h : k.fdalloc s f = some (fd, k')) :
    (k.proc s).ofile fd = none ∧ k' = k.setShared π s fd (some f) := by
  unfold Kernel.fdalloc at h
  obtain ⟨i, hi, he⟩ := Option.map_eq_some_iff.mp h
  obtain ⟨rfl, rfl⟩ := Prod.mk.inj he
  exact ⟨freeFd_some hi, setOfileAt_spread hg⟩

theorem argfd_some {n : ℤ} (h : argfd k s n = some (fd, f)) : (k.proc s).ofile fd = some f := by
  unfold argfd at h
  split_ifs at h
  obtain ⟨g, hg, he⟩ := Option.map_eq_some_iff.mp h
  obtain ⟨rfl, rfl⟩ := Prod.mk.inj he
  exact hg

/-! ### Reference counts -/

/-- The reference counts of a file table. -/
def refs (ft : FTable) : FileId → ℤ := fun f => (ft f).ref

@[simp] theorem refs_update (ft : FTable) (f : FileId) (file : File) :
    refs (Function.update ft f file) = Function.update (refs ft) f file.ref := by
  funext g
  unfold refs
  by_cases hg : g = f
  · rw [hg, Function.update_self, Function.update_self]
  · rw [Function.update_of_ne hg, Function.update_of_ne hg]

/-- Changes that leave the count alone. -/
theorem refs_update_same (ft : FTable) (f : FileId) {file : File} (h : file.ref = (ft f).ref) :
    refs (Function.update ft f file) = refs ft := by
  rw [refs_update, h]
  exact Function.update_eq_self _ _

/-- `filealloc` takes an unreferenced file. -/
theorem filealloc_some (h : filealloc ft = some (f, ft')) :
    refs ft f = 0 ∧ refs ft' = Function.update (refs ft) f 1 := by
  unfold filealloc at h
  obtain ⟨g, hg, he⟩ := Option.map_eq_some_iff.mp h
  obtain ⟨rfl, rfl⟩ := Prod.mk.inj he
  have hz := List.find?_some hg
  exact ⟨of_decide_eq_true hz, refs_update _ _ _⟩

/-- `fileclose` of a referenced file takes one reference. -/
theorem fileclose_of_pos (h : 0 < refs ft f) : ∃ ft' ff, fileclose ft f = .ok (ft', ff) ∧
    refs ft' = Function.update (refs ft) f (refs ft f - 1) := by
  unfold fileclose
  have h1 : ¬ (ft f).ref < 1 := by
    unfold refs at h
    omega
  rw [if_neg h1]
  split_ifs with h2
  · exact ⟨_, _, rfl, by rw [refs_update]; rfl⟩
  · refine ⟨_, _, rfl, ?_⟩
    have h3 : refs ft f - 1 = 0 := by
      unfold refs at *
      omega
    rw [refs_update, h3]

/-- Closing a file that has just been allocated undoes the allocation. -/
theorem fileclose_fresh (h0 : refs ft f = 0) (hr : refs ft' = Function.update (refs ft) f 1) :
    ∃ ft'' ff, fileclose ft' f = .ok (ft'', ff) ∧ refs ft'' = refs ft := by
  have h1 : refs ft' f = 1 := by rw [hr, Function.update_self]
  have hpos : 0 < refs ft' f := by omega
  obtain ⟨ft'', ff, hc, hr'⟩ := fileclose_of_pos hpos
  refine ⟨ft'', ff, hc, ?_⟩
  rw [hr', h1, hr, Function.update_idem]
  nth_rewrite 2 [← Function.update_eq_self f (refs ft)]
  rw [h0]
  rfl

/-- A file that a key holds can be duplicated. -/
theorem filedup_of_pos (h : 0 < refs ft f) :
    filedup ft f = .ok (Function.update ft f { ft f with ref := (ft f).ref + 1 }) := by
  unfold filedup
  rw [if_neg (by unfold refs at h; omega)]

variable {held : ℕ × Fd → Option FileId} {l : ℕ} {fds : List Fd}
variable {src dst ofile : Fd → Option FileId}

/-- Copying the descriptors in `fds` to the free keys of class `l` takes a reference for each. -/
theorem dupFiles_counts (hC : Counts held (refs ft)) (hn : fds.Nodup)
    (hfree : ∀ fd ∈ fds, held (l, fd) = none)
    (hsrc : ∀ fd f, src fd = some f → ∃ κ, held κ = some f) : ∃ ft',
      dupFiles src fds ft dst =
        .ok (ft', fun fd => if fd ∈ fds ∧ (src fd).isSome then src fd else dst fd) ∧
      Counts (fun κ => if κ.1 = l ∧ κ.2 ∈ fds then src κ.2 else held κ) (refs ft') := by
  induction fds generalizing ft dst held with
  | nil => exact ⟨ft, by simp [dupFiles], by simpa using hC⟩
  | cons fd fds ih =>
    obtain ⟨hfd, hn⟩ := List.nodup_cons.mp hn
    have hfree' : ∀ fd' ∈ fds, held (l, fd') = none := fun fd' h => hfree fd' (.tail _ h)
    cases hs : src fd with
    | none =>
      have hstep : dupFiles src (fd :: fds) ft dst = dupFiles src fds ft dst := by
        rw [dupFiles, hs]
      obtain ⟨ft', h1, h2⟩ := @ih _ _ dst hC hn hfree' hsrc
      refine ⟨ft', ?_, ?_⟩
      · rw [hstep, h1]
        congr 2
        funext fd'
        simp only [List.mem_cons]
        grind
      · convert h2 using 2 with κ
        have hk := hfree fd (List.mem_cons_self ..)
        simp only [List.mem_cons]
        grind
    | some f =>
      -- the file has a reference, so `filedup` does not panic
      obtain ⟨κ, hκ⟩ := hsrc fd f hs
      have hl := hfree fd (List.mem_cons_self ..)
      have hC' := hC.add (k := (l, fd)) (f := f) hl
      have hstep : dupFiles src (fd :: fds) ft dst =
          dupFiles src fds (Function.update ft f { ft f with ref := (ft f).ref + 1 })
            (Function.update dst fd (some f)) := by
        rw [dupFiles, hs]
        simp only [filedup_of_pos (hC.pos hκ)]
      have hrefs : refs (Function.update ft f { ft f with ref := (ft f).ref + 1 }) =
          Function.update (refs ft) f (refs ft f + 1) := by
        rw [refs_update]
        rfl
      rw [← hrefs] at hC'
      have hfree'' : ∀ fd' ∈ fds, Function.update held (l, fd) (some f) (l, fd') = none := by
        intro fd' h
        have hne : (l, fd') ≠ (l, fd) := fun he => hfd ((Prod.mk.inj he).2 ▸ h)
        rw [Function.update_of_ne hne]
        exact hfree' fd' h
      have hsrc' : ∀ fd' f', src fd' = some f' →
          ∃ κ, Function.update held (l, fd) (some f) κ = some f' := by
        intro fd' f' h
        obtain ⟨κ', hκ'⟩ := hsrc fd' f' h
        refine ⟨κ', ?_⟩
        rw [Function.update_of_ne, hκ']
        rintro rfl
        rw [hl] at hκ'
        cases hκ'
      obtain ⟨ft', h1, h2⟩ := @ih _ _ (Function.update dst fd (some f)) hC' hn hfree'' hsrc'
      refine ⟨ft', ?_, ?_⟩
      · rw [hstep, h1]
        congr 2
        funext fd'
        simp only [List.mem_cons, Function.update_apply]
        grind
      · convert h2 using 2 with κ
        obtain ⟨l', fd'⟩ := κ
        simp only [List.mem_cons, Function.update_apply, Prod.mk.injEq]
        grind

/-- Closing the descriptors in `fds` of class `l` gives a reference back for each. -/
theorem closeFiles_counts (hC : Counts held (refs ft)) (hn : fds.Nodup)
    (hheld : ∀ fd ∈ fds, held (l, fd) = ofile fd) : ∃ ft',
      closeFiles fds ft ofile = .ok (ft', fun fd => if fd ∈ fds then none else ofile fd) ∧
      Counts (fun κ => if κ.1 = l ∧ κ.2 ∈ fds then none else held κ) (refs ft') := by
  induction fds generalizing ft ofile held with
  | nil => exact ⟨ft, by simp [closeFiles], by simpa using hC⟩
  | cons fd fds ih =>
    obtain ⟨hfd, hn⟩ := List.nodup_cons.mp hn
    have hheld' : ∀ fd' ∈ fds, held (l, fd') = ofile fd' := fun fd' h => hheld fd' (.tail _ h)
    have hl := hheld fd (List.mem_cons_self ..)
    cases hs : ofile fd with
    | none =>
      have hstep : closeFiles (fd :: fds) ft ofile = closeFiles fds ft ofile := by
        rw [closeFiles, hs]
      rw [hs] at hl
      obtain ⟨ft', h1, h2⟩ := @ih _ _ ofile hC hn hheld'
      refine ⟨ft', ?_, ?_⟩
      · rw [hstep, h1]
        congr 2
        funext fd'
        simp only [List.mem_cons]
        grind
      · convert h2 using 2 with κ
        obtain ⟨l', fd'⟩ := κ
        simp only [List.mem_cons]
        grind
    | some f =>
      rw [hs] at hl
      -- `fileclose` gives one reference back
      have hC' := hC.drop hl
      obtain ⟨ft1, ff, hclose, hrefs⟩ := fileclose_of_pos (hC.pos hl)
      have hstep : closeFiles (fd :: fds) ft ofile =
          closeFiles fds ft1 (Function.update ofile fd none) := by
        rw [closeFiles, hs]
        simp only [hclose]
      rw [← hrefs] at hC'
      have hheld'' : ∀ fd' ∈ fds, Function.update held (l, fd) none (l, fd') =
          Function.update ofile fd none fd' := by
        intro fd' h
        have hne : fd' ≠ fd := fun he => hfd (he ▸ h)
        rw [Function.update_of_ne fun he => hne (Prod.mk.inj he).2, Function.update_of_ne hne]
        exact hheld' fd' h
      obtain ⟨ft', h1, h2⟩ := @ih _ _ (Function.update ofile fd none) hC' hn hheld''
      refine ⟨ft', ?_, ?_⟩
      · rw [hstep, h1]
        congr 2
        funext fd'
        simp only [List.mem_cons, Function.update_apply]
        grind
      · convert h2 using 2 with κ
        obtain ⟨l', fd'⟩ := κ
        simp only [List.mem_cons, Function.update_apply, Prod.mk.injEq]
        grind

end OsSemester.Xv6
