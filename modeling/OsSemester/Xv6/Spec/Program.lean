import OsSemester.Xv6.Spec.ExecCall

/-!
# Programs that `exec` loads

A directory never has more than `NPDENTRIES` page tables.  With a free page for each table that it does
not have yet, `mappages` never fails, and the other loops only need the pages that they map.  So a file
that is a program is loaded when there are enough pages: `loadImage_program`.
-/

namespace OsSemester.Xv6

variable {d d' : PageDir} {m m' m₀ : PhysMem} {sz data a n k j off newsz oldsz : ℕ} {read : ReadFn}

/-! ### Enough pages -/

/-- The number of page tables that a directory does not have. -/
def PageDir.missing (d : PageDir) : ℕ := (Finset.univ.filter fun i => d.tables i = none).card

/-- There is a page for every table that the directory does not have, and `k` more. -/
def Ample (d : PageDir) (m : PhysMem) (k : ℕ) : Prop := d.missing + k ≤ m.free.length

theorem missing_le (d : PageDir) : d.missing ≤ NPDENTRIES :=
  (Finset.card_filter_le _ _).trans (Finset.card_fin NPDENTRIES).le

/-- A table has been made for the index `j`, if there was none. -/
theorem missing_eq {j : Fin NPDENTRIES} (h : ∀ i, d'.tables i = none ↔ d.tables i = none ∧ i ≠ j) :
    d.missing = d'.missing + if d.tables j = none then 1 else 0 := by
  have herase : (Finset.univ.filter fun i => d'.tables i = none) =
      (Finset.univ.filter fun i => d.tables i = none).erase j := by
    ext i
    rw [Finset.mem_erase, Finset.mem_filter, Finset.mem_filter, h i]
    exact ⟨fun hi => ⟨hi.2.2, hi.1, hi.2.1⟩, fun hi => ⟨hi.2.1, hi.2.2, hi.1⟩⟩
  unfold PageDir.missing
  rw [herase]
  split_ifs with hj
  · exact (Finset.card_erase_add_one (Finset.mem_filter.mpr ⟨Finset.mem_univ j, hj⟩)).symm
  · have hnot : j ∉ Finset.univ.filter fun i => d.tables i = none := by
      rw [Finset.mem_filter]
      exact fun hmem => hj hmem.2
    rw [Finset.erase_eq_of_notMem hnot, Nat.add_zero]

theorem Ample.mono (h : Ample d m k) (hj : j ≤ k) : Ample d m j := le_trans (Nat.add_le_add_left hj _) h

/-- A page is taken. -/
theorem Ample.kalloc (h : Ample d m (k + 1)) : ∃ pg m1, kalloc m = some (pg, m1) ∧ Ample d m1 k := by
  cases hk : Xv6.kalloc m with
  | none =>
    unfold Ample at h
    rw [kalloc_none hk, List.length_nil] at h
    omega
  | some r =>
    obtain ⟨pg, m1⟩ := r
    obtain ⟨hfree, -⟩ := kalloc_some hk
    refine ⟨pg, m1, rfl, ?_⟩
    unfold Ample at h ⊢
    rw [hfree, List.length_cons] at h
    omega

/-- `walkpgdir` makes a table, when there is none. -/
theorem Ample.walkpgdir (h : Ample d m k) (a : ℕ) :
    ∃ d' m', walkpgdir d m a true = some (d', m') ∧ Ample d' m' k := by
  cases hw : Xv6.walkpgdir d m a true with
  | none =>
    obtain ⟨hfree, htab⟩ := walkpgdir_none hw
    have hpos : 0 < d.missing := Finset.card_pos.mpr ⟨_, Finset.mem_filter.mpr ⟨Finset.mem_univ _, htab⟩⟩
    unfold Ample at h
    rw [hfree, List.length_nil] at h
    omega
  | some r =>
    obtain ⟨d', m'⟩ := r
    obtain ⟨-, -, -, htabs, hlen⟩ := walkpgdir_some hw
    refine ⟨d', m', rfl, ?_⟩
    have hmiss := missing_eq htabs
    unfold Ample at h ⊢
    omega

theorem Ample.setPte (h : Ample d m k) (p : Option Pte) : Ample (d.setPte a p) m k := by
  unfold Ample PageDir.missing at h ⊢
  rwa [PageDir.tables_setPte]

/-- `mappages` does not fail. -/
theorem mapLoop_ample {perm : Perm} {pa : Page} {done : Bool} (h : Ample d m k)
    (hok : mapLoop perm n a pa d m = .ok (d', m', done)) : done = true ∧ Ample d' m' k := by
  induction n generalizing a pa d m with
  | zero =>
    obtain ⟨rfl, rfl, rfl⟩ : d = d' ∧ m = m' ∧ true = done := by simpa [mapLoop] using hok
    exact ⟨rfl, h⟩
  | succ n ih =>
    obtain ⟨d1, m1, hw, h1⟩ := h.walkpgdir a
    rw [mapLoop, hw] at hok
    simp only at hok
    split_ifs at hok
    exact ih (h1.setPte _) hok

theorem mapKernel_ample {ks : List Kmap} {r : Option PageDir} (h : Ample d m k)
    (hok : mapKernel ks d m = .ok (r, m')) : ∃ d', r = some d' ∧ Ample d' m' k := by
  induction ks generalizing d m with
  | nil =>
    obtain ⟨rfl, rfl⟩ := Prod.mk.inj (Except.ok.inj hok)
    exact ⟨d, rfl, h⟩
  | cons q ks ih =>
    rw [mapKernel] at hok
    cases hm : mappages d m q.virt q.size (q.physStart / PGSIZE) q.perm with
    | error e =>
      rw [hm] at hok
      cases hok
    | ok x =>
      obtain ⟨d1, m1, done⟩ := x
      obtain ⟨rfl, h1⟩ := mapLoop_ample h hm
      rw [hm] at hok
      exact ih h1 hok

/-- `setupkvm` needs a page for the directory and at most one for each table. -/
theorem setupkvm_ample (hd : LinkerData data) (h : NPDENTRIES + 1 + k ≤ m.free.length) :
    ∃ d m', setupkvm data m = .ok (some d, m') ∧ FreshDir m d m' ∧ Ample d m' k := by
  have hpos : Ample ⟨0, fun _ => none⟩ m (k + 1) := by
    have hle := missing_le ⟨0, fun _ => none⟩
    unfold Ample
    omega
  obtain ⟨pg, m1, hk, h1⟩ := hpos.kalloc
  have hone : ∀ {r m'}, setupkvm data m = .ok (r, m') → ∃ d', r = some d' ∧ Ample d' m' k := by
    intro r m' hok
    unfold setupkvm at hok
    rw [hk] at hok
    simp only at hok
    split_ifs at hok
    exact mapKernel_ample (d := ⟨pg, fun _ => none⟩) h1 hok
  rcases setupkvm_spec hd m with ⟨d, m', hok, hF⟩ | ⟨m', hok, -⟩
  · obtain ⟨d', hd', hA⟩ := hone hok
    obtain rfl := Option.some.inj hd'
    exact ⟨d, m', hok, hF, hA⟩
  · obtain ⟨d', hd', -⟩ := hone hok
    cases hd'

/-- `allocuvm` takes the pages that it maps. -/
theorem allocLoop_ample {sz' : ℕ} (h : Ample d m (k + j)) (hj : newsz ≤ a + j * PGSIZE)
    (hok : allocLoop oldsz newsz n a d m = .ok (d', m', sz')) : sz' = newsz ∧ Ample d' m' k := by
  induction n generalizing a d m j with
  | zero =>
    obtain ⟨rfl, rfl, rfl⟩ : d = d' ∧ m = m' ∧ newsz = sz' := by simpa [allocLoop] using hok
    exact ⟨rfl, h.mono (Nat.le_add_right _ _)⟩
  | succ n ih =>
    rw [allocLoop] at hok
    by_cases hlt : a < newsz
    · rw [if_pos hlt] at hok
      cases j with
      | zero =>
        rw [Nat.zero_mul] at hj
        omega
      | succ j =>
        obtain ⟨pg, m1, hk, h1⟩ := Ample.kalloc (k := k + j) h
        rw [hk] at hok
        simp only at hok
        cases hm : mappages d (m1.memset pg 0) a PGSIZE pg ⟨true, true, 0⟩ with
        | error e =>
          rw [hm] at hok
          cases hok
        | ok x =>
          obtain ⟨d1, m2, done⟩ := x
          have h0 : Ample d (m1.memset pg 0) (k + j) := h1
          obtain ⟨rfl, h2⟩ := mapLoop_ample h0 hm
          rw [hm] at hok
          refine ih h2 ?_ hok
          rw [Nat.succ_mul] at hj
          omega
    · rw [if_neg hlt] at hok
      obtain ⟨rfl, rfl, rfl⟩ : d = d' ∧ m = m' ∧ newsz = sz' := by simpa using hok
      exact ⟨rfl, h.mono (Nat.le_add_right _ _)⟩

theorem allocuvm_ample (hn : m₀.free.Nodup) (hI : ImageOk m₀ d m sz) (hK : newsz < KERNBASE)
    (hpos : max sz newsz ≠ 0) (h : Ample d m (k + j)) (hj : newsz ≤ PGROUNDUP sz + j * PGSIZE) :
    ∃ d' m', allocuvm d m sz newsz = .ok (d', m', max sz newsz) ∧ ImageOk m₀ d' m' (max sz newsz) ∧
      Ample d' m' k := by
  obtain ⟨d', m', sz', hok, -, himg⟩ := allocuvm_image hn hI newsz
  have hres : sz' = max sz newsz ∧ Ample d' m' k := by
    unfold allocuvm at hok
    rw [if_neg (by omega)] at hok
    split_ifs at hok with hlt
    · obtain ⟨rfl, rfl, rfl⟩ : d = d' ∧ m = m' ∧ sz = sz' := by simpa using hok
      exact ⟨by omega, h.mono (Nat.le_add_right _ _)⟩
    · obtain ⟨rfl, hA⟩ := allocLoop_ample h hj hok
      exact ⟨by omega, hA⟩
  obtain ⟨rfl, hA⟩ := hres
  exact ⟨d', m', hok, (himg hpos).2, hA⟩

/-! ### A file that is a program -/

/-- All the `len` bytes at `off` can be read. -/
def ReadsAll (read : ReadFn) (off len : ℕ) : Prop := ∃ bs, read off len = some bs ∧ bs.length = len

/-- A segment that can be loaded behind a program of size `sz`. -/
structure ProgHdr.Fits (read : ReadFn) (ph : ProgHdr) (sz : ℕ) : Prop where
  filesz_le : ph.filesz ≤ ph.memsz
  lt : ph.vaddr + ph.memsz < KERNBASE
  pos : max sz (ph.vaddr + ph.memsz) ≠ 0
  align : ph.vaddr % PGSIZE = 0
  reads : ∀ i, i < ph.filesz → ReadsAll read ((ph.off + i) % 2 ^ 32) (min (ph.filesz - i) PGSIZE)

/-- The next `n` program headers can be loaded behind a program of size `sz`. -/
def Loadable (read : ReadFn) : ℕ → ℕ → ℕ → Prop
  | 0, _, _ => True
  | n + 1, off, sz => ∃ bs, readFully read off ProgHdr.size = some bs ∧
      if (ProgHdr.ofBytes bs).type ≠ ELF_PROG_LOAD then Loadable read n ((off + ProgHdr.size) % 2 ^ 32) sz
      else (ProgHdr.ofBytes bs).Fits read sz ∧ Loadable read n ((off + ProgHdr.size) % 2 ^ 32)
        (max sz ((ProgHdr.ofBytes bs).vaddr + (ProgHdr.ofBytes bs).memsz))

theorem le_segmentsEnd (read : ReadFn) (n off sz : ℕ) : sz ≤ segmentsEnd read n off sz := by
  induction n generalizing off sz with
  | zero => exact le_rfl
  | succ n ih =>
    rw [segmentsEnd]
    split
    · exact le_rfl
    · refine le_trans ?_ (ih _ _)
      split_ifs
      · exact le_rfl
      · exact le_max_left _ _

/-- The pages of a program of size `sz`. -/
def pagesFor (sz : ℕ) : ℕ := (sz + 4095) / 4096

theorem loadLoop_delivers {addr off' i : ℕ} {ok : Bool}
    (hread : ∀ i, i < sz → ReadsAll read ((off' + i) % 2 ^ 32) (min (sz - i) PGSIZE))
    (hok : loadLoop d addr read off' sz n i m = .ok (m', ok)) : ok = true := by
  induction n generalizing i m with
  | zero => exact (Prod.mk.inj (Except.ok.inj hok)).2.symm
  | succ n ih =>
    rw [loadLoop] at hok
    by_cases hi : i < sz
    · rw [if_pos hi] at hok
      obtain ⟨bs, hbs, hlen⟩ := hread i hi
      cases htab : d.table (PDX (addr + i)) with
      | none =>
        rw [htab] at hok
        cases hok
      | some t =>
        rw [htab] at hok
        simp only [hbs, if_pos hlen] at hok
        exact ih hok
    · rw [if_neg hi] at hok
      exact (Prod.mk.inj (Except.ok.inj hok)).2.symm

/-- The loop of `exec` loads what can be loaded. -/
theorem loadSegments_program (hn : m₀.free.Nodup) (hI : ImageOk m₀ d m sz) (hL : Loadable read n off sz)
    (h : Ample d m (k + (pagesFor (segmentsEnd read n off sz) - pagesFor sz))) :
    ∃ d' m', loadSegments read n off d m sz = .ok (d', m', some (segmentsEnd read n off sz)) ∧
      ImageOk m₀ d' m' (segmentsEnd read n off sz) ∧ Ample d' m' k := by
  induction n generalizing off d m sz with
  | zero => exact ⟨d, m, rfl, hI, h.mono (Nat.le_add_right _ _)⟩
  | succ n ih =>
    obtain ⟨bs, hbs, hL⟩ := hL
    obtain ⟨ph, hph⟩ : ∃ ph, ph = ProgHdr.ofBytes bs := ⟨_, rfl⟩
    rw [segmentsEnd, hbs] at h ⊢
    rw [loadSegments, hbs]
    simp only [← hph] at h hL ⊢
    by_cases htype : ph.type ≠ ELF_PROG_LOAD
    · rw [if_pos htype] at h hL ⊢
      rw [if_pos htype]
      exact ih hI hL h
    rw [if_neg htype] at h hL ⊢
    rw [if_neg htype]
    obtain ⟨hfits, hL⟩ := hL
    have hlt := hfits.lt
    have hsz := hI.size
    have hnowrap : (ph.vaddr + ph.memsz) % 2 ^ 32 = ph.vaddr + ph.memsz :=
      Nat.mod_eq_of_lt (by simp only [KERNBASE] at hlt; omega)
    rw [hnowrap] at h ⊢
    rw [if_neg (not_lt.mpr hfits.filesz_le), if_neg (by omega)]
    -- the pages of this segment are among those of the program
    have hend := le_segmentsEnd read n ((off + ProgHdr.size) % 2 ^ 32) (max sz (ph.vaddr + ph.memsz))
    have hround := PGROUNDUP_eq hsz.le
    set fin := segmentsEnd read n ((off + ProgHdr.size) % 2 ^ 32) (max sz (ph.vaddr + ph.memsz))
    have hmono : pagesFor (max sz (ph.vaddr + ph.memsz)) ≤ pagesFor fin := by
      unfold pagesFor
      omega
    have hfirst : pagesFor sz ≤ pagesFor (max sz (ph.vaddr + ph.memsz)) := by
      unfold pagesFor
      omega
    obtain ⟨d1, m1, hok, hI1, hA1⟩ := allocuvm_ample (k := k + (pagesFor fin - pagesFor
      (max sz (ph.vaddr + ph.memsz)))) (j := pagesFor (max sz (ph.vaddr + ph.memsz)) - pagesFor sz) hn hI hlt
      hfits.pos (h.mono (by omega)) (by unfold pagesFor; simp only [PGSIZE]; omega)
    simp only [hok]
    rw [if_neg hfits.pos, if_neg (not_not.mpr hfits.align)]
    have hsafe : LoadCall.Safe m₀ read ⟨d1, m1, ph⟩ := by
      refine ⟨hI1.evolves, ?_, hfits.align, fun i hi => ?_⟩
      · show ph.vaddr + ph.filesz < KERNBASE
        exact (Nat.add_le_add_left hfits.filesz_le _).trans_lt hlt
      · have hi' : i < ph.filesz := hi
        have hle := hfits.filesz_le
        have hround1 := PGROUNDUP_eq hI1.size.le
        obtain ⟨p, hp, -⟩ := hI1.user (ph.vaddr + i) (by omega)
        show d1.pte (ph.vaddr + i) ≠ none
        rw [hp]
        exact Option.some_ne_none p
    obtain ⟨m2, ok, hl, hW⟩ : ∃ m2 ok, loaduvm d1 m1 ph.vaddr read ph.off ph.filesz = .ok (m2, ok) ∧
      Loaded d1 ph.vaddr (ph.vaddr + ph.filesz) m1 m2 := hsafe.runs
    have htrue : ok = true := by
      unfold loaduvm at hl
      rw [if_neg (not_not.mpr hfits.align)] at hl
      exact loadLoop_delivers hfits.reads hl
    obtain rfl := htrue
    simp only [hl]
    have hrange : ph.vaddr + ph.filesz ≤ KERNBASE := (Nat.add_le_add_left hfits.filesz_le _).trans hlt.le
    have hA2 : Ample d1 m2 (k + (pagesFor fin - pagesFor (max sz (ph.vaddr + ph.memsz)))) := by
      unfold Ample
      rw [hW.free]
      exact hA1
    exact ih (hI1.write (hW.evolves hrange)) hL hA2

/-- A file that is a program. -/
structure IsProgram (read : ReadFn) : Prop where
  header : ∃ bs, readFully read 0 ElfHdr.size = some bs ∧ (ElfHdr.ofBytes bs).magic = ELF_MAGIC ∧
    Loadable read (ElfHdr.ofBytes bs).phnum (ElfHdr.ofBytes bs).phoff 0
  /-- There is room for the guard page and the stack. -/
  room : pagesFor (programSize read) * PGSIZE + 2 * PGSIZE < KERNBASE

/-- **A program is loaded** when there are pages for the tables, the program and `k` more. -/
theorem loadImage_program (hd : LinkerData data) (hn : m.free.Nodup) (hp : IsProgram read)
    (h : NPDENTRIES + 1 + (k + pagesFor (programSize read)) ≤ m.free.length) :
    ∃ m' img, loadImage data read m = .ok (m', some img) ∧ ImageOk m img.dir m' img.sz ∧
      img.sz = programSize read ∧ Ample img.dir m' k := by
  obtain ⟨bs, hbs, hmagic, hL⟩ := hp.header
  have hsize : programSize read =
      segmentsEnd read (ElfHdr.ofBytes bs).phnum (ElfHdr.ofBytes bs).phoff 0 := by
    rw [programSize, hbs]
  rw [hsize] at h ⊢
  obtain ⟨d, m1, hset, hF, hA⟩ := setupkvm_ample hd h
  have hzero : pagesFor 0 = 0 := rfl
  obtain ⟨d', m', hok, hI, hA'⟩ := loadSegments_program (k := k) hn hF.imageOk hL (hA.mono (by omega))
  refine ⟨m', ⟨d', _, (ElfHdr.ofBytes bs).entry⟩, ?_, hI, rfl, hA'⟩
  rw [loadImage, hbs]
  simp only [if_neg (not_not.mpr hmagic), hset, hok]

/-- The stack of a program. -/
theorem stackPages_program (hn : m₀.free.Nodup) (hI : ImageOk m₀ d m sz)
    (hroom : pagesFor sz * PGSIZE + 2 * PGSIZE < KERNBASE) (h : Ample d m 2) :
    ∃ d' m' top, stackPages d m sz = .ok (d', m', some top) ∧ StackOk d' top ∧
      top = pagesFor sz * PGSIZE + 2 * PGSIZE := by
  have hround : PGROUNDUP sz = pagesFor sz * PGSIZE := PGROUNDUP_eq hI.size.le
  have hroom' : PGROUNDUP sz < KERNBASE := by omega
  have hRR : PGROUNDUP (PGROUNDUP sz) = PGROUNDUP sz := by
    rw [PGROUNDUP_eq hroom'.le, hround]
    simp only [PGSIZE]
    omega
  have hnowrap : (PGROUNDUP sz + 2 * PGSIZE) % 2 ^ 32 = PGROUNDUP sz + 2 * PGSIZE :=
    Nat.mod_eq_of_lt (by simp only [KERNBASE] at hroom; omega)
  have hlt : PGROUNDUP sz + 2 * PGSIZE < KERNBASE := by omega
  have hpos : max (PGROUNDUP sz) (PGROUNDUP sz + 2 * PGSIZE) ≠ 0 := by
    simp only [PGSIZE]
    omega
  obtain ⟨d1, m1, hok, -, -⟩ := allocuvm_ample (k := 0) (j := 2) hn (hI.round hroom') hlt hpos h
    (by omega)
  have hmax : max (PGROUNDUP sz) (PGROUNDUP sz + 2 * PGSIZE) = PGROUNDUP sz + 2 * PGSIZE :=
    max_eq_right (Nat.le_add_right _ _)
  obtain ⟨d2, m2, r, hst, -, htop⟩ := stackPages_runs hn hI
  obtain ⟨top, rfl⟩ : ∃ top, r = some top := by
    unfold stackPages at hst
    rw [hnowrap, hok, hmax] at hst
    simp only at hst
    rw [if_neg (by simp only [PGSIZE]; omega)] at hst
    split at hst
    · cases hst
    · exact ⟨_, (Prod.mk.inj (Prod.mk.inj (Except.ok.inj hst)).2).2.symm⟩
  obtain ⟨hS, hval⟩ := htop top rfl
  exact ⟨d2, m2, top, hst, hS, hval.trans (by rw [hround])⟩

/-- The bytes that strings may take on the stack. -/
def argBytes (argv : List (List UInt8)) : ℕ := (argv.map fun s => s.length + 4).sum

/-- The arguments are written when they fit the page of the stack. -/
theorem pushArgs_program {top argc sp : ℕ} {argv : List (List UInt8)} {ptrs : List ℕ} (hS : StackOk d top)
    (hsp : sp ≤ top) (hargc : argc + argv.length ≤ MAXARG) (hptrs : ptrs.length = argc)
    (hroom : top - PGSIZE + (argBytes argv + 4 * (argc + argv.length + 4)) ≤ sp) (m : PhysMem) :
    ∃ m' sp', pushArgs d argv argc ptrs sp m = .ok (m', some sp') := by
  have htop := hS.hi
  have hlo := hS.lo
  have huser : ∀ b, top - PGSIZE ≤ b → b < top → d.User b := fun b h1 h2 =>
    (hS.user b (h2.trans htop)).mpr (Or.inr ⟨h1, h2⟩)
  induction argv generalizing argc ptrs sp m with
  | nil =>
    rw [List.length_nil, Nat.add_zero] at hargc hroom
    have hle : top - PGSIZE ≤ sp := (Nat.le_add_right _ _).trans hroom
    have heq := ustackSp_eq hS hle hsp hargc
    have hin : ∀ i, i < (ustackBytes argc ptrs sp).length → d.User ((ustackSp argc sp + i) % 2 ^ 32) := by
      intro i hi
      rw [ustackBytes_length, hptrs] at hi
      have hzero : argBytes [] = 0 := rfl
      rw [heq, Nat.mod_eq_of_lt (by simp only [KERNBASE] at htop; omega)]
      exact huser _ (by omega) (by omega)
    obtain ⟨m', hok⟩ := (copyout_true_iff (m := m) (uint_lt _)).mpr hin
    change copyout d (ustackSp argc sp) (ustackBytes argc ptrs sp) m = _ at hok
    refine ⟨m', ustackSp argc sp, ?_⟩
    rw [pushArgs, hok]
  | cons s argv ih =>
    rw [List.length_cons] at hargc hroom
    have hbytes : argBytes (s :: argv) = s.length + 4 + argBytes argv := List.sum_cons
    rcases argSp_cases (s := s) (hsp.trans_lt htop) (by omega) with ⟨-, h2, h3⟩ | ⟨h1, -⟩
    · have hin : ∀ i, i < (s ++ [0]).length → d.User ((argSp sp s + i) % 2 ^ 32) := by
        intro i hi
        rw [List.length_append, List.length_singleton] at hi
        rw [Nat.mod_eq_of_lt (by simp only [KERNBASE] at htop; omega)]
        exact huser _ (by omega) (by omega)
      obtain ⟨m', hok⟩ := (copyout_true_iff (m := m) (argSp_lt sp s)).mpr hin
      rw [pushArgs, if_neg (by omega), hok]
      refine ih (by omega) (by omega) ?_ (by omega) m'
      rw [List.length_append, hptrs]
      rfl
    · omega

theorem buildStack_ok {top sp : ℕ} {argv : List (List UInt8)} {m'' : PhysMem}
    (hst : stackPages d m sz = .ok (d', m', some top))
    (hpush : pushArgs d' argv 0 [] top m' = .ok (m'', some sp)) :
    buildStack d m sz argv = .ok (m'', some (d', top, sp)) := by
  unfold buildStack
  rw [hst]
  simp only [hpush]

/-- **The image and the stack of a program**, with arguments that fit a page. -/
theorem buildStack_program {img : Image} {argv : List (List UInt8)} (hn : m₀.free.Nodup)
    (hI : ImageOk m₀ img.dir m img.sz) (hroom : pagesFor img.sz * PGSIZE + 2 * PGSIZE < KERNBASE)
    (hargc : argv.length ≤ MAXARG) (hfit : argBytes argv + 4 * (argv.length + 4) ≤ PGSIZE)
    (h : Ample img.dir m 2) :
    ∃ m' d top sp, buildStack img.dir m img.sz argv = .ok (m', some (d, top, sp)) ∧
      top = pagesFor img.sz * PGSIZE + 2 * PGSIZE := by
  obtain ⟨d, m1, top, hst, hS, htop⟩ := stackPages_program hn hI hroom h
  have hlo := hS.lo
  have hfit' : top - PGSIZE + (argBytes argv + 4 * (0 + argv.length + 4)) ≤ top := by omega
  have hargc' : 0 + argv.length ≤ MAXARG := by omega
  have hnil : ([] : List ℕ).length = 0 := rfl
  obtain ⟨m2, sp, hpush⟩ := pushArgs_program hS le_rfl hargc' hnil hfit' m1
  exact ⟨m2, d, top, sp, buildStack_ok hst hpush, htop⟩

/-! ### A small program -/

/-- `readi` of a file with these bytes. -/
def readBytes (bs : List UInt8) : ReadFn := fun off n => some ((bs.drop off).take n)

/-- A header, a program header for a segment of 16 bytes at address 0, and the first 8 of these bytes. -/
def smallProgram : ReadFn := readBytes <|
  [0x7F, 0x45, 0x4C, 0x46] ++ List.replicate 24 0 ++ wordBytes 52 ++ List.replicate 12 0 ++ [1, 0] ++
    List.replicate 6 0 ++ ([1, 84, 0, 0, 8, 16, 5, 4096].flatMap wordBytes) ++ List.replicate 8 0x90

theorem isProgram_small : IsProgram smallProgram where
  header := by
    refine ⟨_, rfl, by decide, ?_⟩
    refine ⟨_, rfl, ?_⟩
    rw [if_neg (by decide)]
    refine ⟨⟨by decide, by decide, by decide, by decide, fun i hi => ?_⟩, trivial⟩
    have hi' : i < 8 := hi
    interval_cases i <;> exact ⟨_, rfl, rfl⟩
  room := by decide

/-- A file system in which every file is this program. -/
def programFiles : FileSys where
  namei := fun _ => some 7
  readi := fun _ => smallProgram

theorem programSize_small : programSize smallProgram = 16 := by decide

end OsSemester.Xv6
