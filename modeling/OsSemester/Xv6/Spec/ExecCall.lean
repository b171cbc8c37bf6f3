import OsSemester.Xv6.ExecCall
import OsSemester.Xv6.Spec.Copyout
import OsSemester.Xv6.Spec.VmDir

/-!
# What the parts of `exec` do

Up to its commit `exec` works on a directory of its own, whose pages come from the free list.  So
freeing the directory gives everything back (`loadImage_none`, `buildStack_none`).  When the stack is in
place, all pages below its top are mapped, and the user may use them except for the guard page
(`StackOk`).
-/

namespace OsSemester.Xv6

variable {d d' : PageDir} {m m₀ m' : PhysMem} {sz sz' newsz top addr off n i va : ℕ} {ok : Bool}
variable {read : ReadFn} {argv : List (List UInt8)} {buf : List UInt8}

/-! ### Writing into the pages of a directory -/

/-- What `copyout` writes to are pages of the directory. -/
theorem Wrote.evolves (h : Wrote d va buf m m') (hK : KernelHalf d) : Evolves d.held m d.held m' := by
  refine ⟨by rw [h.free]; exact Exchange.refl _ _, fun f hf => funext fun j => ?_, h.kend,
    fun _ => h.panicked⟩
  by_contra hne
  obtain ⟨i, p, -, hp, hu, hpf, -⟩ := h.changed f j hne
  have hlt : (va + i) % 2 ^ 32 < 2 ^ 32 := Nat.mod_lt _ (by decide)
  by_cases hb : (va + i) % 2 ^ 32 < KERNBASE
  · refine hf (Or.inr ⟨.page (PDX ((va + i) % 2 ^ 32)) (PTX ((va + i) % 2 ^ 32)), ?_⟩)
    rw [PageDir.held_page hb, hp, Option.map_some, hpf]
  · rw [hK.user _ p (by omega) hlt hp] at hu
    cases hu

theorem copyout_evolves (hva : va < 2 ^ 32) (hK : KernelHalf d)
    (h : copyout d va buf m = .ok (m', ok)) : Evolves d.held m d.held m' := by
  unfold copyout at h
  rcases copyoutLoop_spec (d := d) (m := m) hva le_rfl with ⟨m1, hok, -, hW⟩ | ⟨i, -, -, -, hres⟩
  · rw [hok] at h
    obtain ⟨rfl, -⟩ := Prod.mk.inj (Except.ok.inj h)
    exact hW.evolves hK
  · split_ifs at hres
    · rw [hres] at h
      cases h
    · obtain ⟨m1, hok, hW⟩ := hres
      rw [hok] at h
      obtain ⟨rfl, -⟩ := Prod.mk.inj (Except.ok.inj h)
      exact hW.evolves hK

/-- The bytes from a file have gone to the pages that are mapped from `lo` up to `hi`. -/
structure Loaded (d : PageDir) (lo hi : ℕ) (m m' : PhysMem) : Prop extends NoPanic m m' where
  free : m'.free = m.free
  changed : ∀ f, m'.data f ≠ m.data f → ∃ b p, lo ≤ b ∧ b < hi ∧ d.pte b = some p ∧ p.page = f

theorem Loaded.refl (d : PageDir) (lo hi : ℕ) (m : PhysMem) : Loaded d lo hi m m :=
  ⟨⟨rfl, rfl⟩, rfl, fun _ h => absurd rfl h⟩

theorem Loaded.trans {lo hi : ℕ} {m'' : PhysMem} (h : Loaded d lo hi m m')
    (h' : Loaded d lo hi m' m'') : Loaded d lo hi m m'' := by
  refine ⟨⟨h'.kend.trans h.kend, h'.panicked.trans h.panicked⟩, h'.free.trans h.free,
    fun f hne => ?_⟩
  by_cases hf : m''.data f = m'.data f
  · rw [hf] at hne
    exact h.changed f hne
  · exact h'.changed f hf

theorem Loaded.evolves {lo hi : ℕ} (h : Loaded d lo hi m m') (hhi : hi ≤ KERNBASE) :
    Evolves d.held m d.held m' := by
  refine ⟨by rw [h.free]; exact Exchange.refl _ _, fun f hf => ?_, h.kend, fun _ => h.panicked⟩
  by_contra hne
  obtain ⟨b, p, -, hb, hp, rfl⟩ := h.changed f hne
  refine hf (Or.inr ⟨.page (PDX b) (PTX b), ?_⟩)
  rw [PageDir.held_page (by omega), hp]
  rfl

/-- `loaduvm` writes to the pages of its range. -/
theorem loadLoop_runs (hmap : ∀ i, i < sz → d.pte (addr + i) ≠ none) (read : ReadFn) (off n i : ℕ)
    (m : PhysMem) : ∃ m' ok, loadLoop d addr read off sz n i m = .ok (m', ok) ∧
      Loaded d addr (addr + sz) m m' := by
  induction n generalizing i m with
  | zero => exact ⟨m, true, rfl, Loaded.refl _ _ _ _⟩
  | succ n ih =>
    unfold loadLoop
    split_ifs with hlt
    · obtain ⟨p, hp⟩ := Option.ne_none_iff_exists'.mp (hmap i hlt)
      have htab : d.table (PDX (addr + i)) ≠ none := by
        intro ht
        rw [PageDir.pte_of_table_none ht] at hp
        cases hp
      obtain ⟨t, ht⟩ := Option.ne_none_iff_exists'.mp htab
      simp only [ht, hp, Option.map_some, Option.getD_some]
      cases hr : read ((off + i) % 2 ^ 32) (min (sz - i) PGSIZE) with
      | none => exact ⟨m, false, rfl, Loaded.refl _ _ _ _⟩
      | some bs =>
        have hpage : Loaded d addr (addr + sz) m
            (m.write p.page 0 (bs.take (min (sz - i) PGSIZE))) := by
          refine ⟨⟨rfl, rfl⟩, rfl, fun f hne => ⟨addr + i, p, by omega, by omega, hp, ?_⟩⟩
          by_contra hpf
          exact hne (Function.update_of_ne (Ne.symm hpf) _ _)
        simp only
        split_ifs
        · obtain ⟨m', ok, hok, hL⟩ := ih (i + PGSIZE)
            (m.write p.page 0 (bs.take (min (sz - i) PGSIZE)))
          exact ⟨m', ok, hok, hpage.trans hL⟩
        · exact ⟨_, false, rfl, hpage⟩
    · exact ⟨m, true, rfl, Loaded.refl _ _ _ _⟩

/-! ### The program -/

/-- A directory with a program of size `sz`, made of pages that were free in `m₀`. -/
structure ImageOk (m₀ : PhysMem) (d : PageDir) (m : PhysMem) (sz : ℕ) : Prop where
  evolves : Evolves noDir m₀ d.held m
  kernel : KernelHalf d
  size : sz < KERNBASE
  user : ∀ b, b < PGROUNDUP sz → d.User b
  rest : ∀ b, PGROUNDUP sz ≤ b → b < KERNBASE → d.pte b = none

theorem ImageOk.write (h : ImageOk m₀ d m sz) (hE : Evolves d.held m d.held m') :
    ImageOk m₀ d m' sz :=
  ⟨h.evolves.trans hE, h.kernel, h.size, h.user, h.rest⟩

/-- `allocuvm` extends the program. -/
theorem allocuvm_image (hn : m₀.free.Nodup) (hI : ImageOk m₀ d m sz) (newsz : ℕ) :
    ∃ d' m' sz', allocuvm d m sz newsz = .ok (d', m', sz') ∧ Evolves noDir m₀ d'.held m' ∧
      (sz' ≠ 0 → sz' = max sz newsz ∧ ImageOk m₀ d' m' sz') := by
  unfold allocuvm
  split_ifs with h1 h2
  · exact ⟨d, m, 0, rfl, hI.evolves, fun hz => absurd rfl hz⟩
  · exact ⟨d, m, sz, rfl, hI.evolves, fun _ => ⟨by omega, hI⟩⟩
  · have hL := PGROUNDUP_eq hI.size.le
    have hR := PGROUNDUP_eq (a := newsz) (by omega)
    have hRK : PGROUNDUP newsz ≤ KERNBASE := by
      simp only [KERNBASE] at *
      omega
    have hP : Pool m.free d.held := hI.evolves.exchange.pool ⟨hn, nofun, nofun⟩
    rcases allocLoop_spec (n := newsz / PGSIZE + 1) rfl (Nat.le_of_not_lt h2) (Nat.lt_of_not_le h1)
      (fun b hb1 hb2 => hI.rest b hb1 (by omega)) hP (Grown.refl _ _ _ d m) (Nat.mul_mod_left _ _)
      le_rfl (by omega) (by simp only [PGSIZE]; omega) with
      ⟨d1, m1, hok, hG, -⟩ | ⟨-, d1, m1, hok, hRes, -⟩
    · refine ⟨d1, m1, newsz, hok, hI.evolves.trans hG.evolves, fun _ => ⟨by omega,
        hI.evolves.trans hG.evolves, hI.kernel.grown hG hRK, by omega, fun b hb => ?_,
        fun b hb1 hb2 => ?_⟩⟩
      · by_cases hold : b < PGROUNDUP sz
        · obtain ⟨p, hp, hu⟩ := hI.user b hold
          refine ⟨p, ?_, hu⟩
          rw [hG.same b (by simp only [KERNBASE] at hRK; omega) (by omega), hp]
        · obtain ⟨pg, -, hp, -⟩ := hG.new b (by omega) hb
          exact ⟨_, hp, rfl⟩
      · rw [hG.same b (by simp only [KERNBASE] at hb2; omega) (by omega)]
        exact hI.rest b (by omega) hb2
    · exact ⟨d1, m1, 0, hok, hI.evolves.trans hRes.evolves, fun hz => absurd rfl hz⟩

theorem fieldOf_lt (bs : List UInt8) (off len : ℕ) : fieldOf bs off len < 256 ^ len := by
  induction len generalizing off with
  | zero => exact Nat.one_pos
  | succ len ih =>
    have h1 := (bs.getD off 0).toNat_lt
    have h2 := ih (off + 1)
    rw [fieldOf, Nat.pow_succ]
    omega

/-- The end of the program that the next `n` headers describe. -/
def segmentsEnd (read : ReadFn) : ℕ → ℕ → ℕ → ℕ
  | 0, _, sz => sz
  | n + 1, off, sz =>
    match readFully read off ProgHdr.size with
    | none => sz
    | some bs =>
      let ph := ProgHdr.ofBytes bs
      segmentsEnd read n ((off + ProgHdr.size) % 2 ^ 32)
        (if ph.type ≠ ELF_PROG_LOAD then sz else max sz ((ph.vaddr + ph.memsz) % 2 ^ 32))

/-- A call of `loaduvm`. -/
structure LoadCall where
  dir : PageDir
  mem : PhysMem
  ph : ProgHdr

/-- The calls of `loaduvm` that the loop of `exec` makes. -/
def loadCalls (read : ReadFn) : ℕ → ℕ → PageDir → PhysMem → ℕ → List LoadCall
  | 0, _, _, _, _ => []
  | n + 1, off, d, m, sz =>
    match readFully read off ProgHdr.size with
    | none => []
    | some bs =>
      let ph := ProgHdr.ofBytes bs
      let next := (off + ProgHdr.size) % 2 ^ 32
      if ph.type ≠ ELF_PROG_LOAD then loadCalls read n next d m sz
      else if ph.memsz < ph.filesz then []
      else if (ph.vaddr + ph.memsz) % 2 ^ 32 < ph.vaddr then []
      else
        match allocuvm d m sz ((ph.vaddr + ph.memsz) % 2 ^ 32) with
        | .error _ => []
        | .ok (d', m', sz') =>
          if sz' = 0 then []
          else if ph.vaddr % PGSIZE ≠ 0 then []
          else ⟨d', m', ph⟩ ::
            match loaduvm d' m' ph.vaddr read ph.off ph.filesz with
            | .ok (m'', true) => loadCalls read n next d' m'' sz'
            | _ => []

/-- The call is for a range of the program, where everything is mapped, and returns; the directory is
made of pages that were free in `m₀`. -/
structure LoadCall.Safe (m₀ : PhysMem) (read : ReadFn) (c : LoadCall) : Prop where
  evolves : Evolves noDir m₀ c.dir.held c.mem
  range : c.ph.vaddr + c.ph.filesz < KERNBASE
  align : c.ph.vaddr % PGSIZE = 0
  mapped : ∀ i, i < c.ph.filesz → c.dir.pte (c.ph.vaddr + i) ≠ none

theorem LoadCall.Safe.runs {c : LoadCall} (h : c.Safe m₀ read) :
    ∃ m' ok, loaduvm c.dir c.mem c.ph.vaddr read c.ph.off c.ph.filesz = .ok (m', ok) ∧
      Loaded c.dir c.ph.vaddr (c.ph.vaddr + c.ph.filesz) c.mem m' := by
  unfold loaduvm
  rw [if_neg (not_not.mpr h.align)]
  exact loadLoop_runs h.mapped _ _ _ _ _

/-- What the loop of `exec` does. -/
theorem loadSegments_runs (hn : m₀.free.Nodup) (hI : ImageOk m₀ d m sz) (read : ReadFn) (n off : ℕ) :
    (∀ c ∈ loadCalls read n off d m sz, c.Safe m₀ read) ∧
      ∃ d' m' r, loadSegments read n off d m sz = .ok (d', m', r) ∧ Evolves noDir m₀ d'.held m' ∧
        ∀ sz', r = some sz' → ImageOk m₀ d' m' sz' ∧ sz' = segmentsEnd read n off sz := by
  induction n generalizing off d m sz with
  | zero =>
    refine ⟨nofun, d, m, some sz, rfl, hI.evolves, fun sz' hs => ?_⟩
    rw [← Option.some.inj hs]
    exact ⟨hI, rfl⟩
  | succ n ih =>
    unfold loadSegments segmentsEnd loadCalls
    cases hr : readFully read off ProgHdr.size with
    | none => exact ⟨nofun, d, m, none, rfl, hI.evolves, nofun⟩
    | some bs =>
      obtain ⟨ph, hph⟩ : ∃ ph, ph = ProgHdr.ofBytes bs := ⟨_, rfl⟩
      simp only [← hph]
      by_cases htype : ph.type ≠ ELF_PROG_LOAD
      · rw [if_pos htype, if_pos htype, if_pos htype]
        exact ih hI _
      rw [if_neg htype, if_neg htype, if_neg htype]
      by_cases h1 : ph.memsz < ph.filesz
      · rw [if_pos h1, if_pos h1]
        exact ⟨nofun, d, m, none, rfl, hI.evolves, nofun⟩
      by_cases h2 : (ph.vaddr + ph.memsz) % 2 ^ 32 < ph.vaddr
      · rw [if_neg h1, if_pos h2, if_neg h1, if_pos h2]
        exact ⟨nofun, d, m, none, rfl, hI.evolves, nofun⟩
      rw [if_neg h1, if_neg h2, if_neg h1, if_neg h2]
      obtain ⟨d1, m1, sz1, ha, hE, himg⟩ :=
        allocuvm_image hn hI ((ph.vaddr + ph.memsz) % 2 ^ 32)
      simp only [ha]
      by_cases h3 : sz1 = 0
      · rw [if_pos h3, if_pos h3]
        exact ⟨nofun, d1, m1, none, rfl, hE, nofun⟩
      by_cases h4 : ph.vaddr % PGSIZE ≠ 0
      · rw [if_neg h3, if_pos h4, if_neg h3, if_pos h4]
        exact ⟨nofun, d1, m1, none, rfl, hE, nofun⟩
      rw [if_neg h3, if_neg h4, if_neg h3, if_neg h4]
      obtain ⟨hsz1, hI1⟩ := himg h3
      -- the bytes from the file are for pages of the program
      have hv : ph.vaddr < 2 ^ 32 := by
        rw [hph]
        exact fieldOf_lt bs 8 4
      have hm : ph.memsz < 2 ^ 32 := by
        rw [hph]
        exact fieldOf_lt bs 20 4
      have hsize := hI1.size
      have hround := PGROUNDUP_eq hsize.le
      have hsafe : LoadCall.Safe m₀ read ⟨d1, m1, ph⟩ := by
        refine ⟨hE, ?_, not_not.mp h4, fun i hi => ?_⟩
        · show ph.vaddr + ph.filesz < KERNBASE
          omega
        · have hi' : i < ph.filesz := hi
          obtain ⟨p, hp, -⟩ := hI1.user (ph.vaddr + i) (by omega)
          show d1.pte (ph.vaddr + i) ≠ none
          rw [hp]
          exact nofun
      obtain ⟨m2, ok, hl, hL⟩ : ∃ m2 ok, loaduvm d1 m1 ph.vaddr read ph.off ph.filesz =
          .ok (m2, ok) ∧ Loaded d1 ph.vaddr (ph.vaddr + ph.filesz) m1 m2 := hsafe.runs
      have hI2 : ImageOk m₀ d1 m2 sz1 := hI1.write (hL.evolves (by omega))
      simp only [hl]
      cases ok with
      | false =>
        refine ⟨fun c hc => ?_, d1, m2, none, rfl, hI2.evolves, nofun⟩
        rw [List.mem_singleton.mp hc]
        exact hsafe
      | true =>
        rw [← hsz1]
        obtain ⟨hcalls, hrest⟩ := ih hI2 ((off + ProgHdr.size) % 2 ^ 32)
        refine ⟨fun c hc => ?_, hrest⟩
        rcases List.mem_cons.mp hc with rfl | hc
        · exact hsafe
        · exact hcalls c hc

/-- The size of the program in a file. -/
def programSize (read : ReadFn) : ℕ :=
  match readFully read 0 ElfHdr.size with
  | none => 0
  | some bs => segmentsEnd read (ElfHdr.ofBytes bs).phnum (ElfHdr.ofBytes bs).phoff 0

/-- A directory for the kernel alone is a program of size 0. -/
theorem FreshDir.imageOk (h : FreshDir m₀ d m) : ImageOk m₀ d m 0 := by
  refine ⟨h.evolves, h.kernel, by decide, fun b hb => absurd hb (Nat.not_lt_zero _), fun b _ hb => ?_⟩
  exact PageDir.pte_of_table_none (PageDir.tables_eq_none_iff.mp (h.empty b hb))

/-- The calls of `loaduvm` for a file. -/
def imageCalls (data : ℕ) (read : ReadFn) (m : PhysMem) : List LoadCall :=
  match readFully read 0 ElfHdr.size with
  | none => []
  | some bs =>
    let elf := ElfHdr.ofBytes bs
    if elf.magic ≠ ELF_MAGIC then []
    else
      match setupkvm data m with
      | .ok (some d, m') => loadCalls read elf.phnum elf.phoff d m' 0
      | _ => []

theorem loadImage_runs {data : ℕ} (hd : LinkerData data) (hn : m.free.Nodup) (read : ReadFn) :
    (∀ c ∈ imageCalls data read m, c.Safe m read) ∧
      ∃ m' r, loadImage data read m = .ok (m', r) ∧ (r = none → Evolves noDir m noDir m') ∧
        ∀ img, r = some img → ImageOk m img.dir m' img.sz ∧ img.sz = programSize read := by
  unfold loadImage programSize imageCalls
  cases hbs : readFully read 0 ElfHdr.size with
  | none => exact ⟨nofun, m, none, rfl, fun _ => Evolves.refl _ _, nofun⟩
  | some bs =>
    simp only
    split_ifs with hmagic
    · exact ⟨nofun, m, none, rfl, fun _ => Evolves.refl _ _, nofun⟩
    · rcases setupkvm_spec hd m with ⟨d, m1, hok, hF⟩ | ⟨m1, hok, hE⟩
      · rw [hok]
        obtain ⟨hcalls, d', m2, r, hl, hE, himg⟩ := loadSegments_runs hn hF.imageOk read
          (ElfHdr.ofBytes bs).phnum (ElfHdr.ofBytes bs).phoff
        simp only [hl]
        refine ⟨hcalls, ?_⟩
        cases r with
        | none => exact ⟨_, none, rfl, fun _ => hE.trans (freeDir_evolves d' m2), nofun⟩
        | some sz =>
          refine ⟨m2, _, rfl, nofun, fun img hi => ?_⟩
          obtain rfl := Option.some.inj hi
          exact himg sz rfl
      · rw [hok]
        exact ⟨nofun, m1, none, rfl, fun _ => hE, nofun⟩

theorem loadImage_spec {data : ℕ} {r : Option Image} (hd : LinkerData data) (hn : m.free.Nodup)
    (h : loadImage data read m = .ok (m', r)) :
    (r = none → Evolves noDir m noDir m') ∧
      ∀ img, r = some img → ImageOk m img.dir m' img.sz ∧ img.sz = programSize read := by
  obtain ⟨-, m1, r1, hok, hspec⟩ := loadImage_runs hd hn read
  rw [hok] at h
  obtain ⟨rfl, rfl⟩ := Prod.mk.inj (Except.ok.inj h)
  exact hspec

/-! ### The stack -/

/-- A directory with the stack in place: everything below the top is mapped, the lower of the two
stack pages without access for the user. -/
structure StackOk (d : PageDir) (top : ℕ) : Prop where
  lo : 2 * PGSIZE ≤ top
  hi : top < KERNBASE
  align : top % PGSIZE = 0
  kernel : KernelHalf d
  table : ∀ b, b < top → d.table (PDX b) ≠ none
  user : ∀ b, b < KERNBASE → (d.User b ↔ b < top - 2 * PGSIZE ∨ top - PGSIZE ≤ b ∧ b < top)

/-- The size may be rounded up. -/
theorem ImageOk.round (h : ImageOk m₀ d m sz) (hK : PGROUNDUP sz < KERNBASE) :
    ImageOk m₀ d m (PGROUNDUP sz) := by
  have hR := PGROUNDUP_eq h.size.le
  have hRR : PGROUNDUP (PGROUNDUP sz) = PGROUNDUP sz := by
    rw [PGROUNDUP_eq hK.le]
    omega
  exact ⟨h.evolves, h.kernel, hK, by rw [hRR]; exact h.user, by rw [hRR]; exact h.rest⟩

/-- `clearpteu` takes the access to one page. -/
theorem clearpteu_ok (ha : addr < KERNBASE) (hp : d.pte addr ≠ none) :
    ∃ d', clearpteu d addr = .ok d' ∧ d'.held = d.held ∧
      (∀ i, d'.table i = none ↔ d.table i = none) ∧
      (∀ b, SameEntry b addr → ¬ d'.User b) ∧ ∀ b, ¬ SameEntry b addr → d'.pte b = d.pte b := by
  obtain ⟨p, hp⟩ := Option.ne_none_iff_exists'.mp hp
  have htab : d.table (PDX addr) ≠ none := by
    intro ht
    rw [PageDir.pte_of_table_none ht] at hp
    cases hp
  obtain ⟨t, ht⟩ := Option.ne_none_iff_exists'.mp htab
  refine ⟨d.setPte addr (some { p with perm.user := false }), ?_, ?_, fun i => ?_, fun b hb => ?_,
    fun b hb => ?_⟩
  · unfold clearpteu
    rw [ht, hp]
    rfl
  · rw [PageDir.held_setPte htab ha]
    refine Function.update_eq_self_iff.mpr ?_
    rw [PageDir.held_page ha, hp]
    rfl
  · rw [← PageDir.tables_eq_none_iff, ← PageDir.tables_eq_none_iff, PageDir.tables_setPte]
  · rintro ⟨q, hq, hu⟩
    rw [PageDir.pte_setPte htab, if_pos hb] at hq
    rw [← Option.some.inj hq] at hu
    cases hu
  · rw [PageDir.pte_setPte htab, if_neg hb]

theorem stackPages_runs (hn : m₀.free.Nodup) (hI : ImageOk m₀ d m sz) :
    ∃ d' m' r, stackPages d m sz = .ok (d', m', r) ∧ Evolves noDir m₀ d'.held m' ∧
      ∀ top, r = some top → StackOk d' top ∧ top = PGROUNDUP sz + 2 * PGSIZE := by
  have hsize := hI.size
  have hR := PGROUNDUP_eq hsize.le
  have hnowrap : (PGROUNDUP sz + 2 * PGSIZE) % 2 ^ 32 = PGROUNDUP sz + 2 * PGSIZE := by
    refine Nat.mod_eq_of_lt ?_
    simp only [KERNBASE, PGSIZE] at *
    omega
  unfold stackPages
  rw [hnowrap]
  by_cases hK : PGROUNDUP sz + 2 * PGSIZE ≥ KERNBASE
  · -- there is no room below the kernel
    unfold allocuvm
    rw [if_pos hK]
    exact ⟨d, m, none, rfl, hI.evolves, nofun⟩
  obtain ⟨d1, m1, top, ha, hE, himg⟩ :=
    allocuvm_image hn (hI.round (by omega)) (PGROUNDUP sz + 2 * PGSIZE)
  simp only [ha]
  by_cases h0 : top = 0
  · rw [if_pos h0]
    exact ⟨d1, m1, none, rfl, hE, nofun⟩
  rw [if_neg h0]
  obtain ⟨htop, hI1⟩ := himg h0
  have htop' : top = PGROUNDUP sz + 2 * PGSIZE := by omega
  have hround : PGROUNDUP top = top := by
    rw [PGROUNDUP_eq hI1.size.le, htop']
    simp only [PGSIZE]
    omega
  have hlo : 2 * PGSIZE ≤ top := by omega
  have halign : top % PGSIZE = 0 := by
    simp only [PGSIZE] at *
    omega
  have hhi := hI1.size
  have hguard : top - 2 * PGSIZE < KERNBASE := by omega
  -- the guard page was mapped by `allocuvm`
  have hpte : d1.pte (top - 2 * PGSIZE) ≠ none := by
    obtain ⟨p, hp, -⟩ := hI1.user (top - 2 * PGSIZE) (by simp only [PGSIZE] at *; omega)
    rw [hp]
    exact nofun
  obtain ⟨d2, hok, hheld, htab, hnot, hsame⟩ := clearpteu_ok hguard hpte
  rw [hok]
  have hentry : ∀ b, b < 2 ^ 32 →
      (SameEntry b (top - 2 * PGSIZE) ↔ top - 2 * PGSIZE ≤ b ∧ b < top - PGSIZE) := by
    intro b hb
    rw [sameEntry_iff hb (by simp only [KERNBASE] at hguard; omega)]
    simp only [PGSIZE] at *
    omega
  refine ⟨d2, m1, some top, rfl, by rw [hheld]; exact hE, fun top' ht => ?_⟩
  obtain rfl := Option.some.inj ht
  refine ⟨⟨hlo, hhi, halign, ⟨fun b p h1 h2 hp => ?_, fun b h1 h2 => ?_⟩, fun b hb => ?_,
    fun b hb => ?_⟩, htop'⟩
  · rw [hsame b fun hs => ?_] at hp
    · exact hI1.kernel.user b p h1 h2 hp
    · have := (hentry b h2).mp hs
      omega
  · rw [← hI1.kernel.tables b h1 h2, Ne, Ne, PageDir.tables_eq_none_iff,
      PageDir.tables_eq_none_iff, htab]
  · rw [Ne, htab]
    exact (hI1.user b (by rw [hround]; exact hb)).table
  · have hb32 : b < 2 ^ 32 := by
      simp only [KERNBASE] at hb
      omega
    -- the user has every page below the top except the guard page
    by_cases hs : SameEntry b (top - 2 * PGSIZE)
    · have := (hentry b hb32).mp hs
      exact iff_of_false (hnot b hs) (by omega)
    · have hs' : ¬ (top - 2 * PGSIZE ≤ b ∧ b < top - PGSIZE) :=
        fun hb' => hs ((hentry b hb32).mpr hb')
      unfold PageDir.User
      rw [hsame b hs]
      by_cases hbt : b < top
      · refine iff_of_true (hI1.user b (by rw [hround]; exact hbt)) ?_
        simp only [PGSIZE] at *
        omega
      · refine iff_of_false (fun ⟨p, hp, _⟩ => ?_) (by omega)
        rw [hI1.rest b (by rw [hround]; omega) hb] at hp
        cases hp

theorem stackPages_spec {r : Option ℕ} (hn : m₀.free.Nodup) (hI : ImageOk m₀ d m sz)
    (h : stackPages d m sz = .ok (d', m', r)) :
    Evolves noDir m₀ d'.held m' ∧
      ∀ top, r = some top → StackOk d' top ∧ top = PGROUNDUP sz + 2 * PGSIZE := by
  obtain ⟨d1, m1, r1, hok, hspec⟩ := stackPages_runs hn hI
  rw [hok] at h
  obtain ⟨rfl, rfl, rfl⟩ : d1 = d' ∧ m1 = m' ∧ r1 = r := by simpa using h
  exact hspec

theorem uint_lt (a : ℤ) : uint a < 2 ^ 32 := by
  unfold uint
  omega

theorem argSp_lt (sp : ℕ) (s : List UInt8) : argSp sp s < 2 ^ 32 := by
  have h := uint_lt (sp - (s.length + 1))
  unfold argSp
  omega

/-- Where a string goes: to the bytes below `sp`, or to the kernel's half when there are not enough. -/
theorem argSp_cases {sp : ℕ} {s : List UInt8} (hsp : sp < KERNBASE) (hlen : s.length < KERNBASE) :
    (s.length + 1 ≤ sp ∧ argSp sp s + (s.length + 1) ≤ sp ∧ sp < argSp sp s + (s.length + 1) + 4) ∨
      sp < s.length + 1 ∧ KERNBASE ≤ argSp sp s := by
  unfold argSp uint
  simp only [KERNBASE] at *
  by_cases h : s.length + 1 ≤ sp
  · refine Or.inl ⟨h, ?_⟩
    rw [Int.emod_eq_of_lt (by omega) (by omega)]
    omega
  · refine Or.inr ⟨by omega, ?_⟩
    have hwrap : ((sp : ℤ) - (s.length + 1)) % 2 ^ 32 = sp - (s.length + 1) + 2 ^ 32 := by
      rw [← Int.add_emod_right, Int.emod_eq_of_lt (by omega) (by omega)]
    rw [hwrap]
    omega

theorem ustackBytes_length (argc : ℕ) (ptrs : List ℕ) (sp : ℕ) :
    (ustackBytes argc ptrs sp).length = 4 * (ptrs.length + 4) := by
  have hword : ∀ vs : List ℕ, (vs.flatMap wordBytes).length = 4 * vs.length := by
    intro vs
    induction vs with
    | nil => rfl
    | cons v vs ih =>
      rw [List.flatMap_cons, List.length_append, wordBytes_length, ih, List.length_cons]
      omega
  unfold ustackBytes
  rw [hword]
  simp only [List.length_append, List.length_cons, List.length_nil]
  omega

/-- The stack pointer of a program whose strings are in the stack page. -/
theorem ustackSp_eq {argc sp : ℕ} (hS : StackOk d top) (hlo : top - PGSIZE ≤ sp) (hhi : sp ≤ top)
    (hargc : argc ≤ MAXARG) : ustackSp argc sp = sp - (argc + 4) * 4 := by
  have h1 := hS.lo
  have h2 := hS.hi
  unfold ustackSp uint
  simp only [KERNBASE, PGSIZE, MAXARG] at *
  rw [Int.emod_eq_of_lt (by omega) (by omega)]
  omega

theorem pushArgs_evolves {argc sp : ℕ} {ptrs : List ℕ} {r : Option ℕ} (hK : KernelHalf d)
    (h : pushArgs d argv argc ptrs sp m = .ok (m', r)) : Evolves d.held m d.held m' := by
  induction argv generalizing argc ptrs sp m with
  | nil =>
    unfold pushArgs at h
    cases hc : copyout d (ustackSp argc sp) (ustackBytes argc ptrs sp) m with
    | error e =>
      rw [hc] at h
      cases h
    | ok r1 =>
      obtain ⟨m1, ok⟩ := r1
      rw [hc] at h
      have hE := copyout_evolves (uint_lt _) hK hc
      cases ok <;> · obtain rfl := (Prod.mk.inj (Except.ok.inj h)).1; exact hE
  | cons s argv ih =>
    unfold pushArgs at h
    split_ifs at h
    · obtain rfl := (Prod.mk.inj (Except.ok.inj h)).1
      exact Evolves.refl _ _
    · cases hc : copyout d (argSp sp s) (s ++ [0]) m with
      | error e =>
        rw [hc] at h
        cases h
      | ok r1 =>
        obtain ⟨m1, ok⟩ := r1
        rw [hc] at h
        have hE := copyout_evolves (argSp_lt sp s) hK hc
        cases ok with
        | false =>
          obtain rfl := (Prod.mk.inj (Except.ok.inj h)).1
          exact hE
        | true => exact hE.trans (ih h)

/-- A stack that cannot be built takes nothing. -/
theorem buildStack_none (hn : m₀.free.Nodup) (hI : ImageOk m₀ d m sz)
    (h : buildStack d m sz argv = .ok (m', none)) : Evolves noDir m₀ noDir m' := by
  unfold buildStack at h
  cases hs : stackPages d m sz with
  | error e =>
    rw [hs] at h
    cases h
  | ok r =>
    obtain ⟨d1, m1, r1⟩ := r
    rw [hs] at h
    obtain ⟨hE, hst⟩ := stackPages_spec hn hI hs
    cases r1 with
    | none =>
      obtain rfl := (Prod.mk.inj (Except.ok.inj h)).1
      exact hE.trans (freeDir_evolves d1 m1)
    | some top =>
      simp only at h
      cases hp : pushArgs d1 argv 0 [] top m1 with
      | error e =>
        rw [hp] at h
        cases h
      | ok r2 =>
        obtain ⟨m2, r3⟩ := r2
        rw [hp] at h
        have hE2 := pushArgs_evolves (hst top rfl).1.kernel hp
        cases r3 with
        | none =>
          obtain rfl := (Prod.mk.inj (Except.ok.inj h)).1
          exact (hE.trans hE2).trans (freeDir_evolves d1 m2)
        | some sp => cases h

/-! ### A file that is not a program -/

/-- A file system in which every file is empty. -/
def emptyFiles : FileSys where
  namei := fun _ => some 7
  readi := fun _ _ _ => some []

end OsSemester.Xv6
