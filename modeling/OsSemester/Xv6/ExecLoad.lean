import OsSemester.Xv6.Spec.CloneDir
import OsSemester.Xv6.Spec.Program

/-!
# The loader of `exec` survives every file

Whatever the headers of a file say, `loaduvm` is only called for a range below the size of the program,
where all pages are mapped: the end of a segment does not wrap, and `allocuvm` never returns less than
it was asked for.  So no part of the loader panics, the bytes of the file go to pages of the new
directory, and a loader that fails has given all of them back: `exec_load_survives`.
-/

namespace OsSemester.Xv6

variable {d d' : PageDir} {m m' : PhysMem} {sz data a n k oldsz newsz addr off : ℕ}
variable {read : ReadFn}

/-! ### The loading part of `exec` -/

/-- `exec` from the header of the file up to the guard page; at `bad` the directory is freed.  The
result is the directory and the top of the stack. -/
def execLoad (data : ℕ) (read : ReadFn) (m : PhysMem) :
    Except VmHalt (PhysMem × Option (PageDir × ℕ)) :=
  match loadImage data read m with
  | .error e => .error e
  | .ok (m', none) => .ok (m', none)
  | .ok (m', some img) =>
    match stackPages img.dir m' img.sz with
    | .error e => .error e
    | .ok (d', m'', none) => .ok (freeDir d' m'', none)
    | .ok (d', m'', some top) => .ok (m'', some (d', top))

/-- `exec` goes on with the arguments. -/
theorem buildStack_of_load {img : Image} (h : loadImage data read m = .ok (m', some img))
    (argv : List (List UInt8)) : buildStack img.dir m' img.sz argv =
      match execLoad data read m with
      | .error e => .error e
      | .ok (m'', none) => .ok (m'', none)
      | .ok (m'', some (d', top)) =>
        match pushArgs d' argv 0 [] top m'' with
        | .error e => .error e
        | .ok (m₃, none) => .ok (freeDir d' m₃, none)
        | .ok (m₃, some sp) => .ok (m₃, some (d', top, sp)) := by
  unfold buildStack execLoad
  rw [h]
  simp only
  cases stackPages img.dir m' img.sz with
  | error e => rfl
  | ok r =>
    obtain ⟨d', m'', top⟩ := r
    cases top <;> rfl

/-- When the loader fails, `exec` returns -1 with the memory that the loader leaves. -/
theorem exec_of_load_none {σ : Host} {cur : Slot} {fs : FileSys} {path : List UInt8} {ip : Inode}
    (hip : fs.namei path = some ip) (h : execLoad data (fs.readi ip) σ.mem = .ok (m', none))
    (argv : List (List UInt8)) :
    ∃ σ', σ.exec data fs cur path argv = .ok (σ', false) ∧ σ'.mem = m' := by
  unfold Host.exec
  rw [hip]
  have hmem : ((σ.beginOp.unshare cur).iget ip).mem = σ.mem := rfl
  simp only [hmem]
  cases hl : loadImage data (fs.readi ip) σ.mem with
  | error e =>
    rw [execLoad, hl] at h
    cases h
  | ok r =>
    obtain ⟨m1, img⟩ := r
    cases img with
    | none =>
      rw [execLoad, hl] at h
      obtain rfl := (Prod.mk.inj (Except.ok.inj h)).1
      exact ⟨_, rfl, rfl⟩
    | some img =>
      have hstack : buildStack img.dir m1 img.sz argv = .ok (m', none) := by
        rw [buildStack_of_load hl, h]
      have hkept : (({ (σ.beginOp.unshare cur).iget ip with mem := m1 }.iput ip).endOp).mem = m1 := rfl
      simp only [hkept, hstack]
      exact ⟨_, rfl, rfl⟩

/-! ### The loops end -/

/-- More fuel makes no difference to `deallocuvm`. -/
theorem deallocLoop_more (ha : a % PGSIZE = 0) (h : oldsz ≤ a + n * PGSIZE) (k : ℕ) :
    deallocLoop oldsz (n + k) a d m = deallocLoop oldsz n a d m := by
  induction n generalizing a d m with
  | zero =>
    have hge : ¬ a < oldsz := by omega
    cases k with
    | zero => rfl
    | succ k =>
      rw [Nat.zero_add]
      exact if_neg hge
  | succ n ih =>
    have hnext : (a + PGSIZE) % PGSIZE = 0 := by
      rw [Nat.add_mod_right, ha]
    have hfuel : oldsz ≤ a + PGSIZE + n * PGSIZE := by
      rw [Nat.add_assoc, Nat.add_comm PGSIZE, ← Nat.succ_mul]
      exact h
    rw [Nat.add_right_comm, deallocLoop, deallocLoop]
    split_ifs with hlt
    · split
      · apply ih
        · simp only [PGSIZE]
          omega
        · simp only [PGSIZE] at *
          omega
      · split
        · exact ih hnext hfuel
        · exact ih hnext hfuel
    · rfl

/-- More fuel makes no difference to `allocuvm`. -/
theorem allocLoop_more (h : newsz ≤ a + n * PGSIZE) (k : ℕ) :
    allocLoop oldsz newsz (n + k) a d m = allocLoop oldsz newsz n a d m := by
  induction n generalizing a d m with
  | zero =>
    have hge : ¬ a < newsz := by omega
    cases k with
    | zero => rfl
    | succ k =>
      rw [Nat.zero_add]
      exact if_neg hge
  | succ n ih =>
    have hfuel : newsz ≤ a + PGSIZE + n * PGSIZE := by
      rw [Nat.add_assoc, Nat.add_comm PGSIZE, ← Nat.succ_mul]
      exact h
    rw [Nat.add_right_comm, allocLoop, allocLoop]
    split_ifs with hlt
    · cases kalloc m with
      | none => rfl
      | some r =>
        simp only
        split
        · rfl
        · exact ih hfuel
        · rfl
    · rfl

/-- More fuel makes no difference to `loaduvm`. -/
theorem loadLoop_more {i : ℕ} (h : sz ≤ i + n * PGSIZE) (k : ℕ) :
    loadLoop d addr read off sz (n + k) i m = loadLoop d addr read off sz n i m := by
  induction n generalizing i m with
  | zero =>
    have hge : ¬ i < sz := by omega
    cases k with
    | zero => rfl
    | succ k =>
      rw [Nat.zero_add]
      exact if_neg hge
  | succ n ih =>
    have hfuel : sz ≤ i + PGSIZE + n * PGSIZE := by
      rw [Nat.add_assoc, Nat.add_comm PGSIZE, ← Nat.succ_mul]
      exact h
    rw [Nat.add_right_comm, loadLoop, loadLoop]
    split_ifs with hlt
    · cases d.table (PDX (addr + i)) with
      | none => rfl
      | some t =>
        simp only
        split
        · rfl
        · split_ifs
          · exact ih hfuel
          · rfl
    · rfl

/-- The loops of the loader come to their end before the fuel does. -/
structure LoopsEnd : Prop where
  dealloc : ∀ oldsz newsz k d m, deallocLoop oldsz (oldsz / PGSIZE + 1 + k) (PGROUNDUP newsz) d m =
    deallocLoop oldsz (oldsz / PGSIZE + 1) (PGROUNDUP newsz) d m
  alloc : ∀ oldsz newsz k d m, allocLoop oldsz newsz (newsz / PGSIZE + 1 + k) (PGROUNDUP oldsz) d m =
    allocLoop oldsz newsz (newsz / PGSIZE + 1) (PGROUNDUP oldsz) d m
  load : ∀ addr read off sz k d m, loadLoop d addr read off sz (sz / PGSIZE + 1 + k) 0 m =
    loadLoop d addr read off sz (sz / PGSIZE + 1) 0 m

theorem loopsEnd : LoopsEnd := by
  have hfuel : ∀ sz a : ℕ, sz ≤ a + (sz / PGSIZE + 1) * PGSIZE := by
    intro sz a
    simp only [PGSIZE]
    omega
  refine ⟨fun oldsz newsz k d m => ?_, fun oldsz newsz k d m => ?_,
    fun addr read off sz k d m => ?_⟩
  · exact deallocLoop_more (Nat.mul_mod_left _ _) (hfuel _ _) k
  · exact allocLoop_more (hfuel _ _) k
  · exact loadLoop_more (hfuel _ _) k

/-! ### The loader -/

/-- A call of `loaduvm` returns; its addresses do not reach the kernel, and the bytes of the file go to
the pages of the new directory that are mapped there. -/
structure LoadCall.Confined (m : PhysMem) (read : ReadFn) (c : LoadCall) : Prop where
  taken : TakenFrom m c.dir c.mem
  range : c.ph.vaddr + c.ph.filesz < KERNBASE
  writes : ∃ m' ok, loaduvm c.dir c.mem c.ph.vaddr read c.ph.off c.ph.filesz = .ok (m', ok) ∧
    m'.free = c.mem.free ∧ ∀ f, m'.data f ≠ c.mem.data f → ∃ b p, c.ph.vaddr ≤ b ∧
      b < c.ph.vaddr + c.ph.filesz ∧ c.dir.pte b = some p ∧ p.page = f

theorem LoadCall.Safe.confined {c : LoadCall} (h : c.Safe m read) (hn : m.free.Nodup) :
    c.Confined m read := by
  obtain ⟨m', ok, hok, hL⟩ := h.runs
  exact ⟨h.evolves.takenFrom hn, h.range, m', ok, hok, hL.free, hL.changed⟩

/-- **The loader of `exec` survives every file.** -/
theorem exec_load_survives (hd : LinkerData data) (read : ReadFn) (hn : m.free.Nodup)
    (hk : ∀ f ∈ m.free, m.Kfreeable f) :
    LoopsEnd ∧ (∀ c ∈ imageCalls data read m, c.Confined m read) ∧
      ∃ m' r, execLoad data read m = .ok (m', r) ∧ m'.panicked = m.panicked ∧
        (r = none → GivenBack m m') ∧ ∀ d top, r = some (d, top) → TakenFrom m d m' := by
  obtain ⟨hcalls, m1, r1, hl, hnone, hsome⟩ := loadImage_runs hd hn read
  refine ⟨loopsEnd, fun c hc => (hcalls c hc).confined hn, ?_⟩
  unfold execLoad
  rw [hl]
  cases r1 with
  | none =>
    have hG := (hnone rfl).givenBack hn
    exact ⟨m1, none, rfl, hG.noPanic hk, fun _ => hG, nofun⟩
  | some img =>
    obtain ⟨d2, m2, r2, hst, hE, -⟩ := stackPages_runs hn (hsome img rfl).1
    simp only [hst]
    cases r2 with
    | none =>
      have hG := (hE.trans (freeDir_evolves d2 m2)).givenBack hn
      exact ⟨_, none, rfl, hG.noPanic hk, fun _ => hG, nofun⟩
    | some top =>
      have hT := hE.takenFrom hn
      refine ⟨m2, _, rfl, hT.noPanic hk, nofun, fun d top' h => ?_⟩
      obtain ⟨rfl, -⟩ := Prod.mk.inj (Option.some.inj h)
      exact hT

/-- **A program is loaded**, when there are pages for its tables, its segments and its stack. -/
theorem execLoad_program (hd : LinkerData data) (hn : m.free.Nodup) (hp : IsProgram read)
    (hroom : NPDENTRIES + 1 + (2 + pagesFor (programSize read)) ≤ m.free.length) :
    ∃ m' d top, execLoad data read m = .ok (m', some (d, top)) ∧ StackOk d top := by
  obtain ⟨m1, img, hl, hI, hsize, hA⟩ := loadImage_program hd hn hp hroom
  have hfit := hp.room
  rw [← hsize] at hfit
  obtain ⟨d, m2, top, hst, hS, -⟩ := stackPages_program hn hI hfit hA
  refine ⟨m2, d, top, ?_, hS⟩
  simp only [execLoad, hl, hst]

/-- With a program header that is loaded, `loaduvm` is called. -/
theorem imageCalls_small (hd : LinkerData data) (hn : m.free.Nodup)
    (hroom : NPDENTRIES + 1 + 1 ≤ m.free.length) : imageCalls data smallProgram m ≠ [] := by
  obtain ⟨d, m1, hset, hF, hA⟩ := setupkvm_ample hd hroom
  obtain ⟨d2, m2, hok, -, -⟩ := allocuvm_ample (k := 0) (j := 1) hn hF.imageOk (show 16 < KERNBASE by decide)
    (by decide) hA (by decide)
  have hbytes : ∃ bs, readFully smallProgram 0 ElfHdr.size = some bs ∧
      (ElfHdr.ofBytes bs).magic = ELF_MAGIC ∧ (ElfHdr.ofBytes bs).phnum = 1 ∧ (ElfHdr.ofBytes bs).phoff = 52 :=
    ⟨_, rfl, by decide, by decide, by decide⟩
  have hhdr : ∃ bs, readFully smallProgram 52 ProgHdr.size = some bs ∧
      ProgHdr.ofBytes bs = ⟨ELF_PROG_LOAD, 84, 0, 8, 16⟩ := ⟨_, rfl, by rfl⟩
  obtain ⟨bs, hbs, hmagic, hphnum, hphoff⟩ := hbytes
  obtain ⟨bs', hbs', hph⟩ := hhdr
  have hmax : max 0 16 = 16 := rfl
  rw [hmax] at hok
  rw [imageCalls, hbs]
  simp only [if_neg (not_not.mpr hmagic), hset, hphnum, hphoff, loadCalls, hbs', hph]
  rw [if_neg (by decide), if_neg (by decide), if_neg (by decide)]
  rw [show (0 + 16) % 2 ^ 32 = 16 from rfl, hok]
  exact List.cons_ne_nil _ _

/-- A program with one segment, and many free pages: it is loaded. -/
theorem exec_load_survives_small : imageCalls 0x80108000 smallProgram roomyMem ≠ [] ∧ LoopsEnd ∧
    (∀ c ∈ imageCalls 0x80108000 smallProgram roomyMem, c.Confined roomyMem smallProgram) ∧
    ∃ m' d top, execLoad 0x80108000 smallProgram roomyMem = .ok (m', some (d, top)) ∧
      m'.panicked = false ∧ TakenFrom roomyMem d m' := by
  have hn : roomyMem.free.Nodup := pool_roomy.nodup
  have hk : ∀ f : ℕ, f ∈ roomyMem.free → roomyMem.Kfreeable f := by
    intro f hf
    obtain ⟨h1, h2⟩ := List.mem_range'_1.mp hf
    show 4096 ≤ f * 4096 ∧ f * 4096 < 0xE000000
    omega
  have hlen : roomyMem.free.length = 1200 := List.length_range'
  obtain ⟨hend, hcalls, m', r, hok, hpanic, -, hsome⟩ := exec_load_survives linkerData smallProgram hn hk
  obtain ⟨m1, d, top, hok', -⟩ := execLoad_program linkerData hn isProgram_small
    (by rw [hlen, programSize_small]; decide)
  rw [hok'] at hok
  obtain ⟨rfl, rfl⟩ := Prod.mk.inj (Except.ok.inj hok)
  exact ⟨imageCalls_small linkerData hn (by rw [hlen]; decide), hend, hcalls, m1, d, top, hok', hpanic,
    hsome d top rfl⟩

end OsSemester.Xv6
