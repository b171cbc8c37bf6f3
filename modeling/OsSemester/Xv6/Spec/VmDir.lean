import OsSemester.Xv6.UserSpace

/-!
# Making, copying and freeing whole directories (`setupkvm`, `copyuvm`, `freevm`)

A directory that cannot be completed is freed again, whatever has been mapped in it so far: `freeDir`
gives back every page the directory holds.
-/

namespace OsSemester.Xv6

variable {d d' : PageDir} {m m' : PhysMem} {a n sz data : ℕ} {pa : Page} {perm : Perm}

/-- A directory that is not there holds no pages. -/
def noDir : Use → Option Page := fun _ => none

/-- The free pages are the ones of before, each of them once, and no other page has changed. -/
structure GivenBack (m m' : PhysMem) : Prop where
  free : ∀ f, f ∈ m'.free ↔ f ∈ m.free
  nodup : m'.free.Nodup
  kept : ∀ f, f ∉ m.free → m'.data f = m.data f
  noPanic : (∀ f ∈ m.free, m.Kfreeable f) → m'.panicked = m.panicked

/-- The pages of a new directory are distinct, they and no others have left the free list, and no page
that was not free has changed. -/
structure TakenFrom (m : PhysMem) (d : PageDir) (m' : PhysMem) : Prop where
  pool : Pool m'.free d.held
  taken : ∀ f, f ∈ m.free ↔ f ∈ m'.free ∨ ∃ u, d.held u = some f
  kept : ∀ f, f ∉ m.free → m'.data f = m.data f
  noPanic : (∀ f ∈ m.free, m.Kfreeable f) → m'.panicked = m.panicked

theorem stock_noDir (free : List Page) : stock free noDir = {f | f ∈ free} := by
  ext f
  constructor
  · rintro (hf | ⟨u, hu⟩)
    · exact hf
    · cases hu
  · exact Or.inl

theorem Evolves.takenFrom (h : Evolves noDir m d.held m') (hn : m.free.Nodup) :
    TakenFrom m d m' := by
  refine ⟨h.exchange.pool ⟨hn, nofun, nofun⟩, fun f => ?_, fun f hf => h.data f ?_,
    fun hall => h.panicked fun f hf => hall f ?_⟩
  · have hs : f ∈ stock m'.free d.held ↔ f ∈ stock m.free noDir := by rw [h.exchange.stock]
    rw [stock_noDir] at hs
    exact hs.symm
  · rwa [stock_noDir]
  · rwa [stock_noDir] at hf

theorem Evolves.givenBack (h : Evolves noDir m noDir m') (hn : m.free.Nodup) : GivenBack m m' := by
  have hP : Pool m.free noDir := ⟨hn, nofun, nofun⟩
  refine ⟨fun f => h.exchange.mem_free_iff hP, (h.exchange.pool hP).nodup, fun f hf => h.data f ?_,
    fun hall => h.panicked fun f hf => hall f ?_⟩
  · rwa [stock_noDir]
  · rwa [stock_noDir] at hf

/-! ### `freevm` -/

/-- The holders after the tables of the entries in `is` have been freed. -/
def withoutTables (is : List (Fin NPDENTRIES)) (held : Use → Option Page) : Use → Option Page
  | .table i => if i ∈ is then none else held (.table i)
  | u => held u

theorem freeTables_evolves {is : List (Fin NPDENTRIES)} (hn : is.Nodup) {held : Use → Option Page}
    (hH : ∀ i, i ∈ is → held (.table i) = d.tables i) :
    Evolves held m (withoutTables is held) (freeTables d is m) := by
  induction is generalizing held m with
  | nil =>
    have hw : withoutTables [] held = held := by
      funext u
      cases u <;> simp [withoutTables]
    rw [hw]
    exact Evolves.refl _ _
  | cons i is ih =>
    obtain ⟨hi, hn⟩ := List.nodup_cons.mp hn
    have hHi := hH i (List.mem_cons_self ..)
    unfold freeTables
    cases ht : d.table i with
    | none =>
      -- there is no table to give back
      have hnone : held (.table i) = none := by
        rw [hHi, PageDir.tables, ht]
        rfl
      have hw : withoutTables (i :: is) held = withoutTables is held := by
        funext u
        cases u with
        | table j =>
          simp only [withoutTables, List.mem_cons]
          by_cases hj : j = i
          · rw [hj, hnone, if_pos (Or.inl rfl), ite_self]
          · simp only [hj, false_or]
        | _ => rfl
      rw [hw]
      exact ih hn fun j hj => hH j (List.mem_cons_of_mem _ hj)
    | some t =>
      -- the table is given back
      have hsome : held (.table i) = some t.page := by
        rw [hHi, PageDir.tables, ht]
        rfl
      have hw : withoutTables (i :: is) held =
          withoutTables is (Function.update held (.table i) none) := by
        funext u
        cases u with
        | table j =>
          simp only [withoutTables, List.mem_cons]
          by_cases hj : j = i
          · rw [hj, if_pos (Or.inl rfl), Function.update_self, ite_self]
          · have hne : Use.table j ≠ Use.table i := fun he => hj (Use.table.inj he)
            rw [Function.update_of_ne hne]
            simp only [hj, false_or]
        | dir =>
          have hne : Use.dir ≠ Use.table i := fun h => by cases h
          exact (Function.update_of_ne hne none held).symm
        | page j k =>
          have hne : Use.page j k ≠ Use.table i := fun h => by cases h
          exact (Function.update_of_ne hne none held).symm
      rw [hw]
      refine (Evolves.give hsome).trans (ih hn fun j hj => ?_)
      have hne : Use.table j ≠ Use.table i := fun he => hi (Use.table.inj he ▸ hj)
      rw [Function.update_of_ne hne]
      exact hH j (List.mem_cons_of_mem _ hj)

/-- **`freevm` gives back every page of a directory.** -/
theorem freeDir_evolves (d : PageDir) (m : PhysMem) : Evolves d.held m noDir (freeDir d m) := by
  obtain ⟨-, hS⟩ := deallocuvm_eq (d := d) (m := m) (show 0 < KERNBASE by decide) le_rfl
  obtain ⟨d1, hd1⟩ : ∃ d1, d1 = (deallocuvm d m KERNBASE 0).1 := ⟨_, rfl⟩
  rw [← hd1] at hS
  -- the user pages are gone
  have hheld : d1.held = fun u => Use.casesOn u (some d.page) d.tables fun _ _ => none := by
    funext u
    cases u with
    | dir => exact congrArg some hS.page
    | table i => exact congrFun hS.tables i
    | page i j =>
      by_cases hi : (i : ℕ) < 512
      · obtain ⟨b, hb, rfl, rfl⟩ := PageDir.exists_address i j hi
        have hr : PGROUNDDOWN b < KERNBASE := by
          unfold PGROUNDDOWN
          simp only [KERNBASE, PGSIZE] at *
          omega
        rw [PageDir.held_page hb, hS.pte b (by simp only [KERNBASE] at hb; omega),
          if_pos ⟨Nat.zero_le _, hr⟩]
        rfl
      · simp only [PageDir.held, if_neg hi]
  have hT : Evolves d1.held _ _ (freeTables d1 (List.finRange NPDENTRIES)
      (deallocuvm d m KERNBASE 0).2.1) :=
    freeTables_evolves (List.nodup_finRange _) fun i _ => rfl
  have hdir : withoutTables (List.finRange NPDENTRIES) d1.held .dir = some d.page := by
    rw [hheld]
    rfl
  have hlast : Function.update (withoutTables (List.finRange NPDENTRIES) d1.held) .dir none =
      noDir := by
    funext u
    rw [hheld]
    cases u with
    | dir => exact Function.update_self ..
    | table i =>
      have hne : Use.table i ≠ Use.dir := fun h => by cases h
      rw [Function.update_of_ne hne]
      simp only [withoutTables, List.mem_finRange, if_true, noDir]
    | page i j =>
      have hne : Use.page i j ≠ Use.dir := fun h => by cases h
      rw [Function.update_of_ne hne]
      rfl
  have hG := Evolves.give (m := freeTables d1 (List.finRange NPDENTRIES)
    (deallocuvm d m KERNBASE 0).2.1) hdir
  rw [hlast] at hG
  have hall := (hS.evolves.trans hT).trans hG
  rw [hd1] at hall
  exact hall

/-! ### The kernel's half -/

/-- The kernel's mappings: the tables that are there, and that the user has no access. -/
structure KernelHalf (d : PageDir) : Prop where
  user : ∀ b p, KERNBASE ≤ b → b < 2 ^ 32 → d.pte b = some p → p.perm.user = false
  tables : ∀ b, KERNBASE ≤ b → b < 2 ^ 32 →
    (d.tables (PDX b) ≠ none ↔ b < KERNBASE + PHYSTOP ∨ DEVSPACE ≤ b)

/-- Mapping user pages leaves the kernel's half alone. -/
theorem KernelHalf.grown {perm : ℕ → Perm} {c : ℕ → Bytes PGSIZE} {lo hi : ℕ} (h : KernelHalf d)
    (hG : Grown perm c lo hi d m d' m') (hhi : hi ≤ KERNBASE) : KernelHalf d' := by
  refine ⟨fun b p h1 h2 hp => ?_, fun b h1 h2 => ?_⟩
  · rw [hG.same b h2 (by omega)] at hp
    exact h.user b p h1 h2 hp
  · rw [← h.tables b h1 h2]
    constructor
    · intro hne
      rcases hG.newTables _ hne with h | ⟨c, -, hc, hcb⟩
      · exact h
      · rw [PDX_eq_iff (by simp only [KERNBASE] at *; omega) h2] at hcb
        simp only [KERNBASE] at *
        omega
    · intro hne
      rw [hG.tables _ hne]
      exact hne

/-- What `mappages` does in the kernel's half, whether or not it runs out of memory. -/
structure KernelMapped (perm : Perm) (lo hi : ℕ) (d : PageDir) (m : PhysMem) (d' : PageDir)
    (m' : PhysMem) (done : Bool) : Prop extends Allocs d m d' m' where
  newTables : ∀ i, d'.tables i ≠ none → d.tables i ≠ none ∨ ∃ b, lo ≤ b ∧ b < hi ∧ PDX b = i
  same : ∀ b, b < 2 ^ 32 → ¬ (lo ≤ b ∧ b < hi) → d'.pte b = d.pte b
  perm : ∀ b p, lo ≤ b → b < hi → d'.pte b = some p → p.perm = perm
  mapped : done = true → ∀ b, lo ≤ b → b < hi → d'.tables (PDX b) ≠ none

theorem mapLoop_kernel (ha : a % PGSIZE = 0) (hlo : KERNBASE ≤ a) (hhi : a + n * PGSIZE ≤ 2 ^ 32)
    (hnone : ∀ b, a ≤ b → b < a + n * PGSIZE → d.pte b = none) :
    ∃ d' m' done, mapLoop perm n a pa d m = .ok (d', m', done) ∧
      KernelMapped perm a (a + n * PGSIZE) d m d' m' done := by
  induction n generalizing a pa d m with
  | zero =>
    exact ⟨d, m, true, rfl, Allocs.refl _ _, fun _ hi => Or.inl hi, fun _ _ _ => rfl,
      fun b p h1 h2 => by omega, fun _ b h1 h2 => by omega⟩
  | succ n ih =>
    have hlt : a < 2 ^ 32 := by
      simp only [PGSIZE] at hhi
      omega
    unfold mapLoop
    cases hw : walkpgdir d m a true with
    | none =>
      refine ⟨d, m, false, rfl, Allocs.refl _ _, fun _ hi => Or.inl hi, fun _ _ _ => rfl,
        fun b p h1 h2 hp => ?_, nofun⟩
      rw [hnone b h1 h2] at hp
      cases hp
    | some r =>
      obtain ⟨d1, m1⟩ := r
      obtain ⟨hA, htab, hpte, htabs, -⟩ := walkpgdir_some hw
      -- the entry of `a` is the one of the addresses in its page
      have hsame : ∀ b, b < 2 ^ 32 → (SameEntry b a ↔ a ≤ b ∧ b < a + PGSIZE) := by
        intro b hb
        rw [sameEntry_iff hb hlt]
        simp only [PGSIZE] at *
        omega
      have hnonea : d1.pte a = none := by
        rw [hpte]
        exact hnone a le_rfl (by simp only [PGSIZE]; omega)
      simp only [hnonea, Option.isSome_none, Bool.false_eq_true, if_false]
      -- the directory in which the first page is mapped
      obtain ⟨d2, hd2⟩ : ∃ d2, d2 = d1.setPte a (some ⟨pa, perm⟩) := ⟨_, rfl⟩
      have hpte2 : ∀ b, d2.pte b = if SameEntry b a then some ⟨pa, perm⟩ else d.pte b := by
        intro b
        rw [hd2, PageDir.pte_setPte htab, hpte]
      have hA2 : Allocs d m d2 m1 := by
        refine ⟨?_, by rw [hd2, PageDir.page_setPte, hA.page], fun i hi => ?_, hA.data, hA.free⟩
        · rw [hd2, PageDir.held_setPte_kernel hlo hlt]
          exact hA.evolves
        · rw [hd2, PageDir.tables_setPte]
          exact hA.tables i hi
      have hlen : a + PGSIZE + n * PGSIZE = a + (n + 1) * PGSIZE := by
        simp only [PGSIZE]
        omega
      have hnone2 : ∀ b, a + PGSIZE ≤ b → b < a + PGSIZE + n * PGSIZE → d2.pte b = none := by
        intro b h1 h2
        rw [hpte2, if_neg fun hs => ?_]
        · exact hnone b (by omega) (by omega)
        · have := (hsame b (by omega)).mp hs
          omega
      obtain ⟨d', m', done, hok, hM⟩ : ∃ d' m' done,
          mapLoop perm n (a + PGSIZE) (pa + 1) d2 m1 = .ok (d', m', done) ∧
            KernelMapped perm (a + PGSIZE) (a + PGSIZE + n * PGSIZE) d2 m1 d' m' done :=
        ih (by simp only [PGSIZE] at *; omega) (by omega) (by omega) hnone2
      rw [hlen] at hM
      refine ⟨d', m', done, by rw [← hd2]; exact hok, hA2.trans hM.toAllocs, fun i hi => ?_,
        fun b hb hn => ?_, fun b p h1 h2 hp => ?_, fun hdone b h1 h2 => ?_⟩
      -- a new table comes from this page or from a later one
      · rcases hM.newTables i hi with hi' | ⟨b, h1, h2, hb⟩
        · rw [hd2, PageDir.tables_setPte, Ne, htabs, not_and_or, not_not] at hi'
          exact hi'.imp id fun hi => ⟨a, le_rfl, by simp only [PGSIZE]; omega, hi.symm⟩
        · exact Or.inr ⟨b, by omega, h2, hb⟩
      · rw [hM.same b hb (by omega), hpte2, if_neg fun hs => hn ?_]
        have := (hsame b hb).mp hs
        simp only [PGSIZE] at *
        omega
      · by_cases hba : a + PGSIZE ≤ b
        · exact hM.perm b p hba h2 hp
        · have hb : b < 2 ^ 32 := by omega
          rw [hM.same b hb (by omega), hpte2, if_pos ((hsame b hb).mpr ⟨h1, by omega⟩)] at hp
          rw [← Option.some.inj hp]
      · by_cases hba : a + PGSIZE ≤ b
        · exact hM.mapped hdone b hba h2
        · have hb : PDX b = PDX a := ((hsame b (by omega)).mpr ⟨h1, by omega⟩).1
          have htab2 : d2.tables (PDX a) ≠ none := by
            rw [hd2, PageDir.tables_setPte, Ne, PageDir.tables_eq_none_iff]
            exact htab
          rw [hb, hM.tables _ htab2]
          exact htab2

/-- A region that the kernel maps. -/
structure Kmap.Fine (k : Kmap) : Prop where
  virt : k.virt % PGSIZE = 0
  size : k.size % PGSIZE = 0
  pos : 0 < k.size
  lo : KERNBASE ≤ k.virt
  hi : k.virt + k.size ≤ 2 ^ 32
  perm : k.perm.user = false

/-- The address lies in the region. -/
def Kmap.Has (k : Kmap) (b : ℕ) : Prop := k.virt ≤ b ∧ b < k.virt + k.size

theorem mappages_region {k : Kmap} (hk : k.Fine) (d : PageDir) (m : PhysMem) :
    mappages d m k.virt k.size (k.physStart / PGSIZE) k.perm =
      mapLoop k.perm (k.size / PGSIZE) k.virt (k.physStart / PGSIZE) d m := by
  obtain ⟨h1, h2, h3, -, -, -⟩ := hk
  have hfirst : PGROUNDDOWN k.virt = k.virt := by
    unfold PGROUNDDOWN
    simp only [PGSIZE] at *
    omega
  have hcount : (PGROUNDDOWN (k.virt + k.size - 1) - k.virt) / PGSIZE + 1 = k.size / PGSIZE := by
    unfold PGROUNDDOWN
    simp only [PGSIZE] at *
    omega
  show mapLoop k.perm ((PGROUNDDOWN (k.virt + k.size - 1) - PGROUNDDOWN k.virt) / PGSIZE + 1)
    (PGROUNDDOWN k.virt) (k.physStart / PGSIZE) d m = _
  rw [hfirst, hcount]

/-- All regions have been mapped. -/
structure KernelSetUp (ks : List Kmap) (d : PageDir) (m : PhysMem) (d' : PageDir) (m' : PhysMem) :
    Prop extends Allocs d m d' m' where
  newTables : ∀ i, d'.tables i ≠ none → d.tables i ≠ none ∨ ∃ k ∈ ks, ∃ b, k.Has b ∧ PDX b = i
  same : ∀ b, b < 2 ^ 32 → (∀ k ∈ ks, ¬ k.Has b) → d'.pte b = d.pte b
  user : ∀ k ∈ ks, ∀ b p, k.Has b → d'.pte b = some p → p.perm.user = false
  mapped : ∀ k ∈ ks, ∀ b, k.Has b → d'.tables (PDX b) ≠ none

theorem mapKernel_spec {ks : List Kmap} (hks : ∀ k ∈ ks, k.Fine)
    (hsorted : ks.Pairwise fun k l => k.virt + k.size ≤ l.virt)
    (hnone : ∀ k ∈ ks, ∀ b, k.Has b → d.pte b = none) :
    (∃ d' m', mapKernel ks d m = .ok (some d', m') ∧ KernelSetUp ks d m d' m') ∨
      ∃ m', mapKernel ks d m = .ok (none, m') ∧ Evolves d.held m noDir m' := by
  induction ks generalizing d m with
  | nil =>
    exact Or.inl ⟨d, m, rfl, Allocs.refl _ _, fun _ hi => Or.inl hi, fun _ _ _ => rfl,
      fun _ hk => absurd hk (List.not_mem_nil), fun _ hk => absurd hk (List.not_mem_nil)⟩
  | cons k ks ih =>
    have hk := hks k (List.mem_cons_self ..)
    obtain ⟨hfirst, hrest⟩ := List.pairwise_cons.mp hsorted
    have hlen : k.virt + k.size / PGSIZE * PGSIZE = k.virt + k.size := by
      have := hk.size
      simp only [PGSIZE] at *
      omega
    obtain ⟨d1, m1, done, hok, hM⟩ : ∃ d' m' done,
        mapLoop k.perm (k.size / PGSIZE) k.virt (k.physStart / PGSIZE) d m = .ok (d', m', done) ∧
          KernelMapped k.perm k.virt (k.virt + k.size / PGSIZE * PGSIZE) d m d' m' done :=
      mapLoop_kernel hk.virt hk.lo (by rw [hlen]; exact hk.hi)
        fun b h1 h2 => hnone k (List.mem_cons_self ..) b ⟨h1, by rwa [hlen] at h2⟩
    rw [hlen] at hM
    unfold mapKernel
    rw [mappages_region hk, hok]
    -- an address of a later region is not in the first one
    have hlater : ∀ l ∈ ks, ∀ b, l.Has b → b < 2 ^ 32 ∧ ¬ (k.virt ≤ b ∧ b < k.virt + k.size) := by
      intro l hl b hb
      have h1 := hfirst l hl
      have h2 := (hks l (List.mem_cons_of_mem _ hl)).hi
      unfold Kmap.Has at hb
      omega
    cases done with
    | false => exact Or.inr ⟨_, rfl, hM.evolves.trans (freeDir_evolves d1 m1)⟩
    | true =>
      have hnone1 : ∀ l ∈ ks, ∀ b, l.Has b → d1.pte b = none := by
        intro l hl b hb
        obtain ⟨h1, h2⟩ := hlater l hl b hb
        rw [hM.same b h1 h2]
        exact hnone l (List.mem_cons_of_mem _ hl) b hb
      rcases ih (d := d1) (m := m1) (fun l hl => hks l (List.mem_cons_of_mem _ hl)) hrest hnone1 with
        ⟨d', m', hok', hS⟩ | ⟨m', hok', hE⟩
      · refine Or.inl ⟨d', m', hok', hM.toAllocs.trans hS.toAllocs, fun i hi => ?_,
          fun b hb hno => ?_, fun l hl b p hb hp => ?_, fun l hl b hb => ?_⟩
        · rcases hS.newTables i hi with hi' | ⟨l, hl, hb⟩
          · rcases hM.newTables i hi' with hi' | ⟨b, h1, h2, hb⟩
            · exact Or.inl hi'
            · exact Or.inr ⟨k, List.mem_cons_self .., b, ⟨h1, h2⟩, hb⟩
          · exact Or.inr ⟨l, List.mem_cons_of_mem _ hl, hb⟩
        · rw [hS.same b hb fun l hl => hno l (List.mem_cons_of_mem _ hl)]
          exact hM.same b hb (hno k (List.mem_cons_self ..))
        · rcases List.mem_cons.mp hl with rfl | hl
          · have hb32 : b < 2 ^ 32 := lt_of_lt_of_le hb.2 hk.hi
            have hno : ∀ l' ∈ ks, ¬ l'.Has b := fun l' hl' hb' => (hlater l' hl' b hb').2 hb
            rw [hS.same b hb32 hno] at hp
            rw [hM.perm b p hb.1 hb.2 hp]
            exact hk.perm
          · exact hS.user l hl b p hb hp
        · rcases List.mem_cons.mp hl with rfl | hl
          · have hb' := hM.mapped rfl b hb.1 hb.2
            rw [hS.tables _ hb']
            exact hb'
          · exact hS.mapped l hl b hb
      · exact Or.inr ⟨m', hok', hM.evolves.trans hE⟩

/-- The kernel's data segment starts at a page behind the text and ends before `PHYSTOP`, as the linker
script has it. -/
structure LinkerData (data : ℕ) : Prop where
  align : data % PGSIZE = 0
  lo : KERNLINK < data
  hi : data < KERNBASE + PHYSTOP

theorem uint_sub {x y : ℕ} (h : y ≤ x) (hx : x < 2 ^ 32) : uint ((x : ℤ) - y) = x - y := by
  unfold uint
  rw [Int.emod_eq_of_lt (by omega) (by omega)]
  omega

/-- The regions of `kmap` follow each other. -/
theorem kmap_fine (hd : LinkerData data) : (∀ k ∈ kmap data, k.Fine) ∧
    (kmap data).Pairwise (fun k l => k.virt + k.size ≤ l.virt) ∧
    ∀ b, (∃ k ∈ kmap data, k.Has b) ↔
      KERNBASE ≤ b ∧ b < 2 ^ 32 ∧ (b < KERNBASE + PHYSTOP ∨ DEVSPACE ≤ b) := by
  obtain ⟨h1, h2, h3⟩ := hd
  simp only [PGSIZE, KERNLINK, KERNBASE, EXTMEM, PHYSTOP] at h1 h2 h3
  obtain ⟨k0, hk0⟩ : ∃ k, k = Kmap.mk KERNBASE 0 EXTMEM ⟨true, false, 0⟩ := ⟨_, rfl⟩
  obtain ⟨k1, hk1⟩ : ∃ k, k = Kmap.mk KERNLINK (KERNLINK - KERNBASE) (data - KERNBASE)
    ⟨false, false, 0⟩ := ⟨_, rfl⟩
  obtain ⟨k2, hk2⟩ : ∃ k, k = Kmap.mk data (data - KERNBASE) PHYSTOP ⟨true, false, 0⟩ := ⟨_, rfl⟩
  obtain ⟨k3, hk3⟩ : ∃ k, k = Kmap.mk DEVSPACE DEVSPACE 0 ⟨true, false, 0⟩ := ⟨_, rfl⟩
  have hlist : kmap data = [k0, k1, k2, k3] := by rw [hk0, hk1, hk2, hk3]; rfl
  have hs0 : k0.virt = 0x80000000 ∧ k0.size = 0x100000 ∧ k0.perm.user = false := by
    rw [hk0]
    exact ⟨rfl, by decide, rfl⟩
  have hs1 : k1.virt = 0x80100000 ∧ k1.size = data - 0x80100000 ∧ k1.perm.user = false := by
    rw [hk1]
    refine ⟨rfl, ?_, rfl⟩
    unfold Kmap.size
    rw [uint_sub] <;> simp only [KERNLINK, KERNBASE, EXTMEM] <;> omega
  have hs2 : k2.virt = data ∧ k2.size = 0x8E000000 - data ∧ k2.perm.user = false := by
    rw [hk2]
    refine ⟨rfl, ?_, rfl⟩
    unfold Kmap.size
    rw [uint_sub] <;> simp only [PHYSTOP, KERNBASE] <;> omega
  have hs3 : k3.virt = 0xFE000000 ∧ k3.size = 0x2000000 ∧ k3.perm.user = false := by
    rw [hk3]
    exact ⟨rfl, by decide, rfl⟩
  rw [hlist]
  refine ⟨fun k hk => ?_, ?_, fun b => ?_⟩
  · simp only [List.mem_cons, List.not_mem_nil, or_false] at hk
    rcases hk with rfl | rfl | rfl | rfl
    · constructor <;> simp only [hs0, PGSIZE, KERNBASE] <;> omega
    · constructor <;> simp only [hs1, PGSIZE, KERNBASE] <;> omega
    · constructor <;> simp only [hs2, PGSIZE, KERNBASE] <;> omega
    · constructor <;> simp only [hs3, PGSIZE, KERNBASE] <;> omega
  · simp only [List.pairwise_cons, List.mem_cons, List.not_mem_nil, or_false, false_imp_iff,
      implies_true, List.Pairwise.nil, and_true, forall_eq_or_imp, forall_eq, hs0, hs1, hs2, hs3]
    omega
  · simp only [List.mem_cons, List.not_mem_nil, or_false, exists_eq_or_imp, exists_eq_left,
      Kmap.Has, hs0, hs1, hs2, hs3, KERNBASE, PHYSTOP, DEVSPACE]
    omega

/-- A directory that maps the kernel and nothing else. -/
structure FreshDir (m : PhysMem) (d : PageDir) (m' : PhysMem) : Prop where
  evolves : Evolves noDir m d.held m'
  kernel : KernelHalf d
  empty : ∀ b, b < KERNBASE → d.tables (PDX b) = none
  data : ∀ f, f ∉ m.free → m'.data f = m.data f
  free : ∀ f, f ∈ m'.free → f ∈ m.free

theorem setupkvm_spec (hd : LinkerData data) (m : PhysMem) :
    (∃ d m', setupkvm data m = .ok (some d, m') ∧ FreshDir m d m') ∨
      ∃ m', setupkvm data m = .ok (none, m') ∧ Evolves noDir m noDir m' := by
  unfold setupkvm
  cases hk : kalloc m with
  | none => exact Or.inr ⟨m, rfl, Evolves.refl _ _⟩
  | some r =>
    obtain ⟨pg, m1⟩ := r
    obtain ⟨hfree, hdata⟩ := kalloc_some hk
    have hphys : ¬ (KERNBASE + PHYSTOP > DEVSPACE) := by decide
    simp only [hphys, if_false]
    -- the empty directory
    obtain ⟨d0, hd0⟩ : ∃ d0, d0 = PageDir.mk pg fun _ => none := ⟨_, rfl⟩
    rw [← hd0]
    have htab0 : ∀ i, d0.tables i = none := by
      intro i
      rw [hd0]
      rfl
    have hheld : d0.held = Function.update noDir .dir (some pg) := by
      funext u
      rw [hd0, Function.update_apply]
      cases u with
      | dir => rfl
      | table i => rfl
      | page i j => exact ite_self _
    have h0 : Evolves noDir m d0.held m1 := by
      rw [hheld]
      exact Evolves.take hfree (fun g _ => congrFun hdata g) (kalloc_noPanic hk) rfl
    obtain ⟨hfine, hsorted, hhas⟩ := kmap_fine hd
    rcases mapKernel_spec (m := m1) hfine hsorted fun k _ b _ =>
        PageDir.pte_of_table_none (PageDir.tables_eq_none_iff.mp (htab0 (PDX b))) with
      ⟨d', m', hok, hS⟩ | ⟨m', hok, hE⟩
    · refine Or.inl ⟨d', m', hok, h0.trans hS.evolves, ⟨fun b p h1 h2 hp => ?_, fun b h1 h2 => ?_⟩,
        fun b hb => ?_, fun f hf => ?_, fun f hf => ?_⟩
      · by_cases hin : ∃ k ∈ kmap data, k.Has b
        · obtain ⟨k, hk, hb⟩ := hin
          exact hS.user k hk b p hb hp
        · have hno : ∀ k ∈ kmap data, ¬ k.Has b := fun k hk hb => hin ⟨k, hk, hb⟩
          rw [hS.same b h2 hno, PageDir.pte_of_table_none
            (PageDir.tables_eq_none_iff.mp (htab0 (PDX b)))] at hp
          cases hp
      · constructor
        · intro hne
          rcases hS.newTables _ hne with h | ⟨k, hk, c, hc, hcb⟩
          · exact absurd (htab0 _) h
          · -- the regions end where a table ends
            obtain ⟨h3, h4, h5⟩ := (hhas c).mp ⟨k, hk, hc⟩
            rw [PDX_eq_iff h4 h2] at hcb
            simp only [KERNBASE, PHYSTOP, DEVSPACE] at *
            omega
        · intro hb
          obtain ⟨k, hk, hb⟩ := (hhas b).mpr ⟨h1, h2, hb⟩
          exact hS.mapped k hk b hb
      · by_contra hne
        rcases hS.newTables _ hne with h | ⟨k, hk, c, hc, hcb⟩
        · exact h (htab0 _)
        · obtain ⟨h3, h4, -⟩ := (hhas c).mp ⟨k, hk, hc⟩
          rw [PDX_eq_iff h4 (by simp only [KERNBASE] at hb; omega)] at hcb
          simp only [KERNBASE] at *
          omega
      · rw [hS.data f fun hf' => hf (by rw [hfree]; exact List.mem_cons_of_mem _ hf'), hdata]
      · rw [hfree]
        exact List.mem_cons_of_mem _ (hS.free f hf)
    · exact Or.inr ⟨m', hok, h0.trans hE⟩

/-! ### `copyuvm` -/

/-- The permissions and contents of the pages of a directory. -/
def permOf (src : PageDir) (b : ℕ) : Perm := ((src.pte b).map (·.perm)).getD ⟨false, false, 0⟩

def contentOf (src : PageDir) (m : PhysMem) (b : ℕ) : Bytes PGSIZE :=
  ((src.pte b).map fun p => m.data p.page).getD 0

/-- The page goes back to where it came from when there is no memory for its table. -/
theorem mappages_undo {pg : Page} {m1 : PhysMem} {c : Bytes PGSIZE} (ha : a % PGSIZE = 0)
    (hk : kalloc m = some (pg, m1))
    (hmp : mappages d (m1.setData pg c) a PGSIZE pg perm = .ok (d', m', false)) :
    Evolves d.held m d'.held (kfree m' pg) := by
  obtain ⟨hfree, hdata⟩ := kalloc_some hk
  obtain ⟨rfl, rfl, -, -⟩ := mappages_false ha hmp
  have hn := kalloc_noPanic hk
  refine (Evolves.refl d'.held m1).cons (f := pg) rfl hfree rfl
    (fun g _ => congrFun hdata.symm g) (fun g hg => ?_) ⟨hn.kend.symm, hn.panicked.symm⟩ rfl
    fun hf => kfree_panicked hf
  exact (Function.update_of_ne hg _ _).trans (Function.update_of_ne hg _ _)

/-- Whatever the pages of `src` are, a copy that cannot be completed is given back. -/
theorem copyLoop_none {src : PageDir} (hsz : sz ≤ KERNBASE) (ha : a % PGSIZE = 0)
    (hP : Pool m.free d.held) (h : copyLoop src sz n a d m = .ok (none, m')) :
    Evolves d.held m noDir m' := by
  induction n generalizing a d m with
  | zero => cases h
  | succ n ih =>
    unfold copyLoop at h
    split_ifs at h with hlt
    · split at h
      · cases h
      · split at h
        · cases h
        · rename_i p _
          cases hk : kalloc m with
          | none =>
            rw [hk] at h
            obtain rfl := (Prod.mk.inj (Except.ok.inj h)).2
            exact freeDir_evolves d m
          | some r =>
            obtain ⟨mem, m1⟩ := r
            rw [hk] at h
            simp only at h
            cases hmp : mappages d (m1.setData mem (m1.data p.page)) a PGSIZE mem p.perm with
            | error e =>
              rw [hmp] at h
              cases h
            | ok r =>
              obtain ⟨d1, m2, ok⟩ := r
              rw [hmp] at h
              cases ok with
              | true =>
                obtain ⟨hG, -⟩ := grown_page ha (by omega) hk hmp hP
                exact hG.evolves.trans
                  (ih (by simp only [PGSIZE] at *; omega) (hG.pool hP) h)
              | false =>
                obtain rfl := (Prod.mk.inj (Except.ok.inj h)).2
                exact (mappages_undo ha hk hmp).trans (freeDir_evolves d1 _)
    · cases h

theorem copyLoop_spec {src d₀ : PageDir} {m₀ : PhysMem}
    (hsrc : ∀ b, b < sz → ∃ p, src.pte b = some p ∧ p.page ∉ m₀.free) (hsz : sz ≤ KERNBASE)
    (hP : Pool m₀.free d₀.held) (hnone : ∀ b, b < KERNBASE → d₀.pte b = none)
    (hG : Grown (permOf src) (contentOf src m₀) 0 a d₀ m₀ d m) (ha : a % PGSIZE = 0)
    (haR : a ≤ PGROUNDUP sz) (hfuel : sz ≤ a + n * PGSIZE) :
    (∃ d' m', copyLoop src sz n a d m = .ok (some d', m') ∧
      Grown (permOf src) (contentOf src m₀) 0 (PGROUNDUP sz) d₀ m₀ d' m') ∨
    ∃ m', copyLoop src sz n a d m = .ok (none, m') ∧ Evolves d₀.held m₀ noDir m' := by
  have hR := PGROUNDUP_eq hsz
  have hRK : PGROUNDUP sz ≤ KERNBASE := by
    simp only [KERNBASE] at *
    omega
  have hdone : ∀ {d m a}, Grown (permOf src) (contentOf src m₀) 0 a d₀ m₀ d m → a % PGSIZE = 0 →
      a ≤ PGROUNDUP sz → sz ≤ a →
      Grown (permOf src) (contentOf src m₀) 0 (PGROUNDUP sz) d₀ m₀ d m := by
    intro d m a hG ha haR hge
    obtain rfl : a = PGROUNDUP sz := by
      simp only [PGSIZE] at ha
      omega
    exact hG
  induction n generalizing a d m with
  | zero => exact Or.inl ⟨d, m, rfl, hdone hG ha haR (by omega)⟩
  | succ n ih =>
    unfold copyLoop
    split_ifs with hlt
    · obtain ⟨p, hp, hpfree⟩ := hsrc a hlt
      have htab : src.table (PDX a) ≠ none := by
        intro htab
        rw [PageDir.pte_of_table_none htab] at hp
        cases hp
      obtain ⟨t, ht⟩ := Option.ne_none_iff_exists'.mp htab
      have hnonea : d.pte a = none := by
        rw [hG.same a (by simp only [KERNBASE] at *; omega) (by omega)]
        exact hnone a (by omega)
      simp only [ht, hp]
      cases hk : kalloc m with
      | none => exact Or.inr ⟨_, rfl, hG.evolves.trans (freeDir_evolves d m)⟩
      | some r =>
        obtain ⟨mem, m1⟩ := r
        obtain ⟨hfree, hdata⟩ := kalloc_some hk
        simp only
        cases hmp : mappages d (m1.setData mem (m1.data p.page)) a PGSIZE mem p.perm with
        | error e => exact absurd hnonea (mappages_error ha hmp)
        | ok r =>
          obtain ⟨d', m', ok⟩ := r
          cases ok with
          | true =>
            obtain ⟨hG', -⟩ := grown_page ha (by omega) hk hmp (hG.pool hP)
            have hnext : a + PGSIZE ≤ PGROUNDUP sz := by
              simp only [PGSIZE] at *
              omega
            -- the page is the one of every address in it
            have hpage : Grown (permOf src) (contentOf src m₀) a (a + PGSIZE) d m d' m' := by
              refine hG'.congr fun b h1 h2 => ?_
              have hb : src.pte b = some p := by
                rw [PageDir.pte_congr (b := a), hp]
                rw [sameEntry_iff (by simp only [KERNBASE] at hRK; omega)
                  (by simp only [KERNBASE] at hRK; omega)]
                simp only [PGSIZE] at *
                omega
              unfold permOf contentOf
              rw [hb, Option.map_some, Option.map_some, Option.getD_some, Option.getD_some, hdata,
                hG.data _ hpfree]
              exact ⟨rfl, rfl⟩
            exact ih (hG.trans hpage hP (Nat.zero_le _) (by omega) (by omega))
              (by simp only [PGSIZE] at *; omega) hnext (by simp only [PGSIZE] at *; omega)
          | false =>
            exact Or.inr ⟨_, rfl, hG.evolves.trans
              ((mappages_undo ha hk hmp).trans (freeDir_evolves d' _))⟩
    · exact Or.inl ⟨d, m, rfl, hdone hG ha haR (by omega)⟩

/-- A copy of the first `sz` bytes of an address space. -/
structure CopiedDir (src : PageDir) (sz : ℕ) (m : PhysMem) (d : PageDir) (m' : PhysMem) : Prop where
  evolves : Evolves noDir m d.held m'
  kernel : KernelHalf d
  copied : ∀ b, b < PGROUNDUP sz → ∃ p pg, src.pte b = some p ∧ pg ∈ m.free ∧
    d.pte b = some ⟨pg, p.perm⟩ ∧ m'.data pg = m.data p.page
  rest : ∀ b, PGROUNDUP sz ≤ b → b < KERNBASE → d.pte b = none
  tables : ∀ b, b < KERNBASE → (d.tables (PDX b) ≠ none ↔ b / 2 ^ 22 * 2 ^ 22 < sz)
  data : ∀ f, f ∉ m.free → m'.data f = m.data f
  free : ∀ f, f ∈ m'.free → f ∈ m.free

/-- **`copyuvm`** copies an address space, or gives back everything it has taken. -/
theorem copyuvm_spec {src : PageDir} (hd : LinkerData data) (hn : m.free.Nodup)
    (hsrc : ∀ b, b < sz → ∃ p, src.pte b = some p ∧ p.page ∉ m.free) (hsz : sz ≤ KERNBASE) :
    (∃ d m', copyuvm data src sz m = .ok (some d, m') ∧ CopiedDir src sz m d m') ∨
      ∃ m', copyuvm data src sz m = .ok (none, m') ∧ Evolves noDir m noDir m' := by
  have hP0 : Pool m.free noDir := ⟨hn, nofun, nofun⟩
  have hR := PGROUNDUP_eq hsz
  have hRK : PGROUNDUP sz ≤ KERNBASE := by
    simp only [KERNBASE] at *
    omega
  have hround : ∀ b, b < PGROUNDUP sz → ∃ p, src.pte b = some p ∧ p.page ∉ m.free := by
    intro b hb
    have hs : SameEntry b (b / 4096 * 4096) := by
      rw [sameEntry_iff (by simp only [KERNBASE] at hRK; omega)
        (by simp only [KERNBASE] at hRK; omega)]
      simp only [PGSIZE]
      omega
    rw [PageDir.pte_congr hs]
    exact hsrc _ (by omega)
  unfold copyuvm
  rcases setupkvm_spec hd m with ⟨d, m1, hok, hF⟩ | ⟨m1, hok, hE⟩
  · rw [hok]
    have hP : Pool m1.free d.held := hF.evolves.exchange.pool hP0
    have hnone : ∀ b, b < KERNBASE → d.pte b = none := fun b hb =>
      PageDir.pte_of_table_none (PageDir.tables_eq_none_iff.mp (hF.empty b hb))
    have hsrc1 : ∀ b, b < sz → ∃ p, src.pte b = some p ∧ p.page ∉ m1.free := by
      intro b hb
      obtain ⟨p, hp, hpf⟩ := hsrc b hb
      exact ⟨p, hp, fun hf => hpf (hF.free _ hf)⟩
    rcases copyLoop_spec (n := sz / PGSIZE + 1) hsrc1 hsz hP hnone (Grown.refl _ _ 0 d m1) rfl
      (Nat.zero_le _) (by simp only [PGSIZE]; omega) with ⟨d', m', hok', hG⟩ | ⟨m', hok', hE⟩
    · refine Or.inl ⟨d', m', hok', hF.evolves.trans hG.evolves, hF.kernel.grown hG hRK,
        fun b hb => ?_, fun b h1 h2 => ?_, fun b hb => ?_, fun f hf => ?_,
        fun f hf => hF.free f (hG.free f hf)⟩
      · obtain ⟨pg, hpg, hpte, hdata⟩ := hG.new b (Nat.zero_le _) hb
        obtain ⟨p, hp, hpf⟩ := hround b hb
        unfold permOf contentOf at *
        rw [hp, Option.map_some, Option.getD_some] at hpte hdata
        exact ⟨p, pg, hp, hF.free pg hpg, hpte, hdata.trans (hF.data _ hpf)⟩
      · rw [hG.same b (by simp only [KERNBASE] at *; omega) (by omega)]
        exact hnone b h2
      · constructor
        · intro hne
          rcases hG.newTables _ hne with h | ⟨c, -, hc, hcb⟩
          · exact absurd (hF.empty b hb) h
          · rw [PDX_eq_iff (by simp only [KERNBASE] at *; omega)
              (by simp only [KERNBASE] at *; omega)] at hcb
            omega
        · intro hlt
          -- the first page of the table is mapped
          obtain ⟨pg, -, hpte, -⟩ := hG.new (b / 2 ^ 22 * 2 ^ 22) (Nat.zero_le _) (by omega)
          have hb' : PDX (b / 2 ^ 22 * 2 ^ 22) = PDX b := by
            rw [PDX_eq_iff (by simp only [KERNBASE] at *; omega)
              (by simp only [KERNBASE] at *; omega)]
            omega
          intro htab
          rw [PageDir.pte_of_table_none] at hpte
          · cases hpte
          · rw [hb']
            exact PageDir.tables_eq_none_iff.mp htab
      · rw [hG.data f fun hf' => hf (hF.free f hf'), hF.data f hf]
    · exact Or.inr ⟨m', hok', hF.evolves.trans hE⟩
  · rw [hok]
    exact Or.inr ⟨m1, rfl, hE⟩

/-- A copy that fails takes nothing, for every source. -/
theorem copyuvm_none {src : PageDir} (hd : LinkerData data) (hn : m.free.Nodup)
    (hsz : sz ≤ KERNBASE) (h : copyuvm data src sz m = .ok (none, m')) :
    Evolves noDir m noDir m' := by
  unfold copyuvm at h
  rcases setupkvm_spec hd m with ⟨d, m1, hok, hF⟩ | ⟨m1, hok, hE⟩
  · rw [hok] at h
    exact hF.evolves.trans (copyLoop_none hsz rfl
      (hF.evolves.exchange.pool ⟨hn, nofun, nofun⟩) h)
  · rw [hok] at h
    obtain rfl := (Prod.mk.inj (Except.ok.inj h)).2
    exact hE

end OsSemester.Xv6
