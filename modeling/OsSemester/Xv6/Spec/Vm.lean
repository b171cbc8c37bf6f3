import OsSemester.Lib.Pool
import OsSemester.Xv6.Vm

/-!
# What the functions of `vm.c` do

The pages of a directory are the holders of a pool: the directory, its tables, and the pages that the
user half maps.  Every function of `vm.c` is an exchange between them and the free list; beyond that,
`Grown` and `Shrunk` say which entries it sets and which it clears.
-/

namespace OsSemester.Xv6

variable {d d' d'' : PageDir} {m m' m'' : PhysMem} {a b n oldsz newsz : ℕ} {pg f : Page}
variable {p : Option Pte} {i j : Fin NPDENTRIES}

/-! ### Addresses -/

/-- Two addresses have one entry. -/
def SameEntry (a b : ℕ) : Prop := PDX a = PDX b ∧ PTX a = PTX b

instance (a b : ℕ) : Decidable (SameEntry a b) := by
  unfold SameEntry
  infer_instance

theorem PDX_val (a : ℕ) : (PDX a : ℕ) = a / 2 ^ 22 % 1024 := rfl

theorem PTX_val (a : ℕ) : (PTX a : ℕ) = a / 2 ^ 12 % 1024 := rfl

theorem PDX_eq_iff (ha : a < 2 ^ 32) (hb : b < 2 ^ 32) : PDX a = PDX b ↔ a / 2 ^ 22 = b / 2 ^ 22 := by
  rw [Fin.ext_iff, PDX_val, PDX_val]
  omega

theorem sameEntry_iff (ha : a < 2 ^ 32) (hb : b < 2 ^ 32) :
    SameEntry a b ↔ a / PGSIZE = b / PGSIZE := by
  unfold SameEntry
  rw [Fin.ext_iff, Fin.ext_iff, PDX_val, PDX_val, PTX_val, PTX_val]
  simp only [PGSIZE]
  omega

theorem PDX_lt_iff (ha : a < 2 ^ 32) : (PDX a : ℕ) < 512 ↔ a < KERNBASE := by
  rw [PDX_val]
  simp only [KERNBASE]
  omega

theorem PGROUNDUP_eq (h : a ≤ KERNBASE) : PGROUNDUP a = (a + 4095) / 4096 * 4096 := by
  unfold PGROUNDUP
  simp only [KERNBASE, PGSIZE] at *
  rw [Nat.mod_eq_of_lt (by omega)]
  rfl

/-! ### Entries -/

namespace PageDir

/-- The pages of the page tables. -/
def tables (d : PageDir) (i : Fin NPDENTRIES) : Option Page := (d.table i).map (·.page)

theorem tables_eq_none_iff : d.tables i = none ↔ d.table i = none := Option.map_eq_none_iff

theorem pte_of_table_none (h : d.table (PDX a) = none) : d.pte a = none := by
  unfold pte
  rw [h]
  rfl

theorem pte_congr (h : SameEntry a b) : d.pte a = d.pte b := by
  unfold pte
  rw [h.1, h.2]

theorem pte_setPte (h : d.table (PDX a) ≠ none) (b : ℕ) :
    (d.setPte a p).pte b = if SameEntry b a then p else d.pte b := by
  obtain ⟨t, ht⟩ := Option.ne_none_iff_exists'.mp h
  unfold setPte
  simp only [ht, pte, Function.update_apply]
  by_cases hs : SameEntry b a
  · rw [if_pos hs, if_pos hs.1]
    simp only [Option.bind_some, hs.2, Function.update_self]
  · rw [if_neg hs]
    split_ifs with h1
    · have h2 : PTX b ≠ PTX a := fun h2 => hs ⟨h1, h2⟩
      rw [h1, ht]
      simp only [Option.bind_some, Function.update_of_ne h2]
    · rfl

theorem tables_setPte : (d.setPte a p).tables = d.tables := by
  funext i
  unfold setPte
  cases ht : d.table (PDX a) with
  | none => rfl
  | some t =>
    simp only [tables, Function.update_apply]
    split_ifs with hi
    · rw [hi, ht]
      rfl
    · rfl

theorem page_setPte : (d.setPte a p).page = d.page := by
  unfold setPte
  cases d.table (PDX a) <;> rfl

theorem pte_addTable (h : d.table i = none) : (d.addTable i pg).pte b = d.pte b := by
  unfold pte addTable
  simp only [Function.update_apply]
  split_ifs with hb
  · rw [hb, h]
    rfl
  · rfl

theorem tables_addTable : (d.addTable i pg).tables = Function.update d.tables i (some pg) := by
  funext j
  unfold tables addTable
  simp only [Function.update_apply]
  split_ifs <;> rfl

end PageDir

/-! ### The pages of a directory -/

/-- What a page of a directory is used for. -/
inductive Use
  | dir
  | table (i : Fin NPDENTRIES)
  | page (i : Fin NPDENTRIES) (j : Fin NPTENTRIES)
  deriving DecidableEq

namespace PageDir

/-- The pages of a directory; the kernel's half maps pages it does not own. -/
def held (d : PageDir) : Use → Option Page
  | .dir => some d.page
  | .table i => d.tables i
  | .page i j => if (i : ℕ) < 512 then (d.table i).bind fun t => (t.pte j).map (·.page) else none

theorem held_page (h : a < KERNBASE) : d.held (.page (PDX a) (PTX a)) = (d.pte a).map (·.page) := by
  have hlt : (PDX a : ℕ) < 512 := (PDX_lt_iff (by simp only [KERNBASE] at h; omega)).mpr h
  simp only [held, if_pos hlt, pte]
  cases d.table (PDX a) <;> rfl

/-- Every user entry is the one of some address. -/
theorem exists_address (i : Fin NPDENTRIES) (j : Fin NPTENTRIES) (hi : (i : ℕ) < 512) :
    ∃ a, a < KERNBASE ∧ PDX a = i ∧ PTX a = j := by
  have hj := j.isLt
  refine ⟨i * 2 ^ 22 + j * 2 ^ 12, by simp only [KERNBASE, NPTENTRIES] at *; omega, ?_, ?_⟩
  · rw [Fin.ext_iff, PDX_val]
    simp only [NPTENTRIES] at hj
    omega
  · rw [Fin.ext_iff, PTX_val]
    simp only [NPTENTRIES] at hj
    omega

theorem held_setPte (h : d.table (PDX a) ≠ none) (ha : a < KERNBASE) :
    (d.setPte a p).held =
      Function.update d.held (.page (PDX a) (PTX a)) (p.map (·.page)) := by
  funext u
  rw [Function.update_apply]
  cases u with
  | dir => rw [if_neg nofun, held, held, page_setPte]
  | table i => rw [if_neg nofun, held, held, tables_setPte]
  | page i j =>
    by_cases hi : (i : ℕ) < 512
    · obtain ⟨b, hb, rfl, rfl⟩ := exists_address i j hi
      rw [held_page hb, held_page hb, pte_setPte h]
      by_cases hs : SameEntry b a
      · rw [if_pos hs, if_pos (by rw [hs.1, hs.2])]
      · rw [if_neg hs, if_neg fun he => hs (Use.page.inj he)]
    · have hlt : (PDX a : ℕ) < 512 := (PDX_lt_iff (by simp only [KERNBASE] at ha; omega)).mpr ha
      have hne : ¬ (Use.page i j = Use.page (PDX a) (PTX a)) := by
        intro he
        obtain ⟨rfl, -⟩ := Use.page.inj he
        exact hi hlt
      rw [if_neg hne, held, held, if_neg hi, if_neg hi]

/-- The kernel's half of a directory holds no pages. -/
theorem held_setPte_kernel (ha : KERNBASE ≤ a) (ha' : a < 2 ^ 32) :
    (d.setPte a p).held = d.held := by
  funext u
  cases u with
  | dir => rw [held, held, page_setPte]
  | table i => rw [held, held, tables_setPte]
  | page i j =>
    have hge : ¬ (PDX a : ℕ) < 512 := by
      rw [PDX_lt_iff ha']
      omega
    simp only [held]
    split_ifs with hi
    · have hne : i ≠ PDX a := by
        rintro rfl
        exact hge hi
      unfold setPte
      cases d.table (PDX a) with
      | none => rfl
      | some t => simp only [Function.update_of_ne hne]
    · rfl

theorem held_addTable (h : d.table i = none) :
    (d.addTable i pg).held = Function.update d.held (.table i) (some pg) := by
  funext u
  rw [Function.update_apply]
  cases u with
  | dir => rw [if_neg nofun]; rfl
  | table j =>
    rw [held, held, tables_addTable, Function.update_apply]
    by_cases hj : j = i
    · rw [if_pos hj, if_pos (by rw [hj])]
    · rw [if_neg hj, if_neg fun he => hj (Use.table.inj he)]
  | page j k =>
    rw [if_neg nofun]
    simp only [held, addTable, Function.update_apply]
    by_cases hj : j = i
    · rw [hj, if_pos rfl, h]
      rfl
    · rw [if_neg hj]

end PageDir

/-! ### Moves -/

section Moves

variable {κ : Type} {held held' held'' : κ → Option Page}

/-- No `kfree` between the two states has panicked. -/
structure NoPanic (m m' : PhysMem) : Prop where
  kend : m'.kend = m.kend
  panicked : m'.panicked = m.panicked

/-- Pages have moved between the free list and the holders, and no other page has changed.  If all these
pages are fit for `kfree`, it has not panicked. -/
structure Evolves (held : κ → Option Page) (m : PhysMem) (held' : κ → Option Page) (m' : PhysMem) :
    Prop where
  exchange : Exchange m.free held m'.free held'
  data : ∀ f, f ∉ stock m.free held → m'.data f = m.data f
  kend : m'.kend = m.kend
  panicked : (∀ f ∈ stock m.free held, m.Kfreeable f) → m'.panicked = m.panicked

theorem kfreeable_congr (h : m'.kend = m.kend) : m'.Kfreeable f ↔ m.Kfreeable f := by
  unfold PhysMem.Kfreeable
  rw [h]

theorem kfree_panicked (h : m.Kfreeable f) : (kfree m f).panicked = m.panicked := by
  simp [kfree, h]

namespace Evolves

theorem refl (held : κ → Option Page) (m : PhysMem) : Evolves held m held m :=
  ⟨Exchange.refl _ _, fun _ _ => rfl, rfl, fun _ => rfl⟩

theorem trans (h : Evolves held m held' m') (h' : Evolves held' m' held'' m'') :
    Evolves held m held'' m'' := by
  refine ⟨h.exchange.trans h'.exchange, fun f hf => ?_, h'.kend.trans h.kend, fun hf => ?_⟩
  · exact (h'.data f (h.exchange.stock ▸ hf)).trans (h.data f hf)
  · refine (h'.panicked fun f hs => ?_).trans (h.panicked hf)
    rw [h.exchange.stock] at hs
    exact (kfreeable_congr h.kend).mpr (hf f hs)

/-- A page that stays free, whatever is written to it. -/
theorem cons {free : List Page} (h : Evolves held m held' m') (hm : m.free = free)
    {m₁ m₁' : PhysMem} (h1 : m₁.free = f :: free) (h1' : m₁'.free = f :: m'.free)
    (hd : ∀ g, g ≠ f → m₁.data g = m.data g) (hd' : ∀ g, g ≠ f → m₁'.data g = m'.data g)
    (hn : NoPanic m m₁) (hk : m₁'.kend = m'.kend)
    (hp : m'.Kfreeable f → m₁'.panicked = m'.panicked) : Evolves held m₁ held' m₁' := by
  subst hm
  have hc := h.exchange.cons f
  rw [← h1, ← h1'] at hc
  have hstock : ∀ {g}, g ∈ stock m.free held → g ∈ stock m₁.free held := by
    intro g hg
    refine hg.imp (fun hg => ?_) id
    rw [h1]
    exact List.mem_cons_of_mem _ hg
  have hf : f ∈ stock m₁.free held := Or.inl (by rw [h1]; exact List.mem_cons_self ..)
  refine ⟨hc, fun g hg => ?_, hk.trans (h.kend.trans hn.kend.symm), fun hall => ?_⟩
  · have hgf : g ≠ f := by
      rintro rfl
      exact hg hf
    rw [hd g hgf, hd' g hgf]
    exact h.data g fun hs => hg (hstock hs)
  · have hfree : ∀ {g}, g ∈ stock m₁.free held → m.Kfreeable g := fun hs =>
      (kfreeable_congr hn.kend).mp (hall _ hs)
    rw [hp ((kfreeable_congr h.kend).mpr (hfree hf)), h.panicked fun g hg => hfree (hstock hg),
      hn.panicked]

variable [DecidableEq κ] {k : κ}

theorem take (hf : m.free = f :: m'.free) (hd : ∀ g, g ≠ f → m'.data g = m.data g)
    (hn : NoPanic m m') (hk : held k = none) :
    Evolves held m (Function.update held k (some f)) m' := by
  refine ⟨by rw [hf]; exact Exchange.take hk, fun g hg => hd g ?_, hn.kend, fun _ => hn.panicked⟩
  rintro rfl
  exact hg (Or.inl (by rw [hf]; exact List.mem_cons_self ..))

theorem give (hk : held k = some f) :
    Evolves held m (Function.update held k none) (kfree m f) := by
  refine ⟨Exchange.give hk, fun g hg => Function.update_of_ne ?_ _ _, rfl, fun hall => ?_⟩
  · rintro rfl
    exact hg (Or.inr ⟨k, hk⟩)
  · exact kfree_panicked (hall f (Or.inr ⟨k, hk⟩))

end Evolves

end Moves

theorem kalloc_some (h : kalloc m = some (pg, m')) :
    m.free = pg :: m'.free ∧ m'.data = m.data := by
  unfold kalloc at h
  split at h
  · cases h
  · rename_i pg' free hf
    obtain ⟨rfl, rfl⟩ := Prod.mk.inj (Option.some.inj h)
    exact ⟨hf, rfl⟩

theorem kalloc_noPanic (h : kalloc m = some (pg, m')) : NoPanic m m' := by
  unfold kalloc at h
  split at h
  · cases h
  · obtain ⟨-, rfl⟩ := Prod.mk.inj (Option.some.inj h)
    exact ⟨rfl, rfl⟩

theorem kalloc_none (h : kalloc m = none) : m.free = [] := by
  unfold kalloc at h
  split at h
  · assumption
  · cases h

/-- Pages are taken from the free list only. -/
structure Allocs (d : PageDir) (m : PhysMem) (d' : PageDir) (m' : PhysMem) : Prop where
  evolves : Evolves d.held m d'.held m'
  page : d'.page = d.page
  tables : ∀ i, d.tables i ≠ none → d'.tables i = d.tables i
  data : ∀ f, f ∉ m.free → m'.data f = m.data f
  free : ∀ f, f ∈ m'.free → f ∈ m.free

namespace Allocs

theorem refl (d : PageDir) (m : PhysMem) : Allocs d m d m :=
  ⟨Evolves.refl _ _, rfl, fun _ _ => rfl, fun _ _ => rfl, fun _ hf => hf⟩

theorem trans (h : Allocs d m d' m') (h' : Allocs d' m' d'' m'') : Allocs d m d'' m'' := by
  refine ⟨h.evolves.trans h'.evolves, h'.page.trans h.page, fun i hi => ?_, fun f hf => ?_,
    fun f hf => h.free f (h'.free f hf)⟩
  · rw [h'.tables i (by rw [h.tables i hi]; exact hi), h.tables i hi]
  · rw [h'.data f fun hf' => hf (h.free f hf'), h.data f hf]

end Allocs

/-! ### `walkpgdir` and `mappages` -/

/-- `walkpgdir` with `alloc` set makes a table where there is none. -/
theorem walkpgdir_some (h : walkpgdir d m a true = some (d', m')) :
    Allocs d m d' m' ∧ d'.table (PDX a) ≠ none ∧ (∀ b, d'.pte b = d.pte b) ∧
      (∀ i, d'.tables i = none ↔ d.tables i = none ∧ i ≠ PDX a) ∧
      m.free.length = m'.free.length + if d.tables (PDX a) = none then 1 else 0 := by
  unfold walkpgdir at h
  split at h
  · rename_i t ht
    obtain ⟨rfl, rfl⟩ := Prod.mk.inj (Option.some.inj h)
    have hsome : d.tables (PDX a) ≠ none := by
      rw [Ne, PageDir.tables_eq_none_iff, ht]
      exact nofun
    refine ⟨Allocs.refl _ _, by rw [ht]; exact nofun, fun _ => rfl, fun i => ⟨fun hi => ⟨hi, ?_⟩,
      fun hi => hi.1⟩, by rw [if_neg hsome]; rfl⟩
    rintro rfl
    exact hsome hi
  · rename_i ht
    simp only [Bool.not_true, Bool.false_eq_true, if_false] at h
    obtain ⟨r, hr, he⟩ := Option.map_eq_some_iff.mp h
    obtain ⟨rfl, rfl⟩ := Prod.mk.inj he
    obtain ⟨pg, m1⟩ := r
    obtain ⟨hfree, hdata⟩ := kalloc_some hr
    have htn : d.tables (PDX a) = none := PageDir.tables_eq_none_iff.mpr ht
    have hd : ∀ g, g ≠ pg → (m1.memset pg 0).data g = m.data g := by
      intro g hg
      rw [← hdata]
      exact Function.update_of_ne hg _ _
    refine ⟨⟨?_, rfl, fun i hi => ?_, fun f hf => hd f ?_, fun f hf => ?_⟩, ?_, fun b => ?_,
      fun i => ?_, ?_⟩
    · rw [PageDir.held_addTable ht]
      have hn := kalloc_noPanic hr
      exact Evolves.take hfree hd ⟨hn.kend, hn.panicked⟩ htn
    · rw [PageDir.tables_addTable, Function.update_of_ne]
      rintro rfl
      exact hi htn
    · rintro rfl
      exact hf (by rw [hfree]; exact List.mem_cons_self ..)
    · rw [hfree]
      exact List.mem_cons_of_mem _ hf
    · rw [Ne, ← PageDir.tables_eq_none_iff, PageDir.tables_addTable, Function.update_self]
      exact nofun
    · exact PageDir.pte_addTable ht
    · rw [PageDir.tables_addTable, Function.update_apply]
      split_ifs with hi
      · exact iff_of_false nofun fun h => h.2 hi
      · exact ⟨fun h => ⟨h, hi⟩, fun h => h.1⟩
    · rw [if_pos htn, hfree]
      rfl

theorem walkpgdir_none (h : walkpgdir d m a true = none) :
    m.free = [] ∧ d.tables (PDX a) = none := by
  unfold walkpgdir at h
  split at h
  · cases h
  · rename_i ht
    simp only [Bool.not_true, Bool.false_eq_true, if_false, Option.map_eq_none_iff] at h
    exact ⟨kalloc_none h, PageDir.tables_eq_none_iff.mpr ht⟩

/-- `mappages` of a single page. -/
theorem mappages_page (ha : a % PGSIZE = 0) (pg : Page) (perm : Perm) :
    mappages d m a PGSIZE pg perm =
      match walkpgdir d m a true with
      | none => .ok (d, m, false)
      | some (d', m') =>
        if (d'.pte a).isSome then .error (.panic "remap")
        else .ok (d'.setPte a (some ⟨pg, perm⟩), m', true) := by
  have hround : PGROUNDDOWN a = a ∧ PGROUNDDOWN (a + PGSIZE - 1) = a := by
    unfold PGROUNDDOWN
    simp only [PGSIZE] at *
    omega
  show mapLoop perm ((PGROUNDDOWN (a + PGSIZE - 1) - PGROUNDDOWN a) / PGSIZE + 1)
    (PGROUNDDOWN a) pg d m = _
  rw [hround.1, hround.2, Nat.sub_self]
  rfl

/-- The pages from `lo` up to `hi` have been added, with the permissions and contents given. -/
structure Grown (perm : ℕ → Perm) (c : ℕ → Bytes PGSIZE) (lo hi : ℕ) (d : PageDir) (m : PhysMem)
    (d' : PageDir) (m' : PhysMem) : Prop extends Allocs d m d' m' where
  newTables : ∀ i, d'.tables i ≠ none → d.tables i ≠ none ∨ ∃ b, lo ≤ b ∧ b < hi ∧ PDX b = i
  old : ∀ b, lo ≤ b → b < hi → d.pte b = none
  new : ∀ b, lo ≤ b → b < hi → ∃ pg ∈ m.free, d'.pte b = some ⟨pg, perm b⟩ ∧ m'.data pg = c b
  same : ∀ b, b < 2 ^ 32 → ¬ (lo ≤ b ∧ b < hi) → d'.pte b = d.pte b

namespace Grown

variable {perm : ℕ → Perm} {c : ℕ → Bytes PGSIZE} {lo mid hi : ℕ}

theorem refl (perm : ℕ → Perm) (c : ℕ → Bytes PGSIZE) (lo : ℕ) (d : PageDir) (m : PhysMem) :
    Grown perm c lo lo d m d m :=
  ⟨Allocs.refl _ _, fun _ hi => Or.inl hi, fun _ h1 h2 => absurd h2 (by omega),
    fun _ h1 h2 => absurd h2 (by omega), fun _ _ _ => rfl⟩

theorem trans (h : Grown perm c lo mid d m d' m') (h' : Grown perm c mid hi d' m' d'' m'')
    (hP : Pool m.free d.held) (h1 : lo ≤ mid) (h2 : mid ≤ hi) (hhi : hi ≤ KERNBASE) :
    Grown perm c lo hi d m d'' m'' := by
  simp only [KERNBASE] at hhi
  refine ⟨h.toAllocs.trans h'.toAllocs, fun i hi => ?_, fun b hb1 hb2 => ?_,
    fun b hb1 hb2 => ?_, fun b hb hn => ?_⟩
  · rcases h'.newTables i hi with hi' | ⟨b, hb1, hb2, hbi⟩
    · rcases h.newTables i hi' with hi' | ⟨b, hb1, hb2, hbi⟩
      · exact Or.inl hi'
      · exact Or.inr ⟨b, hb1, by omega, hbi⟩
    · exact Or.inr ⟨b, by omega, hb2, hbi⟩
  · by_cases hm : b < mid
    · exact h.old b hb1 hm
    · rw [← h.same b (by omega) (by omega)]
      exact h'.old b (by omega) hb2
  · by_cases hm : b < mid
    · obtain ⟨pg, hpg, hpte, hdata⟩ := h.new b hb1 hm
      refine ⟨pg, hpg, by rw [h'.same b (by omega) (by omega), hpte], ?_⟩
      -- the page is not free any more
      have hheld : d'.held (.page (PDX b) (PTX b)) = some pg := by
        rw [PageDir.held_page (by simp only [KERNBASE]; omega), hpte]
        rfl
      rw [h'.data pg ((h.evolves.exchange.pool hP).apart hheld), hdata]
    · obtain ⟨pg, hpg, hpte, hdata⟩ := h'.new b (by omega) hb2
      exact ⟨pg, h.free pg hpg, hpte, hdata⟩
  · rw [h'.same b hb (by omega), h.same b hb (by omega)]

theorem pool (h : Grown perm c lo hi d m d' m') (hP : Pool m.free d.held) : Pool m'.free d'.held :=
  h.evolves.exchange.pool hP

theorem congr {perm' : ℕ → Perm} {c' : ℕ → Bytes PGSIZE} (h : Grown perm c lo hi d m d' m')
    (hperm : ∀ b, lo ≤ b → b < hi → perm b = perm' b ∧ c b = c' b) :
    Grown perm' c' lo hi d m d' m' := by
  refine ⟨h.toAllocs, h.newTables, h.old, fun b h1 h2 => ?_, h.same⟩
  rw [← (hperm b h1 h2).1, ← (hperm b h1 h2).2]
  exact h.new b h1 h2

end Grown

/-- One page from `kalloc`, filled and mapped. -/
theorem grown_page {m1 : PhysMem} {perm : Perm} {c : Bytes PGSIZE} (ha : a % PGSIZE = 0)
    (hlt : a < KERNBASE) (hk : kalloc m = some (pg, m1))
    (h : mappages d (m1.setData pg c) a PGSIZE pg perm = .ok (d', m', true))
    (hP : Pool m.free d.held) :
    Grown (fun _ => perm) (fun _ => c) a (a + PGSIZE) d m d' m' ∧
      m.free.length = m'.free.length + 1 + (if d.tables (PDX a) = none then 1 else 0) ∧
      ∀ i, d'.tables i = none ↔ d.tables i = none ∧ i ≠ PDX a := by
  obtain ⟨hfree, hdata⟩ := kalloc_some hk
  rw [mappages_page ha] at h
  split at h
  · cases h
  · rename_i d1 m2 hw
    split_ifs at h with hnone
    obtain ⟨rfl, rfl, -⟩ : d1.setPte a (some ⟨pg, perm⟩) = d' ∧ m2 = m' ∧ True := by
      simpa using h
    obtain ⟨hA, htab, hpte, htabs, hlen⟩ := walkpgdir_some hw
    have hnone' : d1.pte a = none := by simpa using hnone
    have hpgfree : pg ∉ m1.free := fun hf => by
      have := hP.nodup
      rw [hfree] at this
      exact (List.nodup_cons.mp this).1 hf
    -- the entry of `a` is the one of the addresses in its page
    have hsame : ∀ b, b < 2 ^ 32 → (SameEntry b a ↔ a ≤ b ∧ b < a + PGSIZE) := by
      intro b hb
      rw [sameEntry_iff hb (by simp only [KERNBASE] at hlt; omega)]
      simp only [PGSIZE] at *
      omega
    have hlt32 : ∀ b, b < a + PGSIZE → b < 2 ^ 32 := by
      intro b hb
      simp only [KERNBASE, PGSIZE] at *
      omega
    refine ⟨⟨⟨?_, by rw [PageDir.page_setPte, hA.page], fun i hi => ?_, fun f hf => ?_,
      fun f hf => ?_⟩, fun i hi => ?_, fun b h1 h2 => ?_, fun b h1 h2 => ?_, fun b hb hn => ?_⟩,
      ?_, fun i => ?_⟩
    · -- the page is put aside while the walk takes another one
      have h1 : Evolves d.held m d1.held { m2 with free := pg :: m2.free } := by
        have hn := kalloc_noPanic hk
        refine hA.evolves.cons rfl hfree rfl (fun g hg => ?_) (fun g _ => rfl)
          ⟨hn.kend.symm, hn.panicked.symm⟩ rfl fun _ => rfl
        rw [← hdata]
        exact (Function.update_of_ne hg _ _).symm
      refine h1.trans ?_
      rw [PageDir.held_setPte htab hlt]
      refine Evolves.take rfl (fun _ _ => rfl) ⟨rfl, rfl⟩ ?_
      rw [PageDir.held_page hlt, hnone']
      rfl
    · rw [PageDir.tables_setPte]
      exact hA.tables i hi
    -- the page that is filled was free
    · have hne : f ≠ pg := by
        rintro rfl
        exact hf (by rw [hfree]; exact List.mem_cons_self ..)
      rw [hA.data f fun hf' => hf (by rw [hfree]; exact List.mem_cons_of_mem _ hf')]
      rw [← hdata]
      exact Function.update_of_ne hne _ _
    · rw [hfree]
      exact List.mem_cons_of_mem _ (hA.free f hf)
    · rw [PageDir.tables_setPte, Ne, htabs, not_and_or, not_not] at hi
      exact hi.imp id fun hi => ⟨a, le_rfl, by simp only [PGSIZE]; omega, hi.symm⟩
    · rw [← hpte, PageDir.pte_congr ((hsame b (hlt32 b h2)).mpr ⟨h1, h2⟩), hnone']
    · refine ⟨pg, by rw [hfree]; exact List.mem_cons_self .., ?_, ?_⟩
      · rw [PageDir.pte_setPte htab, if_pos ((hsame b (hlt32 b h2)).mpr ⟨h1, h2⟩)]
      · rw [hA.data pg hpgfree]
        exact Function.update_self ..
    · rw [PageDir.pte_setPte htab, if_neg fun hs => hn ((hsame b hb).mp hs), hpte]
    · have hlen' : m1.free.length = m2.free.length + _ := hlen
      rw [hfree, List.length_cons, hlen']
      omega
    · rw [PageDir.tables_setPte]
      exact htabs i

theorem mappages_error {e : VmHalt} {perm : Perm} (ha : a % PGSIZE = 0)
    (h : mappages d m a PGSIZE pg perm = .error e) : d.pte a ≠ none := by
  rw [mappages_page ha] at h
  split at h
  · cases h
  · rename_i d1 m1 hw
    obtain ⟨-, -, hpte, -⟩ := walkpgdir_some hw
    split_ifs at h with hsome
    rw [hpte] at hsome
    exact Option.isSome_iff_ne_none.mp hsome

/-- When there is no memory for a table, `mappages` of a page changes nothing. -/
theorem mappages_false {perm : Perm} (ha : a % PGSIZE = 0)
    (h : mappages d m a PGSIZE pg perm = .ok (d', m', false)) :
    d' = d ∧ m' = m ∧ m.free = [] ∧ d.tables (PDX a) = none := by
  rw [mappages_page ha] at h
  split at h
  · rename_i hw
    obtain ⟨rfl, rfl, -⟩ : d = d' ∧ m = m' ∧ True := by simpa using h
    exact ⟨rfl, rfl, walkpgdir_none hw⟩
  · split_ifs at h
    simp at h

theorem mappages_true {perm : Perm} (ha : a % PGSIZE = 0) (hlt : a < 2 ^ 32)
    (h : mappages d m a PGSIZE pg perm = .ok (d', m', true)) :
    d.pte a = none ∧ ∀ b, b < 2 ^ 32 → ¬ (a ≤ b ∧ b < a + PGSIZE) → d'.pte b = d.pte b := by
  rw [mappages_page ha] at h
  split at h
  · simp at h
  · rename_i d1 m1 hw
    obtain ⟨-, htab, hpte, -⟩ := walkpgdir_some hw
    split_ifs at h with hsome
    obtain ⟨rfl, -⟩ : d1.setPte a (some ⟨pg, perm⟩) = d' ∧ m1 = m' := by simpa using h
    refine ⟨by rw [← hpte]; simpa using hsome, fun b hb hn => ?_⟩
    rw [PageDir.pte_setPte htab, if_neg, hpte]
    rw [sameEntry_iff hb hlt]
    simp only [PGSIZE] at *
    omega

/-! ### `deallocuvm` and `freevm` -/

/-- The entries from `lo` on have been cleared, up to the page of the last byte below `hi`. -/
structure Shrunk (lo hi : ℕ) (d : PageDir) (m : PhysMem) (d' : PageDir) (m' : PhysMem) : Prop where
  evolves : Evolves d.held m d'.held m'
  page : d'.page = d.page
  tables : d'.tables = d.tables
  pte : ∀ b, b < 2 ^ 32 →
    d'.pte b = if lo ≤ b ∧ PGROUNDDOWN b < hi then none else d.pte b
  data : ∀ f, f ∉ m.free →
    (∀ b p, lo ≤ b → PGROUNDDOWN b < hi → b < 2 ^ 32 → d.pte b = some p → p.page ≠ f) →
    m'.data f = m.data f

theorem deallocLoop_spec (ha : a % PGSIZE = 0) (hold : oldsz ≤ KERNBASE)
    (hfuel : oldsz ≤ a + n * PGSIZE) :
    Shrunk a oldsz d m (deallocLoop oldsz n a d m).1 (deallocLoop oldsz n a d m).2 := by
  have hdone : ∀ {d m a}, a % PGSIZE = 0 → oldsz ≤ a → Shrunk a oldsz d m d m := by
    intro d m a ha h
    refine ⟨Evolves.refl _ _, rfl, rfl, fun b _ => ?_, fun _ _ _ => rfl⟩
    rw [if_neg]
    unfold PGROUNDDOWN
    simp only [PGSIZE] at *
    omega
  -- on the fuel, with the rest of the range in the induction hypothesis
  induction n generalizing a d m with
  | zero => exact hdone ha (by omega)
  | succ n ih =>
    unfold deallocLoop
    split_ifs with hlt
    · -- clearing from a later page on, when there is nothing in between
      have hskip : ∀ {a' d' m'}, a ≤ a' → Shrunk a' oldsz d m d' m' →
          (∀ b, a ≤ b → b < a' → d.pte b = none) → Shrunk a oldsz d m d' m' := by
        intro a' d' m' hle h hnone
        refine ⟨h.evolves, h.page, h.tables, fun b hb => ?_, fun f hm hf => h.data f hm ?_⟩
        · rw [h.pte b hb]
          by_cases hba : a' ≤ b
          · simp only [hba, hle.trans hba, true_and]
          · simp only [hba, false_and, if_false]
            split_ifs with hc
            · exact hnone b hc.1 (by omega)
            · rfl
        · exact fun b p h1 h2 hb hp => hf b p (by omega) h2 hb hp
      have hlt32 : a < 2 ^ 32 := by
        simp only [KERNBASE] at hold
        omega
      split
      -- without a table the loop goes on at the next one
      · rename_i htab
        refine hskip (by omega) (ih ?_ ?_) fun b h1 h2 => ?_
        · simp only [PGSIZE]
          omega
        · simp only [PGSIZE] at *
          omega
        · have hb : PDX b = PDX a := by
            rw [PDX_eq_iff (by simp only [KERNBASE] at hold; omega) hlt32]
            omega
          exact PageDir.pte_of_table_none (by rw [hb, htab])
      · rename_i t htab
        have hnext : (a + PGSIZE) % PGSIZE = 0 := by
          simp only [PGSIZE] at *
          omega
        have hfuel' : oldsz ≤ a + PGSIZE + n * PGSIZE := by
          simp only [PGSIZE] at *
          omega
        have hsame : ∀ b, b < 2 ^ 32 → (SameEntry b a ↔ a ≤ b ∧ b < a + PGSIZE) := by
          intro b hb
          rw [sameEntry_iff hb hlt32]
          simp only [PGSIZE] at *
          omega
        split
        · rename_i hnone
          refine hskip (by omega) (ih hnext hfuel') fun b h1 h2 => ?_
          have hb : b < 2 ^ 32 := by
            simp only [KERNBASE, PGSIZE] at *
            omega
          rw [PageDir.pte_congr ((hsame b hb).mpr ⟨h1, h2⟩), hnone]
        -- the page is given back and its entry cleared
        · rename_i p hp
          have htab' : d.table (PDX a) ≠ none := by
            rw [htab]
            exact nofun
          have hu : a < KERNBASE := by omega
          have h1 := ih (d := d.setPte a none) (m := kfree m p.page) hnext hfuel'
          refine ⟨Evolves.trans ?_ h1.evolves, h1.page.trans PageDir.page_setPte,
            h1.tables.trans PageDir.tables_setPte, fun b hb => ?_, fun f hm hf => ?_⟩
          · rw [PageDir.held_setPte htab' hu]
            refine Evolves.give ?_
            rw [PageDir.held_page hu, hp]
            rfl
          · rw [h1.pte b hb, PageDir.pte_setPte htab']
            by_cases hs : SameEntry b a
            · have hb' := (hsame b hb).mp hs
              have hr : PGROUNDDOWN b < oldsz := by
                unfold PGROUNDDOWN
                simp only [PGSIZE] at *
                omega
              rw [if_neg (by omega), if_pos hs, if_pos ⟨hb'.1, hr⟩]
            · have hb' : ¬ (a ≤ b ∧ b < a + PGSIZE) := fun h => hs ((hsame b hb).mpr h)
              rw [if_neg hs]
              by_cases hba : a + PGSIZE ≤ b
              · simp only [hba, true_and, show a ≤ b by omega]
              · rw [if_neg fun h => hba h.1, if_neg fun h => hb' ⟨h.1, by omega⟩]
          · have hfp : f ≠ p.page := by
              rintro rfl
              refine hf a p le_rfl ?_ hlt32 hp rfl
              unfold PGROUNDDOWN
              simp only [PGSIZE] at *
              omega
            rw [h1.data f (fun hm' => (List.mem_cons.mp hm').elim hfp hm) fun b q h2 h3 hb hq => ?_]
            · exact Function.update_of_ne hfp _ _
            · rw [PageDir.pte_setPte htab'] at hq
              split_ifs at hq
              exact hf b q (by omega) h3 hb hq
    · exact hdone ha (by omega)

theorem deallocuvm_eq (h : newsz < oldsz) (hold : oldsz ≤ KERNBASE) :
    (deallocuvm d m oldsz newsz).2.2 = newsz ∧
    Shrunk (PGROUNDUP newsz) oldsz d m (deallocuvm d m oldsz newsz).1
      (deallocuvm d m oldsz newsz).2.1 := by
  unfold deallocuvm
  rw [if_neg (by omega)]
  refine ⟨rfl, deallocLoop_spec (Nat.mul_mod_left _ _) hold ?_⟩
  simp only [PGSIZE]
  omega

/-! ### `allocuvm` -/

/-- The entries are as before; tables may have been added. -/
structure Restored (d : PageDir) (m : PhysMem) (d' : PageDir) (m' : PhysMem) : Prop where
  evolves : Evolves d.held m d'.held m'
  page : d'.page = d.page
  tables : ∀ i, d.tables i ≠ none → d'.tables i = d.tables i
  pte : ∀ b, b < 2 ^ 32 → d'.pte b = d.pte b
  data : ∀ f, f ∉ m.free → m'.data f = m.data f

/-- The number of pages that are needed to map the addresses from `lo` up to `hi`, with the tables that
are missing. -/
def demand (d : PageDir) (lo hi : ℕ) : ℕ :=
  (hi - lo) / PGSIZE + (Finset.univ.filter fun i : Fin NPDENTRIES =>
    d.tables i = none ∧ max lo (i * 2 ^ 22) < min hi ((i + 1) * 2 ^ 22)).card

theorem demand_succ {lo hi : ℕ} (h : lo + PGSIZE ≤ hi) (hlo : lo % PGSIZE = 0)
    (hhi : hi ≤ KERNBASE)
    (htab : ∀ i, d'.tables i = none ↔ d.tables i = none ∧ i ≠ PDX lo) :
    demand d lo hi =
      demand d' (lo + PGSIZE) hi + 1 + if d.tables (PDX lo) = none then 1 else 0 := by
  simp only [KERNBASE] at hhi
  have hpdx : (PDX lo : ℕ) = lo / 2 ^ 22 := by
    rw [PDX_val]
    simp only [PGSIZE] at h
    omega
  -- for the other tables it makes no difference that the first page is gone
  have hother : ∀ i : Fin NPDENTRIES, i ≠ PDX lo →
      (max lo (i * 2 ^ 22) < min hi ((i + 1) * 2 ^ 22) ↔
        max (lo + PGSIZE) (i * 2 ^ 22) < min hi ((i + 1) * 2 ^ 22)) := by
    intro i hi
    have hne : (i : ℕ) ≠ lo / 2 ^ 22 := fun he => hi (Fin.ext (by rw [hpdx, he]))
    simp only [PGSIZE] at *
    omega
  have hpages : (hi - lo) / PGSIZE = (hi - (lo + PGSIZE)) / PGSIZE + 1 := by
    simp only [PGSIZE] at *
    omega
  have hset : (Finset.univ.filter fun i : Fin NPDENTRIES =>
      d'.tables i = none ∧ max (lo + PGSIZE) (i * 2 ^ 22) < min hi ((i + 1) * 2 ^ 22)) =
      (Finset.univ.filter fun i : Fin NPDENTRIES =>
        d.tables i = none ∧ max lo (i * 2 ^ 22) < min hi ((i + 1) * 2 ^ 22)).erase (PDX lo) := by
    ext i
    simp only [Finset.mem_filter, Finset.mem_univ, true_and, Finset.mem_erase, htab]
    constructor
    · rintro ⟨⟨h1, h2⟩, h3⟩
      exact ⟨h2, h1, (hother i h2).mpr h3⟩
    · rintro ⟨h2, h1, h3⟩
      exact ⟨⟨h1, h2⟩, (hother i h2).mp h3⟩
  unfold demand
  rw [hset, hpages]
  split_ifs with hnone
  · have hmem : PDX lo ∈ Finset.univ.filter fun i : Fin NPDENTRIES =>
        d.tables i = none ∧ max lo (i * 2 ^ 22) < min hi ((i + 1) * 2 ^ 22) := by
      rw [Finset.mem_filter, hpdx]
      refine ⟨Finset.mem_univ _, hnone, ?_⟩
      simp only [PGSIZE] at h
      omega
    have := Finset.card_erase_add_one hmem
    omega
  · rw [Finset.erase_eq_of_notMem fun hmem => hnone (Finset.mem_filter.mp hmem).2.1]
    omega

/-- A page from `kalloc` is given back after the entries have been cleared. -/
theorem Shrunk.kfree {lo hi : ℕ} {m1 : PhysMem} {c : Bytes PGSIZE} (hk : kalloc m = some (pg, m1))
    (h : Shrunk lo hi d (m1.setData pg c) d' m') : Shrunk lo hi d m d' (kfree m' pg) := by
  obtain ⟨hfree, hdata⟩ := kalloc_some hk
  have hn := kalloc_noPanic hk
  refine ⟨h.evolves.cons rfl hfree rfl (fun g hg => ?_) (fun g hg => ?_)
    ⟨hn.kend.symm, hn.panicked.symm⟩ rfl fun hf => kfree_panicked hf, h.page, h.tables, h.pte,
    fun f hm hf => ?_⟩
  · rw [← hdata]
    exact (Function.update_of_ne hg _ _).symm
  · exact Function.update_of_ne hg _ _
  · rw [hfree, List.mem_cons, not_or] at hm
    refine (Function.update_of_ne hm.1 _ _).trans ?_
    rw [h.data f hm.2 hf, ← hdata]
    exact Function.update_of_ne hm.1 _ _

/-- The pages that have been added are taken back. -/
theorem Grown.undo {perm : ℕ → Perm} {c : ℕ → Bytes PGSIZE} {lo : ℕ}
    (h : Grown perm c lo a d m d' m') (hS : Shrunk lo newsz d' m' d'' m'')
    (hnew : newsz ≤ KERNBASE) (ha : a ≤ PGROUNDUP newsz)
    (hnone : ∀ b, lo ≤ b → b < PGROUNDUP newsz → d.pte b = none) : Restored d m d'' m'' := by
  have hround : ∀ b, PGROUNDDOWN b < newsz ↔ b < PGROUNDUP newsz := by
    intro b
    rw [PGROUNDUP_eq hnew]
    unfold PGROUNDDOWN
    simp only [PGSIZE]
    omega
  refine ⟨h.evolves.trans hS.evolves, hS.page.trans h.page, fun i hi => ?_, fun b hb => ?_,
    fun f hf => ?_⟩
  · rw [hS.tables]
    exact h.tables i hi
  · rw [hS.pte b hb]
    split_ifs with hc
    · exact (hnone b hc.1 ((hround b).mp hc.2)).symm
    · refine h.same b hb fun hb' => hc ⟨hb'.1, (hround b).mpr (by omega)⟩
  · rw [hS.data f (fun hf' => hf (h.free f hf')) ?_, h.data f hf]
    rintro b p h1 h2 hb hp rfl
    by_cases hba : b < a
    · obtain ⟨pg, hpg, hpte, -⟩ := h.new b h1 hba
      rw [hpte] at hp
      obtain rfl := Option.some.inj hp
      exact hf hpg
    · rw [h.same b hb (by omega), hnone b h1 ((hround b).mp h2)] at hp
      cases hp

/-- The pages `allocuvm` adds are zeroed and belong to the user. -/
abbrev Zeroed (lo hi : ℕ) (d : PageDir) (m : PhysMem) (d' : PageDir) (m' : PhysMem) : Prop :=
  Grown (fun _ => ⟨true, true, 0⟩) (fun _ _ => 0) lo hi d m d' m'

theorem allocLoop_spec {lo : ℕ} {d₀ : PageDir} {m₀ : PhysMem} (hlo : lo = PGROUNDUP oldsz)
    (hold : oldsz ≤ newsz) (hnew : newsz < KERNBASE)
    (hnone : ∀ b, lo ≤ b → b < PGROUNDUP newsz → d₀.pte b = none) (hP : Pool m₀.free d₀.held)
    (hG : Zeroed lo a d₀ m₀ d m) (ha : a % PGSIZE = 0) (hla : lo ≤ a) (haR : a ≤ PGROUNDUP newsz)
    (hfuel : newsz ≤ a + n * PGSIZE) :
    (∃ d' m', allocLoop oldsz newsz n a d m = .ok (d', m', newsz) ∧
      Zeroed lo (PGROUNDUP newsz) d₀ m₀ d' m' ∧
      demand d a (PGROUNDUP newsz) ≤ m.free.length) ∨
    oldsz < newsz ∧ ∃ d' m', allocLoop oldsz newsz n a d m = .ok (d', m', 0) ∧
      Restored d₀ m₀ d' m' ∧ m.free.length < demand d a (PGROUNDUP newsz) := by
  have hR := PGROUNDUP_eq hnew.le
  have hL := PGROUNDUP_eq (hold.trans hnew.le)
  have hRK : PGROUNDUP newsz ≤ KERNBASE := by
    simp only [KERNBASE] at *
    omega
  have hdone : ∀ {d m a}, Zeroed lo a d₀ m₀ d m → a % PGSIZE = 0 → a ≤ PGROUNDUP newsz →
      newsz ≤ a → Zeroed lo (PGROUNDUP newsz) d₀ m₀ d m ∧ demand d a (PGROUNDUP newsz) = 0 := by
    intro d m a hG ha haR hge
    obtain rfl : a = PGROUNDUP newsz := by
      simp only [PGSIZE] at ha
      omega
    refine ⟨hG, ?_⟩
    unfold demand
    rw [Nat.sub_self, Nat.zero_div, Nat.zero_add, Finset.card_eq_zero, Finset.filter_eq_empty_iff]
    rintro i - ⟨-, h⟩
    omega
  induction n generalizing a d m with
  | zero =>
    obtain ⟨h1, h2⟩ := hdone hG ha haR (by omega)
    exact Or.inl ⟨d, m, rfl, h1, by omega⟩
  | succ n ih =>
    unfold allocLoop
    split_ifs with hlt
    · have hnext : a + PGSIZE ≤ PGROUNDUP newsz := by
        simp only [PGSIZE] at *
        omega
      have hltold : oldsz < newsz := by omega
      have hpos : 0 < demand d a (PGROUNDUP newsz) := by
        unfold demand
        have : 0 < (PGROUNDUP newsz - a) / PGSIZE := by
          refine Nat.div_pos ?_ (by decide)
          omega
        omega
      cases hk : kalloc m with
      | none =>
        obtain ⟨-, hS⟩ := deallocuvm_eq (d := d) (m := m) hltold hnew.le
        rw [← hlo] at hS
        refine Or.inr ⟨hltold, _, _, rfl, hG.undo hS hnew.le haR hnone, ?_⟩
        rw [kalloc_none hk]
        exact hpos
      | some r =>
        obtain ⟨mem, m1⟩ := r
        obtain ⟨hfree, hdata⟩ := kalloc_some hk
        have hnonea : d.pte a = none := by
          rw [hG.same a (by simp only [KERNBASE] at *; omega) (by omega)]
          exact hnone a hla (by omega)
        simp only
        cases hmp : mappages d (m1.memset mem 0) a PGSIZE mem ⟨true, true, 0⟩ with
        | error e => exact absurd hnonea (mappages_error ha hmp)
        | ok r =>
          obtain ⟨d', m', ok⟩ := r
          cases ok with
          | true =>
            obtain ⟨hG', hlen, htab⟩ := grown_page ha (by omega) hk hmp (hG.pool hP)
            have hdem := demand_succ hnext ha hRK htab
            have hG'' : Zeroed lo (a + PGSIZE) d₀ m₀ d' m' :=
              hG.trans hG' hP hla (by omega) (by omega)
            have hstep := ih hG'' (by simp only [PGSIZE] at *; omega) (by omega) hnext
              (by simp only [PGSIZE] at *; omega)
            rcases hstep with ⟨d2, m2, h1, h2, h3⟩ | ⟨-, d2, m2, h1, h2, h3⟩
            · exact Or.inl ⟨d2, m2, h1, h2, by omega⟩
            · exact Or.inr ⟨hltold, d2, m2, h1, h2, by omega⟩
          | false =>
            obtain ⟨rfl, rfl, hnil, htab⟩ := mappages_false ha hmp
            obtain ⟨-, hS⟩ := deallocuvm_eq (d := d') (m := m1.memset mem 0) hltold hnew.le
            rw [← hlo] at hS
            refine Or.inr ⟨hltold, _, _, rfl, hG.undo (hS.kfree hk) hnew.le haR hnone, ?_⟩
            -- one page is left, but a table is missing as well
            have hmore : ∀ i, (d'.addTable (PDX a) 0).tables i = none ↔
                d'.tables i = none ∧ i ≠ PDX a := by
              intro i
              rw [PageDir.tables_addTable, Function.update_apply]
              split_ifs with hi
              · exact iff_of_false nofun fun h => h.2 hi
              · exact ⟨fun h => ⟨h, hi⟩, fun h => h.1⟩
            have hdem := demand_succ hnext ha hRK hmore
            rw [if_pos htab] at hdem
            have hlen : m.free.length = 1 := by
              rw [hfree, show m1.free = [] from hnil]
              rfl
            omega
    · obtain ⟨h1, h2⟩ := hdone hG ha haR (by omega)
      exact Or.inl ⟨d, m, rfl, h1, by omega⟩

/-- Whatever is mapped: when `allocuvm` returns, there was nothing in its way, or it has failed and
cleared the whole range. -/
theorem allocLoop_clear {r : PageDir × PhysMem × ℕ} (hold : oldsz ≤ a) (hnew : newsz < KERNBASE)
    (ha : a % PGSIZE = 0) (hfuel : newsz ≤ a + n * PGSIZE)
    (h : allocLoop oldsz newsz n a d m = .ok r) :
    (r.2.2 = newsz ∧ ∀ b, a ≤ b → b < PGROUNDUP newsz → d.pte b = none) ∨
    r.2.2 = 0 ∧ ∀ b, PGROUNDUP oldsz ≤ b → b < PGROUNDUP newsz → r.1.pte b = none := by
  have hR := PGROUNDUP_eq hnew.le
  -- a failure clears the range, the pages of others included
  have hundo : ∀ {d m}, a < newsz → ∀ b, PGROUNDUP oldsz ≤ b → b < PGROUNDUP newsz →
      (deallocuvm d m newsz oldsz).1.pte b = none := by
    intro d m hlt b h1 h2
    obtain ⟨-, hS⟩ := deallocuvm_eq (d := d) (m := m) (hold.trans_lt hlt) hnew.le
    have hb : b < 2 ^ 32 := by
      simp only [KERNBASE] at hnew
      omega
    have hr : PGROUNDDOWN b < newsz := by
      unfold PGROUNDDOWN
      simp only [PGSIZE]
      omega
    rw [hS.pte b hb, if_pos ⟨h1, hr⟩]
  induction n generalizing a d m with
  | zero =>
    obtain rfl := Except.ok.inj h
    refine Or.inl ⟨rfl, fun b h1 h2 => ?_⟩
    simp only [PGSIZE] at *
    omega
  | succ n ih =>
    unfold allocLoop at h
    split_ifs at h with hlt
    · split at h
      · obtain rfl := Except.ok.inj h
        exact Or.inr ⟨rfl, hundo hlt⟩
      · split at h
        · cases h
        · rename_i d1 m2 hmp
          -- the page was free in the directory, and the loop goes on
          obtain ⟨hnone, hsame⟩ := mappages_true ha (by simp only [KERNBASE] at hnew; omega) hmp
          have hnext : (a + PGSIZE) % PGSIZE = 0 := by
            simp only [PGSIZE] at *
            omega
          rcases ih (by omega) hnext (by simp only [PGSIZE] at *; omega) h
            (fun hl => hundo (by omega)) with ⟨h1, h2⟩ | h1
          · refine Or.inl ⟨h1, fun b hb1 hb2 => ?_⟩
            have hb : b < 2 ^ 32 := by
              simp only [KERNBASE] at hnew
              omega
            by_cases hba : b < a + PGSIZE
            · rw [PageDir.pte_congr (b := a), hnone]
              rw [sameEntry_iff hb (by omega)]
              simp only [PGSIZE] at *
              omega
            · rw [← hsame b hb (by omega)]
              exact h2 b (by omega) hb2
          · exact Or.inr h1
        · obtain rfl := Except.ok.inj h
          exact Or.inr ⟨rfl, hundo hlt⟩
    · obtain rfl := Except.ok.inj h
      refine Or.inl ⟨rfl, fun b h1 h2 => ?_⟩
      simp only [PGSIZE] at *
      omega

end OsSemester.Xv6
