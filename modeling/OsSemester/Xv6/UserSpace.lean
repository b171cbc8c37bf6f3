import OsSemester.Xv6.Spec.Vm

/-!
# The address space of a process

What a process of size `sz` may rely on: the pages below its size are mapped, and no physical page is
used twice.
-/

namespace OsSemester.Xv6

variable {d d' : PageDir} {m m' : PhysMem} {sz b : ℕ}

/-- The byte at a virtual address. -/
def PageDir.byte (d : PageDir) (m : PhysMem) (b : ℕ) : Option UInt8 :=
  (d.pte b).map fun p => (m.data p.page).get (b % PGSIZE)

/-- The address space of a process of size `sz`: its pages are mapped, and no page has two uses. -/
structure AddrSpace (d : PageDir) (m : PhysMem) (sz : ℕ) : Prop where
  pool : Pool m.free d.held
  size : sz < KERNBASE
  mapped : ∀ b, b < sz → d.pte b ≠ none

namespace AddrSpace

/-- The pages of the process are mapped as a whole. -/
theorem mapped_round (h : AddrSpace d m sz) (hb : b < PGROUNDUP sz) : d.pte b ≠ none := by
  have hsz := h.size
  rw [PGROUNDUP_eq hsz.le] at hb
  simp only [KERNBASE] at hsz
  have hsame : SameEntry b (b / 4096 * 4096) := by
    rw [sameEntry_iff (by omega) (by omega)]
    simp only [PGSIZE]
    omega
  rw [PageDir.pte_congr hsame]
  exact h.mapped _ (by omega)

/-- What the process maps is not free. -/
theorem page_not_free (h : AddrSpace d m sz) (hb : b < KERNBASE) {p : Pte} (hp : d.pte b = some p) :
    p.page ∉ m.free := by
  refine h.pool.apart (k := .page (PDX b) (PTX b)) ?_
  rw [PageDir.held_page hb, hp]
  rfl

/-- Two addresses of one physical page have one entry. -/
theorem sameEntry_of_page (h : AddrSpace d m sz) {c : ℕ} (hb : b < KERNBASE) (hc : c < KERNBASE)
    {p q : Pte} (hp : d.pte b = some p) (hq : d.pte c = some q) (hpq : p.page = q.page) :
    SameEntry b c := by
  have hinj := h.pool.inj (j := .page (PDX b) (PTX b)) (k := .page (PDX c) (PTX c)) (f := p.page)
    (by rw [PageDir.held_page hb, hp]; rfl) (by rw [PageDir.held_page hc, hq, hpq]; rfl)
  obtain ⟨h1, h2⟩ := Use.page.inj hinj
  exact ⟨h1, h2⟩

theorem byte_congr (hpte : d'.pte b = d.pte b)
    (hdata : ∀ p, d.pte b = some p → m'.data p.page = m.data p.page) :
    d'.byte m' b = d.byte m b := by
  unfold PageDir.byte
  rw [hpte]
  cases hp : d.pte b with
  | none => rfl
  | some p => rw [Option.map_some, Option.map_some, hdata p hp]

end AddrSpace

/-! ### A process of one page -/

def lonePte : Pte := ⟨3, ⟨true, true, 0⟩⟩

/-- A directory in page 1 with a table in page 2 that maps page 3 at address 0. -/
def loneDir : PageDir where
  page := 1
  table := Function.update (fun _ => none) 0
    (some ⟨2, Function.update (fun _ => none) 0 (some lonePte)⟩)

def loneMem : PhysMem where
  free := [4, 5, 6]
  data := fun _ => 0
  kend := PGSIZE
  panicked := false

theorem loneDir_held {u : Use} {f : Page} (h : loneDir.held u = some f) :
    (u = .dir ∧ f = 1) ∨ (u = .table 0 ∧ f = 2) ∨ (u = .page 0 0 ∧ f = 3) := by
  cases u with
  | dir => exact Or.inl ⟨rfl, (Option.some.inj h).symm⟩
  | table i =>
    simp only [PageDir.held, PageDir.tables, loneDir, Function.update_apply] at h
    split_ifs at h with hi
    · exact Or.inr (Or.inl ⟨by rw [hi], (Option.some.inj h).symm⟩)
    · cases h
  | page i j =>
    simp only [PageDir.held, loneDir, Function.update_apply] at h
    split_ifs at h with hlt hi
    · simp only [Option.bind_some, Function.update_apply] at h
      split_ifs at h with hj
      · exact Or.inr (Or.inr ⟨by rw [hi, hj], (Option.some.inj h).symm⟩)
      · cases h
    · cases h

theorem loneDir_pte (b : ℕ) :
    loneDir.pte b = if SameEntry b 0 then some lonePte else none := by
  unfold PageDir.pte loneDir
  simp only [Function.update_apply]
  by_cases hs : SameEntry b 0
  · have h1 : PDX b = 0 := hs.1
    have h2 : PTX b = 0 := hs.2
    rw [if_pos hs, if_pos h1, Option.bind_some, h2]
    simp only [Function.update_self]
  · rw [if_neg hs]
    split_ifs with hi
    · have h2 : PTX b ≠ 0 := fun hj => hs ⟨hi, hj⟩
      simp only [Option.bind_some, Function.update_of_ne h2]
    · rfl

/-- The pages behind the first three can be free. -/
theorem pool_lone {free : List Page} (hn : free.Nodup) (h : ∀ f : ℕ, f ∈ free → 3 < f) :
    Pool free loneDir.held := by
  refine ⟨hn, fun {u} (f : ℕ) hu hf => ?_, fun {u v f} h1 h2 => ?_⟩
  · have hlt := h f hf
    rcases loneDir_held hu with ⟨-, rfl⟩ | ⟨-, rfl⟩ | ⟨-, rfl⟩ <;> omega
  · rcases loneDir_held h1 with ⟨rfl, rfl⟩ | ⟨rfl, rfl⟩ | ⟨rfl, rfl⟩ <;>
      rcases loneDir_held h2 with ⟨rfl, h⟩ | ⟨rfl, h⟩ | ⟨rfl, h⟩ <;>
      first | rfl | exact absurd h (by decide)

theorem addrSpace_lone : AddrSpace loneDir loneMem 4096 := by
  refine ⟨pool_lone (by decide) (by decide), by decide, fun b hb => ?_⟩
  have hs : SameEntry b 0 := by
    rw [sameEntry_iff (by omega) (by decide)]
    simp only [PGSIZE]
    omega
  rw [loneDir_pte, if_pos hs]
  exact nofun

/-- Many free pages. -/
def roomyMem : PhysMem := { loneMem with free := List.range' 1024 1200 }

theorem pool_roomy : Pool roomyMem.free loneDir.held := by
  refine pool_lone List.nodup_range' fun f hf => ?_
  have hle := (List.mem_range'_1.mp hf).1
  omega

end OsSemester.Xv6
