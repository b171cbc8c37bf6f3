import OsSemester.Xv6.Spec.CloneDir

/-!
# `copyuvm` copies everything or nothing

The user pages that have been copied, the page tables and the directory come from the free list, one
page for each use.  When there is no page left for one of them, `freevm` gives all of them back:
`copyuvm_all_or_nothing`.
-/

namespace OsSemester.Xv6

variable {d : PageDir} {m m' : PhysMem} {sz data : ℕ}

/-- The directory `d` is a copy of the first `sz` bytes of `src`. -/
structure CopyExact (src : PageDir) (sz : ℕ) (m : PhysMem) (d : PageDir) (m' : PhysMem) : Prop
    extends TakenFrom m d m' where
  /-- The copy of a page has its flag bits and its bytes. -/
  copied : ∀ b, b < PGROUNDUP sz → ∃ p q, src.pte b = some p ∧ d.pte b = some q ∧
    q.perm = p.perm ∧ m'.data q.page = m.data p.page ∧ q.page ∈ m.free
  /-- One page of memory is not two pages of the copy. -/
  distinct : ∀ b c, b < PGROUNDUP sz → c < PGROUNDUP sz → ∀ p q, d.pte b = some p →
    d.pte c = some q → p.page = q.page → b / PGSIZE = c / PGSIZE
  rest : ∀ b, PGROUNDUP sz ≤ b → b < KERNBASE → d.pte b = none
  /-- The pages of the source are what they were, and still not free. -/
  source : ∀ b p, b < sz → src.pte b = some p → m'.data p.page = m.data p.page ∧ p.page ∉ m'.free

theorem CopiedDir.exact {src : PageDir} (hn : m.free.Nodup)
    (hsrc : ∀ b, b < sz → ∃ p, src.pte b = some p ∧ p.page ∉ m.free) (hsz : sz ≤ KERNBASE)
    (h : CopiedDir src sz m d m') : CopyExact src sz m d m' := by
  have hT := h.evolves.takenFrom hn
  have hR := PGROUNDUP_eq hsz
  have hRK : PGROUNDUP sz ≤ KERNBASE := by
    simp only [KERNBASE] at *
    omega
  refine ⟨hT, fun b hb => ?_, fun b c hb hc p q hp hq he => ?_, h.rest, fun b p hb hp => ?_⟩
  · obtain ⟨p, pg, hp, hpg, hd, hdata⟩ := h.copied b hb
    exact ⟨p, ⟨pg, p.perm⟩, hp, hd, rfl, hdata, hpg⟩
  · have hbK : b < KERNBASE := by omega
    have hcK : c < KERNBASE := by omega
    -- both entries hold the page
    have hinj := hT.pool.inj (j := .page (PDX b) (PTX b)) (k := .page (PDX c) (PTX c)) (f := p.page)
      (by rw [PageDir.held_page hbK, hp]; rfl) (by rw [PageDir.held_page hcK, hq, he]; rfl)
    have hs : SameEntry b c := Use.page.inj hinj
    rwa [sameEntry_iff] at hs
    · simp only [KERNBASE] at hbK
      omega
    · simp only [KERNBASE] at hcK
      omega
  · obtain ⟨p', hp', hf⟩ := hsrc b hb
    obtain rfl : p' = p := Option.some.inj (hp'.symm.trans hp)
    exact ⟨h.data _ hf, fun hf' => hf (h.free _ hf')⟩

/-- **`copyuvm` copies everything or nothing.** -/
theorem copyuvm_all_or_nothing {src : PageDir} (hd : LinkerData data) (hn : m.free.Nodup)
    (hsrc : ∀ b, b < sz → ∃ p, src.pte b = some p ∧ p.page ∉ m.free) (hsz : sz ≤ KERNBASE) :
    (∃ d m', copyuvm data src sz m = .ok (some d, m') ∧ CopyExact src sz m d m') ∨
      ∃ m', copyuvm data src sz m = .ok (none, m') ∧ GivenBack m m' := by
  rcases copyuvm_spec hd hn hsrc hsz with ⟨d, m', hok, hC⟩ | ⟨m', hok, hE⟩
  · exact Or.inl ⟨d, m', hok, hC.exact hn hsrc hsz⟩
  · exact Or.inr ⟨m', hok, hE.givenBack hn⟩

/-- The directory with one page and 100 free ones. -/
theorem copyuvm_all_or_nothing_lone :
    (∃ d m', copyuvm 0x80108000 loneDir 4096 { loneMem with free := List.range' 4 100 } =
        .ok (some d, m') ∧
      CopyExact loneDir 4096 { loneMem with free := List.range' 4 100 } d m') ∨
      ∃ m', copyuvm 0x80108000 loneDir 4096 { loneMem with free := List.range' 4 100 } =
        .ok (none, m') ∧ GivenBack { loneMem with free := List.range' 4 100 } m' := by
  refine copyuvm_all_or_nothing linkerData List.nodup_range' (fun b hb => ⟨lonePte, ?_, ?_⟩)
    (by decide)
  · have hs : SameEntry b 0 := by
      rw [sameEntry_iff (by omega) (by decide)]
      simp only [PGSIZE]
      omega
    rw [loneDir_pte, if_pos hs]
  · simp [lonePte]

end OsSemester.Xv6
