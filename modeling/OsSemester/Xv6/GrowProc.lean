import OsSemester.Xv6.UserSpace

/-!
# `growproc` is exact or has no effect

`growproc` computes the new size modulo `2 ^ 32` and takes the size 0 for an error of `allocuvm` and
`deallocuvm`.  So a process that shrinks by its whole size loses all pages and gets -1, and one that
shrinks by more gets 0 and keeps everything.  It also relies on the process having no pages behind its
size: a page there, which another thread of a common directory has added, is taken for an error of the
kernel, or stays mapped.  `grow_proc` says exactly when the call does what it should.
-/

namespace OsSemester.Xv6

variable {d d' : PageDir} {m m' : PhysMem} {sz sz' b : ℕ} {n : ℤ}

/-! ### The property -/

/-- The size is `sz + n`, the pages below it and no others are mapped, the old bytes are kept, the new
pages are zeroed, and `kfree` does not panic if the pages are fit for it. -/
structure GrowExact (n : ℤ) (d : PageDir) (m : PhysMem) (sz : ℕ) (d' : PageDir) (m' : PhysMem)
    (sz' : ℕ) : Prop where
  size : (sz' : ℤ) = sz + n
  mapped : ∀ b, b < KERNBASE → (d'.pte b ≠ none ↔ b < PGROUNDUP sz')
  kept : ∀ b, b < min sz sz' → d'.byte m' b = d.byte m b
  zeroed : ∀ b, PGROUNDUP sz ≤ b → b < PGROUNDUP sz' → d'.byte m' b = some 0
  noPanic : (∀ f ∈ stock m.free d.held, m.Kfreeable f) → m'.panicked = m.panicked

/-- Size, mappings and bytes are as before, the pages that were free are free or hold a page table, and
`kfree` does not panic if the pages are fit for it. -/
structure NoEffect (d : PageDir) (m : PhysMem) (sz : ℕ) (d' : PageDir) (m' : PhysMem) (sz' : ℕ) :
    Prop where
  size : sz' = sz
  ptes : ∀ b, b < KERNBASE → d'.pte b = d.pte b
  bytes : ∀ b, b < KERNBASE → d'.byte m' b = d.byte m b
  pages : ∀ f, f ∈ m.free → f ∈ m'.free ∨ ∃ i, d'.tables i = some f
  noPanic : (∀ f ∈ stock m.free d.held, m.Kfreeable f) → m'.panicked = m.panicked

/-- `growproc` returns, and it is exact or has no effect. -/
def GrowsExactly (d : PageDir) (m : PhysMem) (sz : ℕ) (n : ℤ) : Prop :=
  match growproc d m sz n with
  | .error _ => False
  | .ok (d', m', sz', true) => GrowExact n d m sz d' m' sz'
  | .ok (d', m', sz', false) => NoEffect d m sz d' m' sz'

/-! ### The condition -/

/-- No user page is mapped from the address `lo` on. -/
def NoPagesFrom (d : PageDir) (lo : ℕ) : Prop := ∀ b, lo ≤ b → b < KERNBASE → d.pte b = none

/-- The new size is refused, or the process of size 0 shrinks, or it does not shrink by its size or more
and has no pages behind its size, or the pages behind its size are not in the way and there is no
memory to grow. -/
def GrowFits (d : PageDir) (m : PhysMem) (sz : ℕ) (n : ℤ) : Prop :=
  (KERNBASE : ℤ) ≤ sz + n ∨ (n < 0 ∧ sz = 0) ∨
    ((n = 0 ∨ -(sz : ℤ) < n) ∧ NoPagesFrom d (PGROUNDUP sz)) ∨
    (0 < n ∧ (∀ b, PGROUNDUP sz ≤ b → b < PGROUNDUP (uint (sz + n)) → d.pte b = none) ∧
      m.free.length < demand d (PGROUNDUP sz) (PGROUNDUP (uint (sz + n))))

/-! ### Growing -/

theorem uint_of_lt {x : ℤ} (h0 : 0 ≤ x) (h : x < 2 ^ 32) : (uint x : ℤ) = x := by
  unfold uint
  rw [Int.emod_eq_of_lt h0 h, Int.toNat_of_nonneg h0]

namespace AddrSpace

/-- A call that leaves everything as it was. -/
theorem noEffect_refl (d : PageDir) (m : PhysMem) (sz : ℕ) : NoEffect d m sz d m sz :=
  ⟨rfl, fun _ _ => rfl, fun _ _ => rfl, fun _ hf => Or.inl hf, fun _ => rfl⟩

/-- What `allocuvm` leaves behind when it fails. -/
theorem noEffect (h : AddrSpace d m sz) (hR : Restored d m d' m') : NoEffect d m sz d' m' sz := by
  have h32 : ∀ {b}, b < KERNBASE → b < 2 ^ 32 := by
    intro b hb
    simp only [KERNBASE] at hb
    omega
  refine ⟨rfl, fun b hb => hR.pte b (h32 hb), fun b hb => ?_, fun f hf => ?_, hR.evolves.panicked⟩
  · exact byte_congr (hR.pte b (h32 hb)) fun p hp => hR.data _ (h.page_not_free hb hp)
  · rcases hR.evolves.exchange.free_or_new h.pool hf with hf' | ⟨u, hu, hne⟩
    · exact Or.inl hf'
    · -- the directory and the user's pages are the old ones
      cases u with
      | dir =>
        refine absurd ?_ hne
        rw [← hu]
        exact congrArg some hR.page.symm
      | table i => exact Or.inr ⟨i, hu⟩
      | page i j =>
        refine absurd ?_ hne
        rw [← hu]
        by_cases hi : (i : ℕ) < 512
        · obtain ⟨b, hb, rfl, rfl⟩ := PageDir.exists_address i j hi
          rw [PageDir.held_page hb, PageDir.held_page hb, hR.pte b (h32 hb)]
        · simp only [PageDir.held, if_neg hi]

/-- What `allocuvm` does when it succeeds, without pages behind the new size. -/
theorem growExact_iff (h : AddrSpace d m sz) (hn : (sz' : ℤ) = sz + n) (hle : sz ≤ sz')
    (hlt : sz' < KERNBASE) (hG : Zeroed (PGROUNDUP sz) (PGROUNDUP sz') d m d' m') :
    GrowExact n d m sz d' m' sz' ↔ NoPagesFrom d (PGROUNDUP sz) := by
  have hR := PGROUNDUP_eq h.size.le
  have hR' := PGROUNDUP_eq hlt.le
  have h32 : ∀ {b}, b < KERNBASE → b < 2 ^ 32 := by
    intro b hb
    simp only [KERNBASE] at hb
    omega
  constructor
  · intro hE b h1 h2
    by_cases hb : b < PGROUNDUP sz'
    · exact hG.old b h1 hb
    · rw [← hG.same b (h32 h2) (by omega)]
      by_contra hne
      exact hb ((hE.mapped b h2).mp hne)
  · intro hno
    refine ⟨hn, fun b hb => ?_, fun b hb => ?_, fun b h1 h2 => ?_, hG.evolves.panicked⟩
    · by_cases hb1 : b < PGROUNDUP sz
      · rw [hG.same b (h32 hb) (by omega)]
        exact iff_of_true (h.mapped_round hb1) (by omega)
      · by_cases hb2 : b < PGROUNDUP sz'
        · obtain ⟨pg, -, hp, -⟩ := hG.new b (by omega) hb2
          rw [hp]
          exact iff_of_true nofun hb2
        · rw [hG.same b (h32 hb) (by omega), hno b (by omega) hb]
          exact iff_of_false (fun hne => hne rfl) hb2
    · have hbK : b < KERNBASE := by
        have := h.size
        omega
      exact byte_congr (hG.same b (h32 hbK) (by omega)) fun p hp =>
        hG.data _ (h.page_not_free hbK hp)
    · obtain ⟨pg, -, hp, hdata⟩ := hG.new b h1 h2
      unfold PageDir.byte
      rw [hp, Option.map_some, hdata]
      unfold Bytes.get
      split_ifs <;> rfl

/-- What `deallocuvm` does. -/
theorem shrinkExact_iff (h : AddrSpace d m sz) (hn : (sz' : ℤ) = sz + n) (hle : sz' ≤ sz)
    (hS : Shrunk (PGROUNDUP sz') sz d m d' m') :
    GrowExact n d m sz d' m' sz' ↔ NoPagesFrom d (PGROUNDUP sz) := by
  have hsz := h.size
  have hR := PGROUNDUP_eq hsz.le
  have hR' := PGROUNDUP_eq (hle.trans hsz.le)
  have h32 : ∀ {b}, b < KERNBASE → b < 2 ^ 32 := by
    intro b hb
    simp only [KERNBASE] at hb
    omega
  have hround : ∀ b, PGROUNDDOWN b < sz ↔ b < PGROUNDUP sz := by
    intro b
    rw [hR]
    unfold PGROUNDDOWN
    simp only [PGSIZE]
    omega
  have hpte : ∀ b, b < KERNBASE →
      d'.pte b = if PGROUNDUP sz' ≤ b ∧ b < PGROUNDUP sz then none else d.pte b := by
    intro b hb
    rw [hS.pte b (h32 hb)]
    simp only [hround]
  constructor
  · intro hE b h1 h2
    have hno : ¬ b < PGROUNDUP sz' := by omega
    rw [← hE.mapped b h2, hpte b h2, if_neg (by omega), not_not] at hno
    exact hno
  · intro hno
    refine ⟨hn, fun b hb => ?_, fun b hb => ?_, fun b h1 h2 => by omega, hS.evolves.panicked⟩
    · rw [hpte b hb]
      by_cases hb1 : b < PGROUNDUP sz'
      · rw [if_neg (by omega)]
        exact iff_of_true (h.mapped_round (by omega)) hb1
      · by_cases hb2 : b < PGROUNDUP sz
        · rw [if_pos (by omega)]
          exact iff_of_false (fun hne => hne rfl) hb1
        · rw [if_neg (by omega), hno b (by omega) hb]
          exact iff_of_false (fun hne => hne rfl) hb1
    · have hbK : b < KERNBASE := by omega
      have hb' : ¬ (PGROUNDUP sz' ≤ b ∧ b < PGROUNDUP sz) := by omega
      refine byte_congr (by rw [hpte b hbK, if_neg hb']) fun p hp => ?_
      refine hS.data _ (h.page_not_free hbK hp) fun c q h1 h2 hc hq hpq => ?_
      -- the page would be mapped twice
      have hcK : c < KERNBASE := by
        rw [hround] at h2
        simp only [KERNBASE] at *
        omega
      have hs := h.sameEntry_of_page hcK hbK hq hp hpq
      rw [sameEntry_iff (h32 hcK) (h32 hbK)] at hs
      simp only [PGSIZE] at hs
      omega

end AddrSpace

/-- A process that grows below `KERNBASE`. -/
theorem grow_pos (h : AddrSpace d m sz) (hn : 0 < n) (hlt : (sz : ℤ) + n < KERNBASE) :
    GrowsExactly d m sz n ↔ NoPagesFrom d (PGROUNDUP sz) ∨
      (∀ b, PGROUNDUP sz ≤ b → b < PGROUNDUP (uint (sz + n)) → d.pte b = none) ∧
        m.free.length < demand d (PGROUNDUP sz) (PGROUNDUP (uint (sz + n))) := by
  have hnew : (uint (sz + n) : ℤ) = sz + n :=
    uint_of_lt (by omega) (by simp only [KERNBASE] at hlt; omega)
  obtain ⟨newsz, hnewsz⟩ : ∃ newsz, newsz = uint (sz + n) := ⟨_, rfl⟩
  rw [← hnewsz] at hnew ⊢
  have hold : sz ≤ newsz := by omega
  have hK : newsz < KERNBASE := by
    simp only [KERNBASE] at *
    omega
  have hL := PGROUNDUP_eq h.size.le
  have hR := PGROUNDUP_eq hK.le
  have halign : PGROUNDUP sz % PGSIZE = 0 := Nat.mul_mod_left _ _
  have hfuel : newsz ≤ PGROUNDUP sz + (newsz / PGSIZE + 1) * PGSIZE := by
    simp only [PGSIZE]
    omega
  have halloc : allocuvm d m sz newsz =
      allocLoop sz newsz (newsz / PGSIZE + 1) (PGROUNDUP sz) d m := by
    unfold allocuvm
    rw [if_neg (by omega), if_neg (by omega)]
  unfold GrowsExactly growproc
  rw [if_pos hn, ← hnewsz, halloc]
  by_cases hclear : ∀ b, PGROUNDUP sz ≤ b → b < PGROUNDUP newsz → d.pte b = none
  · rcases allocLoop_spec (n := newsz / PGSIZE + 1) rfl hold hK hclear h.pool
      (Grown.refl _ _ _ d m) halign le_rfl (by simp only [PGSIZE] at *; omega) hfuel with
      ⟨d', m', hok, hG, hdem⟩ | ⟨-, d', m', hok, hRes, hdem⟩
    -- all pages are there, or `kalloc` has failed and everything was undone
    · have hne : newsz ≠ 0 := by omega
      simp only [hok, hne, if_false, ne_eq, not_false_eq_true, decide_true]
      rw [h.growExact_iff hnew hold hK hG]
      exact ⟨Or.inl, fun hc => hc.elim id fun hc => by omega⟩
    · simp only [hok, ne_eq, not_true_eq_false, decide_false, if_true]
      exact iff_of_true (h.noEffect hRes) (Or.inr ⟨hclear, hdem⟩)
  · -- a page of somebody else is in the way
    refine iff_of_false (fun hE => ?_) fun hc => ?_
    · cases hr : allocLoop sz newsz (newsz / PGSIZE + 1) (PGROUNDUP sz) d m with
      | error e =>
        rw [hr] at hE
        exact hE
      | ok r =>
        have hsz : sz ≤ PGROUNDUP sz := by omega
        rcases allocLoop_clear hsz hK halign hfuel hr with ⟨-, h2⟩ | ⟨h1, h2⟩
        · exact hclear h2
        · obtain ⟨d', m', r0⟩ := r
          obtain rfl : r0 = 0 := h1
          simp only [hr, ne_eq, not_true_eq_false, decide_false] at hE
          refine hclear fun b hb1 hb2 => ?_
          rw [← hE.ptes b (by simp only [KERNBASE] at *; omega)]
          exact h2 b hb1 hb2
    · rcases hc with hc | ⟨hc, -⟩
      · exact hclear fun b hb1 hb2 => hc b hb1 (by simp only [KERNBASE] at *; omega)
      · exact hclear hc

/-- A process that shrinks. -/
theorem grow_neg (h : AddrSpace d m sz) (hn : n < 0) (hlo : -2 ^ 31 ≤ n) :
    GrowsExactly d m sz n ↔ sz = 0 ∨ (-(sz : ℤ) < n ∧ NoPagesFrom d (PGROUNDUP sz)) := by
  have hsz := h.size
  unfold GrowsExactly growproc
  rw [if_neg (by omega), if_pos hn]
  by_cases h0 : sz = 0
  · subst h0
    have hdealloc : deallocuvm d m 0 (uint ((0 : ℕ) + n)) = (d, m, 0) := by
      unfold deallocuvm
      rw [if_pos (Nat.zero_le _)]
    simp only [hdealloc, ne_eq, not_true_eq_false, decide_false, if_true, true_or, iff_true]
    exact AddrSpace.noEffect_refl d m 0
  by_cases hge : -(sz : ℤ) ≤ n
  · have hnew : (uint (sz + n) : ℤ) = sz + n :=
      uint_of_lt (by omega) (by simp only [KERNBASE] at hsz; omega)
    obtain ⟨newsz, hnewsz⟩ : ∃ newsz, newsz = uint (sz + n) := ⟨_, rfl⟩
    rw [← hnewsz] at hnew ⊢
    obtain ⟨hr, hS⟩ := deallocuvm_eq (d := d) (m := m) (show newsz < sz by omega) hsz.le
    by_cases hz : newsz = 0
    · -- all pages are gone, and the size 0 is taken for an error
      rw [hz] at hr hS ⊢
      simp only [hr, ne_eq, not_true_eq_false, decide_false, if_true]
      refine iff_of_false (fun hE => ?_) fun hc => ?_
      · have hpte := hE.ptes 0 (by decide)
        have hr0 : PGROUNDDOWN 0 < sz := Nat.pos_of_ne_zero h0
        rw [hS.pte 0 (by decide), if_pos ⟨le_rfl, hr0⟩] at hpte
        exact h.mapped 0 (by omega) hpte.symm
      · rcases hc with hc | ⟨hc, -⟩ <;> omega
    · simp only [hr, hz, if_false, ne_eq, not_false_eq_true, decide_true]
      rw [h.shrinkExact_iff hnew (by omega) hS]
      exact ⟨fun hc => Or.inr ⟨by omega, hc⟩, fun hc => (hc.resolve_left h0).2⟩
  · -- the new size wraps and looks like growth
    have hwrap : sz ≤ uint (sz + n) := by
      unfold uint
      have : ((sz : ℤ) + n) % 2 ^ 32 = sz + n + 2 ^ 32 := by
        rw [← Int.add_emod_right]
        refine Int.emod_eq_of_lt ?_ ?_
        · simp only [KERNBASE] at hsz
          omega
        · omega
      rw [this]
      omega
    have hdealloc : deallocuvm d m sz (uint (sz + n)) = (d, m, sz) := by
      unfold deallocuvm
      rw [if_pos hwrap]
    simp only [hdealloc, h0, if_false, ne_eq, not_false_eq_true, decide_true]
    refine iff_of_false (fun hE => ?_) fun hc => ?_
    · have := hE.size
      omega
    · rcases hc with hc | ⟨hc, -⟩ <;> omega

/-- **Changing the size of a process.** For every process whose pages are mapped, every `int` and every
state of the allocator, `growproc` returns and is exact or has no effect if and only if the condition
holds. -/
theorem grow_proc (h : AddrSpace d m sz) (hlo : -2 ^ 31 ≤ n) (hhi : n < 2 ^ 31) :
    GrowsExactly d m sz n ↔ GrowFits d m sz n := by
  have hsz := h.size
  unfold GrowFits
  rcases lt_trichotomy n 0 with hn | rfl | hn
  · rw [grow_neg h hn hlo]
    constructor
    · rintro (h0 | ⟨h1, h2⟩)
      · exact Or.inr (Or.inl ⟨hn, h0⟩)
      · exact Or.inr (Or.inr (Or.inl ⟨Or.inr h1, h2⟩))
    · rintro (h1 | ⟨-, h0⟩ | ⟨h1 | h1, h2⟩ | ⟨h1, -⟩)
      · simp only [KERNBASE] at *
        omega
      · exact Or.inl h0
      · omega
      · exact Or.inr ⟨h1, h2⟩
      · omega
  · -- nothing is to be done, and the pages behind the size are the question
    have hG : GrowsExactly d m sz 0 ↔ GrowExact 0 d m sz d m sz := by
      unfold GrowsExactly growproc
      simp only [lt_irrefl, if_false]
    have hn : (sz : ℤ) = sz + 0 := (add_zero _).symm
    rw [hG, h.growExact_iff hn le_rfl hsz (Grown.refl _ _ _ d m)]
    constructor
    · exact fun hc => Or.inr (Or.inr (Or.inl ⟨Or.inl rfl, hc⟩))
    · rintro (h1 | ⟨h1, -⟩ | ⟨-, h2⟩ | ⟨h1, -⟩)
      · simp only [KERNBASE] at *
        omega
      · omega
      · exact h2
      · omega
  · by_cases hK : (sz : ℤ) + n < KERNBASE
    · rw [grow_pos h hn hK]
      constructor
      · rintro (h1 | h1)
        · exact Or.inr (Or.inr (Or.inl ⟨Or.inr (by omega), h1⟩))
        · exact Or.inr (Or.inr (Or.inr ⟨hn, h1⟩))
      · rintro (h1 | ⟨h1, -⟩ | ⟨-, h2⟩ | ⟨-, h2⟩)
        · omega
        · omega
        · exact Or.inl h2
        · exact Or.inr h2
    · refine iff_of_true ?_ (Or.inl (by omega))
      have hnew : (uint (sz + n) : ℤ) = sz + n :=
        uint_of_lt (by omega) (by simp only [KERNBASE] at hsz; omega)
      have hrefuse : allocuvm d m sz (uint (sz + n)) = .ok (d, m, 0) := by
        unfold allocuvm
        rw [if_pos (by omega)]
      unfold GrowsExactly growproc
      rw [if_pos hn, hrefuse]
      simp only [ne_eq, not_true_eq_false, decide_false, if_true]
      exact AddrSpace.noEffect_refl d m sz

/-- A process of one page grows by a page. -/
theorem grow_proc_page : GrowsExactly loneDir loneMem 4096 4096 :=
  (grow_proc addrSpace_lone (by decide) (by decide)).mpr <| by
    refine Or.inr (Or.inr (Or.inl ⟨Or.inr (by decide), fun b h1 h2 => ?_⟩))
    rw [show PGROUNDUP 4096 = 4096 from by decide] at h1
    have hb : b < 2 ^ 32 := by
      simp only [KERNBASE] at h2
      omega
    have hne : ¬ SameEntry b 0 := by
      rw [sameEntry_iff hb (by decide)]
      simp only [PGSIZE]
      omega
    rw [loneDir_pte, if_neg hne]

/-- The process gives up its whole size: the call fails, and the pages are gone.  It gives up more: the
call succeeds, and the size is as before. -/
theorem grow_proc_counterexample :
    AddrSpace loneDir loneMem 4096 ∧ ¬ GrowsExactly loneDir loneMem 4096 (-4096) ∧
      ¬ GrowsExactly loneDir loneMem 4096 (-8192) ∧
      (∃ r, growproc loneDir loneMem 4096 (-4096) = .ok r ∧ r.2.2 = (4096, false) ∧
        r.1.pte 0 = none) ∧
      ∃ r, growproc loneDir loneMem 4096 (-8192) = .ok r ∧ r.2.2 = (4096, true) := by
  refine ⟨addrSpace_lone, ?_, ?_, ⟨_, rfl, by decide, by decide⟩, ⟨_, rfl, by decide⟩⟩
  · rw [grow_neg addrSpace_lone (by decide) (by decide)]
    rintro (h | ⟨h, -⟩) <;> omega
  · rw [grow_neg addrSpace_lone (by decide) (by decide)]
    rintro (h | ⟨h, -⟩) <;> omega

end OsSemester.Xv6
