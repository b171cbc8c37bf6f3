import OsSemester.Xv6.FileBlocks

/-!
# The content of inodes (`readi`, `writei`, `itrunc` in `fs.c`)

The loops go through a file block by block.  Over `Stored` they read and write the bytes of the file:
`readiLoop_spec`, `writeiLoop_spec` and `itrunc_spec` say what is read, what a file holds
afterwards, and that a write fails only when the files would not fit the disk.
-/

namespace OsSemester.Xv6.Store

variable {sb : Superblock} {tab : ℕ → Dinode} {blk : Blockno → Block} {cnt : ℕ → ℕ} {ind : ℕ → Bool}
  {data : ℕ → ℕ → UInt8} {a b k bn n m off tot fuel : ℕ} {s s' : OpDisk} {din' : Dinode}
  {src : ℕ → UInt8} {dst : List UInt8}

/-! ### Reading -/

theorem div_add_mod_block {off m : ℕ} (hm : m ≤ BSIZE - off % BSIZE) {j : ℕ} (hj : j < m) :
    (off + j) / BSIZE = off / BSIZE ∧ (off + j) % BSIZE = off % BSIZE + j := by
  simp only [BSIZE] at *
  omega

/-- The loop of `readi` reads the bytes of the file and changes nothing. -/
theorem readiLoop_spec (dst : List UInt8) (hs : Stored sb tab s.block cnt ind data) (hfuel : n - tot ≤ fuel)
    (htot : tot ≤ n)
    (hend : off + (n - tot) ≤ cnt k * BSIZE) : readiLoop sb n fuel tot off dst (tab k) s =
      .ok (dst ++ (List.range (n - tot)).map fun j => data k (off + j), tab k, s) := by
  induction fuel generalizing tot off dst with
  | zero =>
    rw [Nat.le_zero.mp hfuel, readiLoop, List.range_zero, List.map_nil, List.append_nil]
  | succ fuel ih =>
    rw [readiLoop]
    by_cases hlt : tot < n
    · have hbn : off / BSIZE < cnt k := by
        simp only [BSIZE] at *
        omega
      have hmax : off / BSIZE < MAXFILE := hbn.trans_le (hs.cnt_le k)
      rw [if_pos hlt, bmap_of_ne_zero hmax ((hs.alloc k _ hmax).mpr hbn)]
      set m := min (n - tot) (BSIZE - off % BSIZE) with hm
      have hpos : 0 < m := by
        simp only [BSIZE] at hm
        omega
      show readiLoop sb n fuel (tot + m) (off + m) (dst ++ _) (tab k) s = _
      rw [ih _ (by omega) (by omega) (by omega), List.append_assoc]
      congr 3
      have hsplit : n - tot = m + (n - (tot + m)) := by omega
      rw [hsplit, List.range_add, List.map_append, List.map_map]
      congr 1
      · refine List.map_congr_left fun j hj => ?_
        rw [List.mem_range] at hj
        obtain ⟨h1, h2⟩ := div_add_mod_block (by omega : m ≤ BSIZE - off % BSIZE) hj
        have hmod : off % BSIZE + j < BSIZE := by
          rw [← h2]
          exact Nat.mod_lt _ (by decide)
        rw [hs.bytes k _ _ hbn hmod, ← h1, ← h2, Nat.div_add_mod']
      · refine List.map_congr_left fun j _ => ?_
        rw [Function.comp_apply, Nat.add_assoc]
    · have hzero : n - tot = 0 := by omega
      rw [if_neg hlt, hzero, List.range_zero, List.map_nil, List.append_nil]

/-! ### Writing -/

/-- Bytes with others in the place from `off` on. -/
def patch (f : ℕ → UInt8) (off n : ℕ) (src : ℕ → UInt8) : ℕ → UInt8 := fun i =>
  if off ≤ i ∧ i < off + n then src (i - off) else f i

theorem patch_zero (f : ℕ → UInt8) : patch f off 0 src = f := by
  funext i
  rw [patch, if_neg (by omega)]

theorem patch_patch (f : ℕ → UInt8) :
    patch (patch f off m src) (off + m) n (fun j => src (m + j)) = patch f off (m + n) src := by
  funext i
  simp only [patch]
  split_ifs with h1 h2 h2 h3 h3
  · congr 1
    omega
  · omega
  · rfl
  · omega
  · omega
  · rfl

/-- What writing `m` bytes at `off` leaves. -/
structure Written (sb : Superblock) (tab : ℕ → Dinode) (cnt : ℕ → ℕ) (data : ℕ → ℕ → UInt8) (s : OpDisk)
    (k off m : ℕ) (src : ℕ → UInt8) (din' : Dinode) (s' : OpDisk) : Prop where
  stored : Stored sb (Function.update tab k din') s'.block
    (Function.update cnt k (max (cnt k) (blocksFor (off + m))))
    (Mkfs.large (Function.update cnt k (max (cnt k) (blocksFor (off + m)))))
    (Function.update data k (patch (data k) off m src))
  same : Mkfs.Kept (tab k) din'
  front : ∀ b, b < sb.bmapstart → s'.block b = s.block b
  /-- The inode stays as it is when it has the blocks. -/
  old : blocksFor (off + m) ≤ cnt k → din' = tab k

theorem Written.refl (hs : Stored sb tab s.block cnt (Mkfs.large cnt) data) (hoff : blocksFor off ≤ cnt k) :
    Written sb tab cnt data s k off 0 src (tab k) s := by
  refine ⟨?_, Mkfs.kept_refl _, fun _ _ => rfl, fun _ => rfl⟩
  rw [Nat.add_zero, max_eq_left hoff, patch_zero, Function.update_eq_self, Function.update_eq_self,
    Function.update_eq_self]
  exact hs

/-- The block that `bmap` has found is written. -/
theorem Fetched.written (hv : sb.Ordered) (hF : Fetched sb tab cnt data s k (off / BSIZE) a din' s')
    (h0 : 0 < m) (hm : m ≤ BSIZE - off % BSIZE) (src : ℕ → UInt8) :
    Written sb tab cnt data s k off m src din' (s'.write a ((s'.block a).move (off % BSIZE) src m)) := by
  have hblocks : blocksFor (off + m) = off / BSIZE + 1 := by
    unfold blocksFor
    simp only [BSIZE] at *
    omega
  have hself : Function.update tab k din' k = din' := Function.update_self ..
  have hbn : off / BSIZE < Function.update cnt k (max (cnt k) (off / BSIZE + 1)) k := by
    rw [Function.update_self]
    exact Nat.lt_of_lt_of_le (Nat.lt_succ_self _) (le_max_right _ _)
  have haddr : (Function.update tab k din' k).addr s'.block (off / BSIZE) = a := by rw [hself, hF.addr]
  have hdiv := Nat.div_add_mod off BSIZE
  refine ⟨?_, hF.same, fun b hb => ?_, fun hle => hF.old (by omega)⟩
  · rw [hblocks]
    show Stored sb _ (Function.update s'.block a _) _ _ _
    rw [← haddr]
    refine hF.stored.write hv hbn (fun j hj => ?_) fun k' off' hne => ?_
    · have hold := hF.stored.bytes k (off / BSIZE) j hbn hj
      rw [haddr] at hold
      rw [haddr, Bytes.get_move hj, Function.update_self, patch]
      have hiff : (off % BSIZE ≤ j ∧ j < off % BSIZE + m) ↔
          off ≤ off / BSIZE * BSIZE + j ∧ off / BSIZE * BSIZE + j < off + m := by
        rw [Nat.mul_comm]
        omega
      by_cases hin : off % BSIZE ≤ j ∧ j < off % BSIZE + m
      · rw [if_pos hin, if_pos (hiff.mp hin)]
        congr 1
        rw [Nat.mul_comm]
        omega
      · rw [if_neg hin, if_neg (mt hiff.mpr hin), hold]
    · by_cases hk : k' = k
      · have hne' := hne hk
        rw [hk, Function.update_self, patch, if_neg]
        intro h
        apply hne'
        simp only [BSIZE] at *
        omega
      · rw [Function.update_of_ne hk]
  · -- the blocks of the file lie behind the bitmap
    have hlo := (hF.stored.data_bounds hbn).1
    rw [haddr] at hlo
    have hne : b ≠ a := Nat.ne_of_lt (hb.trans_le ((Nat.le_add_right _ _).trans hlo))
    show Function.update s'.block a _ b = _
    rw [Function.update_of_ne hne, hF.front b hb]

/-- One piece after the other. -/
theorem Written.trans {din₁ : Dinode} {s₁ : OpDisk} (h₁ : Written sb tab cnt data s k off m src din₁ s₁)
    (h₂ : Written sb (Function.update tab k din₁) (Function.update cnt k (max (cnt k) (blocksFor (off + m))))
      (Function.update data k (patch (data k) off m src)) s₁ k (off + m) n (fun j => src (m + j)) din' s') :
    Written sb tab cnt data s k off (m + n) src din' s' := by
  have hcnt : max (max (cnt k) (blocksFor (off + m))) (blocksFor (off + (m + n))) =
      max (cnt k) (blocksFor (off + (m + n))) := by
    have := Mkfs.blocksFor_mono (show off + m ≤ off + (m + n) by omega)
    omega
  have hst := h₂.stored
  have hsame := h₂.same
  have hold := h₂.old
  rw [Nat.add_assoc, Function.update_self, Function.update_self, hcnt, patch_patch, Function.update_idem,
    Function.update_idem, Function.update_idem] at hst
  rw [Function.update_self] at hsame
  rw [Nat.add_assoc, Function.update_self, Function.update_self] at hold
  refine ⟨hst, h₁.same.trans hsame, fun b hb => (h₂.front b hb).trans (h₁.front b hb), fun hle => ?_⟩
  rw [hold (hle.trans (le_max_left _ _)), h₁.old]
  exact (Mkfs.blocksFor_mono (by omega)).trans hle

/-- The loop of `writei`. -/
theorem writeiLoop_spec (src : ℕ → UInt8) (hv : sb.Ordered) (hk : k < sb.inodeCount)
    (hfuel : n - tot ≤ fuel) (htot : tot ≤ n)
    (hn : ∀ i, sb.inodeCount ≤ i → cnt i = 0) (hs : Stored sb tab s.block cnt (Mkfs.large cnt) data)
    (hoff : blocksFor off ≤ cnt k) (hend : off + (n - tot) ≤ MAXFILE * BSIZE) :
    (∃ l, writeiLoop sb src n fuel tot off (tab k) s = .error ⟨"balloc: out of blocks", l⟩ ∧
        TooMuch sb (Function.update cnt k (max (cnt k) (blocksFor (off + (n - tot)))))) ∨
      ∃ din' s', writeiLoop sb src n fuel tot off (tab k) s = .ok (off + (n - tot), din', s') ∧
        Written sb tab cnt data s k off (n - tot) (fun j => src (tot + j)) din' s' := by
  induction fuel generalizing tot off tab s cnt data with
  | zero =>
    rw [Nat.le_zero.mp hfuel]
    exact Or.inr ⟨tab k, s, rfl, Written.refl hs hoff⟩
  | succ fuel ih =>
    rw [writeiLoop]
    by_cases hlt : tot < n
    · have hle : off / BSIZE ≤ cnt k := (Mkfs.le_blocksFor off).trans hoff
      have hmax : off / BSIZE < MAXFILE := by
        simp only [MAXFILE, NDIRECT, NINDIRECT, BSIZE] at *
        omega
      rw [if_pos hlt]
      rcases hs.bmap hv hk hn hle hmax with ⟨l, he, htoo⟩ | ⟨a, din₁, s₁, hok, hF⟩
      -- the block that is missing lies in the range that is written
      · have hlast : off / BSIZE + 1 ≤ blocksFor (off + (n - tot)) := by
          unfold blocksFor
          simp only [BSIZE]
          omega
        rw [he]
        refine Or.inl ⟨l, rfl, htoo.mono fun i => ?_⟩
        by_cases hi : i = k
        · rw [hi, Function.update_self, Function.update_self]
          omega
        · rw [Function.update_of_ne hi, Function.update_of_ne hi]
      rw [hok]
      set m := min (n - tot) (BSIZE - off % BSIZE) with hm
      have hpos : 0 < m := by
        simp only [BSIZE] at hm
        omega
      have hW := hF.written hv hpos (min_le_right _ _) fun j => src (tot + j)
      -- the rest of the loop starts with the inode that `bmap` has left
      have hself : Function.update tab k din₁ k = din₁ := Function.update_self ..
      have hfuel' : n - (tot + m) ≤ fuel := by omega
      have hall : n - tot = m + (n - (tot + m)) := by omega
      have hend' : off + m + (n - (tot + m)) = off + (n - tot) := by omega
      have hn' : ∀ i, sb.inodeCount ≤ i →
          Function.update cnt k (max (cnt k) (blocksFor (off + m))) i = 0 := by
        intro i hi
        rw [Function.update_of_ne (Nat.ne_of_gt (hk.trans_le hi))]
        exact hn i hi
      have hoff' : blocksFor (off + m) ≤ Function.update cnt k (max (cnt k) (blocksFor (off + m))) k := by
        rw [Function.update_self]
        exact le_max_right _ _
      have hsrc : (fun j => src (tot + m + j)) = fun j => (fun j => src (tot + j)) (m + j) := by
        funext j
        rw [Nat.add_assoc]
      have hrec := ih hfuel' (by omega) hn' hW.stored hoff' (by rw [hend']; exact hend)
      rw [hself, hsrc] at hrec
      rcases hrec with ⟨l, he, htoo⟩ | ⟨din', s', hok', hW'⟩
      · rw [hend', Function.update_idem, Function.update_self] at htoo
        refine Or.inl ⟨l, he, htoo.mono fun i => ?_⟩
        by_cases hi : i = k
        · have := Mkfs.blocksFor_mono (show off + m ≤ off + (n - tot) by omega)
          rw [hi, Function.update_self, Function.update_self]
          omega
        · rw [Function.update_of_ne hi, Function.update_of_ne hi]
      · rw [hend'] at hok'
        rw [hall] at hok' ⊢
        exact Or.inr ⟨din', s', hok', hW.trans hW'⟩
    · have hzero : n - tot = 0 := by omega
      rw [if_neg hlt, hzero]
      exact Or.inr ⟨tab k, s, rfl, Written.refl hs hoff⟩

/-! ### Truncating -/

/-- The blocks in `F` have been freed. -/
structure Freed (sb : Superblock) (s : OpDisk) (F : ℕ → Prop) (s' : OpDisk) : Prop where
  marked : ∀ c, c < sb.size → (Marked sb s'.block c ↔ Marked sb s.block c ∧ ¬ F c)
  kept : ∀ c, Outside sb c → s'.block c = s.block c

theorem Freed.trans {F F' : ℕ → Prop} {s₁ : OpDisk} (h : Freed sb s F s₁) (h' : Freed sb s₁ F' s') :
    Freed sb s (fun c => F c ∨ F' c) s' := by
  refine ⟨fun c hc => ?_, fun c hc => (h'.kept c hc).trans (h.kept c hc)⟩
  rw [h'.marked c hc, h.marked c hc, and_assoc, not_or]

theorem bfree_spec (hv : sb.Ordered) (hb : b < sb.size) (hm : Marked sb s.block b) :
    ∃ s', bfree sb s b = .ok s' ∧ Freed sb s (· = b) s' := by
  refine ⟨_, if_pos hm, fun c hc => ?_, fun c hc => Function.update_of_ne (hc.ne_BBLOCK hv hb) ..⟩
  have hsize := hv.size
  have hiff := BBLOCK_eq_iff sb (hc.trans (by omega)) (hb.trans (show sb.size < 2 ^ 32 by omega))
  show (Function.update s.block _ _ (BBLOCK c sb)).bit _ = true ↔ _
  by_cases he : BBLOCK c sb = BBLOCK b sb
  · have hcb : c % BPB = b % BPB ↔ c = b := by
      have := hiff.mp he
      simp only [BPB, BSIZE] at *
      omega
    rw [he, Function.update_self, Block.bit_clearBit, Bool.and_eq_true, decide_eq_true_iff, Ne, hcb, Marked, he]
    exact and_comm
  · have hne : c ≠ b := by
      rintro rfl
      exact he rfl
    rw [Function.update_of_ne he]
    exact (and_iff_left hne).symm

/-- `bfree` of one block after the other. -/
theorem bfree_list (hv : sb.Ordered) {l : List ℕ} (hl : l.Nodup) (hlt : ∀ b ∈ l, b < sb.size)
    (hm : ∀ b ∈ l, Marked sb s.block b) :
    ∃ s', l.foldlM (bfree sb) s = .ok s' ∧ Freed sb s (· ∈ l) s' := by
  induction l generalizing s with
  | nil => exact ⟨s, rfl, fun c _ => by simp, fun _ _ => rfl⟩
  | cons b l ih =>
    obtain ⟨hb, hl⟩ := List.nodup_cons.mp hl
    obtain ⟨s₁, hok, hF⟩ := bfree_spec hv (hlt b (List.mem_cons_self ..)) (hm b (List.mem_cons_self ..))
    obtain ⟨s', hok', hF'⟩ := ih hl (fun c hc => hlt c (List.mem_cons_of_mem _ hc)) fun c hc => by
      rw [hF.marked c (hlt c (List.mem_cons_of_mem _ hc))]
      refine ⟨hm c (List.mem_cons_of_mem _ hc), ?_⟩
      rintro rfl
      exact hb hc
    refine ⟨s', ?_, ?_⟩
    · rw [List.foldlM_cons, hok]
      exact hok'
    · have h := hF.trans hF'
      refine ⟨fun c hc => ?_, h.kept⟩
      rw [h.marked c hc, List.mem_cons]

/-- The addresses in a list of places of a file. -/
theorem bfreeAll_spec (hv : sb.Ordered) (hs : Stored sb tab blk cnt ind data)
    (lo len : ℕ) (hmark : ∀ bn, lo ≤ bn → bn < cnt k → Marked sb s.block ((tab k).addr blk bn)) (f : ℕ → ℕ)
    (hf : ∀ i, i < len → f i = (tab k).addr blk (lo + i)) (hlen : lo + len ≤ MAXFILE) :
    ∃ s', bfreeAll sb s ((List.range len).map f) = .ok s' ∧
      Freed sb s (fun c => ∃ bn, lo ≤ bn ∧ bn < lo + len ∧ bn < cnt k ∧ (tab k).addr blk bn = c) s' := by
  have hcnt : ∀ i, i < len → f i ≠ 0 → lo + i < cnt k := by
    intro i hi h
    rw [hf i hi] at h
    exact (hs.alloc k _ (by omega)).mp h
  have hmem : ∀ c, c ∈ ((List.range len).map f).filter (· ≠ 0) ↔
      ∃ bn, lo ≤ bn ∧ bn < lo + len ∧ bn < cnt k ∧ (tab k).addr blk bn = c := by
    intro c
    rw [List.mem_filter, List.mem_map, decide_eq_true_iff]
    constructor
    · rintro ⟨⟨i, hi, rfl⟩, h0⟩
      have hi' := List.mem_range.mp hi
      exact ⟨lo + i, by omega, by omega, hcnt i hi' h0, (hf i hi').symm⟩
    · rintro ⟨bn, h1, h2, h3, rfl⟩
      have hi : bn - lo < len := by omega
      have hbn : lo + (bn - lo) = bn := by omega
      refine ⟨⟨bn - lo, List.mem_range.mpr hi, ?_⟩, (hs.alloc k bn (by omega)).mpr h3⟩
      rw [hf _ hi, hbn]
  have hnodup : (((List.range len).map f).filter (· ≠ 0)).Nodup := by
    rw [List.filter_map]
    refine List.Nodup.map_on (fun i hi j hj he => ?_) (List.Nodup.filter _ List.nodup_range)
    obtain ⟨hi1, hi2⟩ := List.mem_filter.mp hi
    obtain ⟨hj1, hj2⟩ := List.mem_filter.mp hj
    rw [List.mem_range] at hi1 hj1
    have hi3 := hcnt i hi1 (of_decide_eq_true hi2)
    have hj3 := hcnt j hj1 (of_decide_eq_true hj2)
    rw [hf i hi1, hf j hj1] at he
    have := (hs.data_inj hi3 hj3 he).2
    omega
  obtain ⟨s', hok, hF⟩ := bfree_list (s := s) hv hnodup
    (fun c hc => by
      obtain ⟨bn, -, -, h3, rfl⟩ := (hmem c).mp hc
      exact (hs.data_bounds h3).2)
    fun c hc => by
      obtain ⟨bn, h1, -, h3, rfl⟩ := (hmem c).mp hc
      exact hmark bn h1 h3
  refine ⟨s', hok, fun c hc => ?_, hF.kept⟩
  rw [hF.marked c hc, hmem]

/-- The place belongs to the file. -/
def OfFile (k : ℕ) : Mkfs.Slot → Prop
  | .indirect k' => k' = k
  | .data k' _ => k' = k

instance (k : ℕ) : DecidablePred (OfFile k) := fun u => by
  cases u <;> exact inferInstanceAs (Decidable (_ = _))

/-- A file without blocks. -/
theorem Stored.release (hv : sb.Ordered) (hs : Stored sb tab s.block cnt ind data) {F : ℕ → Prop}
    (hF : Freed sb s F s') (hall : ∀ c, F c ↔ ∃ u, OfFile k u ∧ Mkfs.place tab s.block u = some c)
    (hdin : ∀ i, din'.addrs i = 0) :
    Stored sb (Function.update tab k din') s'.block (Function.update cnt k 0) (Function.update ind k false)
      (Function.update data k fun _ => 0) := by
  have hind : din'.indirect = 0 := hdin _
  have haddr0 : ∀ blk bn, din'.addr blk bn = 0 := by
    intro blk bn
    unfold Dinode.addr
    rw [if_pos hind, Dinode.direct, hdin, ite_self]
  have haddr : ∀ k' bn, k' ≠ k → (tab k').addr s'.block bn = (tab k').addr s.block bn := by
    intro k' bn _
    unfold Dinode.addr
    split_ifs with h1 h2
    · rfl
    · rfl
    · rw [hF.kept _ (Or.inr (hs.indirect_bounds h2).1)]
  -- exactly the uses of the file are gone
  have hplace : Mkfs.place (Function.update tab k din') s'.block =
      fun u => if OfFile k u then none else Mkfs.place tab s.block u := by
    funext u
    cases u with
    | indirect k' =>
      by_cases hk : k' = k
      · have hof : OfFile k (.indirect k') := hk
        rw [if_pos hof, hk, Mkfs.place, Function.update_self, hind]
        rfl
      · have hof : ¬ OfFile k (.indirect k') := hk
        rw [if_neg hof, Mkfs.place, Mkfs.place, Function.update_of_ne hk]
    | data k' bn =>
      by_cases hk : k' = k
      · have hof : OfFile k (.data k' bn) := hk
        rw [if_pos hof, hk, Mkfs.place, Function.update_self, haddr0]
        split_ifs <;> rfl
      · have hof : ¬ OfFile k (.data k' bn) := hk
        rw [if_neg hof, Mkfs.place, Mkfs.place, Function.update_of_ne hk, haddr k' bn hk]
  -- no block in front of the data was given back
  have hfront : ∀ a, a < sb.dataStart → Marked sb s'.block a := by
    intro a ha
    refine (hF.marked a (ha.trans_le hv.data)).mpr ⟨hs.front a ha, fun h => ?_⟩
    obtain ⟨u, -, hu⟩ := (hall a).mp h
    exact absurd (hs.map.mem u a hu).1 (not_le.mpr ha)
  refine ⟨?_, hfront, fun k' bn hbn => ?_, fun k' => ?_, fun k' => ?_, fun k' bn j hbn hj => ?_,
    fun k' off hoff => ?_⟩
  · rw [hplace]
    refine hs.map.release (OfFile k) fun c _ hc => ?_
    rw [hF.marked c hc, hall]
  · by_cases hk : k' = k
    · rw [hk, Function.update_self, Function.update_self, haddr0]
      simp
    · rw [Function.update_of_ne hk, Function.update_of_ne hk, haddr k' bn hk]
      exact hs.alloc k' bn hbn
  · by_cases hk : k' = k
    · rw [hk, Function.update_self, Function.update_self, hind]
      simp
    · rw [Function.update_of_ne hk, Function.update_of_ne hk]
      exact hs.indirect k'
  · by_cases hk : k' = k
    · rw [hk, Function.update_self]
      exact Nat.zero_le _
    · rw [Function.update_of_ne hk]
      exact hs.cnt_le k'
  · by_cases hk : k' = k
    · rw [hk, Function.update_self] at hbn
      exact absurd hbn (Nat.not_lt_zero _)
    · rw [Function.update_of_ne hk] at hbn
      rw [Function.update_of_ne hk, Function.update_of_ne hk, haddr k' bn hk,
        hF.kept _ (Or.inr (hs.data_bounds hbn).1)]
      exact hs.bytes k' bn j hbn hj
  · by_cases hk : k' = k
    · rw [hk, Function.update_self]
    · rw [Function.update_of_ne hk] at hoff ⊢
      exact hs.beyond k' off hoff

/-- The blocks of a file, the direct ones, those of the indirect block, and this block. -/
theorem ofFile_iff (hs : Stored sb tab blk cnt ind data) (c : ℕ) :
    (∃ u, OfFile k u ∧ Mkfs.place tab blk u = some c) ↔
      (∃ bn, bn < cnt k ∧ (tab k).addr blk bn = c) ∨ (tab k).indirect ≠ 0 ∧ (tab k).indirect = c := by
  constructor
  · rintro ⟨u, hof, hu⟩
    cases u with
    | indirect k' =>
      obtain rfl : k' = k := hof
      exact Or.inr (Mkfs.nonzero_eq_some.mp hu)
    | data k' bn =>
      obtain rfl : k' = k := hof
      obtain ⟨h1, h2, h3⟩ := Mkfs.place_data.mp hu
      exact Or.inl ⟨bn, (hs.alloc k' bn h1).mp h2, h3⟩
  · rintro (⟨bn, hbn, rfl⟩ | ⟨h0, rfl⟩)
    · exact ⟨.data k bn, rfl, hs.place_data hbn⟩
    · exact ⟨.indirect k, rfl, hs.place_indirect h0⟩

/-- `itrunc` frees the blocks of the file, each of which is marked. -/
theorem itrunc_spec (hv : sb.Ordered) (hs : Stored sb tab s.block cnt ind data) :
    ∃ s₂, itrunc sb k (tab k) s = .ok ({ tab k with size := 0, addrs := fun _ => 0 },
        iupdate sb k { tab k with size := 0, addrs := fun _ => 0 } s₂) ∧
      (∀ b, b < sb.bmapstart → s₂.block b = s.block b) ∧
      ∀ din' : Dinode, (∀ i, din'.addrs i = 0) → Stored sb (Function.update tab k din') s₂.block
        (Function.update cnt k 0) (Function.update ind k false) (Function.update data k fun _ => 0) := by
  have hmark : ∀ bn, bn < cnt k → Marked sb s.block ((tab k).addr s.block bn) := fun bn hbn =>
    hs.map.used_of_place (hs.place_data hbn)
  obtain ⟨s₁, hok₁, hF₁⟩ := bfreeAll_spec hv hs 0 NDIRECT (fun bn _ => hmark bn) (tab k).direct
    (fun i hi => by rw [Nat.zero_add, Dinode.addr_of_lt hi]) (by decide)
  by_cases hind : (tab k).indirect = 0
  · refine ⟨s₁, ?_, fun b hb => hF₁.kept b (Or.inl hb), fun din' hdin => hs.release hv hF₁ (fun c => ?_) hdin⟩
    · rw [itrunc, hok₁]
      show (bfreeIndirect sb s₁ (tab k).indirect).bind _ = _
      rw [bfreeIndirect, if_neg (not_not.mpr hind)]
      rfl
    · rw [ofFile_iff hs]
      constructor
      · rintro ⟨bn, -, -, h3, rfl⟩
        exact Or.inl ⟨bn, h3, rfl⟩
      · rintro (⟨bn, hbn, rfl⟩ | ⟨h0, -⟩)
        · have hdir : bn < NDIRECT := by
            by_contra h
            have h1 := (hs.alloc k bn (hbn.trans_le (hs.cnt_le k))).mpr hbn
            exact h1 (Dinode.addr_of_indirect_zero (not_lt.mp h) hind)
          exact ⟨bn, Nat.zero_le _, by omega, hbn, rfl⟩
        · exact absurd hind h0
  · have hbounds := hs.indirect_bounds hind
    have hkeep₁ : s₁.block (tab k).indirect = s.block (tab k).indirect := hF₁.kept _ (Or.inr hbounds.1)
    -- the blocks that are listed in the indirect block
    have hmark₁ : ∀ bn, NDIRECT ≤ bn → bn < cnt k → Marked sb s₁.block ((tab k).addr s.block bn) := by
      intro bn hge hbn
      refine (hF₁.marked _ (hs.data_bounds hbn).2).mpr ⟨hmark bn hbn, ?_⟩
      rintro ⟨bn', -, h2, h3, h4⟩
      have := (hs.data_inj h3 hbn h4).2
      omega
    obtain ⟨s₂, hok₂, hF₂⟩ := bfreeAll_spec hv hs NDIRECT NINDIRECT hmark₁ (s₁.block (tab k).indirect).word
      (fun i _ => by
        rw [Dinode.addr_of_indirect (Nat.le_add_right _ _) hind, Nat.add_sub_cancel_left, hkeep₁]) le_rfl
    have hmark₂ : Marked sb s₂.block (tab k).indirect := by
      refine (hF₂.marked _ hbounds.2).mpr ⟨(hF₁.marked _ hbounds.2).mpr
        ⟨hs.map.used_of_place (hs.place_indirect hind), ?_⟩, ?_⟩
      · rintro ⟨bn, -, -, h3, h4⟩
        exact hs.indirect_ne_data h3 hind h4.symm
      · rintro ⟨bn, -, -, h3, h4⟩
        exact hs.indirect_ne_data h3 hind h4.symm
    obtain ⟨s₃, hok₃, hF₃⟩ := bfree_spec hv hbounds.2 hmark₂
    have hF := (hF₁.trans hF₂).trans hF₃
    refine ⟨s₃, ?_, fun b hb => hF.kept b (Or.inl hb), fun din' hdin => hs.release hv hF (fun c => ?_) hdin⟩
    · rw [itrunc, hok₁]
      show (bfreeIndirect sb s₁ (tab k).indirect).bind _ = _
      rw [bfreeIndirect, if_pos hind]
      show ((bfreeAll sb s₁ ((List.range NINDIRECT).map (s₁.block (tab k).indirect).word)).bind _).bind _ = _
      rw [hok₂]
      show (bfree sb s₂ (tab k).indirect).bind _ = _
      rw [hok₃]
      rfl
    · rw [ofFile_iff hs]
      constructor
      · rintro ((⟨bn, -, -, h3, rfl⟩ | ⟨bn, -, -, h3, rfl⟩) | rfl)
        · exact Or.inl ⟨bn, h3, rfl⟩
        · exact Or.inl ⟨bn, h3, rfl⟩
        · exact Or.inr ⟨hind, rfl⟩
      · rintro (⟨bn, hbn, rfl⟩ | ⟨-, rfl⟩)
        · have hmax := hbn.trans_le (hs.cnt_le k)
          obtain hlt | hge := Nat.lt_or_ge bn NDIRECT
          · exact Or.inl (Or.inl ⟨bn, Nat.zero_le _, by omega, hbn, rfl⟩)
          · exact Or.inl (Or.inr ⟨bn, hge, hmax, hbn, rfl⟩)
        · exact Or.inr rfl

end OsSemester.Xv6.Store
