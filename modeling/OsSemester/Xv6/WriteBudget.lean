import OsSemester.Xv6.FileWrite

/-!
# `filewrite` respects the log budget

One round of `filewrite` writes to at most four blocks of the file, of which at most three are new:
when the first block is not written from its start, it is there already.  With the bitmap blocks for
the new ones, the indirect block with its own bitmap block, and the inode, that makes
`MAXOPBLOCKS` blocks: `filewrite_budget`.
-/

namespace OsSemester.Xv6

variable {sb : Superblock} {inum bn k n tot off v w : ℕ} {din din' : Dinode} {s s' : OpDisk}
variable {blk blk' : Blockno → Block} {a b ind : ℕ} {l l' : List Blockno} {e : FsPanic}

/-! ### The blocks in use -/

/-- What a block is used for; `bitmap k` is the one with the bits from `k * BPB` on. -/
inductive BlockUse
  | boot
  | bitmap (k : ℕ)
  | inode
  | indirect
  | data (bn : ℕ)

/-- The block that is used. -/
def place (sb : Superblock) (inum : ℕ) (din : Dinode) (blk : Blockno → Block) :
    BlockUse → Option Blockno
  | .boot => some 0
  | .bitmap k => if k * BPB < sb.size then some (BBLOCK (k * BPB) sb) else none
  | .inode => some (IBLOCK inum sb)
  | .indirect => if din.indirect = 0 then none else some din.indirect
  | .data bn => if bn < MAXFILE ∧ din.addr blk bn ≠ 0 then some (din.addr blk bn) else none

/-- The bitmap does not offer the block. -/
def MarkedUsed (sb : Superblock) (blk : Blockno → Block) (a : Blockno) : Prop :=
  a < sb.size → (blk (BBLOCK a sb)).bit (a % BPB) = true

/-- No block has two uses, and no block in use is offered as a free one. -/
structure FileOk (sb : Superblock) (inum : ℕ) (din : Dinode) (blk : Blockno → Block) : Prop where
  fits : sb.size < 2 ^ 32
  marked : ∀ u a, place sb inum din blk u = some a → MarkedUsed sb blk a
  inj : ∀ u v a, place sb inum din blk u = some a → place sb inum din blk v = some a → u = v

/-- **The block invariant**: exactly the blocks below the end of the file are allocated. -/
structure BlocksAsSize (din : Dinode) (blk : Blockno → Block) : Prop where
  size : din.size ≤ MAXFILE * BSIZE
  alloc : ∀ bn, bn < MAXFILE → (din.addr blk bn ≠ 0 ↔ bn < blocksFor din.size)

theorem BBLOCK_eq_iff (sb : Superblock) (ha : a < 2 ^ 32) (hb : b < 2 ^ 32) :
    BBLOCK a sb = BBLOCK b sb ↔ a / BPB = b / BPB := by
  show ((a / BPB + sb.bmapstart) % 2 ^ 32 : ℕ) = (b / BPB + sb.bmapstart) % 2 ^ 32 ↔ a / BPB = b / BPB
  simp only [BPB, BSIZE]
  omega

namespace FileOk

/-- A block for a use that is not there yet. -/
theorem assign (h : FileOk sb inum din blk) (u₀ : BlockUse) (a : ℕ)
    (hfresh : ∀ u, place sb inum din blk u ≠ some a)
    (hmark : ∀ b, MarkedUsed sb blk b → MarkedUsed sb blk' b) (ha : MarkedUsed sb blk' a)
    (hplace : ∀ u b, place sb inum din' blk' u = some b →
      place sb inum din blk u = some b ∨ u = u₀ ∧ b = a) : FileOk sb inum din' blk' := by
  refine ⟨h.fits, fun u b hu => ?_, fun u v b hu hv => ?_⟩
  · rcases hplace u b hu with hu | ⟨-, rfl⟩
    · exact hmark b (h.marked u b hu)
    · exact ha
  · rcases hplace u b hu with hu | ⟨rfl, rfl⟩
    · rcases hplace v b hv with hv | ⟨-, rfl⟩
      · exact h.inj u v b hu hv
      · exact absurd hu (hfresh u)
    · rcases hplace v b hv with hv | ⟨rfl, -⟩
      · exact absurd hv (hfresh v)
      · rfl

theorem congr (h : FileOk sb inum din blk) (hmark : ∀ b, MarkedUsed sb blk b → MarkedUsed sb blk' b)
    (hplace : ∀ u, place sb inum din' blk' u = place sb inum din blk u) :
    FileOk sb inum din' blk' := by
  refine ⟨h.fits, fun u b hu => ?_, fun u v b hu hv => ?_⟩
  · rw [hplace] at hu
    exact hmark b (h.marked u b hu)
  · rw [hplace] at hu hv
    exact h.inj u v b hu hv

theorem place_bitmap (hb : b < sb.size) :
    place sb inum din blk (.bitmap (b / BPB)) = some (BBLOCK b sb) := by
  have hlt : b / BPB * BPB < sb.size := lt_of_le_of_lt (Nat.div_mul_le_self _ _) hb
  have heq : BBLOCK (b / BPB * BPB) sb = BBLOCK b sb := by
    unfold BBLOCK
    rw [Nat.mul_div_cancel _ (by decide : 0 < BPB)]
  rw [place, if_pos hlt, heq]

theorem place_indirect (h : din.indirect ≠ 0) :
    place sb inum din blk .indirect = some din.indirect := if_neg h

theorem place_data (hbn : bn < MAXFILE) (h : din.addr blk bn ≠ 0) :
    place sb inum din blk (.data bn) = some (din.addr blk bn) := if_pos ⟨hbn, h⟩

theorem of_place_data (h : place sb inum din blk (.data bn) = some b) :
    bn < MAXFILE ∧ b = din.addr blk bn ∧ b ≠ 0 := by
  simp only [place] at h
  split_ifs at h with hc
  obtain rfl := Option.some.inj h
  exact ⟨hc.1, rfl, hc.2⟩

/-- Two blocks of a file are different, and none of them is the indirect block. -/
theorem addr_ne (h : FileOk sb inum din blk) {bn' : ℕ} (hbn : bn < MAXFILE) (hbn' : bn' < MAXFILE)
    (h0 : din.addr blk bn ≠ 0) (hne : bn' ≠ bn) : din.addr blk bn' ≠ din.addr blk bn := by
  intro he
  have hinj := h.inj (.data bn') (.data bn) (din.addr blk bn)
    (by rw [place_data hbn' (by rwa [he]), he]) (place_data hbn h0)
  exact hne (BlockUse.data.inj hinj)

theorem addr_ne_indirect (h : FileOk sb inum din blk) (hbn : bn < MAXFILE)
    (h0 : din.addr blk bn ≠ 0) : din.indirect ≠ din.addr blk bn := by
  intro he
  have hinj := h.inj .indirect (.data bn) (din.addr blk bn)
    (by rw [place_indirect (by rwa [he]), he]) (place_data hbn h0)
  cases hinj

/-! ### Writing to a block in use -/

/-- A block that is neither of the bitmap nor the indirect one. -/
theorem write (h : FileOk sb inum din blk) {u : BlockUse} (hu : place sb inum din blk u = some b)
    (hmap : ∀ k, u ≠ .bitmap k) (hind : u ≠ .indirect) (d : Block) :
    FileOk sb inum din (Function.update blk b d) ∧
      ∀ bn, din.addr (Function.update blk b d) bn = din.addr blk bn := by
  have haddr : ∀ bn, din.addr (Function.update blk b d) bn = din.addr blk bn := by
    intro bn
    unfold Dinode.addr
    by_cases h0 : din.indirect = 0
    · simp only [h0, if_true]
    · have hne : din.indirect ≠ b := by
        rintro rfl
        exact hind (h.inj _ _ _ hu (place_indirect h0))
      rw [Function.update_of_ne hne]
  refine ⟨h.congr (fun c hc hlt => ?_) fun v => ?_, haddr⟩
  · have hne : BBLOCK c sb ≠ b := by
      rintro rfl
      exact hmap _ (h.inj _ _ _ hu (place_bitmap hlt))
    rw [Function.update_of_ne hne]
    exact hc hlt
  · cases v with
    | data bn => simp only [place, haddr]
    | _ => rfl

end FileOk

/-! ### `balloc` -/

theorem freeBit_some {d : Block} {bi : ℕ} (h : freeBit sb d b = some bi) :
    bi < BPB ∧ b + bi < sb.size ∧ d.bit bi = false := by
  unfold freeBit at h
  have hmem := List.mem_of_find?_eq_some h
  have hprop := List.find?_some h
  rw [Bool.and_eq_true, decide_eq_true_eq, Bool.not_eq_true'] at hprop
  exact ⟨List.mem_range.mp hmem, hprop.1, hprop.2⟩

/-- What `balloc` does: it panics before it has logged anything, or it marks a free block and clears
it. -/
theorem ballocLoop_spec (sb : Superblock) (s : OpDisk) (n : ℕ) (hb : b % BPB = 0) :
    ballocLoop sb s n b = .error ⟨"balloc: out of blocks", s.logged⟩ ∨
      ∃ a, a < sb.size ∧ (s.block (BBLOCK a sb)).bit (a % BPB) = false ∧
        ballocLoop sb s n b = .ok (a,
          (s.write (BBLOCK a sb) ((s.block (BBLOCK a sb)).setBit (a % BPB))).write a 0) := by
  induction n generalizing b with
  | zero => exact Or.inl rfl
  | succ n ih =>
    rw [ballocLoop]
    by_cases hlt : b < sb.size
    · rw [if_pos hlt]
      cases hf : freeBit sb (s.block (BBLOCK b sb)) b with
      | none =>
        simp only [hf]
        refine ih ?_
        rw [Nat.add_mod_right, hb]
      | some bi =>
        obtain ⟨hbi, hsize, hbit⟩ := freeBit_some hf
        have hmod : (b + bi) % BPB = bi := by
          rw [Nat.add_mod, hb, Nat.zero_add, Nat.mod_mod, Nat.mod_eq_of_lt hbi]
        have hblock : BBLOCK (b + bi) sb = BBLOCK b sb := by
          have hdiv : (b + bi) / BPB = b / BPB := by
            simp only [BPB, BSIZE] at *
            omega
          unfold BBLOCK
          rw [hdiv]
        refine Or.inr ⟨b + bi, hsize, ?_, ?_⟩
        · rw [hblock, hmod]
          exact hbit
        · simp only [hf, hblock, hmod]
    · rw [if_neg hlt]
      exact Or.inl rfl

/-- A block that `balloc` has returned: it was not in use, is marked and cleared, and the blocks of the
file are as before. -/
structure Balloced (sb : Superblock) (inum : ℕ) (din : Dinode) (s : OpDisk) (a : Blockno)
    (s' : OpDisk) : Prop where
  fresh : ∀ u, place sb inum din s.block u ≠ some a
  lt : a < 2 ^ 32
  ok : FileOk sb inum din s'.block
  addr : ∀ bn, din.addr s'.block bn = din.addr s.block bn
  marked : MarkedUsed sb s'.block a
  zero : s'.block a = 0
  kept : ∀ u b, (∀ k, u ≠ .bitmap k) → place sb inum din s.block u = some b →
    s'.block b = s.block b
  logged : s'.logged = s.logged ++ [BBLOCK a sb, a]

theorem Balloced.ne_zero (h : Balloced sb inum din s a s') : a ≠ 0 := by
  rintro rfl
  exact h.fresh .boot rfl

theorem FileOk.balloc (h : FileOk sb inum din s.block) :
    balloc sb s = .error ⟨"balloc: out of blocks", s.logged⟩ ∨
      ∃ a s', balloc sb s = .ok (a, s') ∧ Balloced sb inum din s a s' := by
  rcases ballocLoop_spec sb s (sb.size / BPB + 1) (Nat.zero_mod BPB) with he | ⟨a, ha, hbit, hok⟩
  · exact Or.inl he
  obtain ⟨s', hs'⟩ : ∃ s', s' =
    (s.write (BBLOCK a sb) ((s.block (BBLOCK a sb)).setBit (a % BPB))).write a 0 := ⟨_, rfl⟩
  rw [← hs'] at hok
  have hfresh : ∀ u, place sb inum din s.block u ≠ some a := by
    intro u hu
    have := h.marked u a hu ha
    rw [hbit] at this
    cases this
  have ha32 := ha.trans h.fits
  have hblock : ∀ b, s'.block b = if b = a then 0 else
      if b = BBLOCK a sb then (s.block (BBLOCK a sb)).setBit (a % BPB) else s.block b := by
    intro b
    rw [hs']
    simp only [OpDisk.write, Function.update_apply]
  have hkept : ∀ u b, (∀ k, u ≠ .bitmap k) → place sb inum din s.block u = some b →
      s'.block b = s.block b := by
    intro u b hu hb
    have h1 : b ≠ a := by
      rintro rfl
      exact hfresh u hb
    have h2 : b ≠ BBLOCK a sb := by
      rintro rfl
      exact hu _ (h.inj _ _ _ hb (FileOk.place_bitmap ha))
    rw [hblock, if_neg h1, if_neg h2]
  have haddr : ∀ bn, din.addr s'.block bn = din.addr s.block bn := by
    intro bn
    unfold Dinode.addr
    by_cases h0 : din.indirect = 0
    · simp only [h0, if_true]
    · rw [hkept .indirect _ nofun (FileOk.place_indirect h0)]
  -- the bitmap has one more bit
  have hbits : ∀ b, b < sb.size → (s'.block (BBLOCK b sb)).bit (b % BPB) =
      (decide (b = a) || (s.block (BBLOCK b sb)).bit (b % BPB)) := by
    intro b hb
    have h1 : BBLOCK b sb ≠ a := fun he => hfresh _ (he ▸ FileOk.place_bitmap hb)
    rw [hblock, if_neg h1]
    have hiff := BBLOCK_eq_iff sb (hb.trans h.fits) ha32
    by_cases he : BBLOCK b sb = BBLOCK a sb
    · have hab : b % BPB = a % BPB ↔ b = a := by
        have := hiff.mp he
        simp only [BPB, BSIZE] at *
        omega
      rw [if_pos he, Block.bit_setBit (Nat.mod_lt _ (by decide)), he]
      simp only [hab]
    · have hne : b ≠ a := by
        rintro rfl
        exact he rfl
      rw [if_neg he, decide_eq_false hne, Bool.false_or]
  refine Or.inr ⟨a, s', hok, hfresh, ha32, ?_, haddr, fun _ => ?_, ?_, hkept, ?_⟩
  · refine h.congr (fun b hb hlt => ?_) fun u => ?_
    · rw [hbits b hlt, hb hlt, Bool.or_true]
    · cases u with
      | data bn => simp only [place, haddr]
      | _ => rfl
  · rw [hbits a ha, decide_eq_true rfl, Bool.true_or]
  · rw [hblock, if_pos rfl]
  · rw [hs']
    simp only [OpDisk.write, List.append_assoc, List.singleton_append]

/-! ### What is logged -/

/-- All blocks in the list are among `v` blocks with data, the blocks of the bitmap, and the indirect
block `ind`.  There are `w` of the bitmap, one of them for the indirect block if there is none yet. -/
def Budget (l : List Blockno) (ind v w : ℕ) : Prop :=
  ∃ D B : Finset ℕ, (∀ b ∈ l, b ∈ D ∨ b ∈ B ∨ b = ind ∧ ind ≠ 0) ∧ D.card ≤ v ∧
    B.card + (if ind = 0 then 1 else 0) ≤ w

namespace Budget

theorem nil (ind : ℕ) : Budget [] ind 0 1 := by
  refine ⟨∅, ∅, nofun, le_rfl, ?_⟩
  split_ifs <;> simp

theorem mono {v' w' : ℕ} (h : Budget l ind v w) (hl : ∀ b ∈ l', b ∈ l) (hv : v ≤ v')
    (hw : w ≤ w') : Budget l' ind v' w' := by
  obtain ⟨D, B, hin, hD, hB⟩ := h
  exact ⟨D, B, fun b hb => hin b (hl b hb), hD.trans hv, hB.trans hw⟩

/-- A block with data. -/
theorem data (h : Budget l ind v w) (a : ℕ) : Budget (l ++ [a]) ind (v + 1) w := by
  obtain ⟨D, B, hin, hD, hB⟩ := h
  refine ⟨insert a D, B, fun b hb => ?_, (Finset.card_insert_le _ _).trans (by omega), hB⟩
  rcases List.mem_append.mp hb with hb | hb
  · exact (hin b hb).imp (Finset.mem_insert_of_mem) id
  · rw [List.mem_singleton.mp hb]
    exact Or.inl (Finset.mem_insert_self _ _)

/-- A block of the bitmap. -/
theorem bitmap (h : Budget l ind v w) (a : ℕ) : Budget (l ++ [a]) ind v (w + 1) := by
  obtain ⟨D, B, hin, hD, hB⟩ := h
  have hcard := Finset.card_insert_le a B
  refine ⟨D, insert a B, fun b hb => ?_, hD, by omega⟩
  rcases List.mem_append.mp hb with hb | hb
  · exact (hin b hb).imp id (Or.imp Finset.mem_insert_of_mem id)
  · rw [List.mem_singleton.mp hb]
    exact Or.inr (Or.inl (Finset.mem_insert_self _ _))

theorem indirect (h : Budget l ind v w) (h0 : ind ≠ 0) : Budget (l ++ [ind]) ind v w := by
  obtain ⟨D, B, hin, hD, hB⟩ := h
  refine ⟨D, B, fun b hb => ?_, hD, hB⟩
  rcases List.mem_append.mp hb with hb | hb
  · exact hin b hb
  · exact Or.inr (Or.inr ⟨List.mem_singleton.mp hb, h0⟩)

/-- A new indirect block, and the block of the bitmap for it. -/
theorem newIndirect (h : Budget l 0 v w) (h0 : a ≠ 0) (b : ℕ) : Budget (l ++ [b, a]) a v w := by
  obtain ⟨D, B, hin, hD, hB⟩ := h
  have hcard := Finset.card_insert_le b B
  rw [if_pos rfl] at hB
  refine ⟨D, insert b B, fun c hc => ?_, hD, by rw [if_neg h0]; omega⟩
  rcases List.mem_append.mp hc with hc | hc
  · rcases hin c hc with hc | hc | hc
    · exact Or.inl hc
    · exact Or.inr (Or.inl (Finset.mem_insert_of_mem hc))
    · exact absurd rfl hc.2
  · simp only [List.mem_cons, List.not_mem_nil, or_false] at hc
    rcases hc with rfl | rfl
    · exact Or.inr (Or.inl (Finset.mem_insert_self _ _))
    · exact Or.inr (Or.inr ⟨rfl, h0⟩)

theorem card_le (h : Budget l ind v w) : l.toFinset.card ≤ v + w + 1 := by
  obtain ⟨D, B, hin, hD, hB⟩ := h
  have hsub : l.toFinset ⊆ D ∪ B ∪ {ind} := by
    intro b hb
    rw [Finset.mem_union, Finset.mem_union, Finset.mem_singleton]
    rcases hin b (List.mem_toFinset.mp hb) with h | h | h
    · exact Or.inl (Or.inl h)
    · exact Or.inl (Or.inr h)
    · exact Or.inr h.1
  have h1 := Finset.card_le_card hsub
  have h2 := Finset.card_union_le (D ∪ B) {ind}
  have h3 := Finset.card_union_le D B
  rw [Finset.card_singleton] at h2
  omega

end Budget

/-! ### `bmap` -/

theorem place_congr (hind : din'.indirect = din.indirect)
    (h : ∀ bn, bn < MAXFILE → din'.addr blk' bn = din.addr blk bn) (u : BlockUse) :
    place sb inum din' blk' u = place sb inum din blk u := by
  cases u with
  | indirect => simp only [place, hind]
  | data bn =>
    simp only [place]
    by_cases hbn : bn < MAXFILE
    · rw [h bn hbn]
    · simp only [hbn, false_and, if_false]
  | _ => rfl

/-- Two states of a file with the same blocks, of which the second has an indirect block. -/
structure WithIndirect (sb : Superblock) (inum : ℕ) (din : Dinode) (s : OpDisk) (din' : Dinode)
    (s' : OpDisk) : Prop where
  ok : FileOk sb inum din' s'.block
  ind : din'.indirect ≠ 0
  addr : ∀ bn, bn < MAXFILE → din'.addr s'.block bn = din.addr s.block bn
  kept : ∀ bn, bn < MAXFILE → din.addr s.block bn ≠ 0 →
    s'.block (din.addr s.block bn) = s.block (din.addr s.block bn)
  same : ∃ addrs, din' = { din with addrs := addrs }
  budget : ∀ v w, Budget s.logged din.indirect v w → Budget s'.logged din'.indirect v w

/-- Block `bn` of the file is `a`; the other ones are as before. -/
structure Mapped (sb : Superblock) (inum : ℕ) (din : Dinode) (s : OpDisk) (bn a : ℕ) (din' : Dinode)
    (s' : OpDisk) : Prop where
  ok : FileOk sb inum din' s'.block
  ne_zero : a ≠ 0
  addr : ∀ bn', bn' < MAXFILE →
    din'.addr s'.block bn' = if bn' = bn then a else din.addr s.block bn'
  old : din.addr s.block bn ≠ 0 → a = din.addr s.block bn
  kept : ∀ bn, bn < MAXFILE → din.addr s.block bn ≠ 0 →
    s'.block (din.addr s.block bn) = s.block (din.addr s.block bn)
  same : ∃ addrs, din' = { din with addrs := addrs }
  budget : ∀ v w, Budget s.logged din.indirect v w → Budget (s'.logged ++ [a]) din'.indirect (v + 1)
    (w + if din.addr s.block bn = 0 then 1 else 0)

theorem WithIndirect.refl (h : FileOk sb inum din s.block) (h0 : din.indirect ≠ 0) :
    WithIndirect sb inum din s din s :=
  ⟨h, h0, fun _ _ => rfl, fun _ _ _ => rfl, ⟨din.addrs, rfl⟩, fun _ _ => id⟩

/-- A block that is there already. -/
theorem Mapped.refl (h : FileOk sb inum din s.block) (h0 : din.addr s.block bn ≠ 0) :
    Mapped sb inum din s bn (din.addr s.block bn) din s := by
  refine ⟨h, h0, fun bn' _ => ?_, fun _ => rfl, fun _ _ _ => rfl, ⟨din.addrs, rfl⟩, fun v w hb => ?_⟩
  · split_ifs with hbn
    · rw [hbn]
    · rfl
  · rw [if_neg h0]
    exact hb.data _

theorem Mapped.of_withIndirect {s₁ : OpDisk} {din₁ : Dinode} (hR : WithIndirect sb inum din s din₁ s₁)
    (hbn : bn < MAXFILE) (h : Mapped sb inum din₁ s₁ bn a din' s') :
    Mapped sb inum din s bn a din' s' := by
  refine ⟨h.ok, h.ne_zero, fun bn' hbn' => ?_, fun h0 => ?_, fun bn' hbn' h0 => ?_, ?_,
    fun v w hb => ?_⟩
  · rw [h.addr bn' hbn', hR.addr bn' hbn']
  · rw [← hR.addr bn hbn] at h0 ⊢
    exact h.old h0
  · have hk := h.kept bn' hbn' (by rwa [hR.addr bn' hbn'])
    rw [hR.addr bn' hbn'] at hk
    rw [hk, hR.kept bn' hbn' h0]
  · obtain ⟨f, hf⟩ := hR.same
    obtain ⟨g, hg⟩ := h.same
    exact ⟨g, by rw [hg, hf]⟩
  · have := h.budget v w (hR.budget v w hb)
    rwa [hR.addr bn hbn] at this

/-- A new direct block. -/
theorem Balloced.direct (hbn : bn < NDIRECT) (h0 : din.direct bn = 0)
    (h : Balloced sb inum din s a s') : Mapped sb inum din s bn a (din.setAddr bn a) s' := by
  have hind : (din.setAddr bn a).indirect = din.indirect := by
    rw [Dinode.indirect_setAddr hbn.le, if_neg hbn.ne]
  have haddr : ∀ bn', (din.setAddr bn a).addr s'.block bn' =
      if bn' = bn then a else din.addr s.block bn' := by
    intro bn'
    by_cases hlt : bn' < NDIRECT
    · rw [Dinode.addr_of_lt hlt, Dinode.addr_of_lt hlt, Dinode.direct_setAddr hbn.le hlt]
    · have hne : bn' ≠ bn := by omega
      rw [if_neg hne, ← h.addr, Dinode.addr, Dinode.addr, if_neg hlt, if_neg hlt, hind]
  have hplace : ∀ u, place sb inum din s'.block u = place sb inum din s.block u := fun u =>
    place_congr rfl (fun bn' _ => h.addr bn') u
  refine ⟨h.ok.assign (.data bn) a (fun u hu => h.fresh u ?_) (fun _ hb => hb) h.marked
    fun u b hu => ?_, h.ne_zero, fun bn' _ => haddr bn', fun hne => ?_, fun bn' hbn' hne => ?_,
    ⟨_, rfl⟩, fun v w hb => ?_⟩
  · rwa [hplace] at hu
  · cases u with
    | data bn' =>
      obtain ⟨h1, h2, h3⟩ := FileOk.of_place_data hu
      rw [haddr] at h2
      split_ifs at h2 with hbn'
      · exact Or.inr ⟨by rw [hbn'], h2⟩
      · refine Or.inl ?_
        rw [hplace, h2]
        exact FileOk.place_data h1 (h2 ▸ h3)
    | indirect =>
      simp only [place, hind] at hu
      exact Or.inl hu
    | _ => exact Or.inl hu
  · rw [Dinode.addr_of_lt hbn] at hne
    exact absurd h0 hne
  · exact h.kept (.data bn') _ (fun _ h => by cases h) (FileOk.place_data hbn' hne)
  · rw [Dinode.addr_of_lt hbn, h0, if_pos rfl, hind, h.logged]
    refine ((hb.bitmap (BBLOCK a sb)).data a).mono (fun c hc => ?_) le_rfl le_rfl
    simp only [List.mem_append, List.mem_cons, List.not_mem_nil, or_false] at hc ⊢
    tauto

/-- A new indirect block. -/
theorem Balloced.indirect (h0 : din.indirect = 0) (h : Balloced sb inum din s a s') :
    WithIndirect sb inum din s (din.setAddr NDIRECT a) s' := by
  have hind : (din.setAddr NDIRECT a).indirect = a := by
    rw [Dinode.indirect_setAddr le_rfl, if_pos rfl]
  have haddr : ∀ bn, (din.setAddr NDIRECT a).addr s'.block bn = din.addr s.block bn := by
    intro bn
    by_cases hlt : bn < NDIRECT
    · rw [Dinode.addr_of_lt hlt, Dinode.addr_of_lt hlt, Dinode.direct_setAddr le_rfl hlt,
        if_neg hlt.ne]
    · -- the new block is clear
      rw [Dinode.addr_of_indirect_zero (not_lt.mp hlt) h0, Dinode.addr_of_indirect (not_lt.mp hlt)
        (by rw [hind]; exact h.ne_zero), hind, h.zero]
      exact Bytes.field_zero _ _
  refine ⟨h.ok.assign .indirect a (fun u hu => h.fresh u ?_) (fun _ hb => hb) h.marked
    fun u b hu => ?_, by rw [hind]; exact h.ne_zero, fun bn _ => haddr bn, fun bn hbn hne => ?_,
    ⟨_, rfl⟩, fun v w hb => ?_⟩
  · rwa [place_congr rfl (fun bn' _ => h.addr bn') u] at hu
  · cases u with
    | data bn =>
      simp only [place, haddr] at hu
      refine Or.inl ?_
      simp only [place, h.addr]
      exact hu
    | indirect =>
      simp only [place, hind, if_neg h.ne_zero] at hu
      exact Or.inr ⟨rfl, (Option.some.inj hu).symm⟩
    | _ => exact Or.inl hu
  · exact h.kept (.data bn) _ nofun (FileOk.place_data hbn hne)
  · rw [h0] at hb
    rw [hind, h.logged]
    exact hb.newIndirect h.ne_zero _

/-- A new block in the list of the indirect block. -/
theorem Balloced.entry (h1 : NDIRECT ≤ bn) (h2 : bn < MAXFILE) (hind : din.indirect ≠ 0)
    (h0 : din.addr s.block bn = 0) (h : Balloced sb inum din s a s') :
    Mapped sb inum din s bn a din (s'.write din.indirect
      ((s'.block din.indirect).setWord (bn - NDIRECT) a)) := by
  have haddr : ∀ bn', bn' < MAXFILE → din.addr (Function.update s'.block din.indirect
      ((s'.block din.indirect).setWord (bn - NDIRECT) a)) bn' =
      if bn' = bn then a else din.addr s.block bn' := by
    intro bn' hbn'
    rw [← h.addr]
    by_cases hlt : bn' < NDIRECT
    · have hne : bn' ≠ bn := by omega
      rw [if_neg hne, Dinode.addr_of_lt hlt, Dinode.addr_of_lt hlt]
    · rw [Dinode.addr_of_indirect (not_lt.mp hlt) hind, Dinode.addr_of_indirect (not_lt.mp hlt) hind,
        Function.update_self]
      split_ifs with he
      · rw [he]
        exact Block.word_setWord (by simp only [MAXFILE, NDIRECT, NINDIRECT, BSIZE] at *; omega) h.lt
      · exact Block.word_setWord_of_ne (by simp only [NDIRECT] at *; omega)
          (by simp only [MAXFILE, NDIRECT, NINDIRECT, BSIZE] at *; omega)
  -- `balloc` itself gives no block to the file
  have hplace : ∀ u, place sb inum din s'.block u = place sb inum din s.block u := fun u =>
    place_congr rfl (fun bn' _ => h.addr bn') u
  refine ⟨h.ok.assign (.data bn) a (fun u hu => h.fresh u ?_) (fun b hb hlt => ?_) (fun hlt => ?_)
    fun u b hu => ?_, h.ne_zero, haddr, fun hne => absurd h0 hne, fun bn' hbn' hne => ?_,
    ⟨din.addrs, rfl⟩, fun v w hb => ?_⟩
  · rwa [hplace] at hu
  · have hne : BBLOCK b sb ≠ din.indirect := by
      intro he
      cases h.ok.inj _ _ _ (FileOk.place_bitmap hlt) (he ▸ FileOk.place_indirect hind)
    show (Function.update s'.block _ _ _).bit _ = true
    rw [Function.update_of_ne hne]
    exact hb hlt
  · have hne : BBLOCK a sb ≠ din.indirect := by
      intro he
      cases h.ok.inj _ _ _ (FileOk.place_bitmap hlt) (he ▸ FileOk.place_indirect hind)
    show (Function.update s'.block _ _ _).bit _ = true
    rw [Function.update_of_ne hne]
    exact h.marked hlt
  · cases u with
    | data bn' =>
      -- the block `bn` is the new one, the others are where they were
      obtain ⟨h3, h4, h5⟩ := FileOk.of_place_data hu
      have h6 := h4.trans (haddr bn' h3)
      split_ifs at h6 with hbn'
      · exact Or.inr ⟨by rw [hbn'], h6⟩
      · refine Or.inl ?_
        rw [hplace, h6]
        exact FileOk.place_data h3 (h6 ▸ h5)
    | _ => exact Or.inl hu
  · have hne' : din.addr s.block bn' ≠ din.indirect := by
      rw [← h.addr] at hne ⊢
      exact (h.ok.addr_ne_indirect hbn' hne).symm
    show Function.update s'.block _ _ _ = _
    rw [Function.update_of_ne hne']
    exact h.kept (.data bn') _ nofun (FileOk.place_data hbn' hne)
  · rw [h0, if_pos rfl]
    show Budget (s'.logged ++ [din.indirect] ++ [a]) _ _ _
    rw [h.logged]
    refine (((hb.bitmap (BBLOCK a sb)).data a).indirect hind).mono (fun c hc => ?_) le_rfl le_rfl
    simp only [List.mem_append, List.mem_cons, List.not_mem_nil, or_false] at hc ⊢
    tauto

/-- The first half of `bmap` for a block in the list of the indirect block. -/
theorem FileOk.reserve (h : FileOk sb inum din s.block) :
    ballocIfNone sb din.indirect s = .error ⟨"balloc: out of blocks", s.logged⟩ ∨
      ∃ p s₁, ballocIfNone sb din.indirect s = .ok (p, s₁) ∧
        (din.setAddr NDIRECT p).indirect = p ∧
        WithIndirect sb inum din s (din.setAddr NDIRECT p) s₁ := by
  unfold ballocIfNone
  have hset : ∀ p, (din.setAddr NDIRECT p).indirect = p := fun p => by
    rw [Dinode.indirect_setAddr le_rfl, if_pos rfl]
  by_cases h0 : din.indirect = 0
  · rw [if_pos h0]
    rcases h.balloc with he | ⟨p, s₁, hok, hB⟩
    · exact Or.inl he
    · exact Or.inr ⟨p, s₁, hok, hset p, hB.indirect h0⟩
  · rw [if_neg h0]
    have hself : din.setAddr NDIRECT din.indirect = din := Dinode.setAddr_self din rfl
    refine Or.inr ⟨din.indirect, s, rfl, hset _, ?_⟩
    rw [hself]
    exact WithIndirect.refl h h0

/-- What `bmap` does: it panics when there is no free block, or the block is there. -/
theorem bmap_spec (h : FileOk sb inum din s.block) (hbn : bn < MAXFILE) :
    (∃ e ind, bmap sb din bn s = .error e ∧ e.msg = "balloc: out of blocks" ∧
      ∀ v w, Budget s.logged din.indirect v w → Budget e.logged ind v w) ∨
    ∃ a din' s', bmap sb din bn s = .ok (a, din', s') ∧ Mapped sb inum din s bn a din' s' := by
  unfold bmap
  by_cases hlt : bn < NDIRECT
  · rw [if_pos hlt]
    unfold ballocIfNone
    by_cases h0 : din.direct bn = 0
    · rw [if_pos h0]
      rcases h.balloc with he | ⟨a, s', hok, hB⟩
      · rw [he]
        exact Or.inl ⟨_, din.indirect, rfl, rfl, fun _ _ => id⟩
      · rw [hok]
        exact Or.inr ⟨a, _, s', rfl, hB.direct hlt h0⟩
    · rw [if_neg h0]
      have h0' : din.addr s.block bn ≠ 0 := by rwa [Dinode.addr_of_lt hlt]
      have hM := Mapped.refl h h0'
      rw [Dinode.addr_of_lt hlt] at hM
      have hself : din.setAddr bn (din.direct bn) = din := Dinode.setAddr_self din rfl
      refine Or.inr ⟨_, _, s, rfl, ?_⟩
      rw [hself]
      exact hM
  · have hge := not_lt.mp hlt
    have hin : bn - NDIRECT < NINDIRECT := by
      simp only [MAXFILE, NDIRECT, NINDIRECT, BSIZE] at *
      omega
    rw [if_neg hlt, if_pos hin]
    rcases h.reserve with he | ⟨p, s₁, hok, hp, hR⟩
    · rw [he]
      exact Or.inl ⟨_, din.indirect, rfl, rfl, fun _ _ => id⟩
    rw [hok]
    have hentry : (s₁.block p).word (bn - NDIRECT) = (din.setAddr NDIRECT p).addr s₁.block bn := by
      rw [Dinode.addr_of_indirect hge hR.ind, hp]
    simp only [hentry]
    by_cases h0 : (din.setAddr NDIRECT p).addr s₁.block bn = 0
    · rw [if_pos h0]
      rcases hR.ok.balloc with he | ⟨a, s', hok', hB⟩
      · rw [he]
        exact Or.inl ⟨_, p, rfl, rfl, fun v w hb => hp ▸ hR.budget v w hb⟩
      · rw [hok']
        have hM := hB.entry hge hbn hR.ind h0
        rw [hp] at hM
        exact Or.inr ⟨a, _, _, rfl, hM.of_withIndirect hR hbn⟩
    · rw [if_neg h0]
      exact Or.inr ⟨_, _, s₁, rfl, (Mapped.refl hR.ok h0).of_withIndirect hR hbn⟩

/-! ### One round -/

/-- The loop of `writei` for the bytes from `off₀` on, after `tot` of them. -/
structure Writing (sb : Superblock) (inum : ℕ) (din₀ : Dinode) (blk₀ : Blockno → Block) (off₀ : ℕ)
    (src : ℕ → UInt8) (n tot : ℕ) (din : Dinode) (s : OpDisk) : Prop where
  ok : FileOk sb inum din s.block
  same : ∃ addrs, din = { din₀ with addrs := addrs }
  le : tot ≤ n
  /-- The loop stops in the middle of a block only at the end. -/
  stop : tot = 0 ∨ tot = n ∨ (off₀ + tot) % BSIZE = 0
  alloc : ∀ bn, bn < MAXFILE → (din.addr s.block bn ≠ 0 ↔
    bn < max (blocksFor din₀.size) (blocksFor (off₀ + tot)))
  bytes : ∀ j, j < tot → din.fileByte s.block (off₀ + j) = src j
  kept : ∀ j, j < din₀.size → ¬ (off₀ ≤ j ∧ j < off₀ + tot) →
    din.fileByte s.block j = din₀.fileByte blk₀ j
  budget : Budget s.logged din.indirect
    (if tot = 0 then 0 else blocksFor (off₀ + tot) - off₀ / BSIZE)
    (blocksFor (off₀ + tot) - blocksFor off₀ + 1)

/-- The bytes of a file that has been mapped and written to. -/
theorem Mapped.fileByte {off m : ℕ} {src : ℕ → UInt8}
    (hM : Mapped sb inum din s (off / BSIZE) a din' s')
    (hoff : off / BSIZE < MAXFILE) (hm : off % BSIZE + m ≤ BSIZE) {j : ℕ}
    (hj : j / BSIZE < MAXFILE)
    (h0 : din.addr s.block (j / BSIZE) ≠ 0 ∨ off ≤ j ∧ j < off + m) :
    din'.fileByte (Function.update s'.block a ((s'.block a).move (off % BSIZE) src m)) j =
      if off ≤ j ∧ j < off + m then src (j - off) else din.fileByte s.block j := by
  have hplace : place sb inum din' s'.block (.data (off / BSIZE)) = some a := by
    have hself := hM.addr _ hoff
    rw [if_pos rfl] at hself
    rw [← hself]
    exact FileOk.place_data hoff (by rw [hself]; exact hM.ne_zero)
  obtain ⟨-, haddr⟩ := hM.ok.write hplace nofun nofun ((s'.block a).move (off % BSIZE) src m)
  unfold Dinode.fileByte
  rw [haddr, hM.addr _ hj]
  have hdiv := Nat.div_add_mod j BSIZE
  have hdiv' := Nat.div_add_mod off BSIZE
  have hmod : j % BSIZE < BSIZE := Nat.mod_lt _ (by decide)
  by_cases hb : j / BSIZE = off / BSIZE
  · rw [if_pos hb, Function.update_self, Bytes.get_move hmod]
    have hiff : (off % BSIZE ≤ j % BSIZE ∧ j % BSIZE < off % BSIZE + m) ↔ off ≤ j ∧ j < off + m := by
      rw [hb] at hdiv
      omega
    by_cases hin : off ≤ j ∧ j < off + m
    · have hsub : j % BSIZE - off % BSIZE = j - off := by
        rw [hb] at hdiv
        omega
      rw [if_pos (hiff.mpr hin), if_pos hin, hsub]
    · rw [if_neg (mt hiff.mp hin), if_neg hin]
      -- the block was there
      have hne := h0.resolve_right hin
      have hold := hM.old (hb ▸ hne)
      rw [hold, hM.kept _ hoff (hb ▸ hne), hb]
  · have hin : ¬ (off ≤ j ∧ j < off + m) := by
      simp only [BSIZE] at *
      omega
    have hne := h0.resolve_right hin
    have hja : din.addr s.block (j / BSIZE) ≠ a := by
      have hjaddr := hM.addr _ hj
      rw [if_neg hb] at hjaddr
      have hoaddr := hM.addr _ hoff
      rw [if_pos rfl] at hoaddr
      have := hM.ok.addr_ne hoff hj (by rw [hoaddr]; exact hM.ne_zero) hb
      rwa [hjaddr, hoaddr] at this
    rw [if_neg hb, if_neg hin, Function.update_of_ne hja, hM.kept _ hj hne]

variable {din₀ : Dinode} {blk₀ : Blockno → Block} {off₀ : ℕ} {src : ℕ → UInt8}

/-- One iteration of the loop of `writei`. -/
theorem Writing.step (h : Writing sb inum din₀ blk₀ off₀ src n tot din s) (hlt : tot < n)
    (hsize : din₀.size ≤ MAXFILE * BSIZE) (hoff : off₀ ≤ din₀.size)
    (hend : off₀ + n ≤ MAXFILE * BSIZE)
    (hM : Mapped sb inum din s ((off₀ + tot) / BSIZE) a din' s') {m : ℕ}
    (hm : m = min (n - tot) (BSIZE - (off₀ + tot) % BSIZE)) :
    Writing sb inum din₀ blk₀ off₀ src n (tot + m) din' (s'.write a
      ((s'.block a).move ((off₀ + tot) % BSIZE) (fun j => src (tot + j)) m)) := by
  obtain ⟨off, hoffeq⟩ : ∃ off, off = off₀ + tot := ⟨_, rfl⟩
  rw [← hoffeq] at hM hm ⊢
  have hbn : off / BSIZE < MAXFILE := by
    simp only [MAXFILE, NDIRECT, NINDIRECT, BSIZE] at *
    omega
  have hmpos : 0 < m := by
    simp only [BSIZE] at *
    omega
  have hmle : off % BSIZE + m ≤ BSIZE := by
    simp only [BSIZE] at *
    omega
  have hstop := h.stop
  rw [← hoffeq] at hstop
  have hnext : off₀ + (tot + m) = off + m := by omega
  have hblocks : blocksFor (off + m) = off / BSIZE + 1 := by
    unfold blocksFor
    simp only [BSIZE] at *
    omega
  -- where the file does not have the block, it ends just before
  have hlast : off / BSIZE ≤ max (blocksFor din₀.size) (blocksFor off) := by
    have hle : off₀ / BSIZE ≤ blocksFor din₀.size :=
      (Nat.div_le_div_right hoff).trans (Nat.div_le_div_right (Nat.le_add_right _ _))
    unfold blocksFor at *
    simp only [BSIZE] at *
    omega
  have hnew : ∀ {c}, c < MAXFILE → (din.addr s.block c ≠ 0 ↔
      c < max (blocksFor din₀.size) (blocksFor off)) := fun hc => by
    rw [hoffeq]
    exact h.alloc _ hc
  have hplace : place sb inum din' s'.block (.data (off / BSIZE)) = some a := by
    have hself := hM.addr _ hbn
    rw [if_pos rfl] at hself
    rw [← hself]
    exact FileOk.place_data hbn (by rw [hself]; exact hM.ne_zero)
  obtain ⟨hok, haddr⟩ := hM.ok.write hplace nofun nofun
    ((s'.block a).move (off % BSIZE) (fun j => src (tot + j)) m)
  refine ⟨hok, ?_, by omega, ?_, fun c hc => ?_, fun j hj => ?_, fun j hj hout => ?_, ?_⟩
  · obtain ⟨f, hf⟩ := h.same
    obtain ⟨g, hg⟩ := hM.same
    exact ⟨g, by rw [hg, hf]⟩
  · rw [hnext]
    simp only [BSIZE] at *
    omega
  · show din'.addr (Function.update _ _ _) c ≠ 0 ↔ _
    rw [haddr, hM.addr c hc, hnext, hblocks]
    have hc' := hnew hc
    have hbn' := hnew hbn
    unfold blocksFor at *
    split_ifs with he
    · refine iff_of_true hM.ne_zero ?_
      omega
    · rw [hc']
      simp only [BSIZE] at *
      omega
  · have hjn : (off₀ + j) / BSIZE < MAXFILE := by
      simp only [MAXFILE, NDIRECT, NINDIRECT, BSIZE] at *
      omega
    refine (hM.fileByte hbn hmle hjn ?_).trans ?_
    · by_cases hjt : j < tot
      · left
        rw [hnew hjn]
        unfold blocksFor
        simp only [BSIZE]
        omega
      · right
        omega
    · split_ifs with hin
      · have hsrc : tot + (off₀ + j - off) = j := by omega
        rw [hsrc]
      · exact h.bytes j (by omega)
  · have hjn : j / BSIZE < MAXFILE := by
      simp only [MAXFILE, NDIRECT, NINDIRECT, BSIZE] at *
      omega
    have hne : din.addr s.block (j / BSIZE) ≠ 0 := by
      rw [hnew hjn]
      unfold blocksFor
      simp only [BSIZE]
      omega
    refine (hM.fileByte hbn hmle hjn (Or.inl hne)).trans ?_
    rw [if_neg (by omega)]
    exact h.kept j hj (by omega)
  · -- the first block is new only if it is written from its start
    refine (hM.budget _ _ h.budget).mono (fun b hb => hb) ?_ ?_
    · have hpos : ¬ tot + m = 0 := by omega
      rw [← hoffeq, hnext, hblocks, if_neg hpos]
      by_cases h0 : tot = 0
      · rw [if_pos h0]
        simp only [BSIZE]
        omega
      · have halign : off % BSIZE = 0 := (hstop.resolve_left h0).resolve_left hlt.ne
        have hround : blocksFor off = off / BSIZE := by
          unfold blocksFor
          simp only [BSIZE] at *
          omega
        have hle : off₀ / BSIZE ≤ off / BSIZE := Nat.div_le_div_right (by omega)
        rw [if_neg h0, hround]
        omega
    · have hbn' := hnew hbn
      rw [← hoffeq, hnext, hblocks]
      unfold blocksFor at *
      split_ifs with h0
      · have hge := not_lt.mp (mt hbn'.mpr (not_not.mpr h0))
        simp only [BSIZE] at *
        omega
      · simp only [BSIZE] at *
        omega

theorem maxWrite_eq : maxWrite = 3 * BSIZE := rfl

/-- The blocks of a round. -/
theorem Writing.logged_le (h : Writing sb inum din₀ blk₀ off₀ src n tot din s) (hn : n ≤ maxWrite)
    (hl : ∃ ind, Budget l ind (if tot = 0 then 0 else blocksFor (off₀ + tot) - off₀ / BSIZE)
      (blocksFor (off₀ + tot) - blocksFor off₀ + 1)) : l.toFinset.card + 1 ≤ MAXOPBLOCKS := by
  obtain ⟨ind, hb⟩ := hl
  have hcard := hb.card_le
  have hle := h.le
  rw [maxWrite_eq] at hn
  have hdata : (if tot = 0 then 0 else blocksFor (off₀ + tot) - off₀ / BSIZE) ≤ 4 := by
    unfold blocksFor
    split_ifs
    · exact Nat.zero_le _
    · simp only [BSIZE] at *
      omega
  have hbitmap : blocksFor (off₀ + tot) - blocksFor off₀ + 1 ≤ 4 := by
    unfold blocksFor
    simp only [BSIZE] at *
    omega
  simp only [MAXOPBLOCKS]
  omega

theorem writeiLoop_spec (hsize : din₀.size ≤ MAXFILE * BSIZE) (hoff : off₀ ≤ din₀.size)
    (hend : off₀ + n ≤ MAXFILE * BSIZE) (hn : n ≤ maxWrite)
    (h : Writing sb inum din₀ blk₀ off₀ src n tot din s) (hk : n ≤ tot + k) :
    (∃ e, writeiLoop sb src n k tot (off₀ + tot) din s = .error e ∧
      e.msg = "balloc: out of blocks" ∧ e.logged.toFinset.card ≤ MAXOPBLOCKS) ∨
    ∃ din' s', writeiLoop sb src n k tot (off₀ + tot) din s = .ok (off₀ + n, din', s') ∧
      Writing sb inum din₀ blk₀ off₀ src n n din' s' := by
  have hdone : ∀ {tot din s}, Writing sb inum din₀ blk₀ off₀ src n tot din s → n ≤ tot →
      tot = n := fun h hle => le_antisymm h.le hle
  induction k generalizing tot din s with
  | zero =>
    obtain rfl := hdone h hk
    exact Or.inr ⟨din, s, rfl, h⟩
  | succ k ih =>
    rw [writeiLoop]
    by_cases hlt : tot < n
    · rw [if_pos hlt]
      have hbn : (off₀ + tot) / BSIZE < MAXFILE := by
        simp only [MAXFILE, NDIRECT, NINDIRECT, BSIZE] at *
        omega
      rcases bmap_spec h.ok hbn with ⟨e, ind, he, hmsg, hb⟩ | ⟨a, din', s', hok, hM⟩
      · rw [he]
        have hcard := h.logged_le hn ⟨ind, hb _ _ h.budget⟩
        exact Or.inl ⟨e, rfl, hmsg, by omega⟩
      · rw [hok]
        have hstep := h.step hlt hsize hoff hend hM rfl
        have hpos : 0 < min (n - tot) (BSIZE - (off₀ + tot) % BSIZE) := by
          simp only [BSIZE]
          omega
        have hnext := ih hstep (by omega)
        rw [← Nat.add_assoc] at hnext
        exact hnext
    · rw [if_neg hlt]
      obtain rfl := hdone h (not_lt.mp hlt)
      exact Or.inr ⟨din, s, rfl, h⟩

/-- `n` bytes have been written to a file from `off` on. -/
structure Written (sb : Superblock) (inum : ℕ) (din : Dinode) (blk : Blockno → Block) (off : ℕ)
    (src : ℕ → UInt8) (n : ℕ) (din' : Dinode) (blk' : Blockno → Block) : Prop where
  ok : FileOk sb inum din' blk'
  inv : BlocksAsSize din' blk'
  type : din'.type = din.type
  size : din'.size = max din.size (off + n)
  bytes : ∀ j, j < n → din'.fileByte blk' (off + j) = src j
  kept : ∀ j, j < din.size → ¬ (off ≤ j ∧ j < off + n) → din'.fileByte blk' j = din.fileByte blk j

/-- A round of `filewrite` on a file that is not a device. -/
theorem writei_spec (devsw : DevSwitch) (src : ℕ → UInt8) {off : ℕ} (hok : FileOk sb inum din s.block)
    (hinv : BlocksAsSize din s.block) (hl : s.logged = []) (htype : din.type ≠ T_DEV)
    (hoff : off ≤ din.size) (hn : n ≤ maxWrite) (hpos : 0 < n) :
    writei sb devsw inum src off n din s = .ok (-1, din, s) ∨
    (∃ e, writei sb devsw inum src off n din s = .error e ∧ e.msg = "balloc: out of blocks" ∧
      e.logged.toFinset.card ≤ MAXOPBLOCKS) ∨
    ∃ din' s', writei sb devsw inum src off n din s = .ok (n, din', s') ∧
      s'.logged.toFinset.card ≤ MAXOPBLOCKS ∧
      Written sb inum din s.block off src n din' s'.block := by
  have hsize := hinv.size
  have hmod : (off + n) % 2 ^ 32 = off + n := by
    refine Nat.mod_eq_of_lt ?_
    rw [maxWrite_eq] at hn
    simp only [MAXFILE, NDIRECT, NINDIRECT, BSIZE] at *
    omega
  have hno : ¬ (off > din.size ∨ (off + n) % 2 ^ 32 < off) := by
    rw [hmod]
    omega
  unfold writei
  rw [if_neg htype, if_neg hno, hmod]
  by_cases hend : off + n > MAXFILE * BSIZE
  · rw [if_pos hend]
    exact Or.inl rfl
  rw [if_neg hend]
  have hstart : Writing sb inum din s.block off src n 0 din s := by
    refine ⟨hok, ⟨din.addrs, rfl⟩, Nat.zero_le _, Or.inl rfl, fun bn hbn => ?_, nofun,
      fun _ _ _ => rfl, ?_⟩
    · have hle : blocksFor off ≤ blocksFor din.size := Nat.div_le_div_right (by omega)
      rw [hinv.alloc bn hbn, Nat.add_zero, max_eq_left hle]
    · rw [hl, Nat.add_zero, Nat.sub_self]
      exact Budget.nil _
  rcases writeiLoop_spec hsize hoff (not_lt.mp hend) hn hstart (k := n) (by omega) with
    ⟨e, he, hmsg, hcard⟩ | ⟨din', s', hok', hW⟩
  · rw [Nat.add_zero] at he
    rw [he]
    exact Or.inr (Or.inl ⟨e, rfl, hmsg, hcard⟩)
  rw [Nat.add_zero] at hok'
  rw [hok']
  obtain ⟨addrs, hsame⟩ := hW.same
  have hsize' : din'.size = din.size := by rw [hsame]
  have htype' : din'.type = din.type := by rw [hsame]
  have hcard := hW.logged_le hn ⟨_, hW.budget⟩
  have halloc : ∀ bn, bn < MAXFILE →
      (din'.addr s'.block bn ≠ 0 ↔ bn < blocksFor (max din.size (off + n))) := by
    intro bn hbn
    rw [hW.alloc bn hbn]
    unfold blocksFor
    simp only [BSIZE]
    omega
  refine Or.inr (Or.inr ?_)
  by_cases hgrow : n > 0 ∧ off + n > din'.size
  · have hmax : max din.size (off + n) = off + n := by omega
    simp only [if_pos hgrow]
    have hplace : place sb inum din' s'.block .inode = some (IBLOCK inum sb) := rfl
    obtain ⟨d, hd⟩ : ∃ d, d = (s'.block (IBLOCK inum sb)).setDinode (inum % IPB)
      { din' with size := off + n } := ⟨_, rfl⟩
    obtain ⟨hok'', haddr⟩ := hW.ok.write hplace nofun nofun d
    -- the block of the inode is not one of the file
    have hbyte : ∀ j, j < off + n →
        din'.fileByte (Function.update s'.block (IBLOCK inum sb) d) j = din'.fileByte s'.block j := by
      intro j hj
      have hbn : j / BSIZE < MAXFILE := by
        simp only [MAXFILE, NDIRECT, NINDIRECT, BSIZE] at *
        omega
      have h0 : din'.addr s'.block (j / BSIZE) ≠ 0 := by
        rw [halloc _ hbn, hmax]
        unfold blocksFor
        simp only [BSIZE]
        omega
      have hne : din'.addr s'.block (j / BSIZE) ≠ IBLOCK inum sb := by
        intro he
        cases hW.ok.inj _ _ _ (FileOk.place_data hbn h0) (he ▸ hplace)
      unfold Dinode.fileByte
      rw [haddr, Function.update_of_ne hne]
    unfold iupdate
    rw [← hd]
    refine ⟨_, _, rfl, ?_, ?_, ⟨?_, fun bn hbn => ?_⟩, htype', hmax.symm, fun j hj => ?_,
      fun j hj hout => ?_⟩
    · show (s'.logged ++ [IBLOCK inum sb]).toFinset.card ≤ _
      rw [List.toFinset_append]
      have h1 := Finset.card_union_le s'.logged.toFinset [IBLOCK inum sb].toFinset
      have h2 : [IBLOCK inum sb].toFinset.card = 1 := rfl
      omega
    · exact ⟨hok''.fits, hok''.marked, hok''.inj⟩
    · show off + n ≤ _
      omega
    · show din'.addr (Function.update _ _ _) bn ≠ 0 ↔ _
      rw [haddr, halloc bn hbn, hmax]
    · exact (hbyte _ (by omega)).trans (hW.bytes j hj)
    · exact (hbyte _ (by omega)).trans (hW.kept j hj hout)
  · have hmax : max din.size (off + n) = din'.size := by
      rw [hsize']
      omega
    simp only [if_neg hgrow]
    refine ⟨din', s', rfl, by omega, hW.ok, ⟨by omega, fun bn hbn => ?_⟩, htype', hmax.symm,
      hW.bytes, hW.kept⟩
    rw [halloc bn hbn, hmax]

/-! ### `filewrite` -/

theorem Written.refl {off : ℕ} (hok : FileOk sb inum din blk) (hinv : BlocksAsSize din blk)
    (hoff : off ≤ din.size) (src : ℕ → UInt8) : Written sb inum din blk off src 0 din blk :=
  ⟨hok, hinv, rfl, (max_eq_left hoff).symm, nofun, fun _ _ _ => rfl⟩

theorem Written.trans {din'' : Dinode} {blk'' : Blockno → Block} {off m : ℕ}
    (h : Written sb inum din blk off src n din' blk')
    (h' : Written sb inum din' blk' (off + n) (fun j => src (n + j)) m din'' blk'') :
    Written sb inum din blk off src (n + m) din'' blk'' := by
  have hsize := h.size
  have hsize' := h'.size
  refine ⟨h'.ok, h'.inv, h'.type.trans h.type, by omega, fun j hj => ?_, fun j hj hout => ?_⟩
  · by_cases hjn : j < n
    · rw [h'.kept _ (by omega) (by omega)]
      exact h.bytes j hjn
    · obtain ⟨i, rfl⟩ := Nat.exists_eq_add_of_le (not_lt.mp hjn)
      rw [← Nat.add_assoc]
      exact h'.bytes i (by omega)
  · rw [h'.kept j (by omega) (by omega)]
    exact h.kept j hj (by omega)

/-- What is expected of a call: `j` bytes have been written, and 0, `n` or -1 says whether that is all
of them. -/
structure FileWritten.Exact (sb : Superblock) (inum : ℕ) (f : OpenInode) (addr : ℕ → UInt8) (n : ℤ)
    (w : FileWritten) (r : ℤ) : Prop where
  returned : r = n ∨ r = -1
  advanced : ∃ j : ℕ, w.file.off = (f.off + j) % 2 ^ 32 ∧ (r = n → 0 ≤ n → (j : ℤ) = n) ∧
    (j = 0 ∨ (j : ℤ) ≤ n) ∧
    (f.din.type ≠ T_DEV →
      Written sb inum f.din f.block f.off addr j w.file.din w.file.block)

/-- The outcome of a call. -/
structure FileWritten.Fine (sb : Superblock) (inum : ℕ) (f : OpenInode) (addr : ℕ → UInt8) (n : ℤ)
    (w : FileWritten) : Prop where
  ops : ∀ op ∈ w.ops, op.toFinset.card ≤ MAXOPBLOCKS
  ok : ∀ r, w.res = .ok r → w.Exact sb inum f addr n r
  panic : ∀ msg, w.res = .error msg →
    msg = "balloc: out of blocks" ∨ f.din.type = T_DEV ∧ msg = "short filewrite"

variable {devsw : DevSwitch} {addr : ℕ → UInt8} {f f₀ : OpenInode} {ops : List (List Blockno)} {i : ℕ}

theorem ops_append (hops : ∀ op ∈ ops, op.toFinset.card ≤ MAXOPBLOCKS)
    (hl : l.toFinset.card ≤ MAXOPBLOCKS) :
    ∀ op ∈ ops ++ [l], op.toFinset.card ≤ MAXOPBLOCKS := by
  intro op hop
  rcases List.mem_append.mp hop with hop | hop
  · exact hops op hop
  · rwa [List.mem_singleton.mp hop]

/-- The offset does not wrap. -/
theorem Written.off_lt {off : ℕ} {src : ℕ → UInt8} (h : Written sb inum din blk off src n din' blk') :
    (off + n) % 2 ^ 32 = off + n := by
  have hsize := h.size
  have hmax := h.inv.size
  refine Nat.mod_eq_of_lt ?_
  simp only [MAXFILE, NDIRECT, NINDIRECT, BSIZE] at *
  omega

/-- The loop ends with all bytes written. -/
theorem FileWritten.fine_done (hW : Written sb inum f₀.din f₀.block f₀.off addr n f.din f.block)
    (hoff : f.off = f₀.off + n) (hops : ∀ op ∈ ops, op.toFinset.card ≤ MAXOPBLOCKS) :
    (⟨f, ops, .ok (if n = n then n else -1)⟩ : FileWritten).Fine sb inum f₀ addr n := by
  refine ⟨hops, fun r hr => ?_, nofun⟩
  rw [if_pos rfl] at hr
  obtain rfl := Except.ok.inj hr
  refine ⟨Or.inl rfl, n, ?_, fun _ _ => rfl, Or.inr le_rfl, fun _ => hW⟩
  rw [hW.off_lt, ← hoff]

/-- The loop on a file that is not a device. -/
theorem filewriteLoop_file (htype : f₀.din.type ≠ T_DEV)
    (hW : Written sb inum f₀.din f₀.block f₀.off addr i f.din f.block) (hoff : f.off = f₀.off + i)
    (hi : i ≤ n) (hk : n ≤ i + k) (hops : ∀ op ∈ ops, op.toFinset.card ≤ MAXOPBLOCKS) :
    (filewriteLoop sb devsw inum addr n k i f ops).Fine sb inum f₀ addr n := by
  induction k generalizing i f ops with
  | zero =>
    obtain rfl : i = n := le_antisymm hi hk
    exact FileWritten.fine_done hW hoff hops
  | succ k ih =>
    rw [filewriteLoop]
    by_cases hlt : i < n
    · rw [if_pos hlt]
      obtain ⟨n1, hn1⟩ : ∃ n1, n1 = min (n - i) maxWrite := ⟨_, rfl⟩
      have hmax : n1 ≤ maxWrite := by omega
      have hpos : 0 < n1 := by
        rw [hn1, maxWrite_eq]
        simp only [BSIZE]
        omega
      have hsize := hW.size
      have htype' : f.din.type ≠ T_DEV := by rwa [hW.type]
      have hround := writei_spec devsw (fun j => addr (i + j)) (s := ⟨f.block, []⟩)
        hW.ok hW.inv rfl htype' (show f.off ≤ f.din.size by omega) hmax hpos
      simp only [← hn1]
      rcases hround with hr | ⟨e, he, hmsg, hcard⟩ | ⟨din', s', hok, hcard, hW'⟩
      · -- the file would become too long
        simp only [hr]
        rw [if_pos (show (-1 : ℤ) < 0 by decide), if_neg (show ¬ (-1 : ℤ) > 0 by decide)]
        refine ⟨ops_append hops (Nat.zero_le _), fun r hr => ?_, nofun⟩
        obtain rfl := Except.ok.inj hr
        refine ⟨Or.inr rfl, i, ?_, fun h h' => by omega, Or.inr (by omega), fun _ => hW⟩
        rw [hW.off_lt]
        exact hoff
      · simp only [he]
        refine ⟨ops_append hops hcard, nofun, fun msg hm => Or.inl ?_⟩
        rw [← Except.error.inj hm]
        exact hmsg
      · simp only [hok]
        have hge : ¬ ((n1 : ℤ) < 0) := by omega
        have hgt : (n1 : ℤ) > 0 := by omega
        rw [if_neg hge, if_neg (not_not.mpr rfl), if_pos hgt, Int.toNat_natCast]
        rw [hoff] at hW'
        have hnext := hW.trans hW'
        refine ih hnext ?_ (by omega) (by omega) (ops_append hops hcard)
        show (f.off + n1) % 2 ^ 32 = _
        rw [hoff, Nat.add_assoc]
        exact hnext.off_lt
    · rw [if_neg hlt]
      obtain rfl : i = n := le_antisymm hi (not_lt.mp hlt)
      exact FileWritten.fine_done hW hoff hops

/-- A device: nothing is logged. -/
theorem filewriteLoop_dev (htype : f₀.din.type = T_DEV) (htype' : f.din.type = T_DEV)
    (hoff : f.off = (f₀.off + i) % 2 ^ 32) (hi : i ≤ n) (hk : n ≤ i + k)
    (hops : ∀ op ∈ ops, op.toFinset.card ≤ MAXOPBLOCKS) :
    (filewriteLoop sb devsw inum addr n k i f ops).Fine sb inum f₀ addr n := by
  have hdone : ∀ {f : OpenInode} {ops : List (List Blockno)}, f.off = (f₀.off + n) % 2 ^ 32 →
      (∀ op ∈ ops, op.toFinset.card ≤ MAXOPBLOCKS) →
      (⟨f, ops, .ok (if n = n then (n : ℤ) else -1)⟩ : FileWritten).Fine sb inum f₀ addr n := by
    intro f ops hoff hops
    refine ⟨hops, fun r hr => ?_, nofun⟩
    rw [if_pos rfl] at hr
    obtain rfl := Except.ok.inj hr
    exact ⟨Or.inl rfl, n, hoff, fun _ _ => rfl, Or.inr le_rfl, fun h => absurd htype h⟩
  induction k generalizing i f ops with
  | zero =>
    obtain rfl : i = n := le_antisymm hi hk
    exact hdone hoff hops
  | succ k ih =>
    rw [filewriteLoop]
    by_cases hlt : i < n
    · rw [if_pos hlt]
      obtain ⟨n1, hn1⟩ : ∃ n1, n1 = min (n - i) maxWrite := ⟨_, rfl⟩
      -- `writei` calls the device and leaves the inode and the log alone
      have hround : ∃ r, writei sb devsw inum (fun j => addr (i + j)) f.off n1 f.din ⟨f.block, []⟩ =
          .ok (r, f.din, ⟨f.block, []⟩) := by
        unfold writei
        rw [if_pos htype']
        split_ifs
        · exact ⟨-1, rfl⟩
        · cases devsw f.din.major with
          | none => exact ⟨-1, rfl⟩
          | some write => exact ⟨_, rfl⟩
      obtain ⟨r, hr⟩ := hround
      simp only [← hn1, hr]
      have hops' : ∀ op ∈ ops ++ [[]], op.toFinset.card ≤ MAXOPBLOCKS :=
        ops_append hops (Nat.zero_le _)
      by_cases hneg : r < 0
      · rw [if_pos hneg, if_neg (by omega)]
        refine ⟨hops', fun r hr => ?_, nofun⟩
        obtain rfl := Except.ok.inj hr
        exact ⟨Or.inr rfl, i, hoff, fun h h' => by omega, Or.inr (by omega),
          fun h => absurd htype h⟩
      rw [if_neg hneg]
      by_cases hshort : r ≠ n1
      · rw [if_pos hshort]
        exact ⟨hops', nofun, fun msg hm => Or.inr ⟨htype, (Except.error.inj hm).symm⟩⟩
      · have hpos : 0 < n1 := by
          rw [hn1, maxWrite_eq]
          simp only [BSIZE]
          omega
        rw [if_neg hshort]
        refine ih ?_ ?_ (by omega) (by omega) hops'
        · exact htype'
        · show (if r > 0 then (f.off + r.toNat) % 2 ^ 32 else f.off) = _
          rw [if_pos (by omega), hoff, Nat.mod_add_mod, Nat.add_assoc]
    · rw [if_neg hlt]
      obtain rfl : i = n := le_antisymm hi (not_lt.mp hlt)
      exact hdone hoff hops

/-- **`filewrite` respects the log budget**, whatever the size of the disk. -/
theorem filewrite_budget (hok : FileOk sb inum f.din f.block) (hinv : BlocksAsSize f.din f.block)
    (hoff : f.off ≤ f.din.size) (devsw : DevSwitch) (writable : Bool) (addr : ℕ → UInt8) (n : ℤ) :
    (filewrite sb devsw inum writable addr n f).Fine sb inum f addr n := by
  have hstart := Written.refl hok hinv hoff addr
  have hoff0 : f.off = (f.off + 0) % 2 ^ 32 := hstart.off_lt.symm
  -- a call that is refused
  have hrefused : (n < 0 ∨ writable = false) →
      (⟨f, [], .ok (-1)⟩ : FileWritten).Fine sb inum f addr n := by
    intro h
    refine ⟨nofun, fun r hr => ?_, nofun⟩
    obtain rfl := Except.ok.inj hr
    exact ⟨Or.inr rfl, 0, hoff0, fun h h' => by omega, Or.inl rfl, fun _ => hstart⟩
  unfold filewrite
  by_cases hw : writable = false
  · rw [if_pos hw]
    exact hrefused (Or.inr hw)
  rw [if_neg hw]
  by_cases hneg : n < 0
  · rw [if_pos hneg]
    exact hrefused (Or.inl hneg)
  rw [if_neg hneg]
  obtain ⟨k, rfl⟩ := Int.eq_ofNat_of_zero_le (not_lt.mp hneg)
  by_cases htype : f.din.type = T_DEV
  · exact filewriteLoop_dev htype htype hoff0 (Nat.zero_le _) (by simp) nofun
  · exact filewriteLoop_file htype hstart rfl (Nat.zero_le _) (by simp) nofun

/-- An empty file in an image as `mkfs` makes it. -/
def emptyFile : OpenInode where
  din := ⟨T_FILE, 0, 0, 1, 0, fun _ => 0⟩
  off := 0
  block := Function.update (fun _ => 0) 58 fun j => if j < 7 then 255 else if j = 7 then 7 else 0

theorem emptyFile_addr (bn : ℕ) : emptyFile.din.addr emptyFile.block bn = 0 := by
  unfold Dinode.addr
  split_ifs with h1 h2
  · rfl
  · rfl
  · exact absurd rfl h2

theorem fileOk_emptyFile : FileOk mkfsSuperblock 1 emptyFile.din emptyFile.block := by
  have hplace : ∀ u a, place mkfsSuperblock 1 emptyFile.din emptyFile.block u = some a →
      u = .boot ∧ a = 0 ∨ u = .bitmap 0 ∧ a = 58 ∨ u = .inode ∧ a = 32 := by
    intro u a hu
    cases u with
    | boot => exact Or.inl ⟨rfl, (Option.some.inj hu).symm⟩
    | inode => exact Or.inr (Or.inr ⟨rfl, (Option.some.inj hu).symm⟩)
    | indirect => cases hu
    | data bn =>
      simp only [place, emptyFile_addr, ne_eq, not_true_eq_false, and_false, if_false] at hu
      cases hu
    | bitmap k =>
      simp only [place] at hu
      split_ifs at hu with hk
      have hk0 : k = 0 := by
        simp only [mkfsSuperblock, FSSIZE, BPB, BSIZE] at hk
        omega
      subst hk0
      exact Or.inr (Or.inl ⟨rfl, (Option.some.inj hu).symm⟩)
  refine ⟨by decide, fun u a hu _ => ?_, fun u v a hu hv => ?_⟩
  · rcases hplace u a hu with ⟨-, rfl⟩ | ⟨-, rfl⟩ | ⟨-, rfl⟩ <;> decide
  · rcases hplace u a hu with ⟨rfl, rfl⟩ | ⟨rfl, rfl⟩ | ⟨rfl, rfl⟩ <;>
      rcases hplace v _ hv with ⟨rfl, h⟩ | ⟨rfl, h⟩ | ⟨rfl, h⟩ <;> first | rfl | cases h

/-- 1000 bytes into an empty file. -/
theorem filewrite_budget_empty :
    (filewrite mkfsSuperblock (fun _ => none) 1 true (fun _ => 97) 1000 emptyFile).Fine
      mkfsSuperblock 1 emptyFile (fun _ => 97) 1000 := by
  refine filewrite_budget fileOk_emptyFile ⟨Nat.zero_le _, fun bn hbn => ?_⟩ le_rfl _ _ _ _
  exact iff_of_false (not_not.mpr (emptyFile_addr bn)) (Nat.not_lt_zero _)

end OsSemester.Xv6
