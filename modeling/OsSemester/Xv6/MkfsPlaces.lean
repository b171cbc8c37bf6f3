import OsSemester.Lib.Bump
import OsSemester.Xv6.Mkfs

/-!
# The blocks of the files while they are written (`mkfs.c`)

A block of a file, or its indirect block, is a place; `Placed` says which places have a block, that the
blocks were given out one after the other, and what is in them.  It is kept by each of the things that
a round of `iappend` does: taking a direct block, an indirect block or an entry of one, and writing
to a block of the file.
-/

namespace OsSemester.Xv6.Mkfs

/-- The places for block numbers in the inodes and the indirect blocks. -/
inductive Slot
  | indirect (k : ℕ)
  | data (k bn : ℕ)
  deriving DecidableEq

/-- A block number, when it is one. -/
def nonzero (a : ℕ) : Option ℕ := if a = 0 then none else some a

theorem nonzero_eq_some {a b : ℕ} : nonzero a = some b ↔ a ≠ 0 ∧ a = b := by
  unfold nonzero
  split_ifs with h
  · simp [h]
  · simp [h]

theorem nonzero_of_ne {a : ℕ} (h : a ≠ 0) : nonzero a = some a := if_neg h

/-- The block at a place, for the inodes `tab`. -/
def place (tab : ℕ → Dinode) (img : Blockno → Block) : Slot → Option ℕ
  | .indirect k => nonzero (tab k).indirect
  | .data k bn => if bn < MAXFILE then nonzero ((tab k).addr img bn) else none

theorem place_data {tab : ℕ → Dinode} {img : Blockno → Block} {k bn a : ℕ} :
    place tab img (.data k bn) = some a ↔ bn < MAXFILE ∧ (tab k).addr img bn ≠ 0 ∧ (tab k).addr img bn = a := by
  rw [place]
  split_ifs with h
  · rw [nonzero_eq_some, and_iff_right h]
  · exact ⟨nofun, fun h1 => absurd h1.1 h⟩

/-- The state of the files: how many blocks each has, whether it has an indirect block, and the bytes
in its blocks. -/
structure Placed (s : State) (tab : ℕ → Dinode) (cnt : ℕ → ℕ) (ind : ℕ → Bool) (data : ℕ → ℕ → UInt8) :
    Prop where
  bump : Bump nmeta s.freeblock (place tab s.img)
  le : nmeta ≤ s.freeblock
  le_size : s.freeblock ≤ FSSIZE
  alloc : ∀ k bn, bn < MAXFILE → ((tab k).addr s.img bn ≠ 0 ↔ bn < cnt k)
  indirect : ∀ k, (tab k).indirect ≠ 0 ↔ ind k = true
  cnt_le : ∀ k, cnt k ≤ MAXFILE
  bytes : ∀ k bn j, bn < cnt k → j < BSIZE →
    (s.img ((tab k).addr s.img bn)).get j = data k (bn * BSIZE + j)
  /-- The blocks that have not been given out. -/
  blank : ∀ b, s.freeblock ≤ b → s.img b = 0
  beyond : ∀ k off, cnt k * BSIZE ≤ off → data k off = 0

variable {s : State} {tab : ℕ → Dinode} {cnt : ℕ → ℕ} {ind : ℕ → Bool} {data data' : ℕ → ℕ → UInt8}
  {k k' bn bn' a b off : ℕ} {buf : Block} {img : Blockno → Block}

theorem addr_update {din : Dinode} (h : din.indirect ≠ 0 → din.indirect ≠ a) :
    din.addr (Function.update img a buf) bn = din.addr img bn := by
  unfold Dinode.addr
  split_ifs with h1 h2
  · rfl
  · rfl
  · rw [Function.update_of_ne (h h2)]

theorem word_zero (i : ℕ) : Block.word 0 i = 0 := Bytes.field_zero _ _

theorem get_zero (j : ℕ) : (0 : Block).get j = 0 := by
  unfold Bytes.get
  split_ifs <;> rfl

namespace Placed

variable (hp : Placed s tab cnt ind data)

include hp in
theorem place_data (hbn : bn < cnt k) :
    place tab s.img (.data k bn) = some ((tab k).addr s.img bn) := by
  have hlt : bn < MAXFILE := hbn.trans_le (hp.cnt_le k)
  exact Mkfs.place_data.mpr ⟨hlt, (hp.alloc k bn hlt).mpr hbn, rfl⟩

include hp in
theorem place_indirect (hk : ind k = true) : place tab s.img (.indirect k) = some (tab k).indirect :=
  nonzero_of_ne ((hp.indirect k).mpr hk)

include hp in
/-- An indirect block is no block of a file. -/
theorem indirect_ne_data (hbn : bn < cnt k) (hk : (tab k').indirect ≠ 0) :
    (tab k').indirect ≠ (tab k).addr s.img bn := by
  intro h
  have h1 := hp.place_indirect ((hp.indirect k').mp hk)
  rw [h] at h1
  exact Slot.noConfusion (hp.bump.inj _ _ _ h1 (hp.place_data hbn))

include hp in
theorem data_inj (hbn : bn < cnt k) (hbn' : bn' < cnt k')
    (h : (tab k).addr s.img bn = (tab k').addr s.img bn') : k = k' ∧ bn = bn' := by
  have h1 := hp.bump.inj _ _ _ (h ▸ hp.place_data hbn) (hp.place_data hbn')
  cases h1
  exact ⟨rfl, rfl⟩

include hp in
theorem indirect_inj (hk : (tab k).indirect ≠ 0) (h : (tab k').indirect = (tab k).indirect) : k' = k := by
  have h1 := hp.place_indirect ((hp.indirect k).mp hk)
  have h2 := hp.place_indirect ((hp.indirect k').mp (h.symm ▸ hk))
  rw [h] at h2
  exact Slot.indirect.inj (hp.bump.inj _ _ _ h2 h1)

include hp in
theorem data_bounds (hbn : bn < cnt k) :
    nmeta ≤ (tab k).addr s.img bn ∧ (tab k).addr s.img bn < s.freeblock :=
  hp.bump.mem _ _ (hp.place_data hbn)

include hp in
theorem indirect_bounds (hk : (tab k).indirect ≠ 0) :
    nmeta ≤ (tab k).indirect ∧ (tab k).indirect < s.freeblock :=
  hp.bump.mem _ _ (hp.place_indirect ((hp.indirect k).mp hk))

include hp in
/-- A file with more than `NDIRECT` blocks has an indirect block. -/
theorem indirect_of_lt (hk : NDIRECT < cnt k) : (tab k).indirect ≠ 0 := by
  intro h0
  have h1 := (hp.alloc k NDIRECT (hk.trans_le (hp.cnt_le k))).mpr hk
  exact h1 (Dinode.addr_of_indirect_zero le_rfl h0)

include hp in
/-- Bytes of a file are written. -/
theorem write (hbn : bn < cnt k) (hbuf : ∀ j, j < BSIZE → buf.get j = data' k (bn * BSIZE + j))
    (hother : ∀ k' off, (k' = k → off / BSIZE ≠ bn) → data' k' off = data k' off) :
    Placed (s.wsect ((tab k).addr s.img bn) buf) tab cnt ind data' := by
  set x := (tab k).addr s.img bn with hx
  have hlt := (hp.data_bounds hbn).2
  have haddr : ∀ k' bn', (tab k').addr (Function.update s.img x buf) bn' = (tab k').addr s.img bn' :=
    fun k' bn' => addr_update fun h => hp.indirect_ne_data hbn h
  have hplace : place tab (Function.update s.img x buf) = place tab s.img := by
    funext u
    cases u with
    | indirect k' => rfl
    | data k' bn' => rw [place, place, haddr]
  refine ⟨?_, hp.le, hp.le_size, ?_, hp.indirect, hp.cnt_le, ?_, ?_, ?_⟩
  · show Bump nmeta s.freeblock (place tab (Function.update s.img x buf))
    rw [hplace]
    exact hp.bump
  · intro k' bn' h
    show (tab k').addr (Function.update s.img x buf) bn' ≠ 0 ↔ _
    rw [haddr]
    exact hp.alloc k' bn' h
  · intro k' bn' j hbn' hj
    show (Function.update s.img x buf ((tab k').addr (Function.update s.img x buf) bn')).get j = _
    rw [haddr]
    by_cases he : k' = k ∧ bn' = bn
    · rw [he.1, he.2, Function.update_self, hbuf j hj]
    · rw [Function.update_of_ne fun h => he (hp.data_inj hbn' hbn h), hp.bytes k' bn' j hbn' hj,
        hother]
      intro hk hdiv
      refine he ⟨hk, ?_⟩
      rw [← hdiv]
      simp only [BSIZE] at hj ⊢
      omega
  · intro b hb
    show Function.update s.img x buf b = 0
    rw [Function.update_of_ne (Nat.ne_of_gt (hlt.trans_le hb)), hp.blank b hb]
  · intro k' off hoff
    rw [hother k' off, hp.beyond k' off hoff]
    rintro rfl hdiv
    simp only [BSIZE] at hoff hdiv
    omega

include hp in
/-- The next block becomes an indirect block. -/
theorem takeIndirect (hk : ind k = false) (hlt : s.freeblock < FSSIZE) :
    Placed s.bump (Function.update tab k ((tab k).setAddr NDIRECT s.freeblock)) cnt
      (Function.update ind k true) data := by
  set din := (tab k).setAddr NDIRECT s.freeblock with hdin
  have hle := hp.le
  have h0 : s.freeblock ≠ 0 := Nat.ne_of_gt (Nat.lt_of_lt_of_le (by decide) hle)
  have hzero : (tab k).indirect = 0 := by
    by_contra h
    rw [(hp.indirect k).mp h] at hk
    exact Bool.noConfusion hk
  have hind : din.indirect = s.freeblock := by rw [hdin, Dinode.indirect_setAddr le_rfl, if_pos rfl]
  have hdirect : ∀ bn, bn < NDIRECT → din.direct bn = (tab k).direct bn := by
    intro bn hbn
    rw [hdin, Dinode.direct_setAddr le_rfl hbn, if_neg hbn.ne]
  -- the new indirect block lists no blocks yet
  have haddr : ∀ k' bn, (Function.update tab k din k').addr s.img bn = (tab k').addr s.img bn := by
    intro k' bn
    by_cases hk' : k' = k
    · rw [hk', Function.update_self]
      by_cases hbn : bn < NDIRECT
      · rw [Dinode.addr_of_lt hbn, Dinode.addr_of_lt hbn, hdirect bn hbn]
      · have hge := Nat.not_lt.mp hbn
        rw [Dinode.addr_of_indirect_zero hge hzero, Dinode.addr_of_indirect hge (hind ▸ h0), hind,
          hp.blank _ le_rfl, word_zero]
    · rw [Function.update_of_ne hk']
  have hplace : place (Function.update tab k din) s.img =
      Function.update (place tab s.img) (.indirect k) (some s.freeblock) := by
    funext u
    cases u with
    | indirect k' =>
      by_cases hk' : k' = k
      · rw [hk', Function.update_self, place, Function.update_self, hind, nonzero_of_ne h0]
      · rw [Function.update_of_ne fun h => hk' (Slot.indirect.inj h), place, Function.update_of_ne hk', place]
    | data k' bn =>
      have hne : Slot.data k' bn ≠ Slot.indirect k := nofun
      rw [Function.update_of_ne hne, place, place, haddr]
  refine ⟨?_, hle.trans (Nat.le_succ _), hlt, ?_, ?_, hp.cnt_le, ?_, ?_, hp.beyond⟩
  · show Bump nmeta (s.freeblock + 1) (place (Function.update tab k din) s.img)
    rw [hplace]
    apply hp.bump.take hle
    rw [place, hzero]
    rfl
  · intro k' bn hbn
    show (Function.update tab k din k').addr s.img bn ≠ 0 ↔ _
    rw [haddr]
    exact hp.alloc k' bn hbn
  · intro k'
    by_cases hk' : k' = k
    · rw [hk', Function.update_self, Function.update_self, hind]
      exact iff_of_true h0 rfl
    · rw [Function.update_of_ne hk', Function.update_of_ne hk']
      exact hp.indirect k'
  · intro k' bn j hbn hj
    show (s.img ((Function.update tab k din k').addr s.img bn)).get j = _
    rw [haddr]
    exact hp.bytes k' bn j hbn hj
  · exact fun b hb => hp.blank b (Nat.le_of_succ_le hb)

include hp in
/-- What is true when the next block has become block `bn` of the file. -/
theorem extend {img : Blockno → Block} {tab' : ℕ → Dinode} (hbn : cnt k = bn) (hmax : bn < MAXFILE)
    (hlt : s.freeblock < FSSIZE) (hind : ∀ k', (tab' k').indirect = (tab k').indirect)
    (haddr : ∀ k' bn', bn' < MAXFILE →
      (tab' k').addr img bn' = if k' = k ∧ bn' = bn then s.freeblock else (tab k').addr s.img bn')
    (himg : ∀ b, (∀ k', (tab k').indirect ≠ 0 → (tab k').indirect ≠ b) → img b = s.img b) :
    Placed ⟨img, s.freeinode, s.freeblock + 1⟩ tab' (Function.update cnt k (bn + 1)) ind data := by
  have hle := hp.le
  have h0 : s.freeblock ≠ 0 := Nat.ne_of_gt (Nat.lt_of_lt_of_le (by decide) hle)
  have hplace : place tab' img = Function.update (place tab s.img) (.data k bn) (some s.freeblock) := by
    funext u
    cases u with
    | indirect k' =>
      have hne : Slot.indirect k' ≠ Slot.data k bn := nofun
      rw [Function.update_of_ne hne, place, place, hind]
    | data k' bn' =>
      by_cases he : k' = k ∧ bn' = bn
      · obtain ⟨rfl, rfl⟩ := he
        rw [Function.update_self, place, if_pos hmax, haddr _ _ hmax, if_pos ⟨rfl, rfl⟩, nonzero_of_ne h0]
      · rw [Function.update_of_ne (fun h => he (by cases h; exact ⟨rfl, rfl⟩)), place, place]
        by_cases hbn' : bn' < MAXFILE
        · rw [if_pos hbn', if_pos hbn', haddr _ _ hbn', if_neg he]
        · rw [if_neg hbn', if_neg hbn']
  have hcnt : ∀ k' bn', bn' < Function.update cnt k (bn + 1) k' ↔ k' = k ∧ bn' = bn ∨ bn' < cnt k' := by
    intro k' bn'
    by_cases hk : k' = k
    · rw [hk, Function.update_self, hbn]
      omega
    · rw [Function.update_of_ne hk]
      simp [hk]
  -- the new block is no indirect block
  have hnew : ∀ k', (tab k').indirect ≠ 0 → (tab k').indirect ≠ s.freeblock := fun k' h =>
    (hp.indirect_bounds h).2.ne
  refine ⟨?_, hle.trans (Nat.le_succ _), hlt, ?_, ?_, ?_, ?_, ?_, ?_⟩
  · show Bump nmeta (s.freeblock + 1) (place tab' img)
    rw [hplace]
    apply hp.bump.take hle
    have h1 : (tab k).addr s.img bn = 0 := by
      by_contra h
      exact absurd ((hp.alloc k bn hmax).mp h) (by omega)
    rw [place, if_pos hmax, h1]
    rfl
  · intro k' bn' hbn'
    show (tab' k').addr img bn' ≠ 0 ↔ _
    rw [haddr k' bn' hbn', hcnt]
    split_ifs with he
    · exact iff_of_true h0 (.inl he)
    · rw [hp.alloc k' bn' hbn', or_iff_right he]
  · intro k'
    rw [hind]
    exact hp.indirect k'
  · intro k'
    by_cases hk : k' = k
    · rw [hk, Function.update_self]
      exact hmax
    · rw [Function.update_of_ne hk]
      exact hp.cnt_le k'
  · intro k' bn' j hbn' hj
    show (img ((tab' k').addr img bn')).get j = _
    obtain ⟨rfl, rfl⟩ | h := (hcnt k' bn').mp hbn'
    · rw [haddr _ _ hmax, if_pos ⟨rfl, rfl⟩, himg _ hnew, hp.blank _ le_rfl, get_zero, hp.beyond]
      rw [hbn]
      exact Nat.le_add_right _ _
    · have he : ¬ (k' = k ∧ bn' = bn) := by
        rintro ⟨rfl, rfl⟩
        omega
      rw [haddr _ _ (h.trans_le (hp.cnt_le k')), if_neg he, himg _ fun k'' hk'' => hp.indirect_ne_data h hk'']
      exact hp.bytes k' bn' j h hj
  · intro b hb
    show img b = 0
    have hb' : s.freeblock ≤ b := Nat.le_of_succ_le hb
    rw [himg b fun k' hk' => ((hp.indirect_bounds hk').2.trans_le hb').ne, hp.blank b hb']
  · intro k' off hoff
    apply hp.beyond
    by_cases hk : k' = k
    · rw [hk, Function.update_self] at hoff
      rw [hk, hbn]
      exact (Nat.mul_le_mul_right _ (Nat.le_succ bn)).trans hoff
    · rwa [Function.update_of_ne hk] at hoff

include hp in
/-- The next block becomes a block that the inode lists. -/
theorem takeDirect (hbn : cnt k = bn) (hdir : bn < NDIRECT) (hlt : s.freeblock < FSSIZE) :
    Placed s.bump (Function.update tab k ((tab k).setAddr bn s.freeblock)) (Function.update cnt k (bn + 1))
      ind data := by
  have hmax : bn < MAXFILE := hdir.trans (by decide)
  have hind : ∀ k', (Function.update tab k ((tab k).setAddr bn s.freeblock) k').indirect =
      (tab k').indirect := by
    intro k'
    by_cases hk : k' = k
    · rw [hk, Function.update_self, Dinode.indirect_setAddr hdir.le, if_neg hdir.ne]
    · rw [Function.update_of_ne hk]
  refine hp.extend hbn hmax hlt hind (fun k' bn' _ => ?_) fun b _ => rfl
  by_cases hk : k' = k
  · rw [hk, Function.update_self]
    by_cases hbn' : bn' < NDIRECT
    · rw [Dinode.addr_of_lt hbn', Dinode.addr_of_lt hbn', Dinode.direct_setAddr hdir.le hbn']
      simp only [true_and]
    · have hne : ¬ (k = k ∧ bn' = bn) := fun h => hbn' (h.2 ▸ hdir)
      have hind' : ((tab k).setAddr bn s.freeblock).indirect = (tab k).indirect := by
        rw [Dinode.indirect_setAddr hdir.le, if_neg hdir.ne]
      rw [if_neg hne, Dinode.addr, Dinode.addr, if_neg hbn', if_neg hbn', hind']
  · rw [Function.update_of_ne hk, if_neg fun h => hk h.1]

include hp in
/-- The next block becomes a block that the indirect block lists. -/
theorem takeEntry (hbn : cnt k = bn) (hge : NDIRECT ≤ bn) (hmax : bn < MAXFILE) (hk : (tab k).indirect ≠ 0)
    (hlt : s.freeblock < FSSIZE) :
    Placed (s.bump.wsect (tab k).indirect
      ((s.img (tab k).indirect).setWord (bn - NDIRECT) s.freeblock)) tab
      (Function.update cnt k (bn + 1)) ind data := by
  refine hp.extend hbn hmax hlt (fun _ => rfl) (fun k' bn' hbn' => ?_) fun b hb =>
    Function.update_of_ne (hb k hk).symm ..
  show (tab k').addr (Function.update s.img (tab k).indirect _) bn' = _
  by_cases hk' : k' = k
  · rw [hk']
    by_cases hdir : bn' < NDIRECT
    · have hne : ¬ (k = k ∧ bn' = bn) := fun h => absurd hge (Nat.not_le.mpr (h.2 ▸ hdir))
      rw [if_neg hne, Dinode.addr_of_lt hdir, Dinode.addr_of_lt hdir]
    · have hge' := Nat.not_lt.mp hdir
      have hN : bn - NDIRECT < BSIZE / 4 ∧ bn' - NDIRECT < BSIZE / 4 := by
        simp only [MAXFILE, NDIRECT, NINDIRECT, BSIZE] at *
        omega
      rw [Dinode.addr_of_indirect hge' hk, Dinode.addr_of_indirect hge' hk, Function.update_self]
      by_cases he : bn' = bn
      · have hfit : s.freeblock < 2 ^ 32 := hlt.trans (by decide)
        rw [if_pos ⟨rfl, he⟩, he, Block.word_setWord hN.1 hfit]
      · rw [if_neg fun h => he h.2]
        exact Block.word_setWord_of_ne (by omega) hN.2
  · rw [if_neg fun h => hk' h.1]
    exact addr_update fun _ h => hk' (hp.indirect_inj hk h)

include hp in
/-- Only the blocks for the files matter. -/
theorem congr_img {s' : State} (hfree : s'.freeblock = s.freeblock) (himg : ∀ b, nmeta ≤ b → s'.img b = s.img b) :
    Placed s' tab cnt ind data := by
  have haddr : ∀ k bn, (tab k).addr s'.img bn = (tab k).addr s.img bn := by
    intro k bn
    unfold Dinode.addr
    split_ifs with h1 h2
    · rfl
    · rfl
    · rw [himg _ (hp.indirect_bounds h2).1]
  have hplace : place tab s'.img = place tab s.img := by
    funext u
    cases u with
    | indirect k => rfl
    | data k bn => rw [place, place, haddr]
  refine ⟨?_, hfree ▸ hp.le, hfree ▸ hp.le_size, ?_, hp.indirect, hp.cnt_le, ?_, ?_, hp.beyond⟩
  · rw [hfree, hplace]
    exact hp.bump
  · intro k bn h
    rw [haddr]
    exact hp.alloc k bn h
  · intro k bn j hbn hj
    rw [haddr, himg _ (hp.data_bounds hbn).1]
    exact hp.bytes k bn j hbn hj
  · intro b hb
    rw [hfree] at hb
    rw [himg b (hp.le.trans hb), hp.blank b hb]

include hp in
/-- The addresses that an inode lists are block numbers of the image. -/
theorem addrs_lt (i : Fin (NDIRECT + 1)) : (tab k).addrs i < 2 ^ 32 := by
  have hsize : s.freeblock < 2 ^ 32 := hp.le_size.trans_lt (by decide)
  by_cases h0 : (tab k).addrs i = 0
  · rw [h0]
    decide
  · obtain hi | hi := Nat.lt_or_ge (i : ℕ) NDIRECT
    · have hdir : (tab k).direct i = (tab k).addrs i := congrArg (tab k).addrs (Fin.ofNat_val_eq_self i)
      have hmax : (i : ℕ) < MAXFILE := hi.trans (by decide)
      have haddr : (tab k).addr s.img i = (tab k).addrs i := (Dinode.addr_of_lt hi).trans hdir
      have h1 := hp.data_bounds ((hp.alloc k i hmax).mp (haddr ▸ h0))
      rw [haddr] at h1
      exact h1.2.trans hsize
    · have hi' : i = Fin.ofNat (NDIRECT + 1) NDIRECT := by
        have := i.isLt
        rw [Fin.ext_iff, Fin.val_ofNat]
        simp only [NDIRECT] at *
        omega
      have h1 := hp.indirect_bounds (k := k) (by rwa [hi'] at h0)
      rw [hi']
      exact h1.2.trans hsize

end Placed

end OsSemester.Xv6.Mkfs
