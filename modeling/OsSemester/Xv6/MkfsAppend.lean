import OsSemester.Xv6.MkfsPlaces

/-!
# Appending to a file (`mkfs.c`)

`iappend` continues a block that is not full and takes new blocks as it goes, the indirect block
included when it comes to the first block that the inode does not list.  `iappendLoop_spec` says that
for chunks of any size the blocks of the file are those that its size needs, with its bytes in them.
-/

namespace OsSemester.Xv6.Mkfs

/-- The blocks taken by a file of `c` blocks, the indirect block included. -/
def need (c : ℕ) : ℕ := c + if NDIRECT < c then 1 else 0

theorem need_mono {c c' : ℕ} (h : c ≤ c') : need c ≤ need c' := by
  unfold need
  split_ifs <;> omega

/-- The files that need an indirect block. -/
def large (cnt : ℕ → ℕ) (k : ℕ) : Bool := decide (NDIRECT < cnt k)

/-- Everything but the addresses is as before. -/
def Kept (din din' : Dinode) : Prop := din' = { din with addrs := din'.addrs }

theorem kept_refl (din : Dinode) : Kept din din := rfl

theorem kept_setAddr (din : Dinode) (i a : ℕ) : Kept din (din.setAddr i a) := rfl

theorem Kept.trans {d1 d2 d3 : Dinode} (h : Kept d1 d2) (h' : Kept d2 d3) : Kept d1 d3 := by
  rw [Kept] at *
  rw [h', h]

/-- What a step of `iappend` does not touch. -/
structure Frame (s s' : State) : Prop where
  freeinode : s'.freeinode = s.freeinode
  img : ∀ b, b < nmeta → s'.img b = s.img b

theorem Frame.trans {s1 s2 s3 : State} (h : Frame s1 s2) (h' : Frame s2 s3) : Frame s1 s3 where
  freeinode := h'.freeinode.trans h.freeinode
  img b hb := (h'.img b hb).trans (h.img b hb)

theorem frame_bump (s : State) : Frame s s.bump := ⟨rfl, fun _ _ => rfl⟩

theorem frame_wsect {s : State} {x : ℕ} {buf : Block} (hx : nmeta ≤ x) : Frame s (s.wsect x buf) :=
  ⟨rfl, fun _ hb => Function.update_of_ne (Nat.ne_of_lt (hb.trans_le hx)) ..⟩

variable {s : State} {tab : ℕ → Dinode} {cnt : ℕ → ℕ} {ind : ℕ → Bool} {data : ℕ → ℕ → UInt8}
  {k bn x : ℕ} {p pre : List UInt8}

theorem rsect_eq (hx : x < FSSIZE) : s.rsect x = some (s.img x) := if_pos hx

theorem indirectEntry_eq {din : Dinode} (hx : din.indirect < FSSIZE) :
    s.indirectEntry din bn =
      if (s.img din.indirect).word (bn - NDIRECT) = 0 then
        some (s.freeblock, din, s.bump.wsect din.indirect
          ((s.img din.indirect).setWord (bn - NDIRECT) s.freeblock))
      else some ((s.img din.indirect).word (bn - NDIRECT), din, s) := by
  rw [State.indirectEntry, rsect_eq hx]
  rfl

/-- What `fileBlock` returns for block `bn`: that block, which has been taken if there was none. -/
structure Fetched (s : State) (tab : ℕ → Dinode) (cnt : ℕ → ℕ) (data : ℕ → ℕ → UInt8) (k bn x : ℕ)
    (din' : Dinode) (s' : State) : Prop where
  placed : Placed s' (Function.update tab k din') (Function.update cnt k (max (cnt k) (bn + 1)))
    (large (Function.update cnt k (max (cnt k) (bn + 1)))) data
  addr : din'.addr s'.img bn = x
  kept : Kept (tab k) din'
  frame : Frame s s'
  taken : s'.freeblock + need (cnt k) = s.freeblock + need (max (cnt k) (bn + 1))

theorem max_eq_of_lt (h : bn < cnt k) : max (cnt k) (bn + 1) = cnt k := max_eq_left h

theorem max_eq_of_eq (h : cnt k = bn) : max (cnt k) (bn + 1) = bn + 1 := max_eq_right (by omega)

/-- The block is there. -/
theorem fetched_old (hp : Placed s tab cnt (large cnt) data) (hbn : bn < cnt k) :
    Fetched s tab cnt data k bn ((tab k).addr s.img bn) (tab k) s := by
  refine ⟨?_, rfl, kept_refl _, ⟨rfl, fun _ _ => rfl⟩, ?_⟩
  · rw [max_eq_of_lt hbn, Function.update_eq_self, Function.update_eq_self]
    exact hp
  · rw [max_eq_of_lt hbn]

theorem fileBlock_direct (hp : Placed s tab cnt (large cnt) data) (hbn : bn ≤ cnt k) (hdir : bn < NDIRECT)
    (hroom : s.freeblock + need (max (cnt k) (bn + 1)) ≤ FSSIZE + need (cnt k)) :
    ∃ x din' s', s.fileBlock (tab k) bn = some (x, din', s') ∧ Fetched s tab cnt data k bn x din' s' := by
  have hmax : bn < MAXFILE := hdir.trans (by decide)
  have haddr : (tab k).addr s.img bn = (tab k).direct bn := Dinode.addr_of_lt hdir
  rw [State.fileBlock, if_pos hdir]
  obtain hbn | hbn := hbn.eq_or_lt
  · have h0 : (tab k).direct bn = 0 := by
      by_contra h
      rw [← haddr] at h
      exact absurd ((hp.alloc k bn hmax).mp h) (by omega)
    have hneed : need (cnt k) = bn ∧ need (bn + 1) = bn + 1 := by
      rw [need, need, if_neg (by omega), if_neg (by omega)]
      omega
    rw [max_eq_of_eq hbn.symm] at hroom
    have hlarge : large (Function.update cnt k (bn + 1)) = large cnt := by
      funext k'
      by_cases hk : k' = k
      · rw [hk, large, large, Function.update_self, decide_eq_decide]
        omega
      · rw [large, large, Function.update_of_ne hk]
    rw [if_pos h0]
    refine ⟨_, _, _, rfl, ?_, ?_, kept_setAddr .., frame_bump s, ?_⟩
    · rw [max_eq_of_eq hbn.symm, hlarge]
      exact hp.takeDirect hbn.symm hdir (by omega)
    · rw [Dinode.addr_of_lt hdir, Dinode.direct_setAddr hdir.le hdir, if_pos rfl]
    · rw [max_eq_of_eq hbn.symm]
      show s.freeblock + 1 + need (cnt k) = _
      omega
  · have h0 : (tab k).direct bn ≠ 0 := haddr ▸ (hp.alloc k bn hmax).mpr hbn
    rw [if_neg h0]
    exact ⟨_, _, _, rfl, haddr ▸ fetched_old hp hbn⟩

theorem fileBlock_indirect (hp : Placed s tab cnt (large cnt) data) (hbn : bn ≤ cnt k) (hge : NDIRECT ≤ bn)
    (hmax : bn < MAXFILE)
    (hroom : s.freeblock + need (max (cnt k) (bn + 1)) ≤ FSSIZE + need (cnt k)) :
    ∃ x din' s', s.fileBlock (tab k) bn = some (x, din', s') ∧ Fetched s tab cnt data k bn x din' s' := by
  rw [State.fileBlock, if_neg (Nat.not_lt.mpr hge)]
  obtain hbn | hbn := hbn.eq_or_lt
  · rw [max_eq_of_eq hbn.symm] at hroom
    have hneed : need (bn + 1) = bn + 2 := by
      rw [need, if_pos (by omega)]
    -- with an indirect block, the next block becomes its entry
    suffices hentry : ∀ (s1 : State) (din1 : Dinode),
        s1.freeblock + 1 + need (cnt k) = s.freeblock + need (bn + 1) →
        Placed s1 (Function.update tab k din1) cnt (Function.update (large cnt) k true) data → Kept (tab k) din1 →
        Frame s s1 → din1.indirect ≠ 0 → ∃ x din' s', s1.indirectEntry din1 bn = some (x, din', s') ∧
          Fetched s tab cnt data k bn x din' s' by
      by_cases hind : (tab k).indirect = 0
      · rw [if_pos hind]
        have hfalse : large cnt k = false := by
          by_contra h
          exact (hp.indirect k).mpr (Bool.eq_true_of_not_eq_false h) hind
        have hle : cnt k ≤ NDIRECT := Nat.not_lt.mp (of_decide_eq_false hfalse)
        have hneed' : need (cnt k) = bn := by
          rw [need, if_neg (by omega)]
          omega
        have hnz : ((tab k).setAddr NDIRECT s.freeblock).indirect = s.freeblock := by
          rw [Dinode.indirect_setAddr le_rfl, if_pos rfl]
        apply hentry s.bump
        · show s.freeblock + 1 + 1 + need (cnt k) = _
          omega
        · exact hp.takeIndirect hfalse (by omega)
        · exact kept_setAddr ..
        · exact frame_bump s
        · rw [hnz]
          exact Nat.ne_of_gt (Nat.lt_of_lt_of_le (by decide) hp.le)
      · rw [if_neg hind]
        have htrue : large cnt k = true := (hp.indirect k).mp hind
        have hlt : NDIRECT < cnt k := of_decide_eq_true htrue
        have hneed' : need (cnt k) = bn + 1 := by
          rw [need, if_pos hlt]
          omega
        apply hentry s (tab k)
        · omega
        · rw [Function.update_eq_self, ← htrue, Function.update_eq_self]
          exact hp
        · exact kept_refl _
        · exact ⟨rfl, fun _ _ => rfl⟩
        · exact hind
    intro s1 din1 hfree hp1 hkept hframe hind
    have hself : Function.update tab k din1 k = din1 := Function.update_self ..
    have hind' : (Function.update tab k din1 k).indirect ≠ 0 := hself.symm ▸ hind
    have hbounds := hp1.indirect_bounds hind'
    rw [hself] at hbounds
    have hsize := hp1.le_size
    have hword : (s1.img din1.indirect).word (bn - NDIRECT) = 0 := by
      by_contra h
      have h1 := (hp1.alloc k bn hmax).mp
      rw [hself, Dinode.addr_of_indirect hge hind] at h1
      exact absurd (h1 h) (by omega)
    have hlarge : large (Function.update cnt k (bn + 1)) = Function.update (large cnt) k true := by
      funext k'
      by_cases hk : k' = k
      · rw [hk, Function.update_self, large, Function.update_self, decide_eq_true_eq]
        omega
      · rw [Function.update_of_ne hk, large, large, Function.update_of_ne hk]
    have hentry := hp1.takeEntry hbn.symm hge hmax hind' (by omega)
    rw [hself] at hentry
    rw [indirectEntry_eq (hbounds.2.trans_le hsize), if_pos hword]
    refine ⟨_, _, _, rfl, ?_, ?_, hkept, hframe.trans ((frame_bump s1).trans (frame_wsect hbounds.1)), ?_⟩
    · rw [max_eq_of_eq hbn.symm, hlarge]
      exact hentry
    · rw [Dinode.addr_of_indirect hge hind]
      show ((Function.update s1.img din1.indirect _) din1.indirect).word (bn - NDIRECT) = _
      have hN : bn - NDIRECT < BSIZE / 4 := by
        simp only [MAXFILE, NDIRECT, NINDIRECT, BSIZE] at *
        omega
      rw [Function.update_self, Block.word_setWord hN (hsize.trans_lt (by decide))]
    · rw [max_eq_of_eq hbn.symm]
      exact hfree
  · have hind := hp.indirect_of_lt (hge.trans_lt hbn)
    have haddr : (tab k).addr s.img bn = (s.img (tab k).indirect).word (bn - NDIRECT) :=
      Dinode.addr_of_indirect hge hind
    have hword : (s.img (tab k).indirect).word (bn - NDIRECT) ≠ 0 := haddr ▸ (hp.alloc k bn hmax).mpr hbn
    rw [if_neg hind, indirectEntry_eq ((hp.indirect_bounds hind).2.trans_le hp.le_size), if_neg hword]
    exact ⟨_, _, _, rfl, haddr ▸ fetched_old hp hbn⟩

theorem fileBlock_spec (hp : Placed s tab cnt (large cnt) data) (hbn : bn ≤ cnt k) (hmax : bn < MAXFILE)
    (hroom : s.freeblock + need (max (cnt k) (bn + 1)) ≤ FSSIZE + need (cnt k)) :
    ∃ x din' s', s.fileBlock (tab k) bn = some (x, din', s') ∧ Fetched s tab cnt data k bn x din' s' := by
  obtain hdir | hge := Nat.lt_or_ge bn NDIRECT
  · exact fileBlock_direct hp hbn hdir hroom
  · exact fileBlock_indirect hp hbn hge hmax hroom

/-! ### The loop -/

/-- The blocks of a file that is continued at `off` with `n` bytes of the block at `off`. -/
theorem blocksFor_add {off n : ℕ} (h0 : 0 < n) (hn : n ≤ (off / BSIZE + 1) * BSIZE - off) :
    max (blocksFor off) (off / BSIZE + 1) = blocksFor (off + n) := by
  unfold blocksFor
  simp only [BSIZE] at *
  omega

theorem le_blocksFor (off : ℕ) : off / BSIZE ≤ blocksFor off := by
  unfold blocksFor
  simp only [BSIZE]
  omega

theorem blocksFor_mono {m n : ℕ} (h : m ≤ n) : blocksFor m ≤ blocksFor n :=
  Nat.div_le_div_right (Nat.add_le_add_right h _)

/-- The block with more of the file in it. -/
theorem get_append {buf : Block} {j n : ℕ} (hbuf : buf.get j = pre.getD (pre.length / BSIZE * BSIZE + j) 0)
    (hj : j < BSIZE) (hn : n ≤ p.length) :
    (buf.move (pre.length - pre.length / BSIZE * BSIZE) (fun j => p.getD j 0) n).get j =
      (pre ++ p.take n).getD (pre.length / BSIZE * BSIZE + j) 0 := by
  have hle : pre.length / BSIZE * BSIZE ≤ pre.length := Nat.div_mul_le_self _ _
  rw [Bytes.get_move hj]
  set q := pre.length / BSIZE * BSIZE
  obtain hlt | hge := Nat.lt_or_ge (q + j) pre.length
  · rw [if_neg (by omega), hbuf, List.getD_append _ _ _ _ hlt]
  · rw [List.getD_append_right _ _ _ _ hge]
    by_cases hin : j < pre.length - q + n
    · rw [if_pos ⟨by omega, hin⟩, List.getD_eq_getElem?_getD, List.getD_eq_getElem?_getD,
        List.getElem?_take_of_lt (by omega)]
      congr 2
      omega
    · rw [if_neg (fun h => hin h.2), hbuf, List.getD_eq_default _ _ hge,
        List.getD_eq_default _ _ (by rw [List.length_take]; omega)]

/-- The bytes outside of the block are as before. -/
theorem getD_append_other {off n : ℕ} (hn : n ≤ (pre.length / BSIZE + 1) * BSIZE - pre.length)
    (hoff : off / BSIZE ≠ pre.length / BSIZE) : (pre ++ p.take n).getD off 0 = pre.getD off 0 := by
  obtain hlt | hge := Nat.lt_or_ge off pre.length
  · rw [List.getD_append _ _ _ _ hlt]
  · have hbehind : pre.length + n ≤ off := by
      simp only [BSIZE] at *
      omega
    rw [List.getD_append_right _ _ _ _ hge, List.getD_eq_default _ _ hge,
      List.getD_eq_default _ _ (by rw [List.length_take]; omega)]

/-- What is true when the bytes `p` have been appended to the file `k`, which had the bytes `pre`. -/
structure Appended (s : State) (tab : ℕ → Dinode) (cnt : ℕ → ℕ) (data : ℕ → ℕ → UInt8) (k : ℕ)
    (pre p : List UInt8) (din' : Dinode) (s' : State) : Prop where
  placed : Placed s' (Function.update tab k din') (Function.update cnt k (blocksFor (pre ++ p).length))
    (large (Function.update cnt k (blocksFor (pre ++ p).length)))
    (Function.update data k fun off => (pre ++ p).getD off 0)
  kept : Kept (tab k) din'
  frame : Frame s s'
  taken : s'.freeblock + need (cnt k) = s.freeblock + need (blocksFor (pre ++ p).length)

theorem appended_nil (hp : Placed s tab cnt (large cnt) data) (hcnt : cnt k = blocksFor pre.length)
    (hdata : ∀ off, data k off = pre.getD off 0) : Appended s tab cnt data k pre [] (tab k) s := by
  have hdata' : (fun off => pre.getD off 0) = data k := funext fun off => (hdata off).symm
  refine ⟨?_, kept_refl _, ⟨rfl, fun _ _ => rfl⟩, ?_⟩
  · rw [List.append_nil, ← hcnt, hdata', Function.update_eq_self, Function.update_eq_self,
      Function.update_eq_self]
    exact hp
  · rw [List.append_nil, ← hcnt]

/-- A round of `iappend` for the first `n` bytes of `p`, which fit into the block. -/
theorem appended_round {n : ℕ} (h0 : 0 < n) (hnp : n ≤ p.length)
    (hn : n ≤ (pre.length / BSIZE + 1) * BSIZE - pre.length) (hp : Placed s tab cnt (large cnt) data)
    (hcnt : cnt k = blocksFor pre.length) (hdata : ∀ off, data k off = pre.getD off 0)
    (hmax : pre.length < MAXFILE * BSIZE)
    (hroom : s.freeblock + need (blocksFor (pre.length + n)) ≤ FSSIZE + need (cnt k)) :
    ∃ x din' s', s.fileBlock (tab k) (pre.length / BSIZE) = some (x, din', s') ∧ x < FSSIZE ∧
      Appended s tab cnt data k pre (p.take n) din' (s'.wsect x
        ((s'.img x).move (pre.length - pre.length / BSIZE * BSIZE) (fun j => p.getD j 0) n)) := by
  set fbn := pre.length / BSIZE with hfbn
  have hblocks : max (cnt k) (fbn + 1) = blocksFor (pre.length + n) := by
    rw [hcnt]
    exact blocksFor_add h0 hn
  have hlen : (pre ++ p.take n).length = pre.length + n := by
    rw [List.length_append, List.length_take, min_eq_left hnp]
  obtain ⟨x, din', s', hrun, hf⟩ := fileBlock_spec hp (hcnt ▸ le_blocksFor _)
    (Nat.div_lt_of_lt_mul (Nat.mul_comm _ _ ▸ hmax)) (hblocks.symm ▸ hroom)
  rw [← hfbn] at hrun hf
  have hplaced := hf.placed
  have htaken := hf.taken
  rw [hblocks] at hplaced htaken
  have hself : Function.update tab k din' k = din' := Function.update_self ..
  have hbn : fbn < Function.update cnt k (blocksFor (pre.length + n)) k := by
    rw [Function.update_self, ← hblocks]
    exact Nat.lt_of_lt_of_le (Nat.lt_succ_self fbn) (Nat.le_max_right ..)
  have haddr : (Function.update tab k din' k).addr s'.img fbn = x := by
    rw [hself]
    exact hf.addr
  have hbounds := hplaced.data_bounds hbn
  rw [haddr] at hbounds
  refine ⟨x, din', s', hrun, hbounds.2.trans_le hplaced.le_size, ?_, hf.kept,
    hf.frame.trans (frame_wsect hbounds.1), ?_⟩
  · have hwrite := @Placed.write _ _ _ _ _ (Function.update data k fun off => (pre ++ p.take n).getD off 0) _ _
      ((s'.img x).move (pre.length - fbn * BSIZE) (fun j => p.getD j 0) n) hplaced hbn
      (fun j hj => by
        rw [Function.update_self]
        apply get_append _ hj hnp
        rw [← haddr, hplaced.bytes k fbn j hbn hj, hdata])
      (fun k' off hk' => by
        by_cases hk : k' = k
        · rw [hk, Function.update_self, hdata]
          exact getD_append_other hn (hk' hk)
        · rw [Function.update_of_ne hk])
    rw [haddr] at hwrite
    rw [hlen]
    exact hwrite
  · rw [hlen]
    exact htaken

theorem iappendLoop_spec {fuel : ℕ} (hfuel : p.length ≤ fuel) (hp : Placed s tab cnt (large cnt) data)
    (hcnt : cnt k = blocksFor pre.length) (hdata : ∀ off, data k off = pre.getD off 0)
    (hmax : (pre ++ p).length ≤ MAXFILE * BSIZE)
    (hroom : s.freeblock + need (blocksFor (pre ++ p).length) ≤ FSSIZE + need (cnt k)) :
    ∃ din' s', s.iappendLoop fuel (tab k) pre.length p = some (din', (pre ++ p).length, s') ∧
      Appended s tab cnt data k pre p din' s' := by
  induction fuel generalizing s tab cnt data pre p with
  | zero =>
    obtain rfl : p = [] := List.eq_nil_of_length_eq_zero (Nat.le_zero.mp hfuel)
    exact ⟨tab k, s, by rw [List.append_nil]; rfl, appended_nil hp hcnt hdata⟩
  | succ fuel ih =>
    by_cases hnil : p = []
    · subst hnil
      exact ⟨tab k, s, by rw [List.append_nil]; rfl, appended_nil hp hcnt hdata⟩
    · have hpos : 0 < p.length := List.length_pos_iff.mpr hnil
      rw [List.length_append] at hmax hroom
      set fbn := pre.length / BSIZE with hfbn
      set n := min p.length ((fbn + 1) * BSIZE - pre.length) with hn
      -- what fits into the block that the file ends in
      have hspace : 0 < (fbn + 1) * BSIZE - pre.length := by
        simp only [BSIZE] at *
        omega
      have h0 : 0 < n := lt_min hpos hspace
      have hnp : n ≤ p.length := min_le_left ..
      have hlen : (pre ++ p.take n).length = pre.length + n := by
        rw [List.length_append, List.length_take, min_eq_left hnp]
      have hmono : need (blocksFor (pre.length + n)) ≤ need (blocksFor (pre.length + p.length)) :=
        need_mono (blocksFor_mono (Nat.add_le_add_left hnp _))
      obtain ⟨x, din1, s1, hrun, hx, happ⟩ := appended_round h0 hnp (min_le_right ..) hp hcnt hdata
        (by omega) (by omega)
      -- the rest of the loop appends what is left to the longer file
      have happ_eq : pre ++ p.take n ++ p.drop n = pre ++ p := by
        rw [List.append_assoc, List.take_append_drop]
      have hself : Function.update tab k din1 k = din1 := Function.update_self ..
      have htaken := happ.taken
      rw [hlen] at htaken
      obtain ⟨din2, s2, hloop, happ'⟩ := @ih _ _ _ _ (p.drop n) (pre ++ p.take n)
        (by rw [List.length_drop]; omega) happ.placed (Function.update_self ..)
        (fun off => by rw [Function.update_self])
        (by rw [happ_eq, List.length_append]; exact hmax)
        (by rw [happ_eq, List.length_append, Function.update_self, hlen]; omega)
      rw [happ_eq, hself, hlen] at hloop
      refine ⟨din2, s2, ?_, ?_, ?_, ?_, ?_⟩
      · rw [State.iappendLoop, if_pos hpos]
        show (if fbn < MAXFILE then _ else _) = _
        rw [if_pos (Nat.div_lt_of_lt_mul (by rw [Nat.mul_comm]; omega)), hrun]
        show ((s1.rsect x).bind fun buf => _) = _
        rw [rsect_eq hx]
        exact hloop
      · have hplaced := happ'.placed
        rw [happ_eq, Function.update_idem, Function.update_idem, Function.update_idem] at hplaced
        exact hplaced
      · have hkept := happ'.kept
        rw [hself] at hkept
        exact happ.kept.trans hkept
      · exact happ.frame.trans happ'.frame
      · have htaken' := happ'.taken
        rw [happ_eq, Function.update_self, hlen] at htaken'
        omega

end OsSemester.Xv6.Mkfs
