import OsSemester.Xv6.MkfsImage

/-!
# What the kernel finds in the image (`mkfs.c`, `bmap` in `fs.c`)

The kernel reads a file block by block through `bmap`, which takes a new block where an address is
zero.  In a well-formed image that does not happen: the addresses that are not zero are those of the
blocks below the size.  `mkfs_image` says when `main` builds such an image.
-/

namespace OsSemester.Xv6.Mkfs

/-- The byte at an offset of a file is found through `bmap`, and nothing changes on the way. -/
def ReadsAs (img : Blockno → Block) (din : Dinode) (off : ℕ) (c : UInt8) : Prop :=
  ∃ addr, bmap sb din (off / BSIZE) ⟨img, []⟩ = .ok (addr, din, ⟨img, []⟩) ∧ (img addr).get (off % BSIZE) = c

/-- The image is what `fs.c` expects, with the files of the command line. -/
structure WellFormed (files : List HostFile) (img : Blockno → Block) : Prop where
  super : img 1 = superBlock
  alloc : ∀ k bn, bn < MAXFILE → ((inodes img k).addr img bn ≠ 0 ↔ bn < blocksFor (inodes img k).size)
  indirect : ∀ k, (inodes img k).indirect ≠ 0 ↔ NDIRECT < blocksFor (inodes img k).size
  distinct : ∀ u v a, place (inodes img) img u = some a → place (inodes img) img v = some a → u = v
  range : ∀ u a, place (inodes img) img u = some a → nmeta ≤ a ∧ a < FSSIZE
  bitmap : ∀ b, b < FSSIZE →
    ((img sb.bmapstart).bit b = true ↔ b < nmeta ∨ ∃ u, place (inodes img) img u = some b)
  file : ∀ i (hi : i < files.length), (inodes img (i + 2)).type = T_FILE ∧
    (inodes img (i + 2)).size = files[i].content.length ∧
    ∀ off, off < files[i].content.length → ReadsAs img (inodes img (i + 2)) off (files[i].content.getD off 0)
  root : (inodes img ROOTINO).type = T_DIR ∧ (rootEntries files).length ≤ (inodes img ROOTINO).size ∧
    ∀ off, off < (inodes img ROOTINO).size → ReadsAs img (inodes img ROOTINO) off ((rootEntries files).getD off 0)

/-- The files have names for the root directory and sizes that fit the image. -/
structure Fits (files : List HostFile) : Prop where
  /-- A name has no `/`. -/
  name : ∀ f ∈ files, 47 ∉ f.name
  count : files.length < NINODES
  length_le : ∀ f ∈ files, blocksFor f.content.length ≤ MAXFILE
  room : nmeta + need (blocksFor (rootEntries files).length) +
    (files.map fun f => need (blocksFor f.content.length)).sum ≤ FSSIZE

variable {files : List HostFile} {img : Blockno → Block} {din : Dinode} {off bn : ℕ} {c : UInt8}

/-! ### `bmap` of a block that is there -/

theorem bmap_of_ne_zero (hbn : bn < MAXFILE) (h : din.addr img bn ≠ 0) :
    bmap sb din bn ⟨img, []⟩ = .ok (din.addr img bn, din, ⟨img, []⟩) := by
  rw [bmap]
  by_cases hdir : bn < NDIRECT
  · have hself : din.setAddr bn (din.direct bn) = din := Dinode.setAddr_self din rfl
    rw [Dinode.addr_of_lt hdir] at h ⊢
    rw [if_pos hdir, ballocIfNone, if_neg h]
    show Except.ok (din.direct bn, din.setAddr bn (din.direct bn), _) = _
    rw [hself]
  · have hge : NDIRECT ≤ bn := not_lt.mp hdir
    have hind : din.indirect ≠ 0 := fun h0 => h (Dinode.addr_of_indirect_zero hge h0)
    have hentry : bn - NDIRECT < NINDIRECT := by
      simp only [MAXFILE] at hbn
      omega
    have hself : din.setAddr NDIRECT din.indirect = din := Dinode.setAddr_self din rfl
    rw [Dinode.addr_of_indirect hge hind] at h ⊢
    rw [if_neg hdir, if_pos hentry, ballocIfNone, if_neg hind]
    show (if (img din.indirect).word (bn - NDIRECT) = 0 then _ else _) = _
    rw [if_neg h, hself]

theorem readsAs (hbn : off / BSIZE < MAXFILE) (h : din.addr img (off / BSIZE) ≠ 0)
    (hbyte : (img (din.addr img (off / BSIZE))).get (off % BSIZE) = c) : ReadsAs img din off c :=
  ⟨_, bmap_of_ne_zero hbn h, hbyte⟩

/-! ### The files fit -/

theorem sum_getD {F : List UInt8 → ℕ} (h0 : F [] = 0) {l : List (List UInt8)} {n : ℕ} (hn : l.length ≤ n) :
    ∑ k ∈ Finset.range n, F (l.getD k []) = (l.map F).sum := by
  induction l generalizing n with
  | nil => exact Finset.sum_eq_zero fun _ _ => h0
  | cons x l ih =>
    obtain ⟨m, rfl⟩ : ∃ m, n = m + 1 := Nat.exists_eq_succ_of_ne_zero (by
      rw [List.length_cons] at hn
      omega)
    rw [Finset.sum_range_succ', List.map_cons, List.sum_cons, Nat.add_comm]
    exact congrArg (F x + ·) (ih (Nat.le_of_succ_le_succ hn))

theorem length_le_of_blocksFor {n : ℕ} (h : blocksFor n ≤ MAXFILE) : n ≤ MAXFILE * BSIZE := by
  unfold blocksFor at h
  simp only [MAXFILE, NDIRECT, NINDIRECT, BSIZE] at *
  omega

theorem Fits.budget (hf : Fits files) : Budget (contents files) where
  length_le := by
    intro k
    match k with
    | 0 => exact Nat.zero_le _
    | 1 =>
      have hcount := hf.count
      rw [contents_root, length_rootEntries]
      simp only [NINODES, MAXFILE, NDIRECT, NINDIRECT, BSIZE] at *
      omega
    | i + 2 =>
      rw [contents_file]
      obtain hlt | hge := Nat.lt_or_ge i (files.map HostFile.content).length
      · rw [List.getD_eq_getElem _ _ hlt, List.getElem_map]
        exact length_le_of_blocksFor (hf.length_le _ (List.getElem_mem _))
      · rw [List.getD_eq_default _ _ hge]
        exact Nat.zero_le _
  room := by
    have hlen : ([] :: rootEntries files :: files.map HostFile.content).length ≤ inodeCount := by
      have hcount := hf.count
      rw [List.length_cons, List.length_cons, List.length_map]
      show files.length + 1 + 1 ≤ 208
      simp only [NINODES] at hcount
      omega
    have hzero : need (blocksFor ([] : List UInt8).length) = 0 := by decide
    have hsum := sum_getD (F := fun l => need (blocksFor l.length)) hzero hlen
    have hroom := hf.room
    unfold contents
    rw [hsum, List.map_cons, List.map_cons, List.sum_cons, List.sum_cons, List.map_map, hzero]
    show nmeta + (0 + (need (blocksFor (rootEntries files).length) +
      (files.map fun f => need (blocksFor f.content.length)).sum)) ≤ FSSIZE
    omega

/-! ### The size of the root directory -/

theorem blocksFor_rootSize : blocksFor (rootSize files) = (rootEntries files).length / BSIZE + 1 := by
  unfold blocksFor rootSize
  simp only [BSIZE]
  omega

theorem blocksFor_rootSize_eq :
    blocksFor (rootSize files) = blocksFor (rootEntries files).length ↔ (files.length + 2) % 32 ≠ 0 := by
  rw [blocksFor_rootSize, blocksFor, length_rootEntries]
  simp only [BSIZE]
  omega

theorem length_le_rootSize : (rootEntries files).length ≤ rootSize files := by
  unfold rootSize
  simp only [BSIZE]
  omega

/-! ### The image -/

/-- What `main` leaves, when the files fit. -/
structure Built (files : List HostFile) (s : State) : Prop where
  count : files.length < NINODES
  placed : Placed s (inodes s.img) (fun k => blocksFor (contents files k).length)
    (large fun k => blocksFor (contents files k).length) fun k off => (contents files k).getD off 0
  super : s.img 1 = superBlock
  root : (inodes s.img ROOTINO).type = T_DIR ∧ (inodes s.img ROOTINO).size = rootSize files
  size : ∀ k, k ≠ ROOTINO → (inodes s.img k).size = (contents files k).length
  file : ∀ i, i < files.length → (inodes s.img (i + 2)).type = T_FILE
  bitmap : ∀ b, (s.img sb.bmapstart).bit b = decide (b < s.freeblock)

theorem main_spec (hf : Fits files) : ∃ s, main files = some s.img ∧ Built files s := by
  have hb := hf.budget
  obtain ⟨s1, s2, s3, tab, hrun1, hrun2, hrun3, hm⟩ := made_nil hb
  obtain ⟨s4, tab4, hrun4, hm4⟩ := addFiles_spec hm hb hf.count hf.name
  rw [List.nil_append] at hm4
  obtain ⟨img, hrun5, htab, himg, hsuper, hbit⟩ := finish_spec hm4 hf.count
  have haddrs : ∀ k, (inodes img k).addrs = (tab4 k).addrs := by
    intro k
    rw [htab]
    by_cases hk : k = ROOTINO
    · rw [hk, Function.update_self]
    · rw [Function.update_of_ne hk]
  set last : State := { s4 with img := img }
  have hfree : last.freeblock = s4.freeblock := rfl
  have hplaced := (hm4.image.placed.congr_img hfree himg).congr_tab haddrs
  refine ⟨last, ?_, hf.count, hplaced, hsuper, ⟨?_, ?_⟩, fun k hk => ?_, fun i hi => ?_, hbit⟩
  · rw [main, hrun1]
    show (do
      let s1 ← s1.iappend ROOTINO (dirent ROOTINO [46])
      let s2 ← s1.iappend ROOTINO (dirent ROOTINO [46, 46])
      let s3 ← files.foldlM (addFile ROOTINO) s2
      finish ROOTINO s3) = _
    rw [hrun2]
    show (do
      let s2 ← s2.iappend ROOTINO (dirent ROOTINO [46, 46])
      let s3 ← files.foldlM (addFile ROOTINO) s2
      finish ROOTINO s3) = _
    rw [hrun3]
    show (files.foldlM (addFile ROOTINO) s3).bind (finish ROOTINO) = _
    rw [hrun4]
    exact hrun5
  · rw [htab, Function.update_self]
    exact hm4.root
  · rw [htab, Function.update_self]
  · rw [htab, Function.update_of_ne hk]
    exact hm4.image.size k
  · rw [htab, Function.update_of_ne (show i + 2 ≠ 1 by omega)]
    exact hm4.file i hi

/-- Below the blocks of a file, the file is read back. -/
theorem Built.readsAs {s : State} {k : ℕ} (hb : Built files s)
    (hoff : off / BSIZE < blocksFor (contents files k).length) :
    ReadsAs s.img (inodes s.img k) off ((contents files k).getD off 0) := by
  have hmax : off / BSIZE < MAXFILE := hoff.trans_le (hb.placed.cnt_le k)
  have haddr := (hb.placed.alloc k _ hmax).mpr hoff
  have hbyte := hb.placed.bytes k _ (off % BSIZE) hoff (Nat.mod_lt _ (by decide))
  rw [Nat.div_add_mod'] at hbyte
  exact Mkfs.readsAs hmax haddr hbyte

theorem lt_blocksFor {off n : ℕ} (h : off < n) : off / BSIZE < blocksFor n := by
  unfold blocksFor
  simp only [BSIZE]
  omega

/-- The root directory decides: its size must be that of the blocks with its entries. -/
theorem Built.wellFormed_iff {s : State} (hb : Built files s) :
    WellFormed files s.img ↔ blocksFor (rootSize files) = blocksFor (rootEntries files).length := by
  have hp := hb.placed
  rw [← contents_root files]
  constructor
  · -- the number of blocks of the root directory is given by its addresses
    intro hw
    have hle : blocksFor (contents files 1).length ≤ blocksFor (rootSize files) := by
      rw [contents_root]
      exact blocksFor_mono length_le_rootSize
    refine Nat.le_antisymm (not_lt.mp fun hlt => ?_) hle
    have hmax : blocksFor (contents files 1).length < MAXFILE := by
      have hcount := hb.count
      rw [contents_root, length_rootEntries]
      unfold blocksFor
      simp only [NINODES, MAXFILE, NDIRECT, NINDIRECT, BSIZE] at *
      omega
    have h1 := (hw.alloc ROOTINO _ hmax).mpr (hb.root.2.symm ▸ hlt)
    exact absurd ((hp.alloc 1 _ hmax).mp h1) (lt_irrefl _)
  · intro heq
    -- every other file has the size of its content
    have hsize : ∀ k, blocksFor (inodes s.img k).size = blocksFor (contents files k).length := by
      intro k
      by_cases hk : k = ROOTINO
      · rw [hk, hb.root.2]
        exact heq
      · rw [hb.size k hk]
    have hbump := hp.bump
    refine ⟨hb.super, fun k bn hbn => ?_, fun k => ?_, hbump.inj, fun u a hu => ?_, fun b hlt => ?_,
      fun i hi => ?_, hb.root.1, ?_, fun off hoff => ?_⟩
    · rw [hsize]
      exact hp.alloc k bn hbn
    · rw [hsize, hp.indirect]
      exact decide_eq_true_iff
    · obtain ⟨h1, h2⟩ := hbump.mem u a hu
      exact ⟨h1, h2.trans_le hp.le_size⟩
    · rw [hb.bitmap, decide_eq_true_iff]
      constructor
      · intro hb'
        obtain h1 | h1 := Nat.lt_or_ge b nmeta
        · exact .inl h1
        · exact .inr (hbump.onto b h1 hb')
      · rintro (h1 | ⟨u, hu⟩)
        · exact h1.trans_le hp.le
        · exact (hbump.mem u b hu).2
    · have hcontent : contents files (i + 2) = files[i].content := by
        rw [contents_file, List.getD_eq_getElem _ _ (by rwa [List.length_map]), List.getElem_map]
      refine ⟨hb.file i hi, ?_, fun off hoff => ?_⟩
      · rw [hb.size _ (show i + 2 ≠ 1 by omega), hcontent]
      · rw [← hcontent] at hoff ⊢
        exact hb.readsAs (lt_blocksFor hoff)
    · rw [hb.root.2]
      exact length_le_rootSize
    · rw [hb.root.2] at hoff
      exact hb.readsAs (k := 1) (heq ▸ lt_blocksFor hoff)

/-- The image is well formed when the rounded size is that of the blocks of the root directory. -/
theorem wellFormed_main_iff (hf : Fits files) :
    (∃ img, main files = some img ∧ WellFormed files img) ↔
      blocksFor (rootSize files) = blocksFor (rootEntries files).length := by
  obtain ⟨s, hrun, hb⟩ := main_spec hf
  rw [← hb.wellFormed_iff, hrun]
  constructor
  · rintro ⟨img, hrun', hw⟩
    cases hrun'
    exact hw
  · intro hw
    exact ⟨s.img, rfl, hw⟩

/-- `mkfs` builds a well-formed image, but for a root directory whose entries fill its blocks: its
size is rounded up by a whole block, which the directory does not have. -/
theorem mkfs_image (hf : Fits files) :
    (∃ img, main files = some img ∧ WellFormed files img) ↔ (files.length + 2) % 32 ≠ 0 := by
  rw [wellFormed_main_iff hf, blocksFor_rootSize_eq]

/-- An empty file. -/
def emptyFile : HostFile := ⟨[97], [], by simp, nofun⟩

theorem fits_replicate {n : ℕ} (hn : n < NINODES) : Fits (List.replicate n emptyFile) where
  name := by
    intro f hf
    rw [List.eq_of_mem_replicate hf]
    decide
  count := by rwa [List.length_replicate]
  length_le := by
    intro f hf
    rw [List.eq_of_mem_replicate hf]
    decide
  room := by
    have hzero : need (blocksFor emptyFile.content.length) = 0 := by decide
    have hroot : need (blocksFor (rootEntries (List.replicate n emptyFile)).length) ≤ need (blocksFor 3232) := by
      apply need_mono
      apply blocksFor_mono
      rw [length_rootEntries, List.length_replicate]
      simp only [NINODES] at hn
      omega
    have hle : nmeta + need (blocksFor 3232) ≤ FSSIZE := by decide
    rw [List.map_replicate, List.sum_replicate, hzero, nsmul_zero]
    omega

/-- A file of 14 blocks, the last of which has 3 bytes. -/
def longFile : HostFile where
  name := [95, 97]
  reads := List.replicate 13 (List.replicate BSIZE 97) ++ [[98, 99, 100]]
  name_ne_zero := by simp
  reads_length := by
    intro p hp
    rw [List.mem_append, List.mem_singleton] at hp
    rcases hp with hp | rfl
    · rw [List.eq_of_mem_replicate hp, List.length_replicate]
      decide
    · decide

theorem length_longFile : longFile.content.length = 6659 := by
  simp only [HostFile.content, longFile, List.length_flatten, List.map_append, List.map_replicate,
    List.length_replicate, List.sum_append, List.sum_replicate, BSIZE]
  rfl

theorem fits_longFile : Fits [longFile] where
  name := by
    intro f hf
    obtain rfl := List.mem_singleton.mp hf
    decide
  count := by decide
  length_le := by
    intro f hf
    obtain rfl := List.mem_singleton.mp hf
    rw [length_longFile]
    decide
  room := by
    have hroot : blocksFor (rootEntries [longFile]).length = 1 := by
      rw [length_rootEntries]
      rfl
    rw [hroot, List.map_singleton, List.sum_singleton, length_longFile]
    decide

theorem mkfs_image_one : ∃ img, main [longFile] = some img ∧ WellFormed [longFile] img :=
  (mkfs_image fits_longFile).mpr (by decide)

/-- With 30 files the entries of the root directory fill its block. -/
theorem mkfs_image_counterexample : Fits (List.replicate 30 emptyFile) ∧
    ¬ ∃ img, main (List.replicate 30 emptyFile) = some img ∧ WellFormed (List.replicate 30 emptyFile) img := by
  have hf : Fits (List.replicate 30 emptyFile) := fits_replicate (by decide)
  refine ⟨hf, ?_⟩
  rw [wellFormed_main_iff hf, blocksFor_rootSize_eq, List.length_replicate]
  decide

end OsSemester.Xv6.Mkfs
