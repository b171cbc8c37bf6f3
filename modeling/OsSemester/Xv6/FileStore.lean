import OsSemester.Lib.Calls
import OsSemester.Xv6.InodeContent

/-!
# Files as lists of bytes

`FileStore` is what the inodes are for: files with a type, a number of links and their bytes.  Reading and
writing are about these lists, a file without links is emptied when its last reference goes, and a write
fails when the files would not fit the disk.  `fs_refines` says that the calls of `fs.c` do just that, in
whole runs and whatever blocks `balloc` hands out.
-/

namespace OsSemester.Xv6

/-! ### The store -/

/-- A file; one of type 0 is an inode that is not in use. -/
structure StoredFile where
  type : ℕ
  major : ℕ
  minor : ℕ
  nlink : ℕ
  bytes : List UInt8

/-- The files by their inode numbers, and which of the inodes are in memory. -/
structure FileStore where
  file : ℕ → StoredFile
  valid : ℕ → Bool

namespace FileStore

section

variable (sb : Superblock) (devsw : DevSwitch) (devread : DevRead)

/-- The inode `k` is in memory from now on. -/
def load (F : FileStore) (k : ℕ) : FileStore := { F with valid := Function.update F.valid k true }

/-- The file `k` becomes `f`. -/
def set (F : FileStore) (k : ℕ) (f : StoredFile) : FileStore := { F with file := Function.update F.file k f }

@[simp]
theorem set_self (F : FileStore) (k : ℕ) (f : StoredFile) : (F.set k f).file k = f := Function.update_self ..

theorem set_of_ne {F : FileStore} {k i : ℕ} {f : StoredFile} (hik : i ≠ k) : (F.set k f).file i = F.file i :=
  Function.update_of_ne hik ..

/-- The files fit the disk. -/
def Fit (F : FileStore) : Prop :=
  ∑ k ∈ Finset.range sb.inodeCount, Mkfs.need (blocksFor (F.file k).bytes.length) ≤ sb.capacity

instance (F : FileStore) : Decidable (F.Fit sb) := inferInstanceAs (Decidable (_ ≤ _))

/-- The bytes from `off` on, at most `n` of them, and how many they are. -/
def read (f : StoredFile) (off n : ℕ) : ℤ × List UInt8 :=
  if f.type = T_DEV then
    if f.major ≥ NDEV then (-1, [])
    else
      match devread f.major with
      | none => (-1, [])
      | some read => read n
  else if off > f.bytes.length ∨ 2 ^ 32 ≤ off + n then (-1, [])
  else (((f.bytes.drop off).take n).length, (f.bytes.drop off).take n)

/-- The bytes with `n` of `src` in the place from `off` on. -/
def write (bytes : List UInt8) (src : ℕ → UInt8) (off n : ℕ) : List UInt8 :=
  bytes.take off ++ (List.range n).map src ++ bytes.drop (off + n)

/-- The smallest number of an inode that is not in use. -/
def free (F : FileStore) : Option ℕ :=
  (List.range' 1 (sb.ninodes - 1)).find? fun k => decide ((F.file k).type = 0)

/-- What a call does; an error is a panic. -/
def step (F : FileStore) : FsOp sb → Except String (FsRet × FileStore)
  | .readi k off n =>
    if (F.file k).type = 0 then .error "ilock: no type"
    else
      let r := read devread (F.file k) off.toNat n.toNat
      .ok (.read r.1 r.2, F.load k)
  | .writei k src off n =>
    let f := F.file k
    if f.type = 0 then .error "ilock: no type"
    else if f.type = T_DEV then
      if f.major ≥ NDEV then .ok (.written (-1), F.load k)
      else
        match devsw f.major with
        | none => .ok (.written (-1), F.load k)
        | some write => .ok (.written (write src n.toNat), F.load k)
    else if off.toNat > f.bytes.length ∨ MAXFILE * BSIZE < off.toNat + n.toNat then
      .ok (.written (-1), F.load k)
    else
      let F' := F.set k { f with bytes := write f.bytes src off.toNat n.toNat }
      if F'.Fit sb then .ok (.written n.toNat, F'.load k) else .error "balloc: out of blocks"
  | .stati k =>
    let f := F.file k
    if f.type = 0 then .error "ilock: no type"
    else .ok (.stat k f.type f.nlink f.bytes.length, F.load k)
  | .iupdate k major minor nlink =>
    let f := F.file k
    if f.type = 0 then .error "ilock: no type"
    else
      .ok (.void, (F.set k
        { f with major := major.toNat, minor := minor.toNat, nlink := nlink.toNat }).load k)
  | .ialloc type =>
    match F.free sb with
    | none => .error "ialloc: no inodes"
    | some k => .ok (.inum k, F.set k ⟨type.toNat, 0, 0, 0, []⟩)
  | .iput k ref =>
    if ref = 1 then
      let F' : FileStore := { F with valid := Function.update F.valid k false }
      if F.valid k ∧ (F.file k).nlink = 0 then .ok (.void, F'.set k { F.file k with type := 0, bytes := [] })
      else .ok (.void, F')
    else .ok (.void, F)

end

end FileStore

/-! ### Inodes on the disk -/

namespace Store

variable {sb : Superblock} {tab : ℕ → Dinode} {blk blk' : Blockno → Block} {cnt : ℕ → ℕ} {ind : ℕ → Bool}
  {data : ℕ → ℕ → UInt8} {b k n off : ℕ} {s s' : OpDisk} {din din' : Dinode} {f : ℕ → UInt8}
  {src : ℕ → UInt8}

/-- Inode `k`; there are none behind the blocks of inodes. -/
def inode (sb : Superblock) (blk : Blockno → Block) (k : ℕ) : Dinode :=
  if k < sb.inodeCount then diskInode sb blk k else Mkfs.noInode

theorem inode_eq (hk : k < sb.inodeCount) : inode sb blk k = diskInode sb blk k := if_pos hk

theorem inode_congr (hv : sb.Ordered) (h : ∀ b, b < sb.bmapstart → blk' b = blk b) :
    inode sb blk' = inode sb blk := by
  funext k
  unfold inode
  split_ifs with hk
  · rw [diskInode, diskInode, h _ (IBLOCK_eq hv hk).2]
  · rfl

theorem fits_inode (sb : Superblock) (blk : Blockno → Block) (k : ℕ) : (inode sb blk k).Fits := by
  unfold inode
  split_ifs
  · exact ⟨Bytes.field_lt .., Bytes.field_lt .., Bytes.field_lt .., Bytes.field_lt .., Bytes.field_lt ..,
      fun _ => Bytes.field_lt ..⟩
  · exact ⟨by decide, by decide, by decide, by decide, by decide, fun _ => Nat.two_pow_pos 32⟩

/-- An inode is written to its place in its block. -/
theorem inode_setDinode (hv : sb.Ordered) (hk : k < sb.inodeCount) (hfit : din.Fits) :
    inode sb (Function.update blk (IBLOCK k sb) ((blk (IBLOCK k sb)).setDinode (k % IPB) din)) =
      Function.update (inode sb blk) k din := by
  funext i
  by_cases hi : i < sb.inodeCount
  · have hmod : k % IPB < IPB ∧ i % IPB < IPB := ⟨Nat.mod_lt _ (by decide), Nat.mod_lt _ (by decide)⟩
    rw [inode_eq hi, diskInode]
    by_cases hik : i = k
    · rw [hik, Function.update_self, Function.update_self, Block.dinode_setDinode hmod.1 hfit]
    · rw [Function.update_of_ne hik, inode_eq hi, diskInode]
      by_cases hb : IBLOCK i sb = IBLOCK k sb
      · have h1 : @Eq ℕ (i / IPB + sb.inodestart) (k / IPB + sb.inodestart) := by
          rw [← (IBLOCK_eq hv hi).1, ← (IBLOCK_eq hv hk).1]
          exact hb
        have hne : i % IPB ≠ k % IPB := by
          simp only [IPB, BSIZE] at *
          omega
        rw [hb, Function.update_self, Block.dinode_setDinode_of_ne hne hmod.2]
      · rw [Function.update_of_ne hb]
  · have hik : i ≠ k := by
      rintro rfl
      exact hi hk
    rw [Function.update_of_ne hik, inode, inode, if_neg hi, if_neg hi]

theorem inode_iupdate (hv : sb.Ordered) (hk : k < sb.inodeCount) (hfit : din.Fits) :
    inode sb (iupdate sb k din s).block = Function.update (inode sb s.block) k din :=
  inode_setDinode hv hk hfit

theorem stored_iupdate (hv : sb.Ordered) (hk : k < sb.inodeCount) (hs : Stored sb tab s.block cnt ind data) :
    Stored sb tab (iupdate sb k din s).block cnt ind data :=
  hs.write_front hv (IBLOCK_eq hv hk).2

/-! ### What holds between the calls -/

/-- The blocks that an inode needs for its size. -/
def sizes (tab : ℕ → Dinode) (k : ℕ) : ℕ := blocksFor (tab k).size

/-- The blocks of the files are those below their sizes, and an inode that is not in use has none. -/
structure Sound (sb : Superblock) (blk : Blockno → Block) (data : ℕ → ℕ → UInt8) : Prop where
  stored : Stored sb (inode sb blk) blk (sizes (inode sb blk)) (Mkfs.large (sizes (inode sb blk))) data
  free : ∀ k, (inode sb blk k).type = 0 → (inode sb blk k).size = 0 ∧ ∀ i, (inode sb blk k).addrs i = 0

/-- The file of an inode. -/
def fileOf (din : Dinode) (f : ℕ → UInt8) : StoredFile where
  type := din.type
  major := din.major
  minor := din.minor
  nlink := din.nlink
  bytes := (List.range din.size).map f

@[simp]
theorem length_fileOf (din : Dinode) (f : ℕ → UInt8) : (fileOf din f).bytes.length = din.size := by
  rw [fileOf, List.length_map, List.length_range]

theorem sizes_eq_zero (hk : sb.inodeCount ≤ k) : sizes (inode sb blk) k = 0 := by
  rw [sizes, inode, if_neg (not_lt.mpr hk)]
  rfl

theorem sizes_update (tab : ℕ → Dinode) (k : ℕ) (din : Dinode) :
    sizes (Function.update tab k din) = Function.update (sizes tab) k (blocksFor din.size) := by
  funext i
  by_cases hi : i = k
  · rw [hi, sizes, Function.update_self, Function.update_self]
  · rw [sizes, Function.update_of_ne hi, Function.update_of_ne hi, sizes]

theorem Sound.size_le (h : Sound sb blk data) (k : ℕ) : (inode sb blk k).size ≤ MAXFILE * BSIZE :=
  Mkfs.length_le_of_blocksFor (h.stored.cnt_le k)

theorem lt_blocksFor_iff : off / BSIZE < blocksFor n ↔ off < (blocksFor n) * BSIZE := by
  simp only [BSIZE]
  omega

theorem le_blocksFor_mul (n : ℕ) : n ≤ blocksFor n * BSIZE := by
  unfold blocksFor
  simp only [BSIZE]
  omega

/-- The bytes of a file are found through its addresses. -/
theorem Sound.fileByte (h : Sound sb blk data) (hoff : off < (inode sb blk k).size) :
    (inode sb blk k).fileByte blk off = data k off := by
  have hbn : off / BSIZE < sizes (inode sb blk) k :=
    lt_blocksFor_iff.mpr (hoff.trans_le (le_blocksFor_mul _))
  have hbyte := h.stored.bytes k _ (off % BSIZE) hbn (Nat.mod_lt _ (by decide))
  rw [Nat.div_add_mod'] at hbyte
  exact hbyte

theorem Sound.fileOf_eq (h : Sound sb blk data) (k : ℕ) :
    fileOf (inode sb blk k) ((inode sb blk k).fileByte blk) = fileOf (inode sb blk k) (data k) := by
  have hbytes : (List.range (inode sb blk k).size).map ((inode sb blk k).fileByte blk) =
      (List.range (inode sb blk k).size).map (data k) :=
    List.map_congr_left fun off hoff => h.fileByte (List.mem_range.mp hoff)
  rw [fileOf, fileOf, hbytes]

/-- **Every inode is one that `filewrite` can write to.** -/
theorem Sound.fileOk (h : Sound sb blk data) (hv : sb.Ordered) (hstart : 0 < sb.inodestart)
    (hk : k < sb.inodeCount) : FileOk sb k (inode sb blk k) blk := h.stored.fileOk hv hstart hk

theorem Sound.blocksAsSize (h : Sound sb blk data) (k : ℕ) : BlocksAsSize (inode sb blk k) blk :=
  ⟨h.size_le k, h.stored.alloc k⟩

/-- One inode has changed, and its file. -/
theorem Sound.update (h : Sound sb blk data)
    (htab : inode sb blk' = Function.update (inode sb blk) k din)
    (hs : Stored sb (Function.update (inode sb blk) k din) blk'
      (Function.update (sizes (inode sb blk)) k (blocksFor din.size))
      (Mkfs.large (Function.update (sizes (inode sb blk)) k (blocksFor din.size))) (Function.update data k f))
    (hfree : din.type = 0 → din.size = 0 ∧ ∀ i, din.addrs i = 0) :
    Sound sb blk' (Function.update data k f) := by
  refine ⟨?_, fun i hi => ?_⟩
  · rw [htab, sizes_update]
    exact hs
  · rw [htab] at hi ⊢
    by_cases hik : i = k
    · rw [hik, Function.update_self] at hi ⊢
      exact hfree hi
    · rw [Function.update_of_ne hik] at hi ⊢
      exact h.free i hi

/-! ### Reading and writing -/

theorem drop_take_range (f : ℕ → UInt8) (size off n : ℕ) : ((((List.range size).map f).drop off).take n) =
    (List.range (min n (size - off))).map fun j => f (off + j) := by
  refine List.ext_getElem (by simp) fun i h1 h2 => ?_
  rw [List.getElem_take, List.getElem_drop, List.getElem_map, List.getElem_range, List.getElem_map,
    List.getElem_range]

/-- `readi` returns the bytes of the file, and leaves everything as it is. -/
theorem readi_spec (devread : DevRead) (h : Sound sb blk data) {l : List Blockno} (hoff : off < 2 ^ 32)
    (hn : n < 2 ^ 32) : readi sb devread off n (inode sb blk k) ⟨blk, l⟩ =
      .ok ((FileStore.read devread (fileOf (inode sb blk k) (data k)) off n).1,
        (FileStore.read devread (fileOf (inode sb blk k) (data k)) off n).2, inode sb blk k, ⟨blk, l⟩) := by
  set din := inode sb blk k with hdin
  have hsize : din.size ≤ MAXFILE * BSIZE := h.size_le k
  rw [readi, FileStore.read]
  by_cases hdev : din.type = T_DEV
  · have hdev' : (fileOf din (data k)).type = T_DEV := hdev
    have hmajor : (fileOf din (data k)).major = din.major := rfl
    rw [if_pos hdev, if_pos hdev', hmajor]
    split_ifs
    · rfl
    · cases devread din.major <;> rfl
  · have hdev' : ¬ (fileOf din (data k)).type = T_DEV := hdev
    have hwrap : (off > din.size ∨ (off + n) % 2 ^ 32 < off) ↔ (off > din.size ∨ 2 ^ 32 ≤ off + n) := by omega
    rw [if_neg hdev, if_neg hdev', length_fileOf]
    by_cases hbad : off > din.size ∨ 2 ^ 32 ≤ off + n
    · rw [if_pos (hwrap.mpr hbad), if_pos hbad]
    · have hmod : (off + n) % 2 ^ 32 = off + n := Nat.mod_eq_of_lt (by omega)
      have hmin : (if off + n > din.size then din.size - off else n) = min n (din.size - off) := by
        split_ifs <;> omega
      have hend : off + (min n (din.size - off) - 0) ≤ sizes (inode sb blk) k * BSIZE := by
        have := le_blocksFor_mul din.size
        rw [sizes, ← hdin]
        omega
      have hloop := readiLoop_spec (s := ⟨blk, l⟩) [] h.stored le_rfl (Nat.zero_le _) hend
      have hbytes : ((fileOf din (data k)).bytes.drop off).take n =
          (List.range (min n (din.size - off))).map fun j => data k (off + j) := drop_take_range ..
      rw [Nat.sub_zero, List.nil_append, ← hdin] at hloop
      rw [if_neg (mt hwrap.mp hbad), if_neg hbad, hbytes, List.length_map, List.length_range]
      simp only [hmod, hmin, hloop]

theorem write_range (f : ℕ → UInt8) {size : ℕ} (hoff : off ≤ size) :
    FileStore.write ((List.range size).map f) src off n =
      (List.range (max size (off + n))).map (patch f off n src) := by
  have hlen : off ≤ ((List.range size).map f).length := by
    rw [List.length_map, List.length_range]
    exact hoff
  refine List.ext_getElem ?_ fun i h1 h2 => ?_
  · simp only [FileStore.write, List.length_append, List.length_take, List.length_map, List.length_range,
      List.length_drop]
    omega
  · rw [List.getElem_map, List.getElem_range, patch]
    simp only [FileStore.write, List.getElem_append, List.length_append, List.length_take, List.length_map,
      List.length_range, List.getElem_take, List.getElem_drop, List.getElem_map, List.getElem_range,
      min_eq_left hoff]
    split_ifs with h3 h4 h5 h5
    · omega
    · rfl
    · rfl
    · omega
    · omega
    · congr 1
      omega

/-- What `writei` does with a file that is not a device. -/
theorem writei_spec (hv : sb.Ordered) (devsw : DevSwitch) (src : ℕ → UInt8) (hk : k < sb.inodeCount)
    (h : Sound sb blk data)
    (htype : (inode sb blk k).type ≠ 0) (hdev : (inode sb blk k).type ≠ T_DEV)
    (hoff : off ≤ (inode sb blk k).size) (hend : off + n ≤ MAXFILE * BSIZE) :
    (∃ l, writei sb devsw k src off n (inode sb blk k) ⟨blk, []⟩ = .error ⟨"balloc: out of blocks", l⟩ ∧
        TooMuch sb (Function.update (sizes (inode sb blk)) k
          (blocksFor (max (inode sb blk k).size (off + n))))) ∨
      ∃ din' s', writei sb devsw k src off n (inode sb blk k) ⟨blk, []⟩ = .ok (n, din', s') ∧
        inode sb s'.block = Function.update (inode sb blk) k din' ∧
        Sound sb s'.block (Function.update data k (patch (data k) off n src)) ∧
        fileOf din' (patch (data k) off n src) =
          { fileOf (inode sb blk k) (data k) with
            bytes := FileStore.write (fileOf (inode sb blk k) (data k)).bytes src off n } := by
  set din := inode sb blk k with hdin
  -- the blocks that the loop leaves are those of the new size
  have hmax : max (sizes (inode sb blk) k) (blocksFor (off + n)) = blocksFor (max din.size (off + n)) := by
    rw [sizes, ← hdin]
    exact (Monotone.map_max fun _ _ hle => Mkfs.blocksFor_mono hle).symm
  have hmod : (off + n) % 2 ^ 32 = off + n := by
    simp only [MAXFILE, NDIRECT, NINDIRECT, BSIZE] at hend
    exact Nat.mod_eq_of_lt (by omega)
  have hfile : ∀ addrs, fileOf { din with size := max din.size (off + n), addrs := addrs }
      (patch (data k) off n src) =
        { fileOf din (data k) with bytes := FileStore.write (fileOf din (data k)).bytes src off n } := by
    intro addrs
    have hb : FileStore.write (fileOf din (data k)).bytes src off n =
        (List.range (max din.size (off + n))).map (patch (data k) off n src) := write_range _ hoff
    rw [hb]
    rfl
  rw [writei, if_neg hdev, hmod, if_neg (by omega), if_neg (by omega)]
  have hloop := writeiLoop_spec (s := ⟨blk, []⟩) src hv hk le_rfl (Nat.zero_le n)
    (fun _ => sizes_eq_zero) h.stored (Mkfs.blocksFor_mono hoff) (by rw [Nat.sub_zero]; exact hend)
  rw [Nat.sub_zero, hmax] at hloop
  rcases hloop with ⟨l, he, htoo⟩ | ⟨din₁, s₁, hok, hW⟩
  · rw [he]
    exact Or.inl ⟨l, rfl, htoo⟩
  have hst := hW.stored
  simp only [Nat.zero_add, hmax] at hst
  have hkept : din₁ = { din with addrs := din₁.addrs } := hW.same
  have hsize : din₁.size = din.size := by rw [hkept]
  have hfront : inode sb s₁.block = inode sb blk := inode_congr hv hW.front
  rw [hok]
  by_cases hgrow : n > 0 ∧ off + n > din₁.size
  · -- the inode is written with its new size
    have hnew : max din.size (off + n) = off + n := by omega
    set din' : Dinode := { din₁ with size := off + n } with hdin'
    have hdin'' : din' = { din with size := off + n, addrs := din₁.addrs } := by rw [hdin', hkept]
    have hfit : din'.Fits := by
      have h1 := fits_inode sb blk k
      rw [hdin'']
      refine ⟨h1.type, h1.major, h1.minor, h1.nlink, hend.trans_lt (by decide), fun i => ?_⟩
      have h3 := hst.addrs_lt (k := k) hv i
      rw [Function.update_self] at h3
      exact h3
    have htab : inode sb (iupdate sb k din' s₁).block = Function.update (inode sb blk) k din' := by
      rw [inode_iupdate hv hk hfit, hfront]
    refine Or.inr ⟨din', iupdate sb k din' s₁, if_pos hgrow, htab, h.update htab ?_ ?_, ?_⟩
    · rw [hnew] at hst
      refine stored_iupdate hv hk (hst.congr_tab hv fun i => ?_)
      by_cases hi : i = k
      · rw [hi, Function.update_self, Function.update_self]
      · rw [Function.update_of_ne hi, Function.update_of_ne hi]
    · intro h0
      rw [hdin''] at h0
      exact absurd h0 htype
    · rw [hdin'', ← hnew]
      exact hfile _
  -- the write ends inside of the file, and only data blocks change
  · have hold : max din.size (off + n) = din.size := by omega
    have hle : off + n ≤ din.size := by omega
    have hsame : din₁ = din := hW.old (Mkfs.blocksFor_mono hle)
    have htab : inode sb s₁.block = Function.update (inode sb blk) k din := by
      rw [hfront, hdin, Function.update_eq_self]
    rw [hsame] at hst
    refine Or.inr ⟨din, s₁, ?_, htab, h.update htab ?_ fun h0 => absurd h0 htype, ?_⟩
    · rw [← hsame]
      exact if_neg hgrow
    · rw [hold] at hst
      exact hst
    · have h1 := hfile din.addrs
      rw [hold] at h1
      exact h1

theorem writei_refused (devsw : DevSwitch) (hdev : din.type ≠ T_DEV)
    (hoff : off < 2 ^ 32) (hn : n < 2 ^ 32) (hbad : off > din.size ∨ MAXFILE * BSIZE < off + n) :
    writei sb devsw k src off n din s = .ok (-1, din, s) := by
  rw [writei, if_neg hdev]
  by_cases hwrap : off > din.size ∨ (off + n) % 2 ^ 32 < off
  · rw [if_pos hwrap]
  · have hbig : (off + n) % 2 ^ 32 > MAXFILE * BSIZE := by omega
    rw [if_neg hwrap, if_pos hbig]

/-! ### The other calls -/

/-- `iupdate` with other links. -/
theorem iupdate_spec (din : Dinode) (hv : sb.Ordered) (hk : k < sb.inodeCount) (h : Sound sb blk data)
    (hfit : din.Fits) (haddrs : din.addrs = (inode sb blk k).addrs) (hsize : din.size = (inode sb blk k).size)
    (hfree : din.type = 0 → (inode sb blk k).type = 0) {l : List Blockno} :
    inode sb (iupdate sb k din ⟨blk, l⟩).block = Function.update (inode sb blk) k din ∧
      Sound sb (iupdate sb k din ⟨blk, l⟩).block data := by
  have htab : inode sb (iupdate sb k din ⟨blk, l⟩).block = Function.update (inode sb blk) k din :=
    inode_iupdate hv hk hfit
  have hcnt : Function.update (sizes (inode sb blk)) k (blocksFor din.size) = sizes (inode sb blk) := by
    rw [hsize]
    exact Function.update_eq_self k _
  have hS : Sound sb (iupdate sb k din ⟨blk, l⟩).block (Function.update data k (data k)) := by
    refine h.update htab ?_ fun h0 => ?_
    · rw [hcnt, Function.update_eq_self]
      refine stored_iupdate (s := ⟨blk, l⟩) hv hk (h.stored.congr_tab hv fun i => ?_)
      by_cases hi : i = k
      · rw [hi, Function.update_self, haddrs]
      · rw [Function.update_of_ne hi]
    · rw [hsize, haddrs]
      exact h.free k (hfree h0)
  rw [Function.update_eq_self] at hS
  exact ⟨htab, hS⟩

/-- The loop of `ialloc` finds the first inode that is not in use. -/
theorem iallocLoop_spec {type i : ℕ} {l : List Blockno} (hi : sb.ninodes ≤ i + n) :
    iallocLoop sb type ⟨blk, l⟩ n i =
      ((List.range' i (sb.ninodes - i)).find? fun k => decide ((diskInode sb blk k).type = 0)).elim
        (.error ⟨"ialloc: no inodes", l⟩)
        fun k => .ok (k, iupdate sb k ⟨type, 0, 0, 0, 0, fun _ => 0⟩ ⟨blk, l⟩) := by
  induction n generalizing i with
  | zero =>
    rw [Nat.sub_eq_zero_of_le (Nat.add_zero i ▸ hi)]
    rfl
  | succ n ih =>
    by_cases hlt : i < sb.ninodes
    · have hrange : sb.ninodes - i = sb.ninodes - (i + 1) + 1 := by omega
      rw [iallocLoop, if_pos hlt, hrange, List.range'_succ]
      by_cases h0 : (diskInode sb blk i).type = 0
      · rw [List.find?_cons_of_pos (by simpa using h0)]
        exact if_pos h0
      · rw [List.find?_cons_of_neg (by simpa using h0), ← ih (by omega)]
        exact if_neg h0
    · rw [iallocLoop, if_neg hlt, Nat.sub_eq_zero_of_le (not_lt.mp hlt)]
      rfl

/-- A file that is emptied and given up. -/
theorem itrunc_free_spec (hv : sb.Ordered) (hk : k < sb.inodeCount) (h : Sound sb blk data) :
    ∃ r : Dinode × OpDisk, itrunc sb k (inode sb blk k) ⟨blk, []⟩ = .ok r ∧
      inode sb (iupdate sb k { r.1 with type := 0 } r.2).block =
        Function.update (inode sb blk) k { r.1 with type := 0 } ∧
      Sound sb (iupdate sb k { r.1 with type := 0 } r.2).block (Function.update data k fun _ => 0) ∧
      r.1 = { inode sb blk k with size := 0, addrs := fun _ => 0 } := by
  obtain ⟨s₂, hok, hfront, hst⟩ := itrunc_spec (k := k) (s := ⟨blk, []⟩) hv h.stored
  set din : Dinode := { inode sb blk k with size := 0, addrs := fun _ => 0 } with hdin
  have hfit : din.Fits := by
    have h1 := fits_inode sb blk k
    exact ⟨h1.type, h1.major, h1.minor, h1.nlink, Nat.two_pow_pos 32, fun _ => Nat.two_pow_pos 32⟩
  have hfit' : ({ din with type := 0 } : Dinode).Fits :=
    ⟨Nat.two_pow_pos 16, hfit.major, hfit.minor, hfit.nlink, hfit.size, hfit.addrs⟩
  have htab : inode sb (iupdate sb k { din with type := 0 } (iupdate sb k din s₂)).block =
      Function.update (inode sb blk) k { din with type := 0 } := by
    rw [inode_iupdate hv hk hfit', inode_iupdate hv hk hfit, inode_congr hv hfront, Function.update_idem]
  refine ⟨_, hok, htab, h.update htab ?_ fun _ => ⟨rfl, fun _ => rfl⟩, rfl⟩
  have hlarge : Mkfs.large (Function.update (sizes (inode sb blk)) k 0) =
      Function.update (Mkfs.large (sizes (inode sb blk))) k false := by
    funext i
    unfold Mkfs.large
    by_cases hi : i = k
    · rw [hi, Function.update_self, Function.update_self]
      rfl
    · rw [Function.update_of_ne hi, Function.update_of_ne hi]
  have hzero : blocksFor ({ din with type := 0 } : Dinode).size = 0 := by
    show blocksFor 0 = 0
    decide
  rw [hzero, hlarge]
  exact stored_iupdate hv hk (stored_iupdate hv hk (hst _ fun _ => rfl))

end Store

open Store

/-! ### The calls refine the store -/

namespace FsState

variable {sb : Superblock} {devsw : DevSwitch} {devread : DevRead} {σ σ' : FsState} {data : ℕ → ℕ → UInt8}
  {k n : ℕ} {din : Dinode} {s : OpDisk} {f : ℕ → UInt8}

/-- The files that a state stands for. -/
def view (sb : Superblock) (σ : FsState) : FileStore where
  file k := fileOf (inode sb σ.block k) ((inode sb σ.block k).fileByte σ.block)
  valid k := (σ.core k).isSome

/-- What holds between the calls; an inode in memory is as on the disk. -/
structure Holds (sb : Superblock) (σ : FsState) (data : ℕ → ℕ → UInt8) : Prop where
  sound : Store.Sound sb σ.block data
  core : ∀ k din, σ.core k = some din → k < sb.inodeCount ∧ din = inode sb σ.block k ∧ din.type ≠ 0

theorem Holds.file (h : σ.Holds sb data) (k : ℕ) :
    (σ.view sb).file k = fileOf (inode sb σ.block k) (data k) := h.sound.fileOf_eq k

theorem Holds.ilock_free (h : σ.Holds sb data) (hk : k < sb.inodeCount)
    (h0 : (inode sb σ.block k).type = 0) : σ.ilock sb k = .error ⟨"ilock: no type", []⟩ := by
  cases hc : σ.core k with
  | some din =>
    obtain ⟨-, rfl, htype⟩ := h.core k din hc
    exact absurd h0 htype
  | none =>
    rw [inode_eq hk] at h0
    simp only [ilock, hc, h0, if_true]

theorem Holds.ilock (h : σ.Holds sb data) (hk : k < sb.inodeCount)
    (h0 : (inode sb σ.block k).type ≠ 0) : σ.ilock sb k = .ok (inode sb σ.block k) := by
  cases hc : σ.core k with
  | some din =>
    obtain ⟨-, rfl, -⟩ := h.core k din hc
    simp only [FsState.ilock, hc]
  | none =>
    rw [inode_eq hk] at h0 ⊢
    simp only [FsState.ilock, hc, h0, if_false]

/-- The inode `k` has changed on the disk, and its file. -/
theorem Holds.change (h : σ.Holds sb data) (core : ℕ → Option Dinode) (hk : k < sb.inodeCount)
    (htab : inode sb s.block = Function.update (inode sb σ.block) k din)
    (hS : Store.Sound sb s.block (Function.update data k f))
    (hself : ∀ din', core k = some din' → din' = din ∧ din.type ≠ 0)
    (hother : ∀ i, i ≠ k → core i = σ.core i) :
    (⟨s.block, core⟩ : FsState).Holds sb (Function.update data k f) ∧
      (view sb ⟨s.block, core⟩).file = Function.update (σ.view sb).file k (fileOf din f) := by
  refine ⟨⟨hS, fun i din' hi => ?_⟩, funext fun i => ?_⟩
  · show i < sb.inodeCount ∧ din' = inode sb s.block i ∧ _
    rw [htab]
    by_cases hik : i = k
    · obtain ⟨rfl, htype⟩ := hself din' (hik ▸ hi)
      rw [hik, Function.update_self]
      exact ⟨hk, rfl, htype⟩
    · rw [Function.update_of_ne hik]
      exact h.core i din' ((hother i hik).symm.trans hi)
  · show fileOf (inode sb s.block i) ((inode sb s.block i).fileByte s.block) = _
    rw [hS.fileOf_eq i, htab]
    by_cases hik : i = k
    · rw [hik, Function.update_self, Function.update_self, Function.update_self]
    · rw [Function.update_of_ne hik, Function.update_of_ne hik, Function.update_of_ne hik, h.file i]

/-- Which inodes are in memory after one of them has come or gone. -/
theorem valid_update (core : ℕ → Option Dinode) (k : ℕ) (x : Option Dinode) (blk : Blockno → Block) :
    (view sb ⟨blk, Function.update core k x⟩).valid =
      Function.update (view sb ⟨blk, core⟩).valid k x.isSome := by
  funext i
  show (Function.update core k x i).isSome = _
  by_cases hik : i = k
  · rw [hik, Function.update_self, Function.update_self]
  · rw [Function.update_of_ne hik, Function.update_of_ne hik]
    rfl

/-- The disk and the inode `k` in memory have changed, and the file `k`. -/
theorem Holds.commit (h : σ.Holds sb data) (hk : k < sb.inodeCount)
    (htab : inode sb s.block = Function.update (inode sb σ.block) k din)
    (hS : Store.Sound sb s.block (Function.update data k f)) (htype : din.type ≠ 0) :
    (FsState.commit k σ din s).Holds sb (Function.update data k f) ∧
      (FsState.commit k σ din s).view sb = ((σ.view sb).set k (fileOf din f)).load k := by
  obtain ⟨hH, hfile⟩ := h.change (Function.update σ.core k (some din)) hk htab hS
    (fun din' hi => by
      rw [Function.update_self] at hi
      exact ⟨(Option.some.inj hi).symm, htype⟩)
    fun i hik => Function.update_of_ne hik ..
  refine ⟨hH, ?_⟩
  rw [FileStore.load, FileStore.set, ← hfile]
  exact congrArg (FileStore.mk _) (valid_update ..)

/-- A call that only reads. -/
theorem Holds.commit_self (h : σ.Holds sb data) (hk : k < sb.inodeCount)
    (htype : (inode sb σ.block k).type ≠ 0) (l : List Blockno) :
    (FsState.commit k σ (inode sb σ.block k) ⟨σ.block, l⟩).Holds sb data ∧
      (FsState.commit k σ (inode sb σ.block k) ⟨σ.block, l⟩).view sb = (σ.view sb).load k := by
  have hself : Function.update data k (data k) = data := Function.update_eq_self ..
  have hc := h.commit (s := ⟨σ.block, l⟩) (f := data k) hk (Function.update_eq_self k _).symm
    (hself.symm ▸ h.sound) htype
  have hset : (σ.view sb).set k (fileOf (inode sb σ.block k) (data k)) = σ.view sb := by
    rw [← h.file, FileStore.set, Function.update_eq_self]
  rw [hself, hset] at hc
  exact hc

/-- The states and the stores that they stand for. -/
def Stands (sb : Superblock) (σ : FsState) (F : FileStore) : Prop := (∃ data, σ.Holds sb data) ∧ σ.view sb = F

/-- A call and what it should do: the same result, or the same panic. -/
abbrev Agrees (sb : Superblock) :
    Except FsPanic (FsRet × FsState) → Except String (FsRet × FileStore) → Prop := Agree (Stands sb) FsPanic.msg

theorem Agrees.of_view {r : FsRet} {F : FileStore} (h : σ.Holds sb data) (hF : σ.view sb = F) :
    Agrees sb (.ok (r, σ)) (.ok (r, F)) := Agree.ok ⟨⟨data, h⟩, hF⟩

theorem Agrees.ok {r : FsRet} (h : σ.Holds sb data) : Agrees sb (.ok (r, σ)) (.ok (r, σ.view sb)) :=
  of_view h rfl

theorem Agrees.error {msg : String} {l : List Blockno} : Agrees sb (.error ⟨msg, l⟩) (.error msg) :=
  Agree.error (⟨msg, l⟩ : FsPanic)

section

variable (devsw devread)

theorem Holds.readi (h : σ.Holds sb data) (k : Fin sb.inodeCount) (off n : UInt32) :
    Agrees sb (step sb devsw devread σ (.readi k off n))
      (FileStore.step sb devsw devread (σ.view sb) (.readi k off n)) := by
  rw [FileStore.step, step, h.file]
  by_cases h0 : (inode sb σ.block k).type = 0
  · rw [if_pos (show (fileOf _ _).type = 0 from h0), h.ilock_free k.isLt h0]
    exact Agrees.error
  · have hc := h.commit_self k.isLt h0 []
    rw [if_neg (show ¬ (fileOf _ _).type = 0 from h0), h.ilock k.isLt h0]
    simp only [Except.bind, readi_spec devread h.sound off.toNat_lt n.toNat_lt]
    exact Agrees.of_view hc.1 hc.2

theorem Holds.stati (h : σ.Holds sb data) (k : Fin sb.inodeCount) :
    Agrees sb (step sb devsw devread σ (.stati k))
      (FileStore.step sb devsw devread (σ.view sb) (.stati k)) := by
  rw [FileStore.step, step, h.file]
  by_cases h0 : (inode sb σ.block k).type = 0
  · rw [if_pos (show (fileOf _ _).type = 0 from h0), h.ilock_free k.isLt h0]
    exact Agrees.error
  · have hc := h.commit_self k.isLt h0 []
    rw [if_neg (show ¬ (fileOf _ _).type = 0 from h0), h.ilock k.isLt h0, length_fileOf]
    exact Agrees.of_view hc.1 hc.2

/-- The files would not fit. -/
theorem Holds.not_fit (h : σ.Holds sb data) {g : StoredFile}
    (htoo : TooMuch sb (Function.update (sizes (inode sb σ.block)) k (blocksFor g.bytes.length))) :
    ¬ ((σ.view sb).set k g).Fit sb := by
  refine not_le.mpr (htoo.trans_eq (Finset.sum_congr rfl fun i _ => ?_))
  by_cases hik : i = k
  · rw [hik, FileStore.set_self, Function.update_self]
  · rw [FileStore.set_of_ne hik, Function.update_of_ne hik, h.file, length_fileOf, sizes]

/-- The files that there are fit. -/
theorem Holds.fit (h : σ.Holds sb data) : (σ.view sb).Fit sb := by
  have hroom := h.sound.stored.room (n := sb.inodeCount) fun i hi => by
    rw [Mkfs.large, sizes_eq_zero hi]
    exact ⟨rfl, rfl⟩
  refine le_trans (Finset.sum_le_sum fun i _ => ?_) hroom
  rw [h.file, length_fileOf, need_eq, sizes]

theorem Holds.writei (h : σ.Holds sb data) (hv : sb.Ordered) (k : Fin sb.inodeCount) (src : ℕ → UInt8)
    (off n : UInt32) :
    Agrees sb (step sb devsw devread σ (.writei k src off n))
      (FileStore.step sb devsw devread (σ.view sb) (.writei k src off n)) := by
  rw [FileStore.step, step, h.file]
  by_cases h0 : (inode sb σ.block k).type = 0
  · rw [if_pos (show (fileOf _ _).type = 0 from h0), h.ilock_free k.isLt h0]
    exact Agrees.error
  have hc := h.commit_self k.isLt h0 []
  rw [if_neg (show ¬ (fileOf _ _).type = 0 from h0), h.ilock k.isLt h0, length_fileOf]
  by_cases hdev : (inode sb σ.block k).type = T_DEV
  · rw [if_pos (show (fileOf _ _).type = T_DEV from hdev)]
    simp only [Except.bind, Xv6.writei, if_pos hdev]
    show Agrees sb _ (if (inode sb σ.block k).major ≥ NDEV then _ else _)
    by_cases hbig : (inode sb σ.block k).major ≥ NDEV
    · rw [if_pos hbig, if_pos hbig]
      exact Agrees.of_view hc.1 hc.2
    · rw [if_neg hbig, if_neg hbig]
      have hmajor : (fileOf (inode sb σ.block k) (data k)).major = (inode sb σ.block k).major := rfl
      rw [hmajor]
      cases devsw (inode sb σ.block k).major with
      | none => exact Agrees.of_view hc.1 hc.2
      | some write => exact Agrees.of_view hc.1 hc.2
  rw [if_neg (show ¬ (fileOf _ _).type = T_DEV from hdev)]
  by_cases hbad : off.toNat > (inode sb σ.block k).size ∨ MAXFILE * BSIZE < off.toNat + n.toNat
  · rw [if_pos hbad]
    simp only [Except.bind, writei_refused devsw hdev off.toNat_lt n.toNat_lt hbad]
    exact Agrees.of_view hc.1 hc.2
  · have hoff : off.toNat ≤ (inode sb σ.block k).size := not_lt.mp fun h1 => hbad (Or.inl h1)
    rw [if_neg hbad]
    rcases Store.writei_spec hv devsw src k.isLt h.sound h0 hdev hoff
      (not_lt.mp fun h1 => hbad (Or.inr h1)) with ⟨l, he, htoo⟩ | ⟨din', s', hok, htab, hS, hfile⟩
    · have hwlen : (FileStore.write (fileOf (inode sb σ.block k) (data k)).bytes src off.toNat n.toNat).length =
          max (inode sb σ.block k).size (off.toNat + n.toNat) := by
        rw [fileOf, write_range _ hoff, List.length_map, List.length_range]
      rw [if_neg (h.not_fit (by rw [hwlen]; exact htoo))]
      simp only [Except.bind, he]
      exact Agrees.error
    · have htype : din'.type ≠ 0 := fun h1 => h0 ((congrArg StoredFile.type hfile).symm.trans h1)
      obtain ⟨hH, hview⟩ := h.commit k.isLt htab hS htype
      rw [hfile] at hview
      have hfit := hH.fit
      rw [hview] at hfit
      simp only [Except.bind, hok]
      rw [if_pos]
      · exact Agrees.of_view hH hview
      · exact hfit

theorem Holds.iupdate (h : σ.Holds sb data) (hv : sb.Ordered) (k : Fin sb.inodeCount)
    (major minor nlink : UInt16) :
    Agrees sb (step sb devsw devread σ (.iupdate k major minor nlink))
      (FileStore.step sb devsw devread (σ.view sb) (.iupdate k major minor nlink)) := by
  rw [FileStore.step, step, h.file]
  by_cases h0 : (inode sb σ.block k).type = 0
  · rw [if_pos (show (fileOf _ _).type = 0 from h0), h.ilock_free k.isLt h0]
    exact Agrees.error
  · have hfit := fits_inode sb σ.block k
    have hfit' : ({ inode sb σ.block k with
        major := major.toNat, minor := minor.toNat, nlink := nlink.toNat } : Dinode).Fits :=
      ⟨hfit.type, major.toNat_lt, minor.toNat_lt, nlink.toNat_lt, hfit.size, hfit.addrs⟩
    obtain ⟨htab, hS⟩ := iupdate_spec (l := []) _ hv k.isLt h.sound hfit' rfl rfl fun h1 => h1
    rw [← Function.update_eq_self (k : ℕ) data] at hS
    obtain ⟨hH, hview⟩ := h.commit k.isLt htab hS h0
    rw [if_neg (show ¬ (fileOf _ _).type = 0 from h0), h.ilock k.isLt h0]
    exact Agrees.of_view hH hview

theorem lt_inodeCount (hk : k < sb.ninodes) : k < sb.inodeCount := by
  simp only [Superblock.inodeCount, IPB, BSIZE]
  omega

theorem Holds.ialloc (h : σ.Holds sb data) (hv : sb.Ordered) (type : UInt16) :
    Agrees sb (step sb devsw devread σ (.ialloc type))
      (FileStore.step sb devsw devread (σ.view sb) (.ialloc type)) := by
  have hfree : (List.range' 1 (sb.ninodes - 1)).find? (fun k => decide ((diskInode sb σ.block k).type = 0)) =
      (σ.view sb).free sb := by
    rw [FileStore.free]
    refine List.find?_congr fun k hk => ?_
    have hlt : k < sb.ninodes := by
      rw [List.mem_range'_1] at hk
      omega
    rw [h.file, inode_eq (lt_inodeCount hlt)]
    rfl
  have hloop : Xv6.ialloc sb type.toNat ⟨σ.block, []⟩ = _ := iallocLoop_spec (Nat.le_add_left sb.ninodes 1)
  rw [FileStore.step, step, hloop, hfree]
  cases hk : (σ.view sb).free sb with
  | none => exact Agrees.error
  | some k =>
    have hmem := List.mem_of_find?_eq_some hk
    have htype := List.find?_some hk
    have hlt : k < sb.inodeCount := by
      rw [List.mem_range'_1] at hmem
      exact lt_inodeCount (by omega)
    rw [decide_eq_true_iff, h.file] at htype
    have hfree := h.sound.free k htype
    obtain ⟨htab, hS⟩ := iupdate_spec (l := []) ⟨type.toNat, 0, 0, 0, 0, fun _ => 0⟩ hv hlt h.sound
      ⟨type.toNat_lt, Nat.two_pow_pos 16, Nat.two_pow_pos 16, Nat.two_pow_pos 16, Nat.two_pow_pos 32,
        fun _ => Nat.two_pow_pos 32⟩
      (funext fun i => (hfree.2 i).symm) hfree.1.symm fun _ => htype
    rw [← Function.update_eq_self k data] at hS
    obtain ⟨hH, hfile⟩ := h.change σ.core hlt htab hS
      (fun din' hi => by
        obtain ⟨-, rfl, h0⟩ := h.core k din' hi
        exact absurd htype h0)
      fun _ _ => rfl
    exact Agrees.of_view hH (congrArg (FileStore.mk · _) hfile)

theorem Holds.iput (h : σ.Holds sb data) (hv : sb.Ordered) (k : Fin sb.inodeCount) (ref : ℕ) :
    Agrees sb (step sb devsw devread σ (.iput k ref))
      (FileStore.step sb devsw devread (σ.view sb) (.iput k ref)) := by
  -- the disk stays, and the inode may go
  have hgone : ∀ i din, Function.update σ.core k none i = some din → σ.core i = some din := by
    intro i din hi
    by_cases hik : i = k
    · rw [hik, Function.update_self] at hi
      cases hi
    · rwa [Function.update_of_ne hik] at hi
  have hgo : (⟨σ.block, Function.update σ.core k none⟩ : FsState).Holds sb data :=
    ⟨h.sound, fun i din hi => h.core i din (hgone i din hi)⟩
  have hgoview : view sb ⟨σ.block, Function.update σ.core k none⟩ =
      { σ.view sb with valid := Function.update (σ.view sb).valid k false } :=
    congrArg (FileStore.mk _) (valid_update ..)
  rw [FileStore.step, step]
  cases hc : σ.core k with
  | none =>
    have hvalid : ¬ ((σ.view sb).valid k = true ∧ ((σ.view sb).file k).nlink = 0) := by
      rintro ⟨hvalid, -⟩
      change (σ.core k).isSome = true at hvalid
      rw [hc] at hvalid
      cases hvalid
    by_cases href : ref = 1
    · simp only [if_pos href, if_neg hvalid]
      exact Agrees.of_view hgo hgoview
    · simp only [if_neg href]
      exact Agrees.ok h
  | some din =>
    obtain ⟨-, hdin, htype⟩ := h.core k din hc
    have hvalid : (σ.view sb).valid k = true := by
      show (σ.core k).isSome = true
      rw [hc]
      rfl
    have hlink : ((σ.view sb).file k).nlink = din.nlink := by
      rw [h.file, hdin]
      rfl
    show Agrees sb (if din.nlink = 0 ∧ ref = 1 then _ else _) _
    by_cases href : ref = 1
    · by_cases h0 : din.nlink = 0
      · obtain ⟨⟨din₁, s₁⟩, hok, htab, hS, rfl⟩ := itrunc_free_spec hv k.isLt h.sound
        obtain ⟨hH, hfile⟩ := h.change (Function.update σ.core k none) k.isLt htab hS
          (fun din' hi => by
            rw [Function.update_self] at hi
            cases hi)
          fun i hik => Function.update_of_ne hik ..
        have hlast : (σ.view sb).valid k = true ∧ ((σ.view sb).file k).nlink = 0 := ⟨hvalid, hlink.trans h0⟩
        rw [if_pos (And.intro h0 href), if_pos href, if_pos href, if_pos hlast, hdin, hok]
        refine Agrees.of_view hH ?_
        rw [FileStore.set, h.file]
        exact congrArg₂ FileStore.mk hfile (congrArg FileStore.valid hgoview)
      · have hkept : ¬ ((σ.view sb).valid k = true ∧ ((σ.view sb).file k).nlink = 0) :=
          fun hand => h0 (hlink.symm.trans hand.2)
        rw [if_neg fun hand => h0 (And.left hand), if_pos href, if_pos href, if_neg hkept]
        exact Agrees.of_view hgo hgoview
    · rw [if_neg fun hand => href (And.right hand), if_neg href, if_neg href]
      exact Agrees.ok h

/-- Each call does what it does to the files. -/
theorem Holds.step (h : σ.Holds sb data) (hv : sb.Ordered) (a : FsOp sb) :
    Agrees sb (FsState.step sb devsw devread σ a) (FileStore.step sb devsw devread (σ.view sb) a) := by
  cases a with
  | readi k off n => exact h.readi devsw devread k off n
  | writei k src off n => exact h.writei devsw devread hv k src off n
  | stati k => exact h.stati devsw devread k
  | iupdate k major minor nlink => exact h.iupdate devsw devread hv k major minor nlink
  | ialloc type => exact h.ialloc devsw devread hv type
  | iput k ref => exact h.iput devsw devread hv k ref

theorem refines (hv : sb.Ordered) : Refines (FsState.step sb devsw devread)
    (FileStore.step sb devsw devread) (Stands sb) FsPanic.msg := by
  refine Refines.of_agree ?_
  rintro σ _ ⟨⟨data, h⟩, rfl⟩ a
  exact h.step devsw devread hv a

end

end FsState

/-! ### References -/

section

variable {sb : Superblock} {σ τ ε ε' : Type} {R : σ → τ → Prop} {msg : ε → ε'} {fail : String → ε}
  {fail' : String → ε'} {refs : InodeRefs sb}

/-- What is done with the references: the same, or the same panic. -/
theorem iget_mapError (hfail : ∀ m, msg (fail m) = fail' m) (refs : InodeRefs sb) (k : Fin sb.inodeCount) :
    (refs.iget fail k).mapError msg = refs.iget fail' k := by
  unfold InodeRefs.iget
  split_ifs with hfull
  · exact congrArg Except.error (hfail _)
  · rfl

theorem igetRet_mapError (hfail : ∀ m, msg (fail m) = fail' m) (refs : InodeRefs sb) (r : FsRet) :
    (refs.igetRet fail r).mapError msg = refs.igetRet fail' r := by
  cases r with
  | inum k =>
    rw [InodeRefs.igetRet, InodeRefs.igetRet]
    split_ifs with hk
    · exact iget_mapError hfail refs ⟨k, hk⟩
    · exact congrArg Except.error (hfail _)
  | _ => rfl

/-- Those that are related, with the same references. -/
def WithRefs (R : σ → τ → Prop) (s : σ × InodeRefs sb) (t : τ × InodeRefs sb) : Prop := R s.1 t.1 ∧ s.2 = t.2

/-- A call, and then its references. -/
theorem agree_refs {x : Except ε (FsRet × σ)} {y : Except ε' (FsRet × τ)} (h : Agree R msg x y)
    {f : FsRet → Except ε (InodeRefs sb)} {f' : FsRet → Except ε' (InodeRefs sb)}
    (hf : ∀ r, (f r).mapError msg = f' r) :
    Agree (WithRefs R) msg (x.bind fun r => (f r.1).map fun refs => (r.1, r.2, refs))
      (y.bind fun r => (f' r.1).map fun refs => (r.1, r.2, refs)) := by
  cases h with
  | error e => exact Agree.error e
  | @ok r s t hR =>
    show Agree (WithRefs R) msg ((f r).map fun refs => (r, s, refs)) ((f' r).map fun refs => (r, t, refs))
    rw [← hf r]
    cases f r with
    | error e => exact Agree.error e
    | ok refs => exact Agree.ok ⟨hR, rfl⟩

theorem agree_keep_refs {x : Except ε (FsRet × σ)} {y : Except ε' (FsRet × τ)} (h : Agree R msg x y)
    (refs : InodeRefs sb) :
    Agree (WithRefs R) msg (x.map fun r => (r.1, r.2, refs)) (y.map fun r => (r.1, r.2, refs)) := by
  cases h with
  | error e => exact Agree.error e
  | ok hR => exact Agree.ok ⟨hR, rfl⟩

theorem agree_locked {x : Except ε (FsRet × σ)} {y : Except ε' (FsRet × τ)} (h : Agree R msg x y)
    (hfail : ∀ m, msg (fail m) = fail' m) (refs : InodeRefs sb) (k : Fin sb.inodeCount) :
    Agree (WithRefs R) msg (refs.locked fail k x) (refs.locked fail' k y) := by
  unfold InodeRefs.locked
  split_ifs with hk
  · rw [← hfail]
    exact Agree.error _
  · exact agree_keep_refs h refs

/-- Counting the references keeps a refinement. -/
theorem withRefs_refines {step : σ → FsOp sb → Except ε (FsRet × σ)}
    {step' : τ → FsOp sb → Except ε' (FsRet × τ)} (h : Refines step step' R msg)
    (hfail : ∀ m, msg (fail m) = fail' m) :
    Refines (withRefs step fail) (withRefs step' fail') (WithRefs R) msg := by
  refine Refines.of_agree ?_
  rintro ⟨s, refs⟩ ⟨t, _⟩ ⟨hR, rfl⟩ a
  cases a with
  | readi k off n => exact agree_locked (h.agree hR _) hfail refs k
  | writei k src off n => exact agree_locked (h.agree hR _) hfail refs k
  | stati k => exact agree_locked (h.agree hR _) hfail refs k
  | iupdate k major minor nlink => exact agree_locked (h.agree hR _) hfail refs k
  | ialloc type => exact agree_refs (h.agree hR _) fun r => igetRet_mapError hfail refs r
  | iget k =>
    have hvoid : Agree R msg (.ok (FsRet.void, s)) (.ok (FsRet.void, t)) := Agree.ok hR
    exact agree_refs hvoid fun _ => iget_mapError hfail refs k
  | idup k => exact Agree.ok ⟨hR, rfl⟩
  | iput k => exact agree_keep_refs (h.agree hR _) _

end

/-- The calls on the files. -/
def FileStore.call (sb : Superblock) (devsw : DevSwitch) (devread : DevRead) :
    FileStore × InodeRefs sb → InodeOp sb → Except String (FsRet × FileStore × InodeRefs sb) :=
  withRefs (FileStore.step sb devsw devread) id

namespace FsState

variable {sb : Superblock} {devsw : DevSwitch} {devread : DevRead} {σ σ' : FsState} {refs refs' : InodeRefs sb}
  {r : FsRet}

theorem call_refines (devsw : DevSwitch) (devread : DevRead) (hv : sb.Ordered) :
    Refines (FsState.call sb devsw devread) (FileStore.call sb devsw devread) (WithRefs (Stands sb))
      FsPanic.msg := withRefs_refines (refines devsw devread hv) fun _ => rfl

/-- A call on an inode that is locked leaves the others in memory as they were. -/
theorem Counted.locked {k : Fin sb.inodeCount} {x : Except FsPanic (FsRet × FsState)} (h : σ.Counted refs)
    (hx : ∀ r σ', x = .ok (r, σ') → ∃ din, σ'.core = Function.update σ.core k (some din))
    {fail : String → FsPanic} (hc : refs.locked fail k x = .ok (r, σ', refs')) : σ'.Counted refs' := by
  unfold InodeRefs.locked at hc
  split_ifs at hc with h0
  obtain ⟨⟨r₁, σ₁⟩, hok, heq⟩ := map_ok hc
  obtain ⟨din, hcore⟩ := hx r₁ σ₁ hok
  obtain ⟨-, heq⟩ := Prod.mk.inj heq
  obtain ⟨rfl, rfl⟩ := Prod.mk.inj heq
  intro i hi
  have hik : (i : ℕ) ≠ k := fun hik => h0 (Fin.ext hik ▸ hi)
  rw [hcore, Function.update_of_ne hik]
  exact h i hi

/-- Another reference to an inode. -/
theorem Counted.more {k : Fin sb.inodeCount} (h : σ.Counted refs) :
    σ.Counted (Function.update refs k (refs k + 1)) := by
  intro i hi
  by_cases hik : i = k
  · rw [hik, Function.update_self] at hi
    exact absurd hi (Nat.succ_ne_zero _)
  · rw [Function.update_of_ne hik] at hi
    exact h i hi

theorem Counted.iget {k : Fin sb.inodeCount} {fail : String → FsPanic} (h : σ.Counted refs)
    (hc : refs.iget fail k = .ok refs') : σ.Counted refs' := by
  unfold InodeRefs.iget at hc
  split_ifs at hc
  obtain rfl := Except.ok.inj hc
  exact h.more

theorem Counted.igetRet {fail : String → FsPanic} (h : σ.Counted refs)
    (hc : refs.igetRet fail r = .ok refs') : σ.Counted refs' := by
  cases r with
  | inum k =>
    rw [InodeRefs.igetRet] at hc
    split_ifs at hc with hk
    exact h.iget hc
  | _ =>
    obtain rfl := Except.ok.inj hc
    exact h

/-- With the last reference an inode leaves the memory. -/
theorem Counted.iput {k : Fin sb.inodeCount} (h : σ.Counted refs)
    (hs : FsState.step sb devsw devread σ (.iput k (refs k)) = .ok (r, σ')) :
    σ'.Counted (Function.update refs k (refs k - 1)) := by
  have hcore : σ'.core = if refs k = 1 then Function.update σ.core k none else σ.core := by
    rw [FsState.step] at hs
    cases hk : σ.core k with
    | none =>
      rw [hk] at hs
      exact congrArg FsState.core (Prod.mk.inj (Except.ok.inj hs)).2.symm
    | some din =>
      rw [hk] at hs
      by_cases hfree : din.nlink = 0 ∧ refs k = 1
      · simp only [if_pos hfree] at hs
        obtain ⟨x, -, hx⟩ := bind_ok hs
        exact congrArg FsState.core (Prod.mk.inj (Except.ok.inj hx)).2.symm
      · simp only [if_neg hfree] at hs
        exact congrArg FsState.core (Prod.mk.inj (Except.ok.inj hs)).2.symm
  intro i hi
  rw [hcore]
  by_cases hik : i = k
  · rw [hik, Function.update_self] at hi
    by_cases h1 : refs k = 1
    · rw [if_pos h1, hik, Function.update_self]
    · rw [if_neg h1, hik]
      exact h k (by omega)
  · rw [Function.update_of_ne hik] at hi
    split_ifs with h1
    · rw [Function.update_of_ne fun hval => hik (Fin.ext hval)]
      exact h i hi
    · exact h i hi

/-- **Inodes without references stay out of memory**, whatever is called. -/
theorem Counted.call {a : InodeOp sb} (h : σ.Counted refs)
    (hc : FsState.call sb devsw devread (σ, refs) a = .ok (r, σ', refs')) : σ'.Counted refs' := by
  cases a with
  | readi k off n =>
    rw [FsState.call, withRefs] at hc
    refine h.locked (fun r σ' hs => ?_) hc
    obtain ⟨din, -, hs⟩ := bind_ok hs
    obtain ⟨x, -, hs⟩ := bind_ok hs
    exact ⟨_, congrArg FsState.core (Prod.mk.inj (Except.ok.inj hs)).2.symm⟩
  | writei k src off n =>
    rw [FsState.call, withRefs] at hc
    refine h.locked (fun r σ' hs => ?_) hc
    obtain ⟨din, -, hs⟩ := bind_ok hs
    obtain ⟨x, -, hs⟩ := bind_ok hs
    exact ⟨_, congrArg FsState.core (Prod.mk.inj (Except.ok.inj hs)).2.symm⟩
  | stati k =>
    rw [FsState.call, withRefs] at hc
    refine h.locked (fun r σ' hs => ?_) hc
    obtain ⟨din, -, hs⟩ := bind_ok hs
    exact ⟨_, congrArg FsState.core (Prod.mk.inj (Except.ok.inj hs)).2.symm⟩
  | iupdate k major minor nlink =>
    rw [FsState.call, withRefs] at hc
    refine h.locked (fun r σ' hs => ?_) hc
    obtain ⟨din, -, hs⟩ := bind_ok hs
    exact ⟨_, congrArg FsState.core (Prod.mk.inj (Except.ok.inj hs)).2.symm⟩
  | ialloc type =>
    obtain ⟨⟨r₁, σ₁⟩, hs, hc⟩ := bind_ok hc
    obtain ⟨x, -, hs⟩ := bind_ok hs
    obtain ⟨refs₁, hrefs, heq⟩ := map_ok hc
    obtain ⟨-, heq⟩ := Prod.mk.inj heq
    obtain ⟨rfl, rfl⟩ := Prod.mk.inj heq
    have hcore := congrArg FsState.core (Prod.mk.inj (Except.ok.inj hs)).2
    have h₁ : σ₁.Counted refs := fun i hi => (congrFun hcore i).symm.trans (h i hi)
    exact h₁.igetRet hrefs
  | iget k =>
    obtain ⟨refs₁, hrefs, heq⟩ := map_ok hc
    obtain ⟨-, heq⟩ := Prod.mk.inj heq
    obtain ⟨rfl, rfl⟩ := Prod.mk.inj heq
    exact h.iget hrefs
  | idup k =>
    obtain ⟨-, heq⟩ := Prod.mk.inj (Except.ok.inj hc)
    obtain ⟨rfl, rfl⟩ := Prod.mk.inj heq
    exact h.more
  | iput k =>
    obtain ⟨⟨r₁, σ₁⟩, hs, heq⟩ := map_ok hc
    obtain ⟨-, heq⟩ := Prod.mk.inj heq
    obtain ⟨rfl, rfl⟩ := Prod.mk.inj heq
    exact h.iput hs

/-- The calls and the references to the inodes in memory together. -/
theorem calls_refine (devsw : DevSwitch) (devread : DevRead) (hv : sb.Ordered) :
    Refines (FsState.call sb devsw devread) (FileStore.call sb devsw devread)
      (fun s t => WithRefs (Stands sb) s t ∧ s.1.Counted s.2) FsPanic.msg :=
  (call_refines devsw devread hv).and_keeps (I := fun s => s.1.Counted s.2) fun hI hc => hI.call hc

theorem Holds.withRefs {data : ℕ → ℕ → UInt8} (h : σ.Holds sb data) (hrefs : σ.Counted refs) :
    WithRefs (Stands sb) (σ, refs) (σ.view sb, refs) ∧ σ.Counted refs :=
  ⟨⟨⟨⟨data, h⟩, rfl⟩, rfl⟩, hrefs⟩

end FsState

end OsSemester.Xv6
