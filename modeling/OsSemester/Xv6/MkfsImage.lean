import OsSemester.Xv6.FileWrite
import OsSemester.Xv6.MkfsAppend

/-!
# The image that `mkfs` builds

`Image s tab file` says that the inodes on the disk are `tab` and that each has the bytes of `file`.  The
steps of `main` keep it, with the bytes that they append, and at the end the bitmap and the rounded size
of the root directory are written.
-/

namespace OsSemester.Xv6.Mkfs

/-- The inodes that there is room for. -/
abbrev inodeCount : ℕ := ninodeblocks * IPB

/-- An inode that has never been written. -/
def noInode : Dinode := ⟨0, 0, 0, 0, 0, fun _ => 0⟩

/-- A file system that is being built: the inodes on the disk, and the bytes of the files. -/
structure Image (s : State) (tab : ℕ → Dinode) (file : ℕ → List UInt8) : Prop where
  placed : Placed s tab (fun k => blocksFor (file k).length) (large fun k => blocksFor (file k).length)
    fun k off => (file k).getD off 0
  disk : ∀ k, k < inodeCount → s.rinode k = some (tab k)
  beyond : ∀ k, inodeCount ≤ k → tab k = noInode
  fits : ∀ k, (tab k).Fits
  size : ∀ k, (tab k).size = (file k).length
  super : s.img 1 = superBlock
  total : s.freeblock = nmeta + ∑ k ∈ Finset.range inodeCount, need (blocksFor (file k).length)

variable {s : State} {tab tab' : ℕ → Dinode} {cnt : ℕ → ℕ} {ind : ℕ → Bool} {data : ℕ → ℕ → UInt8}
  {file : ℕ → List UInt8} {k n : ℕ} {p : List UInt8} {din : Dinode}

/-! ### Inodes on the disk -/

theorem IBLOCK_eq (hk : k < inodeCount) : @Eq ℕ (IBLOCK k sb) (k / 8 + 32) ∧ IBLOCK k sb < 58 := by
  have h1 : @Eq ℕ (IBLOCK k sb) ((k / 8 + 32) % 2 ^ 32) := rfl
  have h2 : k < 208 := hk
  have h3 : (k / 8 + 32) % 2 ^ 32 = k / 8 + 32 := Nat.mod_eq_of_lt (by omega)
  refine ⟨h1.trans h3, ?_⟩
  rw [h1, h3]
  show k / 8 + 32 < 58
  omega

theorem rinode_eq (hk : k < inodeCount) : s.rinode k = some ((s.img (IBLOCK k sb)).dinode (k % IPB)) := by
  have h1 := (IBLOCK_eq hk).2
  rw [State.rinode, rsect_eq (h1.trans (by decide))]
  rfl

/-- Writing an inode. -/
theorem winode_spec (hdisk : ∀ k, k < inodeCount → s.rinode k = some (tab k)) (hk : k < inodeCount)
    (hfit : din.Fits) :
    ∃ img, s.winode k din = some { s with img := img } ∧
      (∀ k', k' < inodeCount → State.rinode { s with img := img } k' = some (Function.update tab k din k')) ∧
      ∀ b : ℕ, b < 32 ∨ 58 ≤ b → img b = s.img b := by
  obtain ⟨heq, hlt⟩ := IBLOCK_eq hk
  refine ⟨Function.update s.img (IBLOCK k sb) ((s.img (IBLOCK k sb)).setDinode (k % IPB) din), ?_,
    fun k' hk' => ?_, fun b hb => ?_⟩
  · rw [State.winode, rsect_eq (hlt.trans (by decide))]
    rfl
  · have hold := hdisk k' hk'
    rw [rinode_eq hk'] at hold ⊢
    have hmod : k % IPB < IPB ∧ k' % IPB < IPB := ⟨Nat.mod_lt _ (by decide), Nat.mod_lt _ (by decide)⟩
    obtain ⟨heq', -⟩ := IBLOCK_eq hk'
    show some (Block.dinode (Function.update s.img _ _ (IBLOCK k' sb)) (k' % IPB)) = _
    by_cases hkk : k' = k
    · rw [hkk, Function.update_self, Function.update_self, Block.dinode_setDinode hmod.1 hfit]
    · rw [Function.update_of_ne hkk]
      by_cases hb : IBLOCK k' sb = IBLOCK k sb
      · have hb' : @Eq ℕ (IBLOCK k' sb) (IBLOCK k sb) := hb
        have hne : k' % IPB ≠ k % IPB := by
          show k' % 8 ≠ k % 8
          omega
        rw [hb, Function.update_self, Block.dinode_setDinode_of_ne hne hmod.2, ← hb]
        exact hold
      · rw [Function.update_of_ne hb]
        exact hold
  · refine Function.update_of_ne (fun h => ?_) ..
    have h' : @Eq ℕ b (IBLOCK k sb) := h
    have hk' : k < 208 := hk
    omega

/-- Only the addresses in the inodes matter for the blocks. -/
theorem Placed.congr_tab (hp : Placed s tab cnt ind data) (h : ∀ k, (tab' k).addrs = (tab k).addrs) :
    Placed s tab' cnt ind data := by
  have hind : ∀ k, (tab' k).indirect = (tab k).indirect := fun k => congrFun (h k) _
  have haddr : ∀ k bn, (tab' k).addr s.img bn = (tab k).addr s.img bn := by
    intro k bn
    unfold Dinode.addr
    rw [hind, Dinode.direct, Dinode.direct, h]
  have hplace : place tab' s.img = place tab s.img := by
    funext u
    cases u with
    | indirect k => rw [place, place, hind]
    | data k bn => rw [place, place, haddr]
  refine ⟨hplace.symm ▸ hp.bump, hp.le, hp.le_size, ?_, ?_, hp.cnt_le, ?_, hp.blank, hp.beyond⟩
  · intro k bn hbn
    rw [haddr]
    exact hp.alloc k bn hbn
  · intro k
    rw [hind]
    exact hp.indirect k
  · intro k bn j hbn hj
    rw [haddr]
    exact hp.bytes k bn j hbn hj

/-! ### Room -/

/-- The files that are built have room in the image. -/
structure Budget (final : ℕ → List UInt8) : Prop where
  length_le : ∀ k, (final k).length ≤ MAXFILE * BSIZE
  room : nmeta + ∑ k ∈ Finset.range inodeCount, need (blocksFor (final k).length) ≤ FSSIZE

/-- The blocks of all files when one of them changes. -/
theorem sum_update (F : List UInt8 → ℕ) (file : ℕ → List UInt8) (v : List UInt8) (hk : k < n) :
    ∑ i ∈ Finset.range n, F (Function.update file k v i) + F (file k) =
      ∑ i ∈ Finset.range n, F (file i) + F v := by
  have hmem : k ∈ Finset.range n := Finset.mem_range.mpr hk
  have hrest : ∑ i ∈ (Finset.range n).erase k, F (Function.update file k v i) =
      ∑ i ∈ (Finset.range n).erase k, F (file i) :=
    Finset.sum_congr rfl fun i hi => by rw [Function.update_of_ne (Finset.ne_of_mem_erase hi)]
  rw [← Finset.add_sum_erase _ _ hmem, ← Finset.add_sum_erase _ (fun i => F (file i)) hmem, hrest,
    Function.update_self]
  omega

/-! ### The calls of `main` -/

theorem iappend_spec {final : ℕ → List UInt8} (hi : Image s tab file) (hb : Budget final)
    (hk : k < inodeCount) (hle : ∀ i, (Function.update file k (file k ++ p) i).length ≤ (final i).length) :
    ∃ s' tab', s.iappend k p = some s' ∧ Image s' tab' (Function.update file k (file k ++ p)) ∧
      s'.freeinode = s.freeinode ∧ ∀ i, (tab' i).type = (tab i).type := by
  have hsum := sum_update (fun l => need (blocksFor l.length)) file (file k ++ p) hk
  have hmono : ∑ i ∈ Finset.range inodeCount, need (blocksFor (Function.update file k (file k ++ p) i).length) ≤
      ∑ i ∈ Finset.range inodeCount, need (blocksFor (final i).length) :=
    Finset.sum_le_sum fun i _ => need_mono (blocksFor_mono (hle i))
  have hroom := hb.room
  have htotal := hi.total
  have hlen : (file k ++ p).length ≤ MAXFILE * BSIZE := by
    have h1 := hle k
    rw [Function.update_self] at h1
    exact h1.trans (hb.length_le k)
  obtain ⟨din', s1, hloop, happ⟩ := iappendLoop_spec le_rfl hi.placed rfl (fun _ => rfl) hlen
    (by omega)
  have hplaced := happ.placed
  have hcnt : Function.update (fun i => blocksFor (file i).length) k (blocksFor (file k ++ p).length) =
      fun i => blocksFor (Function.update file k (file k ++ p) i).length := by
    funext i
    by_cases hik : i = k
    · rw [hik, Function.update_self, Function.update_self]
    · rw [Function.update_of_ne hik, Function.update_of_ne hik]
  have hdata : Function.update (fun i off => (file i).getD off 0) k (fun off => (file k ++ p).getD off 0) =
      fun i off => (Function.update file k (file k ++ p) i).getD off 0 := by
    funext i
    by_cases hik : i = k
    · rw [hik, Function.update_self, Function.update_self]
    · rw [Function.update_of_ne hik, Function.update_of_ne hik]
  rw [hcnt, hdata] at hplaced
  -- the inode is written with the new size
  set din : Dinode := { din' with size := (file k ++ p).length } with hdin
  have hself : Function.update tab k din' k = din' := Function.update_self ..
  have hfit : din.Fits := by
    have h1 := hi.fits k
    have h2 := happ.kept
    rw [Kept] at h2
    refine ⟨?_, ?_, ?_, ?_, hlen.trans_lt (by decide), fun i => ?_⟩
    · rw [hdin, h2]
      exact h1.type
    · rw [hdin, h2]
      exact h1.major
    · rw [hdin, h2]
      exact h1.minor
    · rw [hdin, h2]
      exact h1.nlink
    · have h3 := hplaced.addrs_lt (k := k) i
      rwa [hself] at h3
  have hdisk : ∀ i, i < inodeCount → s1.rinode i = some (tab i) := by
    intro i hi'
    have h1 := hi.disk i hi'
    rw [rinode_eq hi'] at h1 ⊢
    rw [happ.frame.img _ ((IBLOCK_eq hi').2.trans (by decide))]
    exact h1
  obtain ⟨img, hw, hdisk', himg⟩ := winode_spec hdisk hk hfit
  refine ⟨_, Function.update tab k din, ?_, ⟨?_, hdisk', ?_, ?_, ?_, ?_, ?_⟩, happ.frame.freeinode, fun i => ?_⟩
  · rw [State.iappend, hi.disk k hk]
    show (s.iappendLoop p.length (tab k) (tab k).size p).bind
      (fun r => r.2.2.winode k { r.1 with size := r.2.1 }) = _
    rw [hi.size, hloop]
    exact hw
  · refine Placed.congr_tab (hplaced.congr_img rfl fun b hb => himg b (.inr ?_)) fun i => ?_
    · exact (show 58 ≤ nmeta by decide).trans hb
    · by_cases hik : i = k
      · rw [hik, Function.update_self, Function.update_self]
      · rw [Function.update_of_ne hik, Function.update_of_ne hik]
  · intro i hi'
    rw [Function.update_of_ne (by omega)]
    exact hi.beyond i hi'
  · intro i
    by_cases hik : i = k
    · rw [hik, Function.update_self]
      exact hfit
    · rw [Function.update_of_ne hik]
      exact hi.fits i
  · intro i
    by_cases hik : i = k
    · rw [hik, Function.update_self, Function.update_self]
    · rw [Function.update_of_ne hik, Function.update_of_ne hik]
      exact hi.size i
  · show img 1 = _
    rw [himg 1 (.inl (by decide)), happ.frame.img 1 (by decide)]
    exact hi.super
  · have h1 := happ.taken
    show s1.freeblock = _
    omega
  · by_cases hik : i = k
    · have h2 := happ.kept
      rw [Kept] at h2
      rw [hik, Function.update_self, hdin, h2]
    · rw [Function.update_of_ne hik]

/-- A file without bytes has no addresses. -/
theorem Image.addrs_eq_zero (hi : Image s tab file) (hk : file k = []) : (tab k).addrs = noInode.addrs := by
  have hcnt : blocksFor (file k).length = 0 := by rw [hk]; rfl
  funext i
  show (tab k).addrs i = 0
  obtain hlt | hge := Nat.lt_or_ge (i : ℕ) NDIRECT
  · have hmax : (i : ℕ) < MAXFILE := hlt.trans (by decide)
    have haddr : (tab k).addr s.img i = (tab k).addrs i :=
      (Dinode.addr_of_lt hlt).trans (congrArg (tab k).addrs (Fin.ofNat_val_eq_self i))
    by_contra h
    have h1 := (hi.placed.alloc k i hmax).mp (haddr ▸ h)
    rw [hcnt] at h1
    exact absurd h1 (Nat.not_lt_zero _)
  · have hi' : i = Fin.ofNat (NDIRECT + 1) NDIRECT := by
      have := i.isLt
      rw [Fin.ext_iff, Fin.val_ofNat]
      simp only [NDIRECT] at *
      omega
    by_contra h
    have h1 := (hi.placed.indirect k).mp (by rwa [hi'] at h)
    have h2 : NDIRECT < blocksFor (file k).length := of_decide_eq_true h1
    rw [hcnt] at h2
    exact absurd h2 (Nat.not_lt_zero _)

theorem ialloc_spec (type : ℕ) (hi : Image s tab file) (hk : s.freeinode < inodeCount)
    (hfile : file s.freeinode = []) (htype : type < 2 ^ 16) :
    ∃ s' tab', s.ialloc type = some (s.freeinode, s') ∧ Image s' tab' file ∧
      s'.freeinode = s.freeinode + 1 ∧ (tab' s.freeinode).type = type ∧
      ∀ i, i ≠ s.freeinode → tab' i = tab i := by
  set k := s.freeinode with hkdef
  set din : Dinode := ⟨type, 0, 0, 1, 0, fun _ => 0⟩ with hdin
  have hfit : din.Fits := ⟨htype, show 0 < 2 ^ 16 by decide, show 0 < 2 ^ 16 by decide,
    show 1 < 2 ^ 16 by decide, show 0 < 2 ^ 32 by decide, fun _ => show 0 < 2 ^ 32 by decide⟩
  have haddrs := hi.addrs_eq_zero hfile
  obtain ⟨img, hw, hdisk, himg⟩ := winode_spec (s := { s with freeinode := k + 1 }) hi.disk hk hfit
  refine ⟨_, Function.update tab k din, ?_, ⟨?_, hdisk, ?_, ?_, ?_, ?_, hi.total⟩, rfl, ?_, fun i hik =>
    Function.update_of_ne hik ..⟩
  · rw [State.ialloc]
    show (do
      let s' ← State.winode { s with freeinode := k + 1 } k din
      return (k, s')) = _
    rw [hw]
    rfl
  · refine Placed.congr_tab (hi.placed.congr_img rfl fun b hb => himg b (.inr ?_)) fun i => ?_
    · exact (show 58 ≤ nmeta by decide).trans hb
    · by_cases hik : i = k
      · rw [hik, Function.update_self, haddrs]
        rfl
      · rw [Function.update_of_ne hik]
  · intro i hi'
    rw [Function.update_of_ne (by omega)]
    exact hi.beyond i hi'
  · intro i
    by_cases hik : i = k
    · rw [hik, Function.update_self]
      exact hfit
    · rw [Function.update_of_ne hik]
      exact hi.fits i
  · intro i
    by_cases hik : i = k
    · rw [hik, Function.update_self, hfile]
      rfl
    · rw [Function.update_of_ne hik]
      exact hi.size i
  · show img 1 = _
    rw [himg 1 (.inl (by decide))]
    exact hi.super
  · rw [Function.update_self]

/-- The reads of a host file, one after the other. -/
theorem reads_spec {final : ℕ → List UInt8} (reads : List (List UInt8)) (hi : Image s tab file)
    (hb : Budget final) (hk : k < inodeCount)
    (hle : ∀ i, (Function.update file k (file k ++ reads.flatten) i).length ≤ (final i).length) :
    ∃ s' tab', reads.foldlM (fun s p => s.iappend k p) s = some s' ∧
      Image s' tab' (Function.update file k (file k ++ reads.flatten)) ∧
      s'.freeinode = s.freeinode ∧ ∀ i, (tab' i).type = (tab i).type := by
  induction reads generalizing s tab file with
  | nil =>
    refine ⟨s, tab, rfl, ?_, rfl, fun _ => rfl⟩
    rw [List.flatten_nil, List.append_nil, Function.update_eq_self]
    exact hi
  | cons p reads ih =>
    rw [List.flatten_cons, ← List.append_assoc] at hle ⊢
    have hle1 : ∀ i, (Function.update file k (file k ++ p) i).length ≤ (final i).length := by
      intro i
      refine Nat.le_trans ?_ (hle i)
      by_cases hik : i = k
      · rw [hik, Function.update_self, Function.update_self]
        exact (List.prefix_append _ _).length_le
      · rw [Function.update_of_ne hik, Function.update_of_ne hik]
    obtain ⟨s1, tab1, hrun, hi1, hfree, htype⟩ := iappend_spec hi hb hk hle1
    have hself : Function.update file k (file k ++ p) k = file k ++ p := Function.update_self ..
    obtain ⟨s2, tab2, hrun2, hi2, hfree2, htype2⟩ := ih hi1 (by rwa [hself, Function.update_idem])
    rw [hself, Function.update_idem] at hi2
    refine ⟨s2, tab2, ?_, hi2, hfree2.trans hfree, fun i => (htype2 i).trans (htype i)⟩
    rw [List.foldlM_cons, hrun]
    exact hrun2

/-! ### The files of the image -/

/-- The entries of the root directory. -/
def rootEntries (files : List HostFile) : List UInt8 :=
  dirent ROOTINO [46] ++ (dirent ROOTINO [46, 46] ++
    (files.mapIdx fun i f => dirent (i + 2) f.entryName).flatten)

/-- The files of the image by their inode numbers. -/
def contents (files : List HostFile) (k : ℕ) : List UInt8 :=
  ([] :: rootEntries files :: files.map HostFile.content).getD k []

theorem length_dirent (inum : ℕ) (name : List UInt8) : (dirent inum name).length = 16 := by
  simp [dirent, DIRSIZ]

theorem rootEntries_concat (files : List HostFile) (f : HostFile) :
    rootEntries (files ++ [f]) = rootEntries files ++ dirent (files.length + 2) f.entryName := by
  simp [rootEntries, List.mapIdx_append]

theorem length_rootEntries (files : List HostFile) : (rootEntries files).length = 16 * (files.length + 2) := by
  induction files using List.reverseRecOn with
  | nil => simp [rootEntries, length_dirent]
  | append_singleton files f ih =>
    rw [rootEntries_concat, List.length_append, length_dirent, ih, List.length_append, List.length_singleton]
    omega

theorem contents_root (files : List HostFile) : contents files 1 = rootEntries files := rfl

theorem contents_file (files : List HostFile) (i : ℕ) :
    contents files (i + 2) = (files.map HostFile.content).getD i [] := rfl

/-- Another file at the end. -/
theorem contents_concat (files : List HostFile) (f : HostFile) :
    contents (files ++ [f]) = Function.update
      (Function.update (contents files) 1 (rootEntries files ++ dirent (files.length + 2) f.entryName))
      (files.length + 2) f.content := by
  funext k
  match k with
  | 0 => rw [Function.update_of_ne (by omega), Function.update_of_ne (by omega)]; rfl
  | 1 => rw [Function.update_of_ne (by omega), Function.update_self, contents_root, rootEntries_concat]
  | i + 2 =>
    rw [contents_file, List.map_append, List.map_singleton]
    obtain hlt | rfl | hlt := Nat.lt_trichotomy i files.length
    · rw [Function.update_of_ne (by omega), Function.update_of_ne (by omega), contents_file,
        List.getD_append _ _ _ _ (by rwa [List.length_map])]
    · rw [Function.update_self, List.getD_append_right _ _ _ _ (by rw [List.length_map]), List.length_map,
        Nat.sub_self]
      rfl
    · rw [Function.update_of_ne (by omega), Function.update_of_ne (by omega), contents_file,
        List.getD_eq_default _ _ (by simp; omega), List.getD_eq_default _ _ (by simp; omega)]

/-- The files after some of the command line are no longer than those at the end. -/
theorem length_contents_le (done rest : List HostFile) (k : ℕ) :
    (contents done k).length ≤ (contents (done ++ rest) k).length := by
  match k with
  | 0 => exact le_rfl
  | 1 =>
    rw [contents_root, contents_root, length_rootEntries, length_rootEntries, List.length_append]
    omega
  | i + 2 =>
    rw [contents_file, contents_file, List.map_append]
    obtain hlt | hge := Nat.lt_or_ge i (done.map HostFile.content).length
    · rw [List.getD_append _ _ _ _ hlt]
    · rw [List.getD_eq_default _ _ hge]
      exact Nat.zero_le _

/-- The state of `main` after some of the files. -/
structure Made (s : State) (tab : ℕ → Dinode) (done : List HostFile) : Prop where
  image : Image s tab (contents done)
  freeinode : s.freeinode = done.length + 2
  root : (tab ROOTINO).type = T_DIR
  file : ∀ i, i < done.length → (tab (i + 2)).type = T_FILE

theorem addFile_spec {done rest : List HostFile} {f : HostFile} (hm : Made s tab done)
    (hb : Budget (contents (done ++ f :: rest))) (hcount : (done ++ f :: rest).length < NINODES)
    (hname : 47 ∉ f.name) :
    ∃ s' tab', addFile ROOTINO s f = some s' ∧ Made s' tab' (done ++ [f]) := by
  have happ : done ++ f :: rest = done ++ [f] ++ rest := by rw [List.append_assoc, List.singleton_append]
  have hk : done.length + 2 < inodeCount := by
    show done.length + 2 < 208
    rw [List.length_append, List.length_cons] at hcount
    simp only [NINODES] at hcount
    omega
  have hnone : contents done (done.length + 2) = [] := by
    rw [contents_file]
    exact List.getD_eq_default _ _ (by rw [List.length_map])
  obtain ⟨s1, tab1, hrun1, hi1, hfree1, htype1, hother1⟩ := ialloc_spec T_FILE hm.image
    (hm.freeinode.symm ▸ hk) (hm.freeinode.symm ▸ hnone) (by decide)
  rw [hm.freeinode] at hrun1 hfree1 htype1 hother1
  -- the entry of the root directory
  have hroot : contents done 1 ++ dirent (done.length + 2) f.entryName =
      contents (done ++ [f]) 1 := (rootEntries_concat done f).symm
  have hfinal : ∀ k, (contents (done ++ [f]) k).length ≤ (contents (done ++ f :: rest) k).length := fun k =>
    happ ▸ length_contents_le (done ++ [f]) rest k
  obtain ⟨s2, tab2, hrun2, hi2, hfree2, htype2⟩ := iappend_spec (k := 1)
    (p := dirent (done.length + 2) f.entryName) hi1 hb (by decide) (fun i => by
      by_cases hi : i = 1
      · rw [hi, Function.update_self, hroot]
        exact hfinal 1
      · rw [Function.update_of_ne hi]
        exact length_contents_le done (f :: rest) i)
  -- and the bytes of the file
  have hself : Function.update (contents done) 1 (contents done 1 ++ dirent (done.length + 2) f.entryName)
      (done.length + 2) = [] := by
    rw [Function.update_of_ne (by omega), hnone]
  have hupdate : Function.update (Function.update (contents done) 1
      (contents done 1 ++ dirent (done.length + 2) f.entryName)) (done.length + 2) f.reads.flatten =
      contents (done ++ [f]) := (contents_concat done f).symm
  obtain ⟨s3, tab3, hrun3, hi3, hfree3, htype3⟩ := reads_spec f.reads hi2 hb hk (by
    rw [hself, List.nil_append, hupdate]
    exact hfinal)
  rw [hself, List.nil_append, hupdate] at hi3
  refine ⟨s3, tab3, ?_, hi3, ?_, ?_, fun i hi => ?_⟩
  · rw [addFile, if_neg hname, hrun1]
    show (do
      let s'' ← s1.iappend 1 (dirent (done.length + 2) f.entryName)
      f.reads.foldlM (fun s p => State.iappend s (done.length + 2) p) s'') = _
    rw [hrun2]
    exact hrun3
  · rw [hfree3, hfree2, hfree1, List.length_append, List.length_singleton]
  · rw [htype3, htype2, hother1 _ (by show 1 ≠ _; omega)]
    exact hm.root
  · rw [htype3, htype2]
    rw [List.length_append, List.length_singleton] at hi
    obtain hlt | rfl := Nat.lt_succ_iff_lt_or_eq.mp hi
    · rw [hother1 _ (by omega)]
      exact hm.file i hlt
    · exact htype1

theorem addFiles_spec {done rest : List HostFile} (hm : Made s tab done) (hb : Budget (contents (done ++ rest)))
    (hcount : (done ++ rest).length < NINODES) (hname : ∀ f ∈ rest, 47 ∉ f.name) :
    ∃ s' tab', rest.foldlM (addFile ROOTINO) s = some s' ∧ Made s' tab' (done ++ rest) := by
  induction rest generalizing s tab done with
  | nil => exact ⟨s, tab, rfl, by rwa [List.append_nil]⟩
  | cons f rest ih =>
    have happ : done ++ f :: rest = done ++ [f] ++ rest := by rw [List.append_assoc, List.singleton_append]
    obtain ⟨s1, tab1, hrun, hm1⟩ := addFile_spec hm hb hcount (hname f (List.mem_cons_self ..))
    obtain ⟨s2, tab2, hrun2, hm2⟩ := ih hm1 (happ ▸ hb) (happ ▸ hcount)
      fun g hg => hname g (List.mem_cons_of_mem _ hg)
    refine ⟨s2, tab2, ?_, happ.symm ▸ hm2⟩
    rw [List.foldlM_cons, hrun]
    exact hrun2

/-! ### The beginning of `main` -/

theorem image_init : Image init (fun _ => noInode) fun _ => [] := by
  have haddr : ∀ img bn, noInode.addr img bn = 0 := by
    intro img bn
    unfold Dinode.addr
    split_ifs with h1 h2
    · rfl
    · rfl
    · exact absurd rfl h2
  have hplace : place (fun _ => noInode) init.img = fun _ => none := by
    funext u
    cases u with
    | indirect k => rfl
    | data k bn =>
      rw [place, haddr]
      split_ifs <;> rfl
  refine ⟨⟨?_, le_rfl, by decide, fun k bn _ => ?_, fun k => ?_, fun _ => Nat.zero_le _, ?_, ?_, fun _ _ _ => rfl⟩,
    fun k hk => ?_, fun _ _ => rfl, fun _ => ?_, fun _ => rfl, ?_, ?_⟩
  · rw [hplace]
    exact Bump.empty nmeta
  · rw [haddr]
    exact iff_of_false (fun h => h rfl) (Nat.not_lt_zero _)
  · exact iff_of_false (fun h => h rfl) Bool.false_ne_true
  · exact fun k bn j hbn => absurd hbn (Nat.not_lt_zero _)
  · intro b hb
    have hb' : b ≠ 1 := by
      rintro rfl
      exact absurd hb (by decide)
    exact Function.update_of_ne hb' ..
  · have hblock : @Eq ℕ (IBLOCK k sb) (k / 8 + 32) := (IBLOCK_eq hk).1
    have hne : IBLOCK k sb ≠ 1 := fun h => by
      have h' : @Eq ℕ (IBLOCK k sb) 1 := h
      omega
    rw [rinode_eq hk]
    show some (Block.dinode (Function.update (fun _ => (0 : Block)) 1 superBlock (IBLOCK k sb)) (k % IPB)) = _
    rw [Function.update_of_ne hne]
    congr 1
    ext
    case addrs i => exact Bytes.field_zero _ _
    case type => exact Bytes.field_zero _ _
    case major => exact Bytes.field_zero _ _
    case minor => exact Bytes.field_zero _ _
    case nlink => exact Bytes.field_zero _ _
    case size => exact Bytes.field_zero _ _
  · exact ⟨show 0 < 2 ^ 16 by decide, show 0 < 2 ^ 16 by decide, show 0 < 2 ^ 16 by decide,
      show 0 < 2 ^ 16 by decide, show 0 < 2 ^ 32 by decide, fun _ => show 0 < 2 ^ 32 by decide⟩
  · show Function.update (fun _ : ℕ => (0 : Block)) 1 superBlock 1 = superBlock
    exact Function.update_self ..
  · have hzero : need (blocksFor ([] : List UInt8).length) = 0 := by decide
    rw [Finset.sum_eq_zero fun _ _ => hzero]
    rfl

/-- The root directory with its first two entries. -/
theorem made_nil {files : List HostFile} (hb : Budget (contents files)) :
    ∃ s1 s2 s3 tab, init.ialloc T_DIR = some (ROOTINO, s1) ∧
      s1.iappend ROOTINO (dirent ROOTINO [46]) = some s2 ∧
      s2.iappend ROOTINO (dirent ROOTINO [46, 46]) = some s3 ∧ Made s3 tab [] := by
  have hroot : 32 ≤ (contents files 1).length := by
    rw [contents_root, length_rootEntries]
    omega
  obtain ⟨s1, tab1, hrun1, hi1, hfree1, htype1, -⟩ := ialloc_spec T_DIR image_init (by decide) rfl (by decide)
  have hle : ∀ l : List UInt8, l.length ≤ 32 → ∀ i,
      (Function.update (fun _ => []) 1 l i).length ≤ (contents files i).length := by
    intro l hl i
    by_cases hi : i = 1
    · rw [hi, Function.update_self]
      exact hl.trans hroot
    · rw [Function.update_of_ne hi]
      exact Nat.zero_le _
  obtain ⟨s2, tab2, hrun2, hi2, hfree2, htype2⟩ := iappend_spec (k := 1) (p := dirent ROOTINO [46]) hi1 hb
    (by decide) (hle _ (by rw [List.nil_append, length_dirent]; decide))
  rw [List.nil_append] at hi2
  obtain ⟨s3, tab3, hrun3, hi3, hfree3, htype3⟩ := iappend_spec (k := 1) (p := dirent ROOTINO [46, 46]) hi2 hb
    (by decide) (by
      rw [Function.update_self, Function.update_idem]
      exact hle _ (by rw [List.length_append, length_dirent, length_dirent]))
  rw [Function.update_self, Function.update_idem] at hi3
  have hcontents : Function.update (fun _ => []) 1 (dirent ROOTINO [46] ++ dirent ROOTINO [46, 46]) =
      contents [] := by
    funext k
    match k with
    | 0 => rfl
    | 1 =>
      rw [Function.update_self, contents_root, rootEntries, List.mapIdx_nil, List.flatten_nil, List.append_nil]
    | k + 2 => rfl
  refine ⟨s1, s2, s3, tab3, hrun1, hrun2, hrun3, hcontents ▸ hi3, ?_, ?_, nofun⟩
  · rw [hfree3, hfree2, hfree1]
    rfl
  · rw [htype3, htype2]
    exact htype1

/-! ### The end of `main` -/

/-- The inodes of an image. -/
def inodes (img : Blockno → Block) (k : ℕ) : Dinode :=
  if k < inodeCount then (img (IBLOCK k sb)).dinode (k % IPB) else noInode

theorem bit_foldl {used i : ℕ} (hused : used ≤ BPB) :
    ((List.range used).foldl Block.setBit 0).bit i = decide (i < used) := by
  induction used with
  | zero => exact Block.bit_zero
  | succ used ih =>
    rw [List.range_succ, List.foldl_append]
    show (Block.setBit _ used).bit i = _
    rw [Block.bit_setBit hused, ih (Nat.le_of_succ_le hused), ← Bool.decide_or, decide_eq_decide]
    omega

/-- The size of the root directory in the image. -/
def rootSize (files : List HostFile) : ℕ := ((rootEntries files).length / BSIZE + 1) * BSIZE

theorem finish_spec {files : List HostFile} (hm : Made s tab files) (hcount : files.length < NINODES) :
    ∃ img, finish ROOTINO s = some img ∧
      inodes img = Function.update tab ROOTINO { tab ROOTINO with size := rootSize files } ∧
      (∀ b : ℕ, nmeta ≤ b → img b = s.img b) ∧ img 1 = superBlock ∧
      ∀ i, (img sb.bmapstart).bit i = decide (i < s.freeblock) := by
  set din : Dinode := { tab ROOTINO with size := rootSize files } with hdin
  have hsize : rootSize files < 2 ^ 32 := by
    rw [rootSize, length_rootEntries]
    simp only [NINODES, BSIZE] at *
    omega
  have hfit : din.Fits := by
    have h1 := hm.image.fits ROOTINO
    exact ⟨h1.type, h1.major, h1.minor, h1.nlink, hsize, h1.addrs⟩
  obtain ⟨img, hw, hdisk, himg⟩ := winode_spec hm.image.disk (k := ROOTINO) (by decide) hfit
  -- one block of bits is enough for the blocks in use
  have hused : s.freeblock < BSIZE * 8 := hm.image.placed.le_size.trans_lt (by decide)
  refine ⟨Function.update img sb.bmapstart ((List.range s.freeblock).foldl Block.setBit 0), ?_, ?_,
    fun b hb => ?_, ?_, fun i => ?_⟩
  · rw [finish, hm.image.disk ROOTINO (by decide)]
    show (do
      let s' ← s.winode ROOTINO { tab ROOTINO with size := ((tab ROOTINO).size / BSIZE + 1) * BSIZE }
      let s'' ← s'.balloc s'.freeblock
      return s''.img) = _
    rw [hm.image.size]
    show (do
      let s' ← s.winode ROOTINO din
      let s'' ← s'.balloc s'.freeblock
      return s''.img) = _
    rw [hw]
    show ((State.balloc { s with img := img } s.freeblock).bind fun s'' => some s''.img) = _
    rw [State.balloc, if_pos hused]
    rfl
  · funext k
    rw [inodes]
    split_ifs with hk
    · have h1 := hdisk k hk
      rw [rinode_eq hk] at h1
      -- the inodes do not lie in the block of the bitmap
      have hne : IBLOCK k sb ≠ sb.bmapstart := fun h => by
        have h' : @Eq ℕ (IBLOCK k sb) 58 := h
        have := (IBLOCK_eq hk).1
        have hk' : k < 208 := hk
        omega
      rw [Function.update_of_ne hne]
      exact Option.some.inj h1
    · have hk' : k ≠ ROOTINO := by
        rintro rfl
        exact hk (by decide)
      rw [Function.update_of_ne hk', hm.image.beyond k (Nat.not_lt.mp hk)]
  · have hne : b ≠ sb.bmapstart := by
      rintro rfl
      exact absurd hb (by decide)
    rw [Function.update_of_ne hne]
    exact himg b (.inr ((show 58 ≤ nmeta by decide).trans hb))
  · rw [Function.update_of_ne (by decide), himg 1 (.inl (by decide))]
    exact hm.image.super
  · rw [Function.update_self]
    exact bit_foldl hused.le

end OsSemester.Xv6.Mkfs
