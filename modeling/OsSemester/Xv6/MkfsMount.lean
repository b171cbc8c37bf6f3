import OsSemester.Xv6.FileStore

/-!
# A disk made by `mkfs`, in use (`mkfs.c`, `fs.c`)

The image that `main` writes is a state that the calls of `fs.c` keep, and the files that it stands for are
those of the host, with one link each, and the root directory.  So `fs_refines` says what the kernel does
with them.
-/

namespace OsSemester.Xv6.Mkfs

variable {s s' : State} {tab : ℕ → Dinode} {file : ℕ → List UInt8} {files done rest : List HostFile}
  {k n type : ℕ} {p : List UInt8} {din : Dinode} {img : Blockno → Block}

/-! ### What `ialloc` sets and nothing changes -/

/-- An inode without its size and its addresses. -/
def kind (din : Dinode) : Dinode := { din with size := 0, addrs := fun _ => 0 }

theorem Kept.kind_eq {din' : Dinode} (h : Kept din din') : kind din' = kind din := by
  rw [Kept] at h
  rw [h]
  rfl

theorem inodes_of_disk (hdisk : ∀ k, k < inodeCount → s.rinode k = some (tab k))
    (hbeyond : ∀ k, inodeCount ≤ k → tab k = noInode) : inodes s.img = tab := by
  funext k
  rw [inodes]
  split_ifs with hk
  · have h1 := hdisk k hk
    rw [rinode_eq hk] at h1
    exact Option.some.inj h1
  · exact (hbeyond k (not_lt.mp hk)).symm

theorem Image.inodes_eq (hi : Image s tab file) : inodes s.img = tab := inodes_of_disk hi.disk hi.beyond

/-- `iappend` keeps the kinds of the inodes. -/
theorem iappend_kind {final : ℕ → List UInt8} (hi : Image s tab file) (hb : Budget final)
    (hk : k < inodeCount) (hle : ∀ i, (Function.update file k (file k ++ p) i).length ≤ (final i).length)
    (hrun : s.iappend k p = some s') (i : ℕ) : kind (inodes s'.img i) = kind (inodes s.img i) := by
  have hsum := sum_update (fun l => need (blocksFor l.length)) file (file k ++ p) hk
  have hmono : ∑ i ∈ Finset.range inodeCount, need (blocksFor (Function.update file k (file k ++ p) i).length) ≤
      ∑ i ∈ Finset.range inodeCount, need (blocksFor (final i).length) :=
    Finset.sum_le_sum fun i _ => need_mono (blocksFor_mono (hle i))
  have hroom := hb.room
  have htotal := hi.total
  have hlen : (file k ++ p).length ≤ MAXFILE * BSIZE := by
    have h1 := hle k
    rw [Function.update_self] at h1
    exact h1.trans (hb.length_le k)
  obtain ⟨din', s1, hloop, happ⟩ := iappendLoop_spec le_rfl hi.placed rfl (fun _ => rfl) hlen (by omega)
  set din : Dinode := { din' with size := (file k ++ p).length } with hdin
  have hkind : kind din = kind (tab k) := happ.kept.kind_eq
  have hfit : din.Fits := by
    have h1 := hi.fits k
    have h2 := happ.kept
    rw [Kept] at h2
    rw [hdin, h2]
    refine ⟨h1.type, h1.major, h1.minor, h1.nlink, hlen.trans_lt (by decide), fun i => ?_⟩
    have h3 := happ.placed.addrs_lt (k := k) i
    rwa [Function.update_self] at h3
  have hdisk : ∀ i, i < inodeCount → s1.rinode i = some (tab i) := by
    intro i hi'
    have h1 := hi.disk i hi'
    rw [rinode_eq hi'] at h1 ⊢
    rw [happ.frame.img _ ((IBLOCK_eq hi').2.trans (by decide))]
    exact h1
  obtain ⟨img, hw, hdisk', -⟩ := winode_spec hdisk hk hfit
  have hrun' : s.iappend k p = some { s1 with img := img } := by
    rw [State.iappend, hi.disk k hk]
    show (s.iappendLoop p.length (tab k) (tab k).size p).bind
      (fun r => r.2.2.winode k { r.1 with size := r.2.1 }) = _
    rw [hi.size, hloop]
    exact hw
  obtain rfl : { s1 with img := img } = s' := Option.some.inj (hrun'.symm.trans hrun)
  rw [hi.inodes_eq, inodes_of_disk hdisk' fun i hik => ?_]
  · by_cases hik : i = k
    · rw [hik, Function.update_self, hkind]
    · rw [Function.update_of_ne hik]
  · rw [Function.update_of_ne (by omega)]
    exact hi.beyond i hik

theorem reads_kind {final : ℕ → List UInt8} (reads : List (List UInt8)) (hi : Image s tab file)
    (hb : Budget final) (hk : k < inodeCount)
    (hle : ∀ i, (Function.update file k (file k ++ reads.flatten) i).length ≤ (final i).length)
    (hrun : reads.foldlM (fun s p => s.iappend k p) s = some s') (i : ℕ) :
    kind (inodes s'.img i) = kind (inodes s.img i) := by
  induction reads generalizing s tab file with
  | nil => rw [Option.some.inj hrun]
  | cons p reads ih =>
    rw [List.flatten_cons, ← List.append_assoc] at hle
    have hle1 : ∀ i, (Function.update file k (file k ++ p) i).length ≤ (final i).length := by
      intro i
      refine Nat.le_trans ?_ (hle i)
      by_cases hik : i = k
      · rw [hik, Function.update_self, Function.update_self]
        exact (List.prefix_append _ _).length_le
      · rw [Function.update_of_ne hik, Function.update_of_ne hik]
    obtain ⟨s1, tab1, hrun1, hi1, -, -⟩ := iappend_spec hi hb hk hle1
    have hself : Function.update file k (file k ++ p) k = file k ++ p := Function.update_self ..
    rw [List.foldlM_cons, hrun1] at hrun
    rw [ih hi1 (by rwa [hself, Function.update_idem]) hrun, iappend_kind hi hb hk hle1 hrun1]

theorem ialloc_kind (hi : Image s tab file) (hk : s.freeinode < inodeCount) (htype : type < 2 ^ 16)
    (hrun : s.ialloc type = some (n, s')) : (fun i => kind (inodes s'.img i)) =
      Function.update (fun i => kind (inodes s.img i)) s.freeinode ⟨type, 0, 0, 1, 0, fun _ => 0⟩ := by
  set din : Dinode := ⟨type, 0, 0, 1, 0, fun _ => 0⟩ with hdin
  have hfit : din.Fits := ⟨htype, Nat.two_pow_pos 16, Nat.two_pow_pos 16, Nat.one_lt_two_pow (by decide),
    Nat.two_pow_pos 32, fun _ => Nat.two_pow_pos 32⟩
  obtain ⟨img, hw, hdisk, -⟩ := winode_spec (s := { s with freeinode := s.freeinode + 1 }) hi.disk hk hfit
  have hrun' : s.ialloc type = some (s.freeinode, { s with freeinode := s.freeinode + 1, img := img }) := by
    rw [State.ialloc]
    show (do
      let s' ← State.winode { s with freeinode := s.freeinode + 1 } s.freeinode din
      return (s.freeinode, s')) = _
    rw [hw]
    rfl
  obtain ⟨-, rfl⟩ := Prod.mk.inj (Option.some.inj (hrun'.symm.trans hrun))
  funext i
  rw [hi.inodes_eq, inodes_of_disk hdisk fun i hik => ?_]
  · by_cases hik : i = s.freeinode
    · rw [hik, Function.update_self, Function.update_self]
      rfl
    · rw [Function.update_of_ne hik, Function.update_of_ne hik]
  · rw [Function.update_of_ne (by omega)]
    exact hi.beyond i hik

/-! ### The kinds of all inodes -/

/-- The kinds of the inodes with `n` files. -/
def kinds (n k : ℕ) : Dinode :=
  if k = ROOTINO then ⟨T_DIR, 0, 0, 1, 0, fun _ => 0⟩
  else if 2 ≤ k ∧ k < n + 2 then ⟨T_FILE, 0, 0, 1, 0, fun _ => 0⟩
  else noInode

theorem kinds_succ (n : ℕ) :
    Function.update (kinds n) (n + 2) ⟨T_FILE, 0, 0, 1, 0, fun _ => 0⟩ = kinds (n + 1) := by
  funext i
  unfold kinds
  by_cases hi : i = n + 2
  · rw [hi, Function.update_self, if_neg (show ¬ n + 2 = 1 by omega), if_pos (by omega)]
  · rw [Function.update_of_ne hi]
    have hiff : (2 ≤ i ∧ i < n + 2) ↔ (2 ≤ i ∧ i < n + 1 + 2) := by omega
    simp only [hiff]

theorem addFile_kind {f : HostFile} (hm : Made s tab done) (hb : Budget (contents (done ++ f :: rest)))
    (hcount : (done ++ f :: rest).length < NINODES) (hrun : addFile ROOTINO s f = some s')
    (hkind : (fun i => kind (inodes s.img i)) = kinds done.length) :
    (fun i => kind (inodes s'.img i)) = kinds (done.length + 1) := by
  have happ : done ++ f :: rest = done ++ [f] ++ rest := by rw [List.append_assoc, List.singleton_append]
  have hk : done.length + 2 < inodeCount := by
    show done.length + 2 < 208
    rw [List.length_append, List.length_cons] at hcount
    simp only [NINODES] at hcount
    omega
  have hnone : contents done (done.length + 2) = [] := by
    rw [contents_file]
    exact List.getD_eq_default _ _ (by rw [List.length_map])
  have hname : 47 ∉ f.name := by
    intro h
    rw [addFile, if_pos h] at hrun
    cases hrun
  obtain ⟨s1, tab1, hrun1, hi1, -, -, -⟩ := ialloc_spec T_FILE hm.image (hm.freeinode.symm ▸ hk)
    (hm.freeinode.symm ▸ hnone) (by decide)
  have hkind1 := ialloc_kind hm.image (hm.freeinode.symm ▸ hk) (by decide) hrun1
  rw [hkind, hm.freeinode, kinds_succ] at hkind1
  rw [hm.freeinode] at hrun1
  have hfinal : ∀ k, (contents (done ++ [f]) k).length ≤ (contents (done ++ f :: rest) k).length := fun k =>
    happ ▸ length_contents_le (done ++ [f]) rest k
  have hle2 : ∀ i, (Function.update (contents done) 1
      (contents done 1 ++ dirent (done.length + 2) f.entryName) i).length ≤
        (contents (done ++ f :: rest) i).length := by
    intro i
    by_cases hi : i = 1
    · rw [hi, Function.update_self, contents_root, ← rootEntries_concat, ← contents_root]
      exact hfinal 1
    · rw [Function.update_of_ne hi]
      exact length_contents_le done (f :: rest) i
  obtain ⟨s2, tab2, hrun2, hi2, -, -⟩ := iappend_spec (k := 1) hi1 hb (by decide) hle2
  have hself : Function.update (contents done) 1 (contents done 1 ++ dirent (done.length + 2) f.entryName)
      (done.length + 2) = [] := by
    rw [Function.update_of_ne (by omega), hnone]
  have hupdate : Function.update (Function.update (contents done) 1
      (contents done 1 ++ dirent (done.length + 2) f.entryName)) (done.length + 2) f.reads.flatten =
      contents (done ++ [f]) := (contents_concat done f).symm
  have hrun3 : f.reads.foldlM (fun s p => State.iappend s (done.length + 2) p) s2 = some s' := by
    rw [addFile, if_neg hname, hrun1] at hrun
    change (do
      let s'' ← s1.iappend 1 (dirent (done.length + 2) f.entryName)
      f.reads.foldlM (fun s p => State.iappend s (done.length + 2) p) s'') = _ at hrun
    rw [hrun2] at hrun
    exact hrun
  rw [← hkind1]
  funext i
  rw [reads_kind f.reads hi2 hb hk (by rw [hself, List.nil_append, hupdate]; exact hfinal) hrun3,
    iappend_kind hi1 hb (by decide) hle2 hrun2]

theorem addFiles_kind (hm : Made s tab done) (hb : Budget (contents (done ++ rest)))
    (hcount : (done ++ rest).length < NINODES) (hname : ∀ f ∈ rest, 47 ∉ f.name)
    (hrun : rest.foldlM (addFile ROOTINO) s = some s')
    (hkind : (fun i => kind (inodes s.img i)) = kinds done.length) :
    (fun i => kind (inodes s'.img i)) = kinds (done ++ rest).length := by
  induction rest generalizing s tab done with
  | nil =>
    rw [List.append_nil, ← hkind, Option.some.inj hrun]
  | cons f rest ih =>
    have happ : done ++ f :: rest = done ++ [f] ++ rest := by rw [List.append_assoc, List.singleton_append]
    obtain ⟨s1, tab1, hrun1, hm1⟩ := addFile_spec hm hb hcount (hname f (List.mem_cons_self ..))
    have hkind1 := addFile_kind hm hb hcount hrun1 hkind
    rw [List.foldlM_cons, hrun1] at hrun
    rw [happ] at hb hcount ⊢
    refine ih hm1 hb hcount (fun g hg => hname g (List.mem_cons_of_mem _ hg)) hrun ?_
    rw [List.length_append, List.length_singleton]
    exact hkind1

theorem init_kind : (fun i => kind (inodes init.img i)) = fun _ => noInode := by
  rw [image_init.inodes_eq]
  rfl

theorem made_nil_kind {s1 s2 s3 : State} (hb : Budget (contents files))
    (hrun1 : init.ialloc T_DIR = some (ROOTINO, s1))
    (hrun2 : s1.iappend ROOTINO (dirent ROOTINO [46]) = some s2)
    (hrun3 : s2.iappend ROOTINO (dirent ROOTINO [46, 46]) = some s3) :
    (fun i => kind (inodes s3.img i)) = kinds 0 := by
  have hroot : 32 ≤ (contents files 1).length := by
    rw [contents_root, length_rootEntries]
    omega
  have hle : ∀ l : List UInt8, l.length ≤ 32 → ∀ i,
      (Function.update (fun _ => []) 1 l i).length ≤ (contents files i).length := by
    intro l hl i
    by_cases hi : i = 1
    · rw [hi, Function.update_self]
      exact hl.trans hroot
    · rw [Function.update_of_ne hi]
      exact Nat.zero_le _
  obtain ⟨s1', tab1, hrun1', hi1, -, -, -⟩ := ialloc_spec T_DIR image_init (by decide) rfl (by decide)
  obtain ⟨-, rfl⟩ := Prod.mk.inj (Option.some.inj (hrun1'.symm.trans hrun1))
  have hle1 : ∀ i, (Function.update (fun _ => []) 1 ([] ++ dirent ROOTINO [46]) i).length ≤
      (contents files i).length := hle _ (by rw [List.nil_append, length_dirent]; decide)
  obtain ⟨s2', tab2, hrun2', hi2, -, -⟩ := iappend_spec (k := 1) hi1 hb (by decide) hle1
  obtain rfl := Option.some.inj (hrun2'.symm.trans hrun2)
  have hle2 : ∀ i, (Function.update (Function.update (fun _ => []) 1 ([] ++ dirent ROOTINO [46])) 1
      (Function.update (fun _ => []) 1 ([] ++ dirent ROOTINO [46]) 1 ++ dirent ROOTINO [46, 46]) i).length ≤
        (contents files i).length := by
    rw [Function.update_self, Function.update_idem]
    exact hle _ (by rw [List.nil_append, List.length_append, length_dirent, length_dirent])
  have hkind1 := ialloc_kind image_init (by decide) (by decide) hrun1
  have hkinds : Function.update (fun _ => noInode) 1 ⟨T_DIR, 0, 0, 1, 0, fun _ => 0⟩ = kinds 0 := by
    funext i
    unfold kinds
    by_cases hi : i = 1
    · rw [hi, Function.update_self, if_pos rfl]
    · rw [Function.update_of_ne hi, if_neg hi, if_neg (by omega)]
  rw [init_kind] at hkind1
  rw [← hkinds]
  refine Eq.trans (funext fun i => ?_) hkind1
  rw [iappend_kind hi2 hb (by decide) hle2 hrun3, iappend_kind hi1 hb (by decide) hle1 hrun2]

/-- The inodes of an image that `main` has made. -/
theorem main_kind (hf : Fits files) (hrun : main files = some img) (k : ℕ) :
    kind (inodes img k) = kinds files.length k := by
  have hb := hf.budget
  obtain ⟨s1, s2, s3, tab, hrun1, hrun2, hrun3, hm⟩ := made_nil hb
  obtain ⟨s4, tab4, hrun4, hm4⟩ := addFiles_spec hm hb hf.count hf.name
  have hkind3 := made_nil_kind hb hrun1 hrun2 hrun3
  have hkind4 := addFiles_kind hm hb hf.count hf.name hrun4 hkind3
  rw [List.nil_append] at hm4 hkind4
  obtain ⟨img', hrun5, htab, -⟩ := finish_spec hm4 hf.count
  have hrun' : main files = some img' := by
    rw [main, hrun1]
    show (do
      let s1 ← s1.iappend ROOTINO (dirent ROOTINO [46])
      let s2 ← s1.iappend ROOTINO (dirent ROOTINO [46, 46])
      let s3 ← files.foldlM (addFile ROOTINO) s2
      finish ROOTINO s3) = _
    rw [hrun2]
    show (do
      let s2 ← s2.iappend ROOTINO (dirent ROOTINO [46, 46])
      let s3 ← files.foldlM (addFile ROOTINO) s2
      finish ROOTINO s3) = _
    rw [hrun3]
    show (files.foldlM (addFile ROOTINO) s3).bind (finish ROOTINO) = _
    rw [hrun4]
    exact hrun5
  obtain rfl := Option.some.inj (hrun'.symm.trans hrun)
  rw [← hkind4, htab, hm4.image.inodes_eq]
  by_cases hk : k = ROOTINO
  · rw [hk, Function.update_self]
    rfl
  · rw [Function.update_of_ne hk]

/-! ### The disk in the kernel -/

/-- The files of the host, and the root directory, whose size is rounded up to whole blocks. -/
def hostStore (files : List HostFile) : FileStore where
  file k :=
    if k = ROOTINO then
      ⟨T_DIR, 0, 0, 1, rootEntries files ++ List.replicate (rootSize files - (rootEntries files).length) 0⟩
    else if 2 ≤ k ∧ k < files.length + 2 then ⟨T_FILE, 0, 0, 1, contents files k⟩
    else ⟨0, 0, 0, 0, []⟩
  valid _ := false

/-- The kernel starts with no inode in memory. -/
def mount (img : Blockno → Block) : FsState := ⟨img, fun _ => none⟩

theorem ordered_sb : sb.Ordered := ⟨by decide, by decide, by decide⟩

theorem inode_eq_inodes (img : Blockno → Block) : Store.inode sb img = inodes img := rfl

theorem Built.sizes_eq (hb : Built files s) (hroot : (files.length + 2) % 32 ≠ 0) :
    Store.sizes (inodes s.img) = fun k => blocksFor (contents files k).length := by
  funext k
  unfold Store.sizes
  by_cases hk : k = ROOTINO
  · rw [hk, hb.root.2]
    exact blocksFor_rootSize_eq.mpr hroot
  · rw [hb.size k hk]

theorem Built.marked_iff (hb : Built files s) {a : ℕ} (ha : a < FSSIZE) :
    Store.Marked sb s.img a ↔ a < s.freeblock := by
  have ha' : a < 1000 := ha
  have hblock : @Eq ℕ (BBLOCK a sb) sb.bmapstart := by
    show (a / 4096 + 58) % 2 ^ 32 = 58
    omega
  have hmod : a % BPB = a := Nat.mod_eq_of_lt (ha'.trans (by decide))
  rw [Store.Marked, hblock, hmod, hb.bitmap, decide_eq_true_iff]

theorem Built.stored (hb : Built files s) : Store.Stored sb (inodes s.img) s.img
    (fun k => blocksFor (contents files k).length) (large fun k => blocksFor (contents files k).length)
    fun k off => (contents files k).getD off 0 where
  map := by
    have hbump := hb.placed.bump
    refine ⟨fun u a hu => ?_, hbump.inj, fun a hlo hhi => ?_⟩
    · obtain ⟨h1, h2⟩ := hbump.mem u a hu
      exact ⟨h1, h2.trans_le hb.placed.le_size⟩
    · rw [hb.marked_iff hhi]
      constructor
      · exact hbump.onto a hlo
      · rintro ⟨u, hu⟩
        exact (hbump.mem u a hu).2
  front := by
    intro a ha
    have hle : a < s.freeblock := ha.trans_le hb.placed.le
    rw [hb.marked_iff (hle.trans_le hb.placed.le_size)]
    exact hle
  alloc := hb.placed.alloc
  indirect := hb.placed.indirect
  cnt_le := hb.placed.cnt_le
  bytes := hb.placed.bytes
  beyond := hb.placed.beyond

/-- A number that is not that of a file has no bytes. -/
theorem contents_eq_nil (h1 : k ≠ ROOTINO) (h2 : ¬ (2 ≤ k ∧ k < files.length + 2)) :
    contents files k = [] := by
  obtain rfl | rfl | ⟨i, rfl⟩ : k = 0 ∨ k = 1 ∨ ∃ i, k = i + 2 := by
    rcases k with - | - | i
    · exact .inl rfl
    · exact .inr (.inl rfl)
    · exact .inr (.inr ⟨i, rfl⟩)
  · rfl
  · exact absurd rfl h1
  · rw [contents_file]
    exact List.getD_eq_default _ _ (by rw [List.length_map]; omega)

theorem range_map_getD (l : List UInt8) {n : ℕ} (hn : l.length ≤ n) :
    ((List.range n).map fun off => l.getD off 0) = l ++ List.replicate (n - l.length) 0 := by
  refine List.ext_getElem ?_ fun i h1 h2 => ?_
  · rw [List.length_map, List.length_range, List.length_append, List.length_replicate]
    omega
  · rw [List.getElem_map, List.getElem_range]
    by_cases hi : i < l.length
    · rw [List.getElem_append_left hi, List.getD_eq_getElem _ _ hi]
    · rw [List.getElem_append_right (not_lt.mp hi), List.getElem_replicate,
        List.getD_eq_default _ _ (not_lt.mp hi)]

/-- **The files of the host are in the kernel**: the image that `main` has made holds, and stands for
them. -/
theorem mount_holds (hf : Fits files) (hroot : (files.length + 2) % 32 ≠ 0) (hrun : main files = some img) :
    (mount img).Holds sb (fun k off => (contents files k).getD off 0) ∧
      (mount img).view sb = hostStore files := by
  obtain ⟨s, hrun', hb⟩ := main_spec hf
  obtain rfl := Option.some.inj (hrun'.symm.trans hrun)
  have hkind := main_kind hf hrun
  have hst := hb.stored
  have hsound : Store.Sound sb s.img fun k off => (contents files k).getD off 0 := by
    refine ⟨?_, fun k h0 => ?_⟩
    · rw [inode_eq_inodes, hb.sizes_eq hroot]
      exact hst
    · rw [inode_eq_inodes] at h0 ⊢
      have h1 := congrArg Dinode.type (hkind k)
      change (inodes s.img k).type = (kinds files.length k).type at h1
      rw [h0, kinds] at h1
      by_cases hk1 : k = ROOTINO
      · rw [if_pos hk1] at h1
        cases h1
      by_cases hk2 : 2 ≤ k ∧ k < files.length + 2
      · rw [if_neg hk1, if_pos hk2] at h1
        cases h1
      · have hnil := contents_eq_nil hk1 hk2
        refine ⟨?_, hst.addrs_eq_zero ?_⟩
        · rw [hb.size k hk1, hnil]
          rfl
        · rw [hnil]
          rfl
  have hH : (mount s.img).Holds sb fun k off => (contents files k).getD off 0 := by
    refine ⟨hsound, fun k din hk => ?_⟩
    cases hk
  refine ⟨hH, congrArg₂ FileStore.mk (funext fun k => ?_) rfl⟩
  refine (hH.file k).trans ?_
  show (⟨(kind (inodes s.img k)).type, (kind (inodes s.img k)).major, (kind (inodes s.img k)).minor,
    (kind (inodes s.img k)).nlink,
    (List.range (inodes s.img k).size).map fun off => (contents files k).getD off 0⟩ : StoredFile) = _
  rw [hkind k, kinds]
  by_cases hk : k = ROOTINO
  · rw [if_pos hk, if_pos hk, hk, hb.root.2, contents_root, range_map_getD _ length_le_rootSize]
  · rw [if_neg hk, if_neg hk, hb.size k hk, range_map_getD _ le_rfl, Nat.sub_self, List.replicate_zero,
      List.append_nil]
    by_cases hused : 2 ≤ k ∧ k < files.length + 2
    · rw [if_pos hused, if_pos hused]
    · rw [if_neg hused, if_neg hused, contents_eq_nil hk hused]
      rfl

/-- No inode is in memory after the start. -/
theorem counted_mount (img : Blockno → Block) (refs : InodeRefs sb) : (mount img).Counted refs := fun _ _ => rfl

/-- **The files of such a disk are as `filewrite` needs them**, whatever has been called before. -/
theorem filewrite_ready (hf : Fits files) (hroot : (files.length + 2) % 32 ≠ 0) (devsw : DevSwitch)
    (devread : DevRead) (hrun : main files = some img) (as : List (InodeOp sb)) {σ : FsState}
    {refs : InodeRefs sb}
    (hσ : (runCalls (FsState.call sb devsw devread) (mount img, fun _ => 0) as).2 = .ok (σ, refs))
    (hk : k < sb.inodeCount) : FileOk sb k (Store.inode sb σ.block k) σ.block ∧
      BlocksAsSize (Store.inode sb σ.block k) σ.block := by
  obtain ⟨hH, -⟩ := mount_holds hf hroot hrun
  obtain ⟨F, -, ⟨⟨⟨data, hσ⟩, -⟩, -⟩, -⟩ := (FsState.calls_refine devsw devread ordered_sb).run_ok
    (hH.withRefs (counted_mount img fun _ => 0)) as hσ
  exact ⟨hσ.sound.fileOk ordered_sb (by decide) hk, hσ.sound.blocksAsSize k⟩

end OsSemester.Xv6.Mkfs
