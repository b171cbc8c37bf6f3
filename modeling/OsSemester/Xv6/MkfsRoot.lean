import OsSemester.Xv6.MkfsMount
import OsSemester.Xv6.Paths

/-!
# The root directory of an image (`mkfs.c`, `fs.c`)

`mkfs` writes an entry for each file of the host, and the kernel reads them with `dirlookup`: `mkfs_namei`
says that a file of the host is found under its name, with its bytes.
-/

namespace OsSemester.Xv6.Mkfs

variable {files : List HostFile} {i : ℕ} {img : Blockno → Block}

/-! ### The entries -/

/-- The names of the root directory, in the order of its entries. -/
def rootNames (files : List HostFile) : List (List UInt8) := [46] :: [46, 46] :: files.map HostFile.entryName

/-- The inode that the entry `i` is for. -/
def rootTarget (i : ℕ) : ℕ := if i < 2 then ROOTINO else i

/-- The bytes of the root directory. -/
def rootBytes (files : List HostFile) : List UInt8 :=
  rootEntries files ++ List.replicate (rootSize files - (rootEntries files).length) 0

theorem length_rootNames (files : List HostFile) : (rootNames files).length = files.length + 2 := by
  rw [rootNames, List.length_cons, List.length_cons, List.length_map]

theorem length_rootBytes (files : List HostFile) : (rootBytes files).length = rootSize files := by
  rw [rootBytes, List.length_append, List.length_replicate]
  exact Nat.add_sub_cancel' length_le_rootSize

/-- A part of parts of one length. -/
theorem take_drop_flatten {α : Type} {n : ℕ} (L : List (List α)) (hL : ∀ l ∈ L, l.length = n) (rest : List α)
    (i : ℕ) (hi : i < L.length) : ((L.flatten ++ rest).drop (i * n)).take n = L[i] := by
  induction L generalizing i with
  | nil => exact absurd hi (Nat.not_lt_zero _)
  | cons l L ih =>
    have hl : l.length = n := hL l List.mem_cons_self
    rw [List.flatten_cons, List.append_assoc]
    cases i with
    | zero => rw [Nat.zero_mul, List.drop_zero, ← hl, List.take_left, List.getElem_cons_zero]
    | succ i =>
      rw [Nat.succ_mul, Nat.add_comm (i * n), ← List.drop_drop, List.drop_left' hl]
      exact ih (fun l' hl' => hL l' (List.mem_cons_of_mem _ hl')) i (Nat.lt_of_succ_lt_succ hi)

/-- The entries of the root directory one after the other. -/
theorem rootEntries_eq (files : List HostFile) :
    rootEntries files = ((rootNames files).mapIdx fun i name => dirent (rootTarget i) name).flatten := by
  have htarget : ∀ i, rootTarget (i + 1 + 1) = i + 2 := fun i => if_neg (by omega)
  have hmap : (files.map HostFile.entryName).mapIdx (fun i name => dirent (i + 2) name) =
      files.mapIdx fun i f => dirent (i + 2) f.entryName := by
    refine List.ext_getElem ?_ fun i _ _ => ?_
    · rw [List.length_mapIdx, List.length_map, List.length_mapIdx]
    · rw [List.getElem_mapIdx, List.getElem_map, List.getElem_mapIdx]
  rw [rootNames, List.mapIdx_cons, List.mapIdx_cons, List.flatten_cons, List.flatten_cons]
  simp only [htarget]
  rw [hmap]
  rfl

theorem cname_pad (name : List UInt8) :
    cname ((name ++ List.replicate DIRSIZ 0).take DIRSIZ) = cname name := by
  have hzero : ∀ n, (List.replicate n (0 : UInt8)).takeWhile (· ≠ 0) = [] := fun n => by
    rw [List.takeWhile_replicate, if_neg (by decide)]
  rw [cname, cname, List.take_take, min_self, List.take_append, List.take_replicate, List.takeWhile_append,
    hzero]
  split_ifs with h
  · rw [List.append_nil]
    exact ((List.takeWhile_prefix _).eq_of_length h).symm
  · rfl

theorem ofBytes_dirent {inum : ℕ} (hinum : inum < 2 ^ 16) (name : List UInt8) :
    Dirent.ofBytes (dirent inum name) = ⟨inum, (name ++ List.replicate DIRSIZ 0).take DIRSIZ⟩ := by
  have hbytes : dirent inum name = Dirent.toBytes ⟨inum, (name ++ List.replicate DIRSIZ 0).take DIRSIZ⟩ := rfl
  rw [hbytes, Dirent.ofBytes_toBytes hinum]
  rw [List.length_take, List.length_append, List.length_replicate]
  omega

theorem entry_rootBytes_lt (hcount : files.length < NINODES) (hi : i < (rootNames files).length) :
    (entry (rootBytes files) i).inum = rootTarget i ∧
      cname (entry (rootBytes files) i).name = cname (rootNames files)[i] := by
  have hL : ∀ l ∈ (rootNames files).mapIdx fun i name => dirent (rootTarget i) name,
      l.length = Dirent.size := by
    intro l hl
    obtain ⟨j, hj, rfl⟩ := List.mem_mapIdx.mp hl
    exact length_dirent _ _
  have hlt : rootTarget i < 2 ^ 16 := by
    rw [length_rootNames] at hi
    have h1 : files.length < 200 := hcount
    unfold rootTarget
    split_ifs
    · decide
    · omega
  have hentry : entry (rootBytes files) i =
      ⟨rootTarget i, ((rootNames files)[i] ++ List.replicate DIRSIZ 0).take DIRSIZ⟩ := by
    rw [entry, rootBytes, rootEntries_eq,
      take_drop_flatten _ hL _ i (by rwa [List.length_mapIdx]), List.getElem_mapIdx, ofBytes_dirent hlt]
  rw [hentry]
  exact ⟨rfl, cname_pad _⟩

/-- Behind the entries there are zeros. -/
theorem entry_rootBytes_ge (hi : (rootNames files).length ≤ i) : (entry (rootBytes files) i).inum = 0 := by
  have hdrop : (rootEntries files).drop (i * Dirent.size) = [] := by
    refine List.drop_eq_nil_of_le ?_
    rw [length_rootNames] at hi
    rw [length_rootEntries, Nat.mul_comm]
    exact Nat.mul_le_mul_right _ hi
  have hzero : ∀ n j, (List.replicate n (0 : UInt8)).getD j 0 = 0 := fun n j => by
    rw [List.getD_eq_getElem?_getD, List.getElem?_replicate]
    split_ifs <;> rfl
  rw [entry, rootBytes, List.drop_append, hdrop, List.nil_append, List.drop_replicate, List.take_replicate]
  show (List.getD (List.replicate _ (0 : UInt8)) 0 0).toNat +
    2 ^ 8 * (List.getD (List.replicate _ (0 : UInt8)) 1 0).toNat = 0
  rw [hzero, hzero]
  rfl

/-! ### The map -/

/-- The root directory as a map. -/
def rootDir (files : List HostFile) : DirMap where
  find name := ((rootNames files).findIdx? fun s => cname s = name).map rootTarget
  count := files.length + 2

/-- No two entries of the root directory have the same name. -/
def DistinctNames (files : List HostFile) : Prop := ((rootNames files).map cname).Nodup

theorem rootDir_find (hnames : DistinctNames files) (hi : i < (rootNames files).length) :
    (rootDir files).find (cname (rootNames files)[i]) = some (rootTarget i) := by
  have hidx : (rootNames files).findIdx? (fun s => cname s = cname (rootNames files)[i]) = some i := by
    rw [List.findIdx?_eq_some_iff_getElem]
    refine ⟨hi, decide_eq_true rfl, fun j hj hij => ?_⟩
    have hi' : i < ((rootNames files).map cname).length := by rwa [List.length_map]
    have hj' : j < ((rootNames files).map cname).length := hj.trans hi'
    have h1 : ((rootNames files).map cname)[j] = ((rootNames files).map cname)[i] := by
      rw [List.getElem_map, List.getElem_map]
      exact of_decide_eq_true hij
    exact hj.ne ((hnames.getElem_inj_iff).mp h1)
  exact congrArg (Option.map rootTarget) hidx

theorem slots_rootBytes (files : List HostFile) :
    slots (rootBytes files) * Dirent.size = (rootBytes files).length ∧
      files.length + 2 ≤ slots (rootBytes files) := by
  have hsize : rootSize files = ((files.length + 2) / 32 + 1) * 512 := by
    rw [rootSize, length_rootEntries]
    show (16 * (files.length + 2) / 512 + 1) * 512 = _
    omega
  unfold slots
  rw [length_rootBytes, hsize]
  show ((files.length + 2) / 32 + 1) * 512 / 16 * 16 = _ ∧ _ ≤ ((files.length + 2) / 32 + 1) * 512 / 16
  omega

/-- The bytes of the root directory stand for the map. -/
theorem dirHolds_root (hcount : files.length < NINODES) (hnames : DistinctNames files) :
    DirHolds (rootBytes files) (rootDir files) := by
  obtain ⟨hslots, hle⟩ := slots_rootBytes files
  -- the entries in use are those that `mkfs` has written
  have hused : ∀ {i}, (entry (rootBytes files) i).inum ≠ 0 → i < (rootNames files).length := by
    intro i hi
    by_contra hge
    exact hi (entry_rootBytes_ge (not_lt.mp hge))
  have hpos : ∀ i, rootTarget i ≠ 0 := by
    intro i
    unfold rootTarget
    split_ifs
    · decide
    · omega
  refine ⟨Dvd.intro_left _ hslots, ?_, fun i j _ _ hi0 hj0 hij => ?_, fun name inum => ?_, ?_⟩
  · rw [length_rootBytes, rootSize, length_rootEntries]
    have h1 : files.length < 200 := hcount
    show (16 * (files.length + 2) / 512 + 1) * 512 ≤ 140 * 512
    omega
  · rw [(entry_rootBytes_lt hcount (hused hi0)).2, (entry_rootBytes_lt hcount (hused hj0)).2] at hij
    have hlen : ((rootNames files).map cname).length = (rootNames files).length := List.length_map ..
    have hi' : i < ((rootNames files).map cname).length := hlen.symm ▸ hused hi0
    have hj' : j < ((rootNames files).map cname).length := hlen.symm ▸ hused hj0
    have h1 : ((rootNames files).map cname)[i] = ((rootNames files).map cname)[j] := by
      rw [List.getElem_map, List.getElem_map]
      exact hij
    exact (hnames.getElem_inj_iff).mp h1
  · constructor
    · intro hfind
      obtain ⟨i, hidx, rfl⟩ := Option.map_eq_some_iff.mp hfind
      obtain ⟨hi, hname, -⟩ := List.findIdx?_eq_some_iff_getElem.mp hidx
      obtain ⟨hinum, hcname⟩ := entry_rootBytes_lt hcount hi
      refine ⟨i, (by rw [length_rootNames] at hi; omega), ?_, hinum, hcname.trans (of_decide_eq_true hname)⟩
      rw [hinum]
      exact hpos i
    · rintro ⟨i, -, hi0, rfl, rfl⟩
      obtain ⟨hinum, hcname⟩ := entry_rootBytes_lt hcount (hused hi0)
      rw [hinum, hcname]
      exact rootDir_find hnames (hused hi0)
  · have hset : (Finset.range (slots (rootBytes files))).filter
        (fun i => (entry (rootBytes files) i).inum ≠ 0) = Finset.range (files.length + 2) := by
      ext i
      rw [Finset.mem_filter, Finset.mem_range, Finset.mem_range, ← length_rootNames]
      constructor
      · exact fun h => hused h.2
      · intro hi
        rw [(entry_rootBytes_lt hcount hi).1]
        exact ⟨by rw [length_rootNames] at hi; omega, hpos i⟩
    rw [hset, Finset.card_range]
    rfl

/-! ### In the kernel -/

theorem hostStore_file_eq (files : List HostFile) (k : ℕ) : (hostStore files).file k =
    if k = ROOTINO then ⟨T_DIR, 0, 0, 1, rootBytes files⟩
    else if 2 ≤ k ∧ k < files.length + 2 then ⟨T_FILE, 0, 0, 1, contents files k⟩
    else ⟨0, 0, 0, 0, []⟩ := rfl

theorem hostStore_root (files : List HostFile) :
    (hostStore files).file ROOTINO = ⟨T_DIR, 0, 0, 1, rootBytes files⟩ := by
  rw [hostStore_file_eq, if_pos rfl]

theorem hostStore_file (hi : i < files.length) :
    (hostStore files).file (i + 2) = ⟨T_FILE, 0, 0, 1, files[i].content⟩ := by
  have hcontents : contents files (i + 2) = files[i].content := by
    rw [contents_file, List.getD_eq_getElem _ _ (by rwa [List.length_map]), List.getElem_map]
  rw [hostStore_file_eq, if_neg (show ¬ i + 2 = 1 by omega), if_pos (by omega), hcontents]

/-- The names of the root directory are for inodes with links. -/
theorem rootDir_target (hcount : files.length < NINODES) {name : List UInt8} {inum : ℕ}
    (hfind : (rootDir files).find name = some inum) : inum < sb.inodeCount ∧
      ((hostStore files).file inum).type ≠ 0 ∧ ((hostStore files).file inum).nlink ≠ 0 := by
  obtain ⟨i, hidx, rfl⟩ := Option.map_eq_some_iff.mp hfind
  obtain ⟨hi, -, -⟩ := List.findIdx?_eq_some_iff_getElem.mp hidx
  rw [length_rootNames] at hi
  unfold rootTarget
  split_ifs with h2
  · rw [hostStore_root]
    exact ⟨by decide, by show T_DIR ≠ 0; decide, Nat.one_ne_zero⟩
  · obtain ⟨j, rfl⟩ : ∃ j, i = j + 2 := ⟨i - 2, by omega⟩
    rw [hostStore_file (by omega)]
    have h1 : files.length < 200 := hcount
    refine ⟨?_, by show T_FILE ≠ 0; decide, Nat.one_ne_zero⟩
    show j + 2 < 208
    omega

theorem treeHolds_hostStore (hcount : files.length < NINODES) (hnames : DistinctNames files) :
    TreeHolds (hostStore files).file (fun _ => rootDir files) sb := by
  -- the root directory is the only directory
  have hroot : ∀ k, ((hostStore files).file k).type = T_DIR → k = ROOTINO := by
    intro k hk
    by_contra hne
    rw [hostStore_file_eq, if_neg hne] at hk
    split_ifs at hk
    cases hk
  refine ⟨fun k _ hk _ => ?_, fun k _ _ _ name inum hfind => rootDir_target hcount hfind⟩
  rw [hroot k hk, hostStore_root]
  exact dirHolds_root hcount hnames

theorem components_name {name : List UInt8} (hslash : 47 ∉ name) (hne : name ≠ []) :
    components (47 :: name) = [cname name] := by
  have hkeep : (!name.isEmpty) = true := by simpa using hne
  rw [components, pieces_slash, pieces, List.splitOn_eq_singleton hslash, List.filter_singleton, hkeep]
  rfl

theorem busy_zero : busy (fun _ => 0 : InodeRefs sb) = 0 := by
  rw [busy, Finset.card_eq_zero, Finset.filter_eq_empty_iff]
  exact fun _ _ h => absurd h (Nat.lt_irrefl 0)

/-- **A file of the host is found under its name** on the disk that `mkfs` has made, with its bytes. -/
theorem mkfs_namei (hf : Fits files) (hroot : (files.length + 2) % 32 ≠ 0) (hnames : DistinctNames files)
    (hne : ∀ f ∈ files, f.entryName ≠ []) (devsw : DevSwitch) (devread : DevRead) (cwd : Fin sb.inodeCount)
    (name : List UInt8) : ∃ img, main files = some img ∧ ∀ i (hi : i < files.length), ∃ ip name' σ',
      (FsProg.namex cwd (47 :: files[i].entryName) false name).runFs devsw devread (mount img, fun _ => 0) =
        .ok (some (ip, name'), σ', addRef (fun _ => 0) ip) ∧ (ip : ℕ) = i + 2 ∧
      (σ'.view sb).file ip = ⟨T_FILE, 0, 0, 1, files[i].content⟩ := by
  obtain ⟨s, hrun, -⟩ := main_spec hf
  obtain ⟨hH, hview⟩ := mount_holds hf hroot hrun
  refine ⟨s.img, hrun, fun i hi => ?_⟩
  have hT := treeHolds_hostStore hf.count hnames
  have hstart : ∀ path, pathStart cwd (47 :: path) = FsProg.rootInum sb := fun _ => if_pos rfl
  have hfile : (hostStore files).file (FsProg.rootInum sb) = ⟨T_DIR, 0, 0, 1, rootBytes files⟩ :=
    hostStore_root files
  rw [← hview] at hT hfile
  have hbusy : busy (fun _ => 0 : InodeRefs sb) + 1 < NINODE := by
    rw [busy_zero]
    decide
  obtain ⟨r, hdoes, hlead⟩ := does_namex devsw devread cwd (47 :: files[i].entryName) name hT hbusy false
    (by rw [hstart, hfile]; show T_DIR ≠ 0; decide) (by rw [hstart, hfile]; exact Nat.one_ne_zero)
  obtain ⟨σ', -, hnamex, -, hsame⟩ := hdoes.runFs_ok ordered_sb hH
  have hslash : 47 ∉ files[i].entryName := by
    intro hmem
    refine hf.name _ (List.getElem_mem hi) ?_
    unfold HostFile.entryName at hmem
    split_ifs at hmem
    · exact List.mem_of_mem_tail hmem
    · exact hmem
  have hi' : i + 2 < (rootNames files).length := by
    rw [length_rootNames]
    omega
  have hfind : (rootDir files).find (cname files[i].entryName) = some (i + 2) := by
    have h1 := rootDir_find hnames hi'
    have h2 : (rootNames files)[i + 2] = files[i].entryName :=
      List.getElem_map HostFile.entryName
    rw [h2] at h1
    exact h1.trans (congrArg some (if_neg (by omega)))
  rw [hstart, components_name hslash (hne _ (List.getElem_mem hi)), Leads, if_neg Bool.false_ne_true, walk,
    hfile, if_pos rfl] at hlead
  change r.map _ = ((rootDir files).find _).bind some at hlead
  rw [hfind] at hlead
  obtain ⟨⟨ip, name'⟩, rfl, hip⟩ := Option.map_eq_some_iff.mp hlead
  have hip' : (ip : ℕ) = i + 2 := hip
  refine ⟨ip, name', σ', hnamex, hip', ?_⟩
  rw [hsame, hview, hip', hostStore_file hi]

/-! ### An image with one file -/

theorem distinctNames_one : DistinctNames [longFile] := by
  unfold DistinctNames
  decide

theorem mkfs_namei_one : ∃ img, main [longFile] = some img ∧
    ∀ i (hi : i < [longFile].length), ∃ ip name' σ',
    (FsProg.namex (FsProg.rootInum sb) (47 :: [longFile][i].entryName) false []).runFs (fun _ => none)
        (fun _ => none) (mount img, fun _ => 0) = .ok (some (ip, name'), σ', addRef (fun _ => 0) ip) ∧
      (ip : ℕ) = i + 2 ∧ (σ'.view sb).file ip = ⟨T_FILE, 0, 0, 1, [longFile][i].content⟩ :=
  mkfs_namei fits_longFile (by decide) distinctNames_one (by decide) (fun _ => none) (fun _ => none)
    (FsProg.rootInum sb) []

theorem path_resolution_root : ∃ σ : FsState, σ.view sb = hostStore [longFile] ∧ ∃ r σ' data',
    (FsProg.namex (FsProg.rootInum sb) [47, 97, 47, 97] false []).runFs (fun _ => none) (fun _ => none)
        (σ, fun _ => 0) = .ok (r, σ', r.elim (fun _ => 0) fun x => addRef (fun _ => 0) x.1) ∧
      σ'.Holds sb data' ∧ (σ'.view sb).file = (σ.view sb).file ∧
      Leads (σ.view sb).file (fun _ => rootDir [longFile]) false
        (pathStart (FsProg.rootInum sb) [47, 97, 47, 97]) (components [47, 97, 47, 97]) r := by
  obtain ⟨s, hrun, -⟩ := main_spec fits_longFile
  obtain ⟨hH, hview⟩ := mount_holds fits_longFile (by decide) hrun
  have hT := treeHolds_hostStore fits_longFile.count distinctNames_one
  have hfile : (hostStore [longFile]).file (pathStart (FsProg.rootInum sb) [47, 97, 47, 97]) =
      ⟨T_DIR, 0, 0, 1, rootBytes [longFile]⟩ := hostStore_root [longFile]
  rw [← hview] at hT hfile
  exact ⟨mount s.img, hview, path_resolution (fun _ => none) (fun _ => none) ordered_sb hH hT
    (by rw [busy_zero]; decide) (FsProg.rootInum sb) [47, 97, 47, 97] false []
    (by rw [hfile]; show T_DIR ≠ 0; decide) (by rw [hfile]; exact Nat.one_ne_zero)⟩

/-- The file has 15 blocks and the other inodes have none, so that the root directory can grow. -/
theorem dirRoom_one : DirRoom sb (hostStore [longFile]).file (FsProg.rootInum sb) := by
  have hzero : ∀ k, k ≠ ROOTINO → k ≠ 2 → ((hostStore [longFile]).file k).bytes = [] := by
    intro k h1 h2
    rw [hostStore_file_eq, if_neg h1, if_neg]
    show ¬ (2 ≤ k ∧ k < 1 + 2)
    omega
  have hone : 0 < [longFile].length := Nat.zero_lt_one
  have hfile : ((hostStore [longFile]).file 2).bytes = longFile.content :=
    congrArg StoredFile.bytes (hostStore_file hone)
  have hroot : (FsProg.rootInum sb : ℕ) = ROOTINO := rfl
  have hsub : ({ROOTINO, 2} : Finset ℕ) ⊆ Finset.range sb.inodeCount := by
    intro k hk
    rw [Finset.mem_insert, Finset.mem_singleton] at hk
    rw [Finset.mem_range]
    rcases hk with rfl | rfl
    · exact (FsProg.rootInum sb).isLt
    · show 2 < 208
      omega
  rw [DirRoom, hroot, ← Finset.sum_subset hsub, Finset.sum_pair (by decide), if_pos rfl, if_neg (by decide),
    hfile, length_longFile]
  · decide
  · intro k _ hk
    rw [Finset.mem_insert, Finset.mem_singleton, not_or] at hk
    rw [if_neg hk.1, hzero k hk.1 hk.2]
    rfl

/-- One reference to the root directory. -/
theorem busy_root : busy (addRef (fun _ => 0) (FsProg.rootInum sb)) < NINODE := by
  refine (busy_addRef _ _).trans_lt ?_
  rw [busy_zero]
  decide

theorem directory_map_root : ∃ σ : FsState, σ.view sb = hostStore [longFile] ∧
    ∃ ops : List { op : DirOp sb // op.Good (σ.view sb).file }, ops.length = 3 ∧
      let run := runCalls (fun s op =>
        (op.1.prog (FsProg.rootInum sb)).runFs (fun _ => none) (fun _ => none) s) (σ, addRef (fun _ => 0) (FsProg.rootInum sb)) ops
      let spec := runCalls (fun m op => m.step op.1) (rootDir [longFile]) ops
      run.1 = spec.1 ∧ (∀ msg, run.2 = .error msg → spec.2 = .error msg) ∧
        ∀ σ' refs', run.2 = .ok (σ', refs') → refs' = addRef (fun _ => 0) (FsProg.rootInum sb) ∧ (∃ data', σ'.Holds sb data') ∧
          (∃ m', spec.2 = .ok m' ∧ InMap sb (σ'.view sb).file (FsProg.rootInum sb) m') ∧
          ∀ i, i ≠ (FsProg.rootInum sb : ℕ) → (σ'.view sb).file i = (σ.view sb).file i := by
  obtain ⟨s, hrun, -⟩ := main_spec fits_longFile
  obtain ⟨hH, hview⟩ := mount_holds fits_longFile (by decide) hrun
  have hroot : (hostStore [longFile]).file (FsProg.rootInum sb) = ⟨T_DIR, 0, 0, 1, rootBytes [longFile]⟩ :=
    hostStore_root [longFile]
  have hmap : InMap sb (hostStore [longFile]).file (FsProg.rootInum sb) (rootDir [longFile]) := by
    refine ⟨by rw [hroot], ?_, dirRoom_one, fun name inum hfind => ?_⟩
    · rw [hroot]
      exact dirHolds_root fits_longFile.count distinctNames_one
    · obtain ⟨hlt, -, hlink⟩ := rootDir_target fits_longFile.count hfind
      exact ⟨hlt, hlink⟩
  rw [← hview] at hmap hroot
  -- the name "b" is made for the root directory, "a" is taken away, and "b" is found
  have hgood : (DirOp.link [98] (FsProg.rootInum sb)).Good ((mount s.img).view sb).file := by
    refine ⟨Nat.one_ne_zero, ?_⟩
    rw [hroot]
    exact Nat.one_ne_zero
  exact ⟨mount s.img, hview, [⟨.link [98] (FsProg.rootInum sb), hgood⟩, ⟨.erase [97], trivial⟩,
    ⟨.lookup [98], trivial⟩], rfl, directory_map (fun _ => none) (fun _ => none) ordered_sb (by decide) hH
      (by rw [addRef, Function.update_self]; exact Nat.succ_ne_zero _) busy_root hmap _⟩

end OsSemester.Xv6.Mkfs
