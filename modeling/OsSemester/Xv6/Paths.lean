import OsSemester.Xv6.DirectoryMap

/-!
# Path names (`skipelem` and `namex` in `fs.c`)

A path is cut at its slashes into names, and a name leads from a directory to the inode that the directory
has under it.  `path_resolution` says that `namex` walks along these names, and that it ends with one
reference to the inode where it stops and gives back all others.
-/

namespace OsSemester.Xv6

/-! ### The names of a path -/

/-- The parts between the slashes that are not empty. -/
def pieces (path : List UInt8) : List (List UInt8) := (path.splitOn 47).filter fun e => !e.isEmpty

/-- The names that a path is made of. -/
def components (path : List UInt8) : List (List UInt8) := (pieces path).map cname

theorem pieces_slash (path : List UInt8) : pieces (47 :: path) = pieces path := by
  have h := List.splitOn_append_cons_self (a := (47 : UInt8)) [] path
  rw [List.nil_append, List.splitOn_nil] at h
  rw [pieces, h, List.filter_append]
  rfl

theorem pieces_dropWhile (path : List UInt8) : pieces (path.dropWhile (· = 47)) = pieces path := by
  induction path with
  | nil => rfl
  | cons a path ih =>
    by_cases ha : a = 47
    · rw [List.dropWhile_cons_of_pos (by simpa using ha), ih, ha, pieces_slash]
    · rw [List.dropWhile_cons_of_neg (by simpa using ha)]

/-- The first part of a path that does not begin with a slash. -/
theorem pieces_takeWhile {s : List UInt8} (hs : s.takeWhile (· ≠ 47) ≠ []) :
    pieces s = s.takeWhile (· ≠ 47) :: pieces (s.dropWhile (· ≠ 47)) := by
  set elem := s.takeWhile (· ≠ 47) with helem
  have hnot : 47 ∉ elem := by
    intro hmem
    have h1 := List.mem_takeWhile_imp hmem
    simp at h1
  have hkeep : ∀ l, (elem :: l).filter (fun e => !e.isEmpty) = elem :: l.filter fun e => !e.isEmpty :=
    fun l => List.filter_cons_of_pos (by simpa using hs)
  have happ : s = elem ++ s.dropWhile (· ≠ 47) := List.takeWhile_append_dropWhile.symm
  cases hrest : s.dropWhile (· ≠ 47) with
  | nil =>
    rw [hrest, List.append_nil] at happ
    rw [happ, pieces, List.splitOn_eq_singleton hnot, hkeep]
    rfl
  | cons a rest =>
    have ha : a = 47 := by
      have h1 := List.head_dropWhile_not (fun c : UInt8 => decide (c ≠ 47)) (l := s) (by rw [hrest]; simp)
      simp only [hrest, List.head_cons] at h1
      simpa using h1
    rw [hrest, ha] at happ
    rw [happ, pieces, List.splitOn_append_cons_self, List.splitOn_eq_singleton hnot, List.singleton_append,
      hkeep, ha, pieces_slash]
    rfl

/-! ### `skipelem` -/

variable {path name path' name' : List UInt8}

/-- The name that is copied is the one that the part of the path stands for. -/
theorem cname_elem (elem rest : List UInt8) :
    cname (if DIRSIZ ≤ elem.length then elem.take DIRSIZ else elem ++ 0 :: rest) = cname elem := by
  by_cases hlen : DIRSIZ ≤ elem.length
  · rw [if_pos hlen, cname, cname, List.take_take, min_self]
  · have hlt : elem.length < DIRSIZ := not_le.mp hlen
    obtain ⟨n, hn⟩ : ∃ n, DIRSIZ - elem.length = n + 1 := ⟨DIRSIZ - elem.length - 1, by omega⟩
    have hzero : ∀ l : List UInt8, (elem ++ 0 :: l).takeWhile (· ≠ 0) = elem.takeWhile (· ≠ 0) := by
      intro l
      rw [List.takeWhile_append]
      split_ifs with h
      · rw [List.takeWhile_cons_of_neg (by simp), List.append_nil]
        exact ((List.takeWhile_prefix _).eq_of_length h).symm
      · rfl
    rw [if_neg hlen, cname, cname, List.take_append, List.take_of_length_le hlt.le, hn, List.take_succ_cons,
      hzero]

theorem skipelem_none (h : FsProg.skipelem path name = none) : components path = [] := by
  unfold FsProg.skipelem at h
  by_cases hs : path.dropWhile (· = 47) = []
  · rw [components, ← pieces_dropWhile, hs]
    rfl
  · rw [if_neg hs] at h
    cases h

/-- There is a name behind the slashes, unless nothing is. -/
theorem takeWhile_dropWhile_ne_nil {s : List UInt8} (h : s.dropWhile (· = 47) ≠ []) :
    (s.dropWhile (· = 47)).takeWhile (· ≠ 47) ≠ [] := by
  cases hd : s.dropWhile (· = 47) with
  | nil => exact absurd hd h
  | cons a rest =>
    have ha := List.head_dropWhile_not (fun c : UInt8 => decide (c = 47)) (l := s) h
    simp only [hd, List.head_cons] at ha
    rw [List.takeWhile_cons_of_pos (by simpa using ha)]
    exact List.cons_ne_nil _ _

theorem components_eq_nil {s : List UInt8} (h : components (s.dropWhile (· = 47)) = []) :
    s.dropWhile (· = 47) = [] := by
  by_contra hs
  rw [components, pieces_takeWhile (takeWhile_dropWhile_ne_nil hs)] at h
  cases h

theorem skipelem_some (h : FsProg.skipelem path name = some (path', name')) :
    components path = cname name' :: components path' ∧ path'.length < path.length ∧
      (components path' = [] ↔ path' = []) := by
  unfold FsProg.skipelem at h
  by_cases hs : path.dropWhile (· = 47) = []
  · rw [if_pos hs] at h
    cases h
  · rw [if_neg hs] at h
    obtain ⟨rfl, rfl⟩ := Prod.mk.inj (Option.some.inj h)
    set s := path.dropWhile (· = 47) with hsdef
    have hfirst : s.takeWhile (· ≠ 47) ≠ [] := takeWhile_dropWhile_ne_nil hs
    refine ⟨?_, ?_, components_eq_nil, fun hnil => by rw [hnil]; rfl⟩
    · rw [cname_elem, components, ← pieces_dropWhile, ← hsdef, pieces_takeWhile hfirst, components,
        pieces_dropWhile, List.map_cons]
    · have h1 : ((s.dropWhile (· ≠ 47)).dropWhile (· = 47)).length ≤ (s.dropWhile (· ≠ 47)).length :=
        (List.dropWhile_suffix _).length_le
      have h2 : s.length ≤ path.length := (List.dropWhile_suffix _).length_le
      have h3 : (s.takeWhile (· ≠ 47)).length + (s.dropWhile (· ≠ 47)).length = s.length := by
        rw [← List.length_append, List.takeWhile_append_dropWhile]
      have h4 : 0 < (s.takeWhile (· ≠ 47)).length := List.length_pos_iff.mpr hfirst
      omega

/-! ### Walking -/

section

variable (file : ℕ → StoredFile) (dirs : ℕ → DirMap)

/-- The inode to which names lead from an inode. -/
def walk : ℕ → List (List UInt8) → Option ℕ
  | k, [] => some k
  | k, c :: cs => if (file k).type = T_DIR then ((dirs k).find c).bind fun j => walk j cs else none

/-- The directory to which all but the last name lead, and the last name. -/
def walkParent : ℕ → List (List UInt8) → Option (ℕ × List UInt8)
  | _, [] => none
  | k, c :: cs =>
    if (file k).type = T_DIR then
      if cs = [] then some (k, c) else ((dirs k).find c).bind fun j => walkParent j cs
    else none

/-- The directories with links stand for maps, and their names for inodes with links. -/
structure TreeHolds (sb : Superblock) : Prop where
  dir : ∀ k, k < sb.inodeCount → (file k).type = T_DIR → (file k).nlink ≠ 0 → DirHolds (file k).bytes (dirs k)
  target : ∀ k, k < sb.inodeCount → (file k).type = T_DIR → (file k).nlink ≠ 0 →
    ∀ name inum, (dirs k).find name = some inum →
      inum < sb.inodeCount ∧ (file inum).type ≠ 0 ∧ (file inum).nlink ≠ 0

end

variable {sb : Superblock}

/-- Another reference. -/
def addRef (refs : InodeRefs sb) (k : Fin sb.inodeCount) : InodeRefs sb := Function.update refs k (refs k + 1)

theorem busy_addRef (refs : InodeRefs sb) (k : Fin sb.inodeCount) : busy (addRef refs k) ≤ busy refs + 1 := by
  refine (Finset.card_le_card fun i hi => ?_).trans (Finset.card_insert_le k _)
  rw [Finset.mem_filter] at hi
  rw [Finset.mem_insert, Finset.mem_filter]
  by_cases hik : i = k
  · exact Or.inl hik
  · have h1 := hi.2
    rw [addRef, Function.update_of_ne hik] at h1
    exact Or.inr ⟨Finset.mem_univ _, h1⟩

/-- A reference is taken and another one given back. -/
theorem addRef_addRef_sub (refs : InodeRefs sb) (i j : Fin sb.inodeCount) :
    Function.update (addRef (addRef refs i) j) i (addRef (addRef refs i) j i - 1) = addRef refs j := by
  funext k
  unfold addRef
  by_cases hki : k = i
  · rw [hki, Function.update_self]
    by_cases hij : i = j
    · rw [← hij, Function.update_self, Function.update_self, Nat.add_sub_cancel]
    · rw [Function.update_of_ne hij, Function.update_of_ne hij, Function.update_self, Nat.add_sub_cancel]
  · rw [Function.update_of_ne hki]
    by_cases hkj : k = j
    · rw [hkj, Function.update_self, Function.update_self, Function.update_of_ne (hkj ▸ hki)]
    · rw [Function.update_of_ne hkj, Function.update_of_ne hkj, Function.update_of_ne hki]

section

variable {devsw : DevSwitch} {devread : DevRead} {file : ℕ → StoredFile} {dirs : ℕ → DirMap}
  {refs : InodeRefs sb} {ip : Fin sb.inodeCount} {n : ℕ}

/-- What `namex` finds is where the names lead. -/
def Leads (file : ℕ → StoredFile) (dirs : ℕ → DirMap) (nameiparent : Bool) (k : ℕ) (cs : List (List UInt8))
    (r : Option (Fin sb.inodeCount × List UInt8)) : Prop :=
  if nameiparent then r.map (fun x => ((x.1 : ℕ), cname x.2)) = walkParent file dirs k cs
  else r.map (fun x => (x.1 : ℕ)) = walk file dirs k cs

theorem leads_none {nameiparent : Bool} {k : ℕ} {c : List UInt8} {cs : List (List UInt8)}
    (h : (file k).type ≠ T_DIR) :
    Leads file dirs nameiparent k (c :: cs) (none : Option (Fin sb.inodeCount × List UInt8)) := by
  unfold Leads
  rw [walk, walkParent, if_neg h, if_neg h]
  split_ifs <;> rfl

theorem leads_cons {nameiparent : Bool} {k : ℕ} {c : List UInt8} {cs : List (List UInt8)}
    {r : Option (Fin sb.inodeCount × List UInt8)} (h : (file k).type = T_DIR)
    (hcs : ¬ (nameiparent ∧ cs = []))
    (hr : ((dirs k).find c = none ∧ r = none) ∨
      ∃ j, (dirs k).find c = some j ∧ Leads file dirs nameiparent j cs r) :
    Leads file dirs nameiparent k (c :: cs) r := by
  unfold Leads at hr ⊢
  rw [walk, walkParent, if_pos h, if_pos h]
  rcases hr with ⟨hfind, rfl⟩ | ⟨j, hfind, hr⟩
  · rw [hfind]
    cases nameiparent with
    | false => rfl
    | true =>
      rw [if_pos rfl, if_neg fun hnil => hcs ⟨rfl, hnil⟩]
      rfl
  · rw [hfind]
    cases nameiparent with
    | false => exact hr
    | true =>
      rw [if_pos rfl, if_neg fun hnil => hcs ⟨rfl, hnil⟩]
      exact hr

/-- The loop of `namex` walks along the names, with one reference at a time. -/
theorem does_namexLoop (hT : TreeHolds file dirs sb) (hbusy : busy refs + 1 < NINODE) (nameiparent : Bool)
    (hn : path.length < n) (htype : (file ip).type ≠ 0) (hlink : (file ip).nlink ≠ 0) :
    ∃ r, FsProg.Does devsw devread (FsProg.namexLoop nameiparent n ip path name) file (addRef refs ip)
        (.ok (r, file, r.elim refs fun x => addRef refs x.1)) ∧
      Leads file dirs nameiparent ip (components path) r := by
  induction n generalizing ip path name with
  | zero => exact absurd hn (Nat.not_lt_zero _)
  | succ n ih =>
    have hself : addRef refs ip ip ≠ 0 := by
      rw [addRef, Function.update_self]
      exact Nat.succ_ne_zero _
    have hput : FsProg.Does devsw devread (FsProg.iput ip) file (addRef refs ip) (.ok ((), file, refs)) :=
      FsProg.does_iput_taken hlink
    rw [FsProg.namexLoop]
    cases hskip : FsProg.skipelem path name with
    | none =>
      rw [skipelem_none hskip]
      cases nameiparent with
      | false => exact ⟨some (ip, name), FsProg.does_pure _, rfl⟩
      | true => exact ⟨none, hput.bind (FsProg.does_pure _), rfl⟩
    | some x =>
      obtain ⟨path', name'⟩ := x
      obtain ⟨hcs, hlen, hlast⟩ := skipelem_some hskip
      rw [hcs]
      by_cases hdir : (file ip).type = T_DIR
      · by_cases hstop : nameiparent ∧ path' = []
        · refine ⟨some (ip, name'), (FsProg.does_fields hself htype).bind ?_, ?_⟩
          · show FsProg.Does _ _ (if (file ip).type ≠ T_DIR then _ else _) _ _ _
            rw [if_neg (not_not.mpr hdir), if_pos hstop]
            exact FsProg.does_pure _
          · rw [Leads, if_pos hstop.1, hlast.mpr hstop.2, walkParent, if_pos hdir, if_pos rfl]
            rfl
        · have hcs' : ¬ (nameiparent ∧ components path' = []) := fun hand => hstop ⟨hand.1, hlast.mp hand.2⟩
          have hholds := hT.dir ip ip.isLt hdir hlink
          cases hfind : (dirs ip).find (cname name') with
          | none =>
            refine ⟨none, (FsProg.does_fields hself htype).bind ?_, leads_cons hdir hcs' (Or.inl ⟨hfind, rfl⟩)⟩
            show FsProg.Does _ _ (if (file ip).type ≠ T_DIR then _ else _) _ _ _
            rw [if_neg (not_not.mpr hdir), if_neg hstop]
            exact (FsProg.does_dirlookup_none hself hdir hholds hfind).bind (hput.bind (FsProg.does_pure _))
          | some j =>
            obtain ⟨hj, hjtype, hjlink⟩ := hT.target ip ip.isLt hdir hlink _ _ hfind
            have hroom : busy (addRef refs ip) < NINODE := (busy_addRef refs ip).trans_lt hbusy
            have hlookup : ∃ i, FsProg.Does devsw devread (FsProg.dirlookup ip name') file (addRef refs ip)
                (.ok (some (⟨j, hj⟩, i * Dirent.size), file, addRef (addRef refs ip) ⟨j, hj⟩)) :=
              (FsProg.does_dirlookup_some hself hdir hholds hfind hj (Or.inr hroom)).imp fun _ h => h.2.2.2.2
            obtain ⟨i, hlookup⟩ := hlookup
            have hnext : ∃ r, FsProg.Does devsw devread (FsProg.namexLoop nameiparent n ⟨j, hj⟩ path' name')
                file (addRef refs ⟨j, hj⟩) (.ok (r, file, r.elim refs fun x => addRef refs x.1)) ∧
                Leads file dirs nameiparent j (components path') r :=
              ih (by omega) hjtype hjlink
            obtain ⟨r, hdoes, hr⟩ := hnext
            refine ⟨r, (FsProg.does_fields hself htype).bind ?_, leads_cons hdir hcs' (Or.inr ⟨j, hfind, hr⟩)⟩
            show FsProg.Does _ _ (if (file ip).type ≠ T_DIR then _ else _) _ _ _
            rw [if_neg (not_not.mpr hdir), if_neg hstop]
            refine hlookup.bind ?_
            -- `ip` is given back after the reference to the next inode has been taken
            have hdrop : FsProg.Does devsw devread (FsProg.iput ip) file
                (addRef (addRef refs ip) ⟨j, hj⟩) _ :=
              FsProg.does_iput (Or.inl hlink)
            rw [addRef_addRef_sub] at hdrop
            exact hdrop.bind hdoes
      · refine ⟨none, (FsProg.does_fields hself htype).bind ?_, leads_none hdir⟩
        show FsProg.Does _ _ (if (file ip).type ≠ T_DIR then _ else _) _ _ _
        rw [if_pos hdir]
        exact hput.bind (FsProg.does_pure _)

/-- The inode at which a path begins. -/
def pathStart (cwd : Fin sb.inodeCount) (path : List UInt8) : Fin sb.inodeCount :=
  if path.headD 0 = 47 then FsProg.rootInum sb else cwd

theorem does_namex (devsw : DevSwitch) (devread : DevRead) (cwd : Fin sb.inodeCount)
    (path name : List UInt8) (hT : TreeHolds file dirs sb) (hbusy : busy refs + 1 < NINODE)
    (nameiparent : Bool) (htype : (file (pathStart cwd path)).type ≠ 0)
    (hlink : (file (pathStart cwd path)).nlink ≠ 0) :
    ∃ r, FsProg.Does devsw devread (FsProg.namex cwd path nameiparent name) file refs
        (.ok (r, file, r.elim refs fun x => addRef refs x.1)) ∧
      Leads file dirs nameiparent (pathStart cwd path) (components path) r := by
  unfold FsProg.namex pathStart at *
  split_ifs at htype hlink ⊢ with habs
  · exact (does_namexLoop hT hbusy nameiparent (Nat.lt_succ_self _) htype hlink).imp fun r hr =>
      ⟨(FsProg.does_iget (Or.inr (by omega))).bind hr.1, hr.2⟩
  · exact (does_namexLoop hT hbusy nameiparent (Nat.lt_succ_self _) htype hlink).imp fun r hr =>
      ⟨FsProg.does_idup.bind hr.1, hr.2⟩

end

/-- **`namei` and `nameiparent` walk along the names of the path.** -/
theorem path_resolution (devsw : DevSwitch) (devread : DevRead) (hv : sb.Ordered) {σ : FsState}
    {data : ℕ → ℕ → UInt8} (hσ : σ.Holds sb data) {dirs : ℕ → DirMap}
    (hT : TreeHolds (σ.view sb).file dirs sb)
    {refs : InodeRefs sb} (hbusy : busy refs + 1 < NINODE) (cwd : Fin sb.inodeCount) (path : List UInt8)
    (nameiparent : Bool) (name : List UInt8) (htype : ((σ.view sb).file (pathStart cwd path)).type ≠ 0)
    (hlink : ((σ.view sb).file (pathStart cwd path)).nlink ≠ 0) :
    ∃ r σ' data', (FsProg.namex cwd path nameiparent name).runFs devsw devread (σ, refs) =
        .ok (r, σ', r.elim refs fun x => addRef refs x.1) ∧
      σ'.Holds sb data' ∧ (σ'.view sb).file = (σ.view sb).file ∧
      Leads (σ.view sb).file dirs nameiparent (pathStart cwd path) (components path) r := by
  obtain ⟨r, hdoes, hr⟩ := does_namex devsw devread cwd path name hT hbusy nameiparent htype hlink
  obtain ⟨σ', data', hrun, hσ', hfile⟩ := hdoes.runFs_ok hv hσ
  exact ⟨r, σ', data', hrun, hσ', hfile, hr⟩

end OsSemester.Xv6
