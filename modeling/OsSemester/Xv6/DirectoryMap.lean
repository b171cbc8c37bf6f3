import OsSemester.Xv6.DirectoryEntries

/-!
# A directory is a finite map

On files that are lists of bytes, `dirlookup` finds the entry with a name and `dirlink` writes one to the
first place that is free; `directory_map` says that any calls of them on a directory are those of a map from
names to inodes.
-/

namespace OsSemester.Xv6

/-! ### The calls on lists of bytes -/

namespace FsProg

section

variable {sb : Superblock} {devsw : DevSwitch} {devread : DevRead} {β γ : Type} {file file' : ℕ → StoredFile}
  {refs refs' : InodeRefs sb} {k : Fin sb.inodeCount} {off n : ℕ}

/-- What a program does on files, whichever of the inodes are in memory. -/
def Does (devsw : DevSwitch) (devread : DevRead) (c : FsProg sb β) (file : ℕ → StoredFile)
    (refs : InodeRefs sb) (x : Except String (β × (ℕ → StoredFile) × InodeRefs sb)) : Prop :=
  ∀ v, (c.run (FileStore.call sb devsw devread) id (⟨file, v⟩, refs)).map
    (fun r => (r.1, r.2.1.file, r.2.2)) = x

theorem Does.bind {c : FsProg sb β} {f : β → FsProg sb γ} {b : β}
    {x : Except String (γ × (ℕ → StoredFile) × InodeRefs sb)}
    (hc : Does devsw devread c file refs (.ok (b, file', refs')))
    (hf : Does devsw devread (f b) file' refs' x) :
    Does devsw devread (c >>= f) file refs x := by
  intro v
  have h := hc v
  cases hrun : c.run (FileStore.call sb devsw devread) id (⟨file, v⟩, refs) with
  | error e =>
    rw [hrun] at h
    cases h
  | ok r =>
    obtain ⟨b', ⟨file'', v'⟩, refs''⟩ := r
    rw [hrun] at h
    obtain ⟨rfl, htail⟩ := Prod.mk.inj (Except.ok.inj h)
    obtain ⟨rfl, rfl⟩ := Prod.mk.inj htail
    rw [Client.run_bind_ok hrun]
    exact hf v'

theorem Does.bind_error {c : FsProg sb β} {f : β → FsProg sb γ} {e : String}
    (hc : Does devsw devread c file refs (.error e)) : Does devsw devread (c >>= f) file refs (.error e) := by
  intro v
  have h := hc v
  cases hrun : c.run (FileStore.call sb devsw devread) id (⟨file, v⟩, refs) with
  | error e' =>
    rw [hrun] at h
    obtain rfl := Except.error.inj h
    rw [Client.run_bind, hrun]
    rfl
  | ok r =>
    rw [hrun] at h
    cases h

theorem does_pure (b : β) : Does devsw devread (pure b) file refs (.ok (b, file, refs)) := fun _ => rfl

theorem does_panic (msg : String) : Does devsw devread (panic msg : FsProg sb β) file refs (.error msg) :=
  fun _ => rfl

theorem does_fields (hk : refs k ≠ 0) (h0 : (file k).type ≠ 0) : Does devsw devread (fields k) file refs
    (.ok (((file k).type, (file k).nlink, (file k).bytes.length), file, refs)) := by
  intro v
  have hstep : FileStore.call sb devsw devread (⟨file, v⟩, refs) (.stati k) =
      .ok (.stat k (file k).type (file k).nlink (file k).bytes.length, FileStore.load ⟨file, v⟩ k, refs) := by
    rw [FileStore.call, withRefs, InodeRefs.locked_ok hk, FileStore.step, if_neg h0]
    rfl
  rw [fields, Client.run_call_ok hstep]
  rfl

/-- An offset and a number of bytes go through `uint`. -/
theorem toNat_offset (h : off + n < 2 ^ 32) :
    (UInt32.ofNat off).toNat = off ∧ (UInt32.ofNat n).toNat = n :=
  ⟨UInt32.toNat_ofNat_of_lt' (Nat.lt_of_le_of_lt (Nat.le_add_right _ _) h),
    UInt32.toNat_ofNat_of_lt' (Nat.lt_of_le_of_lt (Nat.le_add_left _ _) h)⟩

theorem does_readi (hk : refs k ≠ 0) (h0 : (file k).type ≠ 0) (hdev : (file k).type ≠ T_DEV)
    (hoff : off + n ≤ (file k).bytes.length) (hmax : (file k).bytes.length ≤ MAXFILE * BSIZE) :
    Does devsw devread (readi k off n) file refs
      (.ok (((n : ℤ), ((file k).bytes.drop off).take n), file, refs)) := by
  intro v
  have hlt : off + n < 2 ^ 32 := (hoff.trans hmax).trans_lt (by decide)
  obtain ⟨hoff', hn'⟩ := toNat_offset hlt
  have hlen : (((file k).bytes.drop off).take n).length = n := by
    rw [List.length_take, List.length_drop]
    omega
  have hread : FileStore.read devread (file k) off n = ((n : ℤ), ((file k).bytes.drop off).take n) := by
    rw [FileStore.read, if_neg hdev, if_neg (by omega), hlen]
  have hstep : FileStore.call sb devsw devread (⟨file, v⟩, refs)
      (.readi k (UInt32.ofNat off) (UInt32.ofNat n)) =
        .ok (.read n (((file k).bytes.drop off).take n), FileStore.load ⟨file, v⟩ k, refs) := by
    rw [FileStore.call, withRefs, InodeRefs.locked_ok hk, FileStore.step, if_neg h0, hoff', hn', hread]
    rfl
  rw [readi, Client.run_call_ok hstep]
  rfl

/-- A write at most at the end of a file, when the files fit behind it. -/
theorem does_writei {src : List UInt8} (hk : refs k ≠ 0) (h0 : (file k).type ≠ 0) (hdev : (file k).type ≠ T_DEV)
    (hoff : off ≤ (file k).bytes.length) (hmax : off + n ≤ MAXFILE * BSIZE)
    (hfit : ∀ v, (FileStore.set ⟨file, v⟩ k { file k with
      bytes := FileStore.write (file k).bytes (fun j => src.getD j 0) off n }).Fit sb) :
    Does devsw devread (writei k src off n) file refs (.ok ((n : ℤ), Function.update file k { file k with
      bytes := FileStore.write (file k).bytes (fun j => src.getD j 0) off n }, refs)) := by
  intro v
  have hlt : off + n < 2 ^ 32 := hmax.trans_lt (by decide)
  obtain ⟨hoff', hn'⟩ := toNat_offset hlt
  have hstep : FileStore.call sb devsw devread (⟨file, v⟩, refs)
      (.writei k (fun j => src.getD j 0) (UInt32.ofNat off) (UInt32.ofNat n)) =
        .ok (.written n, (FileStore.set ⟨file, v⟩ k { file k with
          bytes := FileStore.write (file k).bytes (fun j => src.getD j 0) off n }).load k, refs) := by
    have hin : ¬ (off > (file k).bytes.length ∨ MAXFILE * BSIZE < off + n) := by omega
    rw [FileStore.call, withRefs, InodeRefs.locked_ok hk, FileStore.step, if_neg h0, if_neg hdev, hoff', hn', if_neg hin, if_pos]
    · rfl
    · exact hfit v
  rw [writei, Client.run_call_ok hstep]
  rfl

theorem does_writei_refused {src : List UInt8} (hk : refs k ≠ 0) (h0 : (file k).type ≠ 0) (hdev : (file k).type ≠ T_DEV)
    (hoff : off < 2 ^ 32) (hn : n < 2 ^ 32) (hmax : MAXFILE * BSIZE < off + n) :
    Does devsw devread (writei k src off n) file refs (.ok (-1, file, refs)) := by
  intro v
  have hoff' : (UInt32.ofNat off).toNat = off := UInt32.toNat_ofNat_of_lt' hoff
  have hn' : (UInt32.ofNat n).toNat = n := UInt32.toNat_ofNat_of_lt' hn
  have hstep : FileStore.call sb devsw devread (⟨file, v⟩, refs)
      (.writei k (fun j => src.getD j 0) (UInt32.ofNat off) (UInt32.ofNat n)) =
        .ok (.written (-1), FileStore.load ⟨file, v⟩ k, refs) := by
    rw [FileStore.call, withRefs, InodeRefs.locked_ok hk, FileStore.step, if_neg h0, if_neg hdev, hoff', hn',
      if_pos (Or.inr hmax)]
    rfl
  rw [writei, Client.run_call_ok hstep]
  rfl

theorem does_iget (h : refs k ≠ 0 ∨ busy refs < NINODE) :
    Does devsw devread (iget k) file refs (.ok ((), file, Function.update refs k (refs k + 1))) := by
  intro v
  have hstep : FileStore.call sb devsw devread (⟨file, v⟩, refs) (.iget k) =
      .ok (.void, ⟨file, v⟩, Function.update refs k (refs k + 1)) := by
    rw [FileStore.call, withRefs, InodeRefs.iget_ok h]
    rfl
  rw [iget, Client.run_call_ok hstep]
  rfl

theorem refs_taken {dp : Fin sb.inodeCount} (hdp : refs dp ≠ 0) :
    Function.update refs k (refs k + 1) dp ≠ 0 := by
  by_cases hk : dp = k
  · rw [hk, Function.update_self]
    exact Nat.succ_ne_zero _
  · rwa [Function.update_of_ne hk]

theorem does_idup :
    Does devsw devread (idup k) file refs (.ok ((), file, Function.update refs k (refs k + 1))) :=
  fun _ => rfl

/-- A reference goes, and the file stays when it has links or other references. -/
theorem does_iput (h : (file k).nlink ≠ 0 ∨ refs k ≠ 1) :
    Does devsw devread (iput k) file refs (.ok ((), file, Function.update refs k (refs k - 1))) := by
  intro v
  have hstep : ∃ v', FileStore.call sb devsw devread (⟨file, v⟩, refs) (.iput k) =
      .ok (.void, ⟨file, v'⟩, Function.update refs k (refs k - 1)) := by
    show ∃ v', (FileStore.step sb devsw devread ⟨file, v⟩ (.iput k (refs k))).map _ = _
    rw [FileStore.step]
    by_cases h1 : refs k = 1
    · have hkept : ¬ (v k = true ∧ (file k).nlink = 0) := by
        rintro ⟨-, h2⟩
        exact h.elim (fun h3 => h3 h2) fun h3 => h3 h1
      rw [if_pos h1]
      refine ⟨Function.update v k false, ?_⟩
      show Except.map _ (if v k = true ∧ (file k).nlink = 0 then _ else _) = _
      rw [if_neg hkept]
      rfl
    · rw [if_neg h1]
      exact ⟨v, rfl⟩
  obtain ⟨v', hstep⟩ := hstep
  rw [iput, Client.run_call_ok hstep]
  rfl

/-- A reference that has been taken is given back. -/
theorem does_iput_taken (h : (file k).nlink ≠ 0) : Does devsw devread (iput k) file
    (Function.update refs k (refs k + 1)) (.ok ((), file, refs)) := by
  have hdoes : Does devsw devread (iput k) file (Function.update refs k (refs k + 1)) _ :=
    does_iput (Or.inl h)
  rw [Function.update_self, Function.update_idem, Nat.add_sub_cancel, Function.update_eq_self] at hdoes
  exact hdoes

/-! ### `dirlookup` and `dirlink` -/

variable {dp : Fin sb.inodeCount} {m : DirMap} {name : List UInt8} {i i₀ inum : ℕ}

/-- An entry of a directory is read. -/
theorem does_read_entry (hdp : refs dp ≠ 0) (hdir : (file dp).type = T_DIR) (h : DirHolds (file dp).bytes m)
    (hi : i < slots (file dp).bytes) :
    Does devsw devread (readi dp (i * Dirent.size) Dirent.size) file refs (.ok (((Dirent.size : ℕ),
      ((file dp).bytes.drop (i * Dirent.size)).take Dirent.size), file, refs)) := by
  have hlen : i * Dirent.size + Dirent.size ≤ (file dp).bytes.length := by
    rw [← Nat.succ_mul]
    exact h.mul_le_length hi
  exact does_readi hdp (by rw [hdir]; decide) (by rw [hdir]; decide) hlen h.le

theorem does_dirlookupLoop (hdp : refs dp ≠ 0) (hdir : (file dp).type = T_DIR) (h : DirHolds (file dp).bytes m)
    (hn : slots (file dp).bytes ≤ i + n) {x : Except String (Option (Fin sb.inodeCount × ℕ) ×
      (ℕ → StoredFile) × InodeRefs sb)}
    (hnone : (∀ j, i ≤ j → j < slots (file dp).bytes → (entry (file dp).bytes j).inum ≠ 0 →
      cname (entry (file dp).bytes j).name ≠ cname name) → x = .ok (none, file, refs))
    (hsome : ∀ j, i ≤ j → j < slots (file dp).bytes → (entry (file dp).bytes j).inum ≠ 0 →
      cname (entry (file dp).bytes j).name = cname name →
        ∃ hlt : (entry (file dp).bytes j).inum < sb.inodeCount,
          Does devsw devread (do
            iget ⟨(entry (file dp).bytes j).inum, hlt⟩
            return some (⟨(entry (file dp).bytes j).inum, hlt⟩, j * Dirent.size)) file refs x) :
    Does devsw devread (dirlookupLoop dp name (file dp).bytes.length n (i * Dirent.size)) file refs x := by
  induction n generalizing i with
  | zero =>
    rw [hnone fun j hij hj => absurd (hij.trans_lt hj) (not_lt.mpr hn)]
    exact does_pure none
  | succ n ih =>
    rw [dirlookupLoop]
    by_cases hi : i < slots (file dp).bytes
    · have hoff : i * Dirent.size < (file dp).bytes.length := by
        have h1 := h.mul_le_length (Nat.succ_le_of_lt hi)
        rw [Nat.succ_mul] at h1
        exact Nat.lt_of_lt_of_le (Nat.lt_add_of_pos_right (by decide)) h1
      rw [if_pos hoff]
      refine (does_read_entry hdp hdir h hi).bind ?_
      show Does devsw devread (if ((Dirent.size : ℕ) : ℤ) ≠ _ then _ else
        if (entry (file dp).bytes i).inum = 0 then _ else
          if namecmp name (entry (file dp).bytes i).name = 0 then _ else _) _ _ _
      rw [if_neg (not_not.mpr rfl), ← Nat.succ_mul]
      -- the loop goes on behind an entry that does not match
      have hnext : (entry (file dp).bytes i).inum = 0 ∨ cname (entry (file dp).bytes i).name ≠ cname name →
          Does devsw devread (dirlookupLoop dp name (file dp).bytes.length n ((i + 1) * Dirent.size)) file
            refs x := by
        intro hno
        refine ih (by omega) (fun hall => hnone fun j hij hj hj0 => ?_) fun j hij => hsome j (by omega)
        obtain hlt | rfl := Nat.lt_or_eq_of_le hij
        · exact hall j hlt hj hj0
        · exact hno.resolve_left hj0
      by_cases h0 : (entry (file dp).bytes i).inum = 0
      · rw [if_pos h0]
        exact hnext (Or.inl h0)
      · rw [if_neg h0]
        by_cases hname : cname name = cname (entry (file dp).bytes i).name
        · obtain ⟨hlt, hdoes⟩ := hsome i le_rfl hi h0 hname.symm
          rw [if_pos ((namecmp_eq_zero _ _).mpr hname)]
          show Does devsw devread (if h : (entry (file dp).bytes i).inum < sb.inodeCount then _ else _) _ _ _
          rw [dif_pos hlt]
          exact hdoes
        · rw [if_neg (mt (namecmp_eq_zero _ _).mp hname)]
          exact hnext (Or.inr fun hn => hname hn.symm)
    · have hoff : ¬ i * Dirent.size < (file dp).bytes.length := by
        have h1 : slots (file dp).bytes * Dirent.size = (file dp).bytes.length := Nat.div_mul_cancel h.dvd
        rw [← h1]
        exact not_lt.mpr (Nat.mul_le_mul_right _ (not_lt.mp hi))
      rw [if_neg hoff, hnone fun j hij hj => absurd (hij.trans_lt hj) hi]
      exact does_pure none

/-- A name that is not in the directory. -/
theorem does_dirlookup_none (hdp : refs dp ≠ 0) (hdir : (file dp).type = T_DIR) (h : DirHolds (file dp).bytes m)
    (hnone : m.find (cname name) = none) :
    Does devsw devread (dirlookup dp name) file refs (.ok (none, file, refs)) := by
  have hfresh := h.find_eq_none.mp hnone
  refine (does_fields hdp (by rw [hdir]; decide)).bind ?_
  show Does devsw devread (if (file dp).type ≠ T_DIR then _ else _) _ _ _
  rw [if_neg (not_not.mpr hdir), ← Nat.zero_mul Dirent.size]
  refine does_dirlookupLoop hdp hdir h ?_ (fun _ => rfl) fun j _ hj h0 hname => absurd hname (hfresh j hj h0)
  rw [Nat.zero_add]
  exact Nat.le_succ _

/-- A name of the directory, and where it is. -/
theorem does_dirlookup_some (hdp : refs dp ≠ 0) (hdir : (file dp).type = T_DIR) (h : DirHolds (file dp).bytes m)
    (hsome : m.find (cname name) = some inum) (hlt : inum < sb.inodeCount)
    (hbusy : refs ⟨inum, hlt⟩ ≠ 0 ∨ busy refs < NINODE) :
    ∃ i, i < slots (file dp).bytes ∧ (entry (file dp).bytes i).inum = inum ∧ inum ≠ 0 ∧
      cname (entry (file dp).bytes i).name = cname name ∧
      Does devsw devread (dirlookup dp name) file refs (.ok (some (⟨inum, hlt⟩, i * Dirent.size), file,
        Function.update refs ⟨inum, hlt⟩ (refs ⟨inum, hlt⟩ + 1))) := by
  obtain ⟨i, hi, hi0, rfl, hiname⟩ := (h.find _ _).mp hsome
  refine ⟨i, hi, rfl, hi0, hiname, (does_fields hdp (by rw [hdir]; decide)).bind ?_⟩
  show Does devsw devread (if (file dp).type ≠ T_DIR then _ else _) _ _ _
  rw [if_neg (not_not.mpr hdir), ← Nat.zero_mul Dirent.size]
  refine does_dirlookupLoop hdp hdir h ?_ (fun hall => absurd hiname (hall i (Nat.zero_le _) hi hi0))
    fun j _ hj hj0 hjname => ?_
  · rw [Nat.zero_add]
    exact Nat.le_succ _
  · obtain rfl := h.unique j i hj hi hj0 hi0 (hjname.trans hiname.symm)
    exact ⟨hlt, (does_iget hbusy).bind (does_pure _)⟩

/-- The loop of `dirlink` stops at the first entry that is free, or at the end. -/
theorem does_freeEntryLoop (hdp : refs dp ≠ 0) (hdir : (file dp).type = T_DIR) (h : DirHolds (file dp).bytes m)
    (hi : i ≤ slots (file dp).bytes) (hn : slots (file dp).bytes ≤ i + n)
    (hused : ∀ j, j < i → (entry (file dp).bytes j).inum ≠ 0) :
    ∃ i₀, i₀ ≤ slots (file dp).bytes ∧ (i₀ < slots (file dp).bytes → (entry (file dp).bytes i₀).inum = 0) ∧
      (∀ j, j < i₀ → (entry (file dp).bytes j).inum ≠ 0) ∧
      Does devsw devread (freeEntryLoop dp (file dp).bytes.length n (i * Dirent.size)) file refs
        (.ok (i₀ * Dirent.size, file, refs)) := by
  induction n generalizing i with
  | zero => exact ⟨i, hi, fun hlt => absurd hlt (not_lt.mpr hn), hused, does_pure _⟩
  | succ n ih =>
    rw [freeEntryLoop]
    obtain hlt | rfl := Nat.lt_or_eq_of_le hi
    · have hoff : i * Dirent.size < (file dp).bytes.length := by
        have h1 := h.mul_le_length (Nat.succ_le_of_lt hlt)
        rw [Nat.succ_mul] at h1
        exact Nat.lt_of_lt_of_le (Nat.lt_add_of_pos_right (by decide)) h1
      rw [if_pos hoff]
      by_cases h0 : (entry (file dp).bytes i).inum = 0
      · refine ⟨i, hi, fun _ => h0, hused, (does_read_entry hdp hdir h hlt).bind ?_⟩
        show Does devsw devread (if ((Dirent.size : ℕ) : ℤ) ≠ _ then _ else
          if (entry (file dp).bytes i).inum = 0 then _ else _) _ _ _
        rw [if_neg (not_not.mpr rfl), if_pos h0]
        exact does_pure _
      · obtain ⟨i₀, hle, hfree, hused₀, hdoes⟩ := ih (i := i + 1) hlt (by omega) fun j hj => by
          obtain hlt' | rfl := Nat.lt_or_eq_of_le (Nat.le_of_lt_succ hj)
          · exact hused j hlt'
          · exact h0
        refine ⟨i₀, hle, hfree, hused₀, (does_read_entry hdp hdir h hlt).bind ?_⟩
        show Does devsw devread (if ((Dirent.size : ℕ) : ℤ) ≠ _ then _ else
          if (entry (file dp).bytes i).inum = 0 then _ else _) _ _ _
        rw [if_neg (not_not.mpr rfl), if_neg h0, ← Nat.succ_mul]
        exact hdoes
    · have hoff : ¬ slots (file dp).bytes * Dirent.size < (file dp).bytes.length := by
        rw [slots, Nat.div_mul_cancel h.dvd]
        exact lt_irrefl _
      rw [if_neg hoff]
      exact ⟨_, le_rfl, fun hlt => absurd hlt (lt_irrefl _), hused, does_pure _⟩

/-- An entry of a directory is written. -/
theorem does_write_entry {e : Dirent} (hdp : refs dp ≠ 0) (hdir : (file dp).type = T_DIR) (h : DirHolds (file dp).bytes m)
    (hroom : DirRoom sb file dp) (hi₀ : i₀ ≤ slots (file dp).bytes)
    (hmax : (i₀ + 1) * Dirent.size ≤ MAXFILE * BSIZE) :
    Does devsw devread (writei dp e.toBytes (i₀ * Dirent.size) Dirent.size) file refs
      (.ok ((Dirent.size : ℕ), withBytes file dp (DirHolds.put (file dp).bytes i₀ e), refs)) := by
  refine does_writei hdp (by rw [hdir]; decide) (by rw [hdir]; decide) (h.mul_le_length hi₀)
    (by rw [← Nat.succ_mul]; exact hmax) fun v => hroom.fit ?_ v
  show (DirHolds.put (file dp).bytes i₀ e).length ≤ _
  rw [h.length_put hi₀, ← Nat.mul_max_mul_right]
  have h1 : slots (file dp).bytes * Dirent.size = (file dp).bytes.length := Nat.div_mul_cancel h.dvd
  exact max_le (h1.trans_le h.le) hmax

/-- A name that is there is not linked again. -/
theorem does_dirlink_some {k : ℕ} (hdp : refs dp ≠ 0) (hdir : (file dp).type = T_DIR) (h : DirHolds (file dp).bytes m)
    (hsome : m.find (cname name) = some inum) (hlt : inum < sb.inodeCount) (hbusy : busy refs < NINODE)
    (hlink : (file inum).nlink ≠ 0) :
    Does devsw devread (dirlink dp name k) file refs (.ok (-1, file, refs)) := by
  obtain ⟨i, -, -, -, -, hdoes⟩ := does_dirlookup_some hdp hdir h hsome hlt (Or.inr hbusy)
  exact hdoes.bind ((does_iput_taken hlink).bind (does_pure _))

/-- A new name gets an entry, if the directory is not full. -/
theorem does_dirlink_none (hdp : refs dp ≠ 0) (hdir : (file dp).type = T_DIR) (h : DirHolds (file dp).bytes m)
    (hnone : m.find (cname name) = none) (h0 : inum ≠ 0) (hinum : inum < 2 ^ 16)
    (hroom : DirRoom sb file dp) :
    (m.count = MAXFILE * BSIZE / Dirent.size ∧
        Does devsw devread (dirlink dp name inum) file refs (.error "dirlink")) ∨
      (m.count ≠ MAXFILE * BSIZE / Dirent.size ∧ ∃ bs,
        Does devsw devread (dirlink dp name inum) file refs (.ok (0, withBytes file dp bs, refs)) ∧
          DirHolds bs ⟨Function.update m.find (cname name) (some inum), m.count + 1⟩) := by
  have hdir0 : (file dp).type ≠ 0 := by
    rw [hdir]
    decide
  obtain ⟨i₀, hi₀, hfree, hused, hloop⟩ := does_freeEntryLoop (i := 0)
    (n := (file dp).bytes.length / Dirent.size + 1) hdp hdir h (Nat.zero_le _)
    (by rw [Nat.zero_add]; exact Nat.le_succ _) fun j hj => absurd hj (Nat.not_lt_zero j)
  rw [Nat.zero_mul] at hloop
  -- all but the last call
  have hcalls : ∀ {x}, Does devsw devread (do
      let r ← writei dp (Dirent.toBytes ⟨inum, strncpy DIRSIZ name⟩) (i₀ * Dirent.size) Dirent.size
      if r ≠ Dirent.size then panic "dirlink" else return 0) file refs x →
        Does devsw devread (dirlink dp name inum) file refs x := fun hdoes =>
    (does_dirlookup_none hdp hdir h hnone).bind ((does_fields hdp hdir0).bind (hloop.bind hdoes))
  have hcount : (i₀ + 1) * Dirent.size ≤ MAXFILE * BSIZE ↔ m.count ≠ MAXFILE * BSIZE / Dirent.size := by
    rw [← Nat.le_div_iff_mul_le (by decide)]
    have hslots := h.slots_le
    obtain hlt | rfl := Nat.lt_or_eq_of_le hi₀
    · have hlt' := h.lt_count hlt (hfree hlt)
      omega
    · have heq := h.count_eq hused
      omega
  by_cases hfull : m.count = MAXFILE * BSIZE / Dirent.size
  · have hlong : MAXFILE * BSIZE < i₀ * Dirent.size + Dirent.size := by
      rw [← Nat.succ_mul]
      exact not_le.mp fun hle => hcount.mp hle hfull
    have hoff : i₀ * Dirent.size < 2 ^ 32 :=
      ((h.mul_le_length hi₀).trans h.le).trans_lt (by decide)
    refine Or.inl ⟨hfull, hcalls
      ((does_writei_refused hdp hdir0 (by rw [hdir]; decide) hoff (by decide) hlong).bind ?_)⟩
    show Does devsw devread (if (-1 : ℤ) ≠ _ then _ else _) _ _ _
    rw [if_pos (by decide)]
    exact does_panic _
  · have hmax := hcount.mpr hfull
    refine Or.inr ⟨hfull, _, hcalls ((does_write_entry hdp hdir h hroom hi₀ hmax).bind ?_),
      h.link hi₀ hfree hmax hnone h0 hinum⟩
    show Does devsw devread (if ((Dirent.size : ℕ) : ℤ) ≠ _ then _ else _) _ _ _
    rw [if_neg (not_not.mpr rfl)]
    exact does_pure _

end

end FsProg

/-! ### Any calls on a directory -/

variable {sb : Superblock} {devsw : DevSwitch} {devread : DevRead}

/-- What a call on the directory `dp` does in the kernel. -/
def DirOp.prog (dp : Fin sb.inodeCount) : DirOp sb → FsProg sb DirRet
  | .lookup name => do
    match ← FsProg.dirlookup dp name with
    | some (ip, _) => do
      FsProg.iput ip
      return .found (some ip)
    | none => return .found none
  | .link name inum => do
    let r ← FsProg.dirlink dp name inum
    return .code r
  | .erase name => do
    match ← FsProg.dirlookup dp name with
    | some (ip, off) => do
      let r ← FsProg.writei dp (List.replicate Dirent.size 0) off Dirent.size
      if r ≠ Dirent.size then FsProg.panic "unlink: writei"
      else do
        FsProg.iput ip
        return .code 0
    | none => return .code (-1)

/-- An inode that is linked has a link on the disk. -/
def DirOp.Good (file : ℕ → StoredFile) : DirOp sb → Prop
  | .link _ inum => (inum : ℕ) ≠ 0 ∧ (file inum).nlink ≠ 0
  | _ => True

/-- The directory `dp` stands for the map `m`, and its names for inodes with links. -/
structure InMap (sb : Superblock) (file : ℕ → StoredFile) (dp : Fin sb.inodeCount) (m : DirMap) : Prop where
  type : (file dp).type = T_DIR
  bytes : DirHolds (file dp).bytes m
  room : DirRoom sb file dp
  target : ∀ name inum, m.find name = some inum → inum < sb.inodeCount ∧ (file inum).nlink ≠ 0

section

variable {file : ℕ → StoredFile} {dp : Fin sb.inodeCount} {m m' : DirMap} {bs : List UInt8}

theorem InMap.withBytes (h : InMap sb file dp m) (hbs : DirHolds bs m')
    (htarget : ∀ name inum, m'.find name = some inum → inum < sb.inodeCount ∧ (file inum).nlink ≠ 0) :
    InMap sb (withBytes file dp bs) dp m' where
  type := by
    rw [Xv6.withBytes, Function.update_self]
    exact h.type
  bytes := by
    rw [Xv6.withBytes, Function.update_self]
    exact hbs
  room := h.room.congr fun i hi => Function.update_of_ne hi ..
  target := by
    intro name inum hsome
    rw [nlink_withBytes]
    exact htarget name inum hsome

theorem InMap.same (h : InMap sb file dp m) : InMap sb (Xv6.withBytes file dp (file dp).bytes) dp m := by
  rw [withBytes_self]
  exact h

/-- A call does on the directory what it does on the map. -/
def DirOp.Matches (devsw : DevSwitch) (devread : DevRead) (file : ℕ → StoredFile) (dp : Fin sb.inodeCount)
    (m : DirMap) (refs : InodeRefs sb) (op : DirOp sb) : Prop :=
  (∃ msg, m.step op = .error msg ∧ FsProg.Does devsw devread (op.prog dp) file refs (.error msg)) ∨
    ∃ r m' bs, m.step op = .ok (r, m') ∧
      FsProg.Does devsw devread (op.prog dp) file refs (.ok (r, withBytes file dp bs, refs)) ∧
      InMap sb (withBytes file dp bs) dp m'

section

variable {refs : InodeRefs sb} {name : List UInt8} {inum : Fin sb.inodeCount}

theorem matches_lookup (h : InMap sb file dp m) (hdp : refs dp ≠ 0) (hbusy : busy refs < NINODE) :
    (DirOp.lookup name).Matches devsw devread file dp m refs := by
  refine Or.inr ⟨.found (m.find (cname name)), m, (file dp).bytes, rfl, ?_, h.same⟩
  rw [withBytes_self]
  cases hfind : m.find (cname name) with
  | none => exact (FsProg.does_dirlookup_none hdp h.type h.bytes hfind).bind (FsProg.does_pure _)
  | some inum =>
    obtain ⟨hlt, hlink⟩ := h.target _ _ hfind
    obtain ⟨i, -, -, -, -, hdoes⟩ := FsProg.does_dirlookup_some hdp h.type h.bytes hfind hlt (Or.inr hbusy)
    exact hdoes.bind ((FsProg.does_iput_taken hlink).bind (FsProg.does_pure _))

theorem matches_link (h : InMap sb file dp m) (hsb : sb.inodeCount ≤ 2 ^ 16) (hdp : refs dp ≠ 0)
    (hbusy : busy refs < NINODE) (h0 : (inum : ℕ) ≠ 0) (hlink₀ : (file inum).nlink ≠ 0) :
    (DirOp.link name inum).Matches devsw devread file dp m refs := by
  cases hfind : m.find (cname name) with
  | some old =>
    obtain ⟨hlt, hlink⟩ := h.target _ _ hfind
    refine Or.inr ⟨.code (-1), m, (file dp).bytes, ?_, ?_, h.same⟩
    · rw [DirMap.step, hfind]
    · rw [withBytes_self]
      exact (FsProg.does_dirlink_some hdp h.type h.bytes hfind hlt hbusy hlink).bind (FsProg.does_pure _)
  | none =>
    have hlt : (inum : ℕ) < 2 ^ 16 := inum.isLt.trans_le hsb
    rcases FsProg.does_dirlink_none hdp h.type h.bytes hfind h0 hlt h.room with
      ⟨hfull, hdoes⟩ | ⟨hfull, bs, hdoes, hbs⟩
    · refine Or.inl ⟨"dirlink", ?_, hdoes.bind_error⟩
      rw [DirMap.step, hfind]
      exact if_pos hfull
    · refine Or.inr ⟨.code 0, _, bs, ?_, hdoes.bind (FsProg.does_pure _), h.withBytes hbs fun nm k hk => ?_⟩
      · rw [DirMap.step, hfind]
        exact if_neg hfull
      · change Function.update m.find (cname name) (some (inum : ℕ)) nm = some k at hk
        by_cases hnm : nm = cname name
        · rw [hnm, Function.update_self] at hk
          obtain rfl := Option.some.inj hk
          exact ⟨inum.isLt, hlink₀⟩
        · rw [Function.update_of_ne hnm] at hk
          exact h.target nm k hk

theorem matches_erase (h : InMap sb file dp m) (hdp : refs dp ≠ 0) (hbusy : busy refs < NINODE) :
    (DirOp.erase name).Matches devsw devread file dp m refs := by
  cases hfind : m.find (cname name) with
  | none =>
    refine Or.inr ⟨.code (-1), m, (file dp).bytes, ?_, ?_, h.same⟩
    · rw [DirMap.step, hfind]
    · rw [withBytes_self]
      exact (FsProg.does_dirlookup_none hdp h.type h.bytes hfind).bind (FsProg.does_pure _)
  | some inum =>
    obtain ⟨hlt, hlink⟩ := h.target _ _ hfind
    obtain ⟨i, hi, hinum, h0, hname, hdoes⟩ :=
      FsProg.does_dirlookup_some hdp h.type h.bytes hfind hlt (Or.inr hbusy)
    have hmax : (i + 1) * Dirent.size ≤ MAXFILE * BSIZE := (h.bytes.mul_le_length hi).trans h.bytes.le
    have hbs := h.bytes.erase hi (hinum ▸ h0)
    rw [hname] at hbs
    -- the zeros that are written are an entry that is free
    have hzero : Dirent.toBytes ⟨0, List.replicate DIRSIZ 0⟩ = List.replicate Dirent.size 0 := rfl
    refine Or.inr ⟨.code 0, _, _, ?_, hdoes.bind ?_, h.withBytes hbs fun nm k hk => ?_⟩
    · rw [DirMap.step, hfind]
    · show FsProg.Does _ _ (do
        let r ← FsProg.writei dp (List.replicate Dirent.size 0) (i * Dirent.size) Dirent.size
        if r ≠ Dirent.size then FsProg.panic "unlink: writei"
        else do
          FsProg.iput ⟨inum, hlt⟩
          return DirRet.code 0) _ _ _
      rw [← hzero]
      refine (FsProg.does_write_entry (FsProg.refs_taken hdp) h.type h.bytes h.room hi.le hmax).bind ?_
      show FsProg.Does _ _ (if ((Dirent.size : ℕ) : ℤ) ≠ _ then _ else _) _ _ _
      rw [if_neg (not_not.mpr rfl)]
      refine (FsProg.does_iput_taken ?_).bind (FsProg.does_pure _)
      rw [nlink_withBytes]
      exact hlink
    · change Function.update m.find (cname name) none nm = some k at hk
      by_cases hnm : nm = cname name
      · rw [hnm, Function.update_self] at hk
        cases hk
      · rw [Function.update_of_ne hnm] at hk
        exact h.target nm k hk

end

theorem DirOp.matches_of_good (devsw : DevSwitch) (devread : DevRead) {refs : InodeRefs sb}
    (h : InMap sb file dp m) (hsb : sb.inodeCount ≤ 2 ^ 16) (hdp : refs dp ≠ 0)
    (hbusy : busy refs < NINODE) (op : DirOp sb) (hop : op.Good file) : op.Matches devsw devread file dp m refs := by
  cases op with
  | lookup name => exact matches_lookup h hdp hbusy
  | link name inum => exact matches_link h hsb hdp hbusy hop.1 hop.2
  | erase name => exact matches_erase h hdp hbusy

end

/-! ### The kernel -/

/-- A program on the disk, with the references; an error is a message. -/
def FsProg.runFs {β : Type} (devsw : DevSwitch) (devread : DevRead) (c : FsProg sb β)
    (s : FsState × InodeRefs sb) : Except String (β × FsState × InodeRefs sb) :=
  c.run (FsState.call sb devsw devread) FsPanic.msg s

/-- What a program does on the files, it does on a disk that stands for them. -/
theorem FsProg.Does.runFs {β : Type} {c : FsProg sb β} {refs : InodeRefs sb} {σ : FsState}
    {data : ℕ → ℕ → UInt8} {x : Except String (β × (ℕ → StoredFile) × InodeRefs sb)} (hv : sb.Ordered)
    (hσ : σ.Holds sb data) (h : FsProg.Does devsw devread c (σ.view sb).file refs x) :
    (c.runFs devsw devread (σ, refs)).map (fun r => (r.1, (r.2.1.view sb).file, r.2.2)) = x ∧
      ∀ b σ' refs', c.runFs devsw devread (σ, refs) = .ok (b, σ', refs') → ∃ data', σ'.Holds sb data' := by
  have href := FsState.call_refines devsw devread hv
  obtain ⟨hrun, hR⟩ := Client.run_refines href (Prod.map (FsState.view sb) id)
    (fun s t hR' => Prod.ext hR'.1.2 hR'.2) (s := (σ, refs)) (t := (σ.view sb, refs)) ⟨⟨⟨data, hσ⟩, rfl⟩, rfl⟩ c
  have hdoes := h (σ.view sb).valid
  change (c.runFs devsw devread (σ, refs)).map _ = _ at hrun
  refine ⟨?_, fun b σ' refs' hc => (hR b _ hc).1.1⟩
  rw [← hdoes]
  change _ = Except.map _ (Client.run _ id c (σ.view sb, refs))
  rw [← hrun]
  cases c.runFs devsw devread (σ, refs) <;> rfl

theorem FsProg.Does.runFs_ok {β : Type} {c : FsProg sb β} {b : β} {file' : ℕ → StoredFile}
    {refs refs' : InodeRefs sb} {σ : FsState} {data : ℕ → ℕ → UInt8} (hv : sb.Ordered) (hσ : σ.Holds sb data)
    (h : FsProg.Does devsw devread c (σ.view sb).file refs (.ok (b, file', refs'))) :
    ∃ σ' data', c.runFs devsw devread (σ, refs) = .ok (b, σ', refs') ∧ σ'.Holds sb data' ∧
      (σ'.view sb).file = file' := by
  obtain ⟨hrun, hend⟩ := h.runFs hv hσ
  cases hc : c.runFs devsw devread (σ, refs) with
  | error e =>
    rw [hc] at hrun
    cases hrun
  | ok x =>
    obtain ⟨b', σ', refs''⟩ := x
    rw [hc] at hrun
    obtain ⟨rfl, htail⟩ := Prod.mk.inj (Except.ok.inj hrun)
    obtain ⟨hfile, rfl⟩ := Prod.mk.inj htail
    obtain ⟨data', hσ'⟩ := hend _ _ _ hc
    exact ⟨σ', data', rfl, hσ', hfile⟩

/-- The kernel has the files `file`, but for the directory `dp`, which stands for `m`. -/
structure DirStands (file : ℕ → StoredFile) (dp : Fin sb.inodeCount) (refs : InodeRefs sb)
    (s : FsState × InodeRefs sb) (m : DirMap) : Prop where
  holds : ∃ data, s.1.Holds sb data
  refs_eq : s.2 = refs
  map : InMap sb (s.1.view sb).file dp m
  nlink : ∀ i, ((s.1.view sb).file i).nlink = (file i).nlink
  other : ∀ i, i ≠ (dp : ℕ) → (s.1.view sb).file i = file i

theorem directory_refines (devsw : DevSwitch) (devread : DevRead) (hv : sb.Ordered)
    (hsb : sb.inodeCount ≤ 2 ^ 16) (file : ℕ → StoredFile) (dp : Fin sb.inodeCount) {refs : InodeRefs sb}
    (hdp : refs dp ≠ 0) (hbusy : busy refs < NINODE) :
    Refines (fun s (op : { op : DirOp sb // op.Good file }) => (op.1.prog dp).runFs devsw devread s)
      (fun m op => m.step op.1) (DirStands file dp refs) id := by
  -- one call: the same panic on both sides, or the same result
  have hstep : ∀ {s : FsState × InodeRefs sb} {m : DirMap} (op : { op : DirOp sb // op.Good file }),
      DirStands file dp refs s m →
        (∃ msg, m.step op.1 = .error msg ∧ (op.1.prog dp).runFs devsw devread s = .error msg) ∨
          ∃ r m' s', m.step op.1 = .ok (r, m') ∧ (op.1.prog dp).runFs devsw devread s = .ok (r, s') ∧
            DirStands file dp refs s' m' := by
    rintro ⟨σ, refs'⟩ m ⟨op, hop⟩ ⟨⟨data, hσ⟩, hrefs, hmap, hlinks, hother⟩
    obtain rfl : refs' = refs := hrefs
    -- the links are those at the beginning, as no call changes them
    have hop' : op.Good (σ.view sb).file := by
      cases op with
      | link name inum =>
        refine ⟨hop.1, ?_⟩
        rw [hlinks]
        exact hop.2
      | lookup name => exact hop
      | erase name => exact hop
    rcases op.matches_of_good devsw devread hmap hsb hdp hbusy hop' with
      ⟨msg, hspec, hdoes⟩ | ⟨r, m', bs, hspec, hdoes, hmap'⟩
    · obtain ⟨hrun, -⟩ := hdoes.runFs hv hσ
      refine Or.inl ⟨msg, hspec, ?_⟩
      cases hc : (op.prog dp).runFs devsw devread (σ, refs') with
      | error e =>
        rw [hc] at hrun
        obtain rfl := Except.error.inj hrun
        rfl
      | ok x =>
        rw [hc] at hrun
        cases hrun
    · obtain ⟨σ', data', hrun, hσ', hfile⟩ := hdoes.runFs_ok hv hσ
      refine Or.inr ⟨r, m', (σ', refs'), hspec, hrun, ⟨data', hσ'⟩, rfl, ?_, fun i => ?_, fun i hi => ?_⟩
      · rw [hfile]
        exact hmap'
      · rw [hfile, nlink_withBytes]
        exact hlinks i
      · rw [hfile, withBytes, Function.update_of_ne hi]
        exact hother i hi
  refine ⟨fun {s m op r s'} hR hrun => ?_, fun {s m op e} hR hrun => ?_⟩
  · rcases hstep op hR with ⟨msg, -, hfail⟩ | ⟨r', m', s'', hspec, hok, hR'⟩
    · rw [hfail] at hrun
      cases hrun
    · rw [hok] at hrun
      cases hrun
      exact ⟨m', hspec, hR'⟩
  · rcases hstep op hR with ⟨msg, hspec, hfail⟩ | ⟨r', m', s'', -, hok, -⟩
    · rw [hfail] at hrun
      cases hrun
      exact hspec
    · rw [hok] at hrun
      cases hrun

/-- **A directory is a finite map.**  Whatever the callers of `dirlookup` and `dirlink` do with a directory,
in whatever order, they get what they get from a map from names to inodes, with room for as many names as a
file of the largest size has entries; no reference is kept, and no other file changes. -/
theorem directory_map (devsw : DevSwitch) (devread : DevRead) (hv : sb.Ordered)
    (hsb : sb.inodeCount ≤ 2 ^ 16) {σ : FsState} {data : ℕ → ℕ → UInt8} (hσ : σ.Holds sb data)
    {refs : InodeRefs sb} {dp : Fin sb.inodeCount} (hdp : refs dp ≠ 0) (hbusy : busy refs < NINODE)
    {m : DirMap} (hdir : InMap sb (σ.view sb).file dp m)
    (ops : List { op : DirOp sb // op.Good (σ.view sb).file }) :
    let run := runCalls (fun s op => (op.1.prog dp).runFs devsw devread s) (σ, refs) ops
    let spec := runCalls (fun m op => m.step op.1) m ops
    run.1 = spec.1 ∧ (∀ msg, run.2 = .error msg → spec.2 = .error msg) ∧
      ∀ σ' refs', run.2 = .ok (σ', refs') → refs' = refs ∧ (∃ data', σ'.Holds sb data') ∧
        (∃ m', spec.2 = .ok m' ∧ InMap sb (σ'.view sb).file dp m') ∧
        ∀ i, i ≠ (dp : ℕ) → (σ'.view sb).file i = (σ.view sb).file i := by
  intro run spec
  have href := directory_refines devsw devread hv hsb (σ.view sb).file dp hdp hbusy
  have hR : DirStands (σ.view sb).file dp refs (σ, refs) m :=
    ⟨⟨data, hσ⟩, rfl, hdir, fun _ => rfl, fun _ _ => rfl⟩
  refine ⟨href.results hR ops, fun msg hrun => href.run_error hR ops hrun, fun σ' refs' hrun => ?_⟩
  obtain ⟨m', hspec, hend⟩ := href.run_ok hR ops hrun
  exact ⟨hend.refs_eq, hend.holds, ⟨m', hspec, hend.map⟩, hend.other⟩

end OsSemester.Xv6
