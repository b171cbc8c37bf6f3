import OsSemester.Xv6.Directory
import OsSemester.Xv6.FileStore

/-!
# The entries of a directory

The names of a directory are compared in their first `DIRSIZ` bytes, up to a zero.  The bytes of a directory
stand for a map from these names to inodes; `DirHolds.link` and `DirHolds.erase` say what becomes of the map
when an entry is written.
-/

namespace OsSemester.Xv6

/-! ### Names -/

/-- The name that a string stands for in a directory. -/
def cname (s : List UInt8) : List UInt8 := (s.take DIRSIZ).takeWhile (· ≠ 0)

theorem takeWhile_take_succ (n : ℕ) (p : List UInt8) : (p.take (n + 1)).takeWhile (· ≠ 0) =
    if p.headD 0 = 0 then [] else p.headD 0 :: (p.tail.take n).takeWhile (· ≠ 0) := by
  cases p with
  | nil => rfl
  | cons a p =>
    rw [List.take_succ_cons, List.takeWhile_cons, List.headD_cons, List.tail_cons]
    by_cases ha : a = 0
    · rw [if_neg (by simpa using ha), if_pos ha]
    · rw [if_pos (by simpa using ha), if_neg ha]

theorem strncmp_eq_zero (n : ℕ) (p q : List UInt8) :
    strncmp n p q = 0 ↔ (p.take n).takeWhile (· ≠ 0) = (q.take n).takeWhile (· ≠ 0) := by
  induction n generalizing p q with
  | zero => exact iff_of_true rfl (by rw [List.take_zero, List.take_zero])
  | succ n ih =>
    rw [strncmp, takeWhile_take_succ, takeWhile_take_succ]
    by_cases hp : p.headD 0 = 0
    · rw [if_neg fun h => h.1 hp, if_pos hp, hp]
      by_cases hq : q.headD 0 = 0
      · rw [if_pos hq, hq]
        exact iff_of_true rfl rfl
      · have hpos : (q.headD 0).toNat ≠ 0 := fun h => hq (UInt8.toNat_inj.mp h)
        have hzero : (0 : UInt8).toNat = 0 := rfl
        rw [if_neg hq, hzero]
        refine iff_of_false (fun h => hpos (by omega)) fun h => by cases h
    · by_cases hpq : p.headD 0 = q.headD 0
      · rw [if_pos ⟨hp, hpq⟩, ih, if_neg hp, if_neg (hpq ▸ hp), hpq, List.cons_inj_right]
      · have hne : (p.headD 0).toNat ≠ (q.headD 0).toNat := fun h => hpq (UInt8.toNat_inj.mp h)
        rw [if_neg fun h => hpq h.2, if_neg hp]
        refine iff_of_false (fun h => hne (by omega)) fun h => ?_
        by_cases hq : q.headD 0 = 0
        · rw [if_pos hq] at h
          cases h
        · rw [if_neg hq] at h
          exact hpq (List.cons.inj h).1

theorem namecmp_eq_zero (s t : List UInt8) : namecmp s t = 0 ↔ cname s = cname t := strncmp_eq_zero DIRSIZ s t

theorem length_strncpy (n : ℕ) (t : List UInt8) : (strncpy n t).length = n := by
  induction n generalizing t with
  | zero => rfl
  | succ n ih =>
    rw [strncpy]
    split_ifs
    · exact List.length_replicate
    · rw [List.length_cons, ih]

theorem cname_strncpy (t : List UInt8) : cname (strncpy DIRSIZ t) = cname t := by
  have h : ∀ n (t : List UInt8), ((strncpy n t).take n).takeWhile (· ≠ 0) = (t.take n).takeWhile (· ≠ 0) := by
    intro n
    induction n with
    | zero => exact fun _ => rfl
    | succ n ih =>
      intro t
      rw [takeWhile_take_succ, takeWhile_take_succ, strncpy]
      by_cases ht : t.headD 0 = 0
      · rw [if_pos ht, if_pos ht, List.replicate_succ, List.headD_cons, if_pos rfl]
      · rw [if_neg ht, if_neg ht, List.headD_cons, List.tail_cons, if_neg ht, ih]
  exact h DIRSIZ t

/-! ### Entries -/

namespace Dirent

variable {de : Dirent}

theorem length_toBytes (h : de.name.length = DIRSIZ) : de.toBytes.length = Dirent.size := by
  rw [toBytes, List.length_cons, List.length_cons, h]

theorem ofBytes_toBytes (hinum : de.inum < 2 ^ 16) (h : de.name.length = DIRSIZ) :
    ofBytes de.toBytes = de := by
  obtain ⟨inum, name⟩ := de
  have hlow : (UInt8.ofNat inum).toNat = inum % 2 ^ 8 := UInt8.toNat_ofNat'
  have hhigh : (UInt8.ofNat (inum / 2 ^ 8)).toNat = inum / 2 ^ 8 % 2 ^ 8 := UInt8.toNat_ofNat'
  have hname : name.take DIRSIZ = name := List.take_of_length_le h.le
  have hlt : inum < 2 ^ 16 := hinum
  show Dirent.mk ((UInt8.ofNat inum).toNat + 2 ^ 8 * (UInt8.ofNat (inum / 2 ^ 8)).toNat) (name.take DIRSIZ) = _
  rw [hname, hlow, hhigh]
  congr 1
  omega

end Dirent

section

variable {bs e : List UInt8} {i i₀ p off n : ℕ} {name : List UInt8} {src : ℕ → UInt8}

/-- The entry `i` of a directory with the bytes `bs`. -/
def entry (bs : List UInt8) (i : ℕ) : Dirent := Dirent.ofBytes ((bs.drop (i * Dirent.size)).take Dirent.size)

/-- The number of its entries. -/
def slots (bs : List UInt8) : ℕ := bs.length / Dirent.size

theorem getElem?_write (hoff : off ≤ bs.length) : (FileStore.write bs src off n)[p]? =
    if off ≤ p ∧ p < off + n then some (src (p - off)) else bs[p]? := by
  rw [FileStore.write]
  obtain hlt | hge := Nat.lt_or_ge p off
  · rw [if_neg (by omega), List.getElem?_append_left, List.getElem?_append_left, List.getElem?_take_of_lt hlt]
    · rw [List.length_take]
      omega
    · rw [List.length_append, List.length_take]
      omega
  · have hlen : (bs.take off).length = off := by
      rw [List.length_take]
      omega
    obtain hin | hout := Nat.lt_or_ge p (off + n)
    · rw [if_pos ⟨hge, hin⟩, List.append_assoc, List.getElem?_append_right (by omega), hlen,
        List.getElem?_append_left (by rw [List.length_map, List.length_range]; omega), List.getElem?_map,
        List.getElem?_range (by omega), Option.map_some]
    · have hlen' : (bs.take off ++ (List.range n).map src).length = off + n := by
        rw [List.length_append, hlen, List.length_map, List.length_range]
      rw [if_neg (by omega), List.getElem?_append_right (by omega), hlen', List.getElem?_drop]
      congr 1
      omega

/-- An entry that is written, and the others. -/
theorem entry_write (he : e.length = Dirent.size) (hi₀ : i₀ * Dirent.size ≤ bs.length) (i : ℕ) :
    entry (FileStore.write bs (fun j => e.getD j 0) (i₀ * Dirent.size) Dirent.size) i =
      if i = i₀ then Dirent.ofBytes e else entry bs i := by
  unfold entry
  by_cases hi : i = i₀
  · rw [if_pos hi, hi]
    congr 1
    refine List.ext_getElem? fun j => ?_
    rw [List.getElem?_take]
    by_cases hj : j < Dirent.size
    · rw [if_pos hj, List.getElem?_drop, getElem?_write hi₀, if_pos (by omega), Nat.add_sub_cancel_left,
        List.getElem?_eq_getElem (by omega), List.getD_eq_getElem _ _ (by omega)]
    · rw [if_neg hj, List.getElem?_eq_none (by omega)]
  · rw [if_neg hi]
    congr 1
    refine List.ext_getElem? fun j => ?_
    rw [List.getElem?_take, List.getElem?_take]
    by_cases hj : j < Dirent.size
    · rw [if_pos hj, if_pos hj, List.getElem?_drop, List.getElem?_drop, getElem?_write hi₀, if_neg]
      simp only [Dirent.size] at *
      omega
    · rw [if_neg hj, if_neg hj]

theorem length_write (hoff : off ≤ bs.length) :
    (FileStore.write bs src off n).length = max bs.length (off + n) := by
  simp only [FileStore.write, List.length_append, List.length_take, List.length_map, List.length_range,
    List.length_drop]
  omega

end

/-! ### The map -/

/-- The names of a directory and how many they are. -/
structure DirMap where
  find : List UInt8 → Option ℕ
  count : ℕ

/-- What the callers of `dirlookup` and `dirlink` do with a directory. -/
inductive DirOp (sb : Superblock)
  | lookup (name : List UInt8)
  | link (name : List UInt8) (inum : Fin sb.inodeCount)
  /-- What `sys_unlink` does to the entry of the name, without its tests and its changes of `nlink`. -/
  | erase (name : List UInt8)

inductive DirRet
  | found (inum : Option ℕ)
  | code (r : ℤ)

namespace DirMap

/-- What a call does to the map; an error is a panic. -/
def step {sb : Superblock} (m : DirMap) : DirOp sb → Except String (DirRet × DirMap)
  | .lookup name => .ok (.found (m.find (cname name)), m)
  | .link name inum =>
    match m.find (cname name) with
    | some _ => .ok (.code (-1), m)
    | none =>
      if m.count = MAXFILE * BSIZE / Dirent.size then .error "dirlink"
      else .ok (.code 0, ⟨Function.update m.find (cname name) (some inum), m.count + 1⟩)
  | .erase name =>
    match m.find (cname name) with
    | some _ => .ok (.code 0, ⟨Function.update m.find (cname name) none, m.count - 1⟩)
    | none => .ok (.code (-1), m)

end DirMap

/-- The bytes of a directory stand for a map: each name in use is in one entry. -/
structure DirHolds (bs : List UInt8) (m : DirMap) : Prop where
  dvd : Dirent.size ∣ bs.length
  le : bs.length ≤ MAXFILE * BSIZE
  unique : ∀ i j, i < slots bs → j < slots bs → (entry bs i).inum ≠ 0 → (entry bs j).inum ≠ 0 →
    cname (entry bs i).name = cname (entry bs j).name → i = j
  find : ∀ name inum, m.find name = some inum ↔
    ∃ i, i < slots bs ∧ (entry bs i).inum ≠ 0 ∧ (entry bs i).inum = inum ∧ cname (entry bs i).name = name
  count : m.count = ((Finset.range (slots bs)).filter fun i => (entry bs i).inum ≠ 0).card

namespace DirHolds

variable {bs : List UInt8} {m : DirMap} {i i₀ inum : ℕ} {name : List UInt8} {e : Dirent}

/-- The bytes with an entry written. -/
def put (bs : List UInt8) (i₀ : ℕ) (e : Dirent) : List UInt8 :=
  FileStore.write bs (fun j => e.toBytes.getD j 0) (i₀ * Dirent.size) Dirent.size

theorem mul_le_length (h : DirHolds bs m) (hi : i ≤ slots bs) : i * Dirent.size ≤ bs.length := by
  have h1 : slots bs * Dirent.size = bs.length := Nat.div_mul_cancel h.dvd
  rw [← h1]
  exact Nat.mul_le_mul_right _ hi

theorem entry_put (h : DirHolds bs m) (hi₀ : i₀ ≤ slots bs) (hinum : e.inum < 2 ^ 16)
    (hname : e.name.length = DIRSIZ) (i : ℕ) : entry (put bs i₀ e) i = if i = i₀ then e else entry bs i := by
  rw [put, entry_write (Dirent.length_toBytes hname) (h.mul_le_length hi₀), Dirent.ofBytes_toBytes hinum hname]

theorem length_put (h : DirHolds bs m) (hi₀ : i₀ ≤ slots bs) :
    (put bs i₀ e).length = max (slots bs) (i₀ + 1) * Dirent.size := by
  have h1 : slots bs * Dirent.size = bs.length := Nat.div_mul_cancel h.dvd
  rw [put, length_write (h.mul_le_length hi₀), ← h1, ← Nat.succ_mul, Nat.mul_max_mul_right]

theorem slots_put (h : DirHolds bs m) (hi₀ : i₀ ≤ slots bs) :
    slots (put bs i₀ e) = max (slots bs) (i₀ + 1) := by
  rw [slots, h.length_put hi₀, Nat.mul_div_cancel _ (by decide)]

theorem find_eq_none (h : DirHolds bs m) :
    m.find name = none ↔ ∀ i, i < slots bs → (entry bs i).inum ≠ 0 → cname (entry bs i).name ≠ name := by
  rw [Option.eq_none_iff_forall_ne_some]
  constructor
  · intro hnone i hi h0 hname
    exact hnone _ ((h.find name _).mpr ⟨i, hi, h0, rfl, hname⟩)
  · intro hall inum hsome
    obtain ⟨i, hi, h0, -, hname⟩ := (h.find name inum).mp hsome
    exact hall i hi h0 hname

theorem count_eq (h : DirHolds bs m) (hall : ∀ i, i < slots bs → (entry bs i).inum ≠ 0) :
    m.count = slots bs := by
  rw [h.count, Finset.filter_true_of_mem fun i hi => hall i (Finset.mem_range.mp hi), Finset.card_range]

theorem lt_count (h : DirHolds bs m) (hi₀ : i₀ < slots bs) (h0 : (entry bs i₀).inum = 0) :
    m.count < slots bs := by
  rw [h.count]
  refine (Finset.card_lt_card (Finset.filter_ssubset.mpr ⟨i₀, Finset.mem_range.mpr hi₀, ?_⟩)).trans_eq
    (Finset.card_range _)
  exact not_not.mpr h0

theorem slots_le (h : DirHolds bs m) : slots bs ≤ MAXFILE * BSIZE / Dirent.size := Nat.div_le_div_right h.le

/-- A new name is written to a place that is free or at the end. -/
theorem link (h : DirHolds bs m) (hi₀ : i₀ ≤ slots bs) (hfree : i₀ < slots bs → (entry bs i₀).inum = 0)
    (hmax : (i₀ + 1) * Dirent.size ≤ MAXFILE * BSIZE) (hnew : m.find (cname name) = none) (h0 : inum ≠ 0)
    (hinum : inum < 2 ^ 16) : DirHolds (put bs i₀ ⟨inum, strncpy DIRSIZ name⟩)
      ⟨Function.update m.find (cname name) (some inum), m.count + 1⟩ := by
  have hentry := h.entry_put (e := ⟨inum, strncpy DIRSIZ name⟩) hi₀ hinum (length_strncpy _ _)
  have hslots := h.slots_put (e := ⟨inum, strncpy DIRSIZ name⟩) hi₀
  have hfresh := h.find_eq_none.mp hnew
  -- an entry in use is the new one or an old one
  have hused : ∀ i, i < max (slots bs) (i₀ + 1) → i ≠ i₀ → i < slots bs := by
    intro i hi hne
    omega
  refine ⟨?_, ?_, fun i j hi hj hi0 hj0 hij => ?_, fun nm k => ?_, ?_⟩
  · rw [h.length_put hi₀]
    exact Dvd.intro_left _ rfl
  · rw [h.length_put hi₀, ← Nat.mul_max_mul_right]
    have h1 : slots bs * Dirent.size = bs.length := Nat.div_mul_cancel h.dvd
    exact max_le (h1.trans_le h.le) hmax
  · rw [hslots] at hi hj
    rw [hentry] at hi0 hij
    rw [hentry] at hj0 hij
    by_cases hi' : i = i₀
    · by_cases hj' : j = i₀
      · rw [hi', hj']
      · rw [if_pos hi', if_neg hj', cname_strncpy] at hij
        rw [if_neg hj'] at hj0
        exact absurd hij.symm (hfresh j (hused j hj hj') hj0)
    · rw [if_neg hi'] at hi0
      by_cases hj' : j = i₀
      · rw [if_neg hi', if_pos hj', cname_strncpy] at hij
        exact absurd hij (hfresh i (hused i hi hi') hi0)
      · rw [if_neg hi', if_neg hj'] at hij
        rw [if_neg hj'] at hj0
        exact h.unique i j (hused i hi hi') (hused j hj hj') hi0 hj0 hij
  · show Function.update m.find (cname name) (some inum) nm = some k ↔ _
    rw [hslots]
    by_cases hnm : nm = cname name
    · rw [hnm, Function.update_self]
      constructor
      · intro hk
        obtain rfl := Option.some.inj hk
        refine ⟨i₀, by omega, ?_⟩
        rw [hentry, if_pos rfl, cname_strncpy]
        exact ⟨h0, rfl, rfl⟩
      · rintro ⟨i, hi, hi0, hik, hiname⟩
        rw [hentry] at hi0 hik hiname
        by_cases hi' : i = i₀
        · rw [if_pos hi'] at hik
          exact congrArg some hik
        · rw [if_neg hi'] at hi0 hiname
          exact absurd hiname (hfresh i (hused i hi hi') hi0)
    · rw [Function.update_of_ne hnm, h.find]
      constructor
      · rintro ⟨i, hi, hi0, hik, hiname⟩
        have hi' : i ≠ i₀ := by
          rintro rfl
          exact hi0 (hfree hi)
        refine ⟨i, by omega, ?_⟩
        rw [hentry, if_neg hi']
        exact ⟨hi0, hik, hiname⟩
      · rintro ⟨i, hi, hi0, hik, hiname⟩
        rw [hentry] at hi0 hik hiname
        by_cases hi' : i = i₀
        · rw [if_pos hi', cname_strncpy] at hiname
          exact absurd hiname.symm hnm
        · rw [if_neg hi'] at hi0 hik hiname
          exact ⟨i, hused i hi hi', hi0, hik, hiname⟩
  · have hset : ((Finset.range (max (slots bs) (i₀ + 1))).filter fun i =>
        (entry (put bs i₀ ⟨inum, strncpy DIRSIZ name⟩) i).inum ≠ 0) =
          insert i₀ ((Finset.range (slots bs)).filter fun i => (entry bs i).inum ≠ 0) := by
      ext i
      rw [Finset.mem_insert, Finset.mem_filter, Finset.mem_filter, Finset.mem_range, Finset.mem_range, hentry]
      by_cases hi' : i = i₀
      · rw [if_pos hi', hi']
        exact iff_of_true ⟨by omega, h0⟩ (Or.inl rfl)
      · rw [if_neg hi', or_iff_right hi']
        exact and_congr_left fun _ => ⟨fun hi => hused i hi hi', fun hi => by omega⟩
    have hnot : i₀ ∉ (Finset.range (slots bs)).filter fun i => (entry bs i).inum ≠ 0 := by
      rw [Finset.mem_filter, Finset.mem_range]
      rintro ⟨hlt, hne⟩
      exact hne (hfree hlt)
    rw [hslots, hset, Finset.card_insert_of_notMem hnot, ← h.count]

/-- The entry of a name is cleared. -/
theorem erase (h : DirHolds bs m) (hi₀ : i₀ < slots bs) (h0 : (entry bs i₀).inum ≠ 0) :
    DirHolds (put bs i₀ ⟨0, List.replicate DIRSIZ 0⟩)
      ⟨Function.update m.find (cname (entry bs i₀).name) none, m.count - 1⟩ := by
  have hentry := h.entry_put (e := ⟨0, List.replicate DIRSIZ 0⟩) hi₀.le (Nat.two_pow_pos 16) List.length_replicate
  have hslots : slots (put bs i₀ ⟨0, List.replicate DIRSIZ 0⟩) = slots bs := by
    rw [h.slots_put hi₀.le]
    exact max_eq_left hi₀
  have hother : ∀ i, (entry (put bs i₀ ⟨0, List.replicate DIRSIZ 0⟩) i).inum ≠ 0 →
      i ≠ i₀ ∧ entry (put bs i₀ ⟨0, List.replicate DIRSIZ 0⟩) i = entry bs i := by
    intro i hi
    rw [hentry] at hi ⊢
    by_cases hi' : i = i₀
    · rw [if_pos hi'] at hi
      exact absurd rfl hi
    · exact ⟨hi', if_neg hi'⟩
  refine ⟨?_, ?_, fun i j hi hj hi0 hj0 hij => ?_, fun nm k => ?_, ?_⟩
  · rw [h.length_put hi₀.le]
    exact Dvd.intro_left _ rfl
  · have h1 : slots bs * Dirent.size = bs.length := Nat.div_mul_cancel h.dvd
    rw [h.length_put hi₀.le, max_eq_left hi₀, h1]
    exact h.le
  · rw [hslots] at hi hj
    have hei := (hother i hi0).2
    have hej := (hother j hj0).2
    rw [hei] at hi0 hij
    rw [hej] at hj0 hij
    exact h.unique i j hi hj hi0 hj0 hij
  · show Function.update m.find (cname (entry bs i₀).name) none nm = some k ↔ _
    rw [hslots]
    by_cases hnm : nm = cname (entry bs i₀).name
    · rw [hnm, Function.update_self]
      refine iff_of_false (fun hk => by cases hk) ?_
      rintro ⟨i, hi, hi0, -, hiname⟩
      obtain ⟨hi', he⟩ := hother i hi0
      rw [he] at hi0 hiname
      exact hi' (h.unique i i₀ hi hi₀ hi0 h0 hiname)
    · rw [Function.update_of_ne hnm, h.find]
      constructor
      · rintro ⟨i, hi, hi0, hik, hiname⟩
        have hi' : i ≠ i₀ := by
          rintro rfl
          exact hnm hiname.symm
        refine ⟨i, hi, ?_⟩
        rw [hentry, if_neg hi']
        exact ⟨hi0, hik, hiname⟩
      · rintro ⟨i, hi, hi0, hik, hiname⟩
        have he := (hother i hi0).2
        rw [he] at hi0 hik hiname
        exact ⟨i, hi, hi0, hik, hiname⟩
  · have hset : ((Finset.range (slots bs)).filter fun i =>
        (entry (put bs i₀ ⟨0, List.replicate DIRSIZ 0⟩) i).inum ≠ 0) =
          ((Finset.range (slots bs)).filter fun i => (entry bs i).inum ≠ 0).erase i₀ := by
      ext i
      rw [Finset.mem_erase, Finset.mem_filter, Finset.mem_filter, hentry]
      by_cases hi' : i = i₀
      · rw [if_pos hi']
        exact iff_of_false (fun hand => hand.2 rfl) fun hand => hand.1 hi'
      · rw [if_neg hi', and_iff_right hi']
    have hmem : i₀ ∈ (Finset.range (slots bs)).filter fun i => (entry bs i).inum ≠ 0 :=
      Finset.mem_filter.mpr ⟨Finset.mem_range.mpr hi₀, h0⟩
    rw [hslots, hset, Finset.card_erase_of_mem hmem, ← h.count]

end DirHolds

/-! ### Room for a directory -/

section

variable {sb : Superblock} {file file' : ℕ → StoredFile} {k : ℕ}

/-- There is room on the disk for a directory of the largest size. -/
def DirRoom (sb : Superblock) (file : ℕ → StoredFile) (k : ℕ) : Prop :=
  ∑ i ∈ Finset.range sb.inodeCount, Mkfs.need (if i = k then MAXFILE else blocksFor (file i).bytes.length) ≤
    sb.capacity

theorem DirRoom.fit (h : DirRoom sb file k) {f : StoredFile} (hlen : f.bytes.length ≤ MAXFILE * BSIZE)
    (v : ℕ → Bool) : (FileStore.set ⟨file, v⟩ k f).Fit sb := by
  refine le_trans (Finset.sum_le_sum fun i _ => Mkfs.need_mono ?_) h
  by_cases hi : i = k
  · have hblocks : blocksFor (MAXFILE * BSIZE) = MAXFILE := by decide
    rw [if_pos hi, hi, FileStore.set_self, ← hblocks]
    exact Mkfs.blocksFor_mono hlen
  · rw [if_neg hi, FileStore.set_of_ne hi]

theorem DirRoom.congr (h : DirRoom sb file k) (hfile : ∀ i, i ≠ k → file' i = file i) :
    DirRoom sb file' k := by
  refine Eq.trans_le (Finset.sum_congr rfl fun i _ => ?_) h
  by_cases hi : i = k
  · rw [if_pos hi, if_pos hi]
  · rw [if_neg hi, if_neg hi, hfile i hi]

/-- The files with other bytes in the directory. -/
def withBytes (file : ℕ → StoredFile) (k : ℕ) (bs : List UInt8) : ℕ → StoredFile :=
  Function.update file k { file k with bytes := bs }

theorem nlink_withBytes (file : ℕ → StoredFile) (k : ℕ) (bs : List UInt8) (i : ℕ) :
    (withBytes file k bs i).nlink = (file i).nlink := by
  unfold withBytes
  by_cases hi : i = k
  · rw [hi, Function.update_self]
  · rw [Function.update_of_ne hi]

theorem withBytes_self (file : ℕ → StoredFile) (k : ℕ) : withBytes file k (file k).bytes = file :=
  Function.update_eq_self ..

end

end OsSemester.Xv6
