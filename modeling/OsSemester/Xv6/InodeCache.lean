import OsSemester.Lib.Transition
import OsSemester.Xv6.Directory

/-!
# The inode cache (`iget`, `idup` and `iput` in `fs.c`)

An entry of the cache belongs to an inode as long as somebody has a reference to it.  `icache_references`
says that the references of an inode are all to one entry, and that they are the numbers of `withRefs`.
-/

namespace OsSemester.Xv6

/-! ### The cache -/

/-- What `iget`, `idup` and `iput` use of an entry of `icache.inode`. -/
structure IcacheEntry where
  inum : ℕ
  ref : ℕ

/-- `icache` -/
abbrev Icache := Fin NINODE → IcacheEntry

namespace Icache

variable (c : Icache)

/-- The loop of `iget`: the entry of the inode, and `empty`. -/
def igetLoop (inum : ℕ) :
    List (Fin NINODE) → Option (Fin NINODE) → Option (Fin NINODE) × Option (Fin NINODE)
  | [], empty => (none, empty)
  | i :: is, empty =>
    if 0 < (c i).ref ∧ (c i).inum = inum then (some i, empty)
    else igetLoop inum is (if empty = none ∧ (c i).ref = 0 then some i else empty)

/-- `iget` -/
def iget (inum : ℕ) : Except String (Fin NINODE × Icache) :=
  match igetLoop c inum (List.finRange NINODE) none with
  -- the inode is cached already
  | (some i, _) => .ok (i, Function.update c i { c i with ref := (c i).ref + 1 })
  -- an entry is recycled
  | (none, some i) => .ok (i, Function.update c i ⟨inum, 1⟩)
  | (none, none) => .error "iget: no inodes"

/-- `idup` -/
def idup (i : Fin NINODE) : Icache := Function.update c i { c i with ref := (c i).ref + 1 }

/-- The end of `iput`. -/
def iput (i : Fin NINODE) : Icache := Function.update c i { c i with ref := (c i).ref - 1 }

end Icache

/-! ### Those who have references -/

variable {sb : Superblock}

/-- The cache, and how many references to an entry there are that `iget` has returned for an inode. -/
structure IcacheState (sb : Superblock) where
  cache : Icache
  held : Fin NINODE → Fin sb.inodeCount → ℕ

/-- A call; `idup` and `iput` are called with a reference. -/
inductive IcacheAct (sb : Superblock)
  | iget (k : Fin sb.inodeCount)
  | idup (i : Fin NINODE) (k : Fin sb.inodeCount)
  | iput (i : Fin NINODE) (k : Fin sb.inodeCount)

namespace IcacheState

/-- Another number of references to the entry `i` for the inode `k`. -/
def setHeld (σ : IcacheState sb) (i : Fin NINODE) (k : Fin sb.inodeCount) (v : ℕ) :
    Fin NINODE → Fin sb.inodeCount → ℕ := Function.update σ.held i (Function.update (σ.held i) k v)

def step (σ : IcacheState sb) : IcacheAct sb → Except String (IcacheState sb)
  | .iget k => (σ.cache.iget k).map fun r => ⟨r.2, σ.setHeld r.1 k (σ.held r.1 k + 1)⟩
  | .idup i k => .ok ⟨σ.cache.idup i, σ.setHeld i k (σ.held i k + 1)⟩
  | .iput i k => .ok ⟨σ.cache.iput i, σ.setHeld i k (σ.held i k - 1)⟩

/-- The numbers of references to the inodes. -/
def refs (σ : IcacheState sb) : InodeRefs sb := fun k => ∑ i, σ.held i k

/-- The cache as the loader leaves it. -/
def boot : IcacheState sb := ⟨fun _ => ⟨0, 0⟩, fun _ _ => 0⟩

/-- Nobody calls `idup` or `iput` without a reference. -/
def Holder (σ : IcacheState sb) : IcacheAct sb → Prop
  | .iget _ => True
  | .idup i k | .iput i k => σ.held i k ≠ 0

instance (σ : IcacheState sb) : DecidablePred σ.Holder
  | .iget _ => instDecidableTrue
  | .idup i k | .iput i k => inferInstanceAs (Decidable (σ.held i k ≠ 0))

end IcacheState

/-- The calls on the cache. -/
def icacheSystem (sb : Superblock) : System String (IcacheState sb) (IcacheAct sb) where
  init σ := σ = .boot
  step := IcacheState.step

/-- The call on the inode. -/
def IcacheAct.op : IcacheAct sb → InodeOp sb
  | .iget k => .iget k
  | .idup _ k => .idup k
  | .iput _ k => .iput k

/-- What a call does to the numbers of `withRefs`. -/
def refsStep (refs : InodeRefs sb) (op : InodeOp sb) : Except String (InodeRefs sb) :=
  (withRefs (fun _ _ => Except.ok (.void, ())) id ((), refs) op).map fun r => r.2.2

/-- The references to an entry are for its inode, and the references for an inode to one entry. -/
structure SharedEntries (σ : IcacheState sb) : Prop where
  inum : ∀ i k, σ.held i k ≠ 0 → (σ.cache i).inum = k
  ref : ∀ i, (σ.cache i).ref = ∑ k, σ.held i k
  unique : ∀ i j k, σ.held i k ≠ 0 → σ.held j k ≠ 0 → i = j

section

variable {c : Icache} {inum : ℕ} {is : List (Fin NINODE)} {empty : Option (Fin NINODE)} {i : Fin NINODE}

theorem igetLoop_some {e : Option (Fin NINODE)} (h : c.igetLoop inum is empty = (some i, e)) :
    0 < (c i).ref ∧ (c i).inum = inum := by
  induction is generalizing empty with
  | nil => cases h
  | cons j is ih =>
    rw [Icache.igetLoop] at h
    split_ifs at h with hj
    · obtain rfl := Option.some.inj (Prod.mk.inj h).1
      exact hj
    all_goals exact ih h

theorem igetLoop_none {e : Option (Fin NINODE)} (h : c.igetLoop inum is empty = (none, e)) :
    (∀ j ∈ is, ¬ (0 < (c j).ref ∧ (c j).inum = inum)) ∧
      (∀ i, e = some i → empty = some i ∨ (c i).ref = 0) ∧
      (e = none → empty = none ∧ ∀ j ∈ is, (c j).ref ≠ 0) := by
  induction is generalizing empty with
  | nil =>
    obtain rfl := (Prod.mk.inj h).2
    exact ⟨fun j hj => absurd hj List.not_mem_nil, fun _ hi => Or.inl hi,
      fun he => ⟨he, fun j hj => absurd hj List.not_mem_nil⟩⟩
  | cons j is ih =>
    rw [Icache.igetLoop] at h
    by_cases hj : 0 < (c j).ref ∧ (c j).inum = inum
    · rw [if_pos hj] at h
      cases h
    · rw [if_neg hj] at h
      obtain ⟨hno, hsome, hnone⟩ := ih h
      refine ⟨List.forall_mem_cons.mpr ⟨hj, hno⟩, fun i hi => ?_, fun he => ?_⟩
      · have h1 := hsome i hi
        split_ifs at h1 with hfree
        · rcases h1 with h1 | h1
          · obtain rfl := Option.some.inj h1
            exact Or.inr hfree.2
          · exact Or.inr h1
        · exact h1
      · obtain ⟨h1, hall⟩ := hnone he
        split_ifs at h1 with hfree
        · refine ⟨h1, List.forall_mem_cons.mpr ⟨fun h0 => hfree ⟨h1, h0⟩, hall⟩⟩

end

/-- The three outcomes of `iget`. -/
theorem iget_cases (c : Icache) (inum : ℕ) :
    (∃ i, 0 < (c i).ref ∧ (c i).inum = inum ∧ c.iget inum = .ok (i, c.idup i)) ∨
      (∀ j, ¬ (0 < (c j).ref ∧ (c j).inum = inum)) ∧
        ((∃ i, (c i).ref = 0 ∧ c.iget inum = .ok (i, Function.update c i ⟨inum, 1⟩)) ∨
          (∀ j, (c j).ref ≠ 0) ∧ c.iget inum = .error "iget: no inodes") := by
  rw [Icache.iget]
  cases hloop : c.igetLoop inum (List.finRange NINODE) none with
  | mk found e =>
    cases found with
    | some i =>
      obtain ⟨hpos, hinum⟩ := igetLoop_some hloop
      exact Or.inl ⟨i, hpos, hinum, rfl⟩
    | none =>
      obtain ⟨hno, hsome, hnone⟩ := igetLoop_none hloop
      refine Or.inr ⟨fun j => hno j (List.mem_finRange j), ?_⟩
      cases e with
      | some i =>
        have hfree := (hsome i rfl).resolve_left fun h => by cases h
        exact Or.inl ⟨i, hfree, rfl⟩
      | none => exact Or.inr ⟨fun j => (hnone rfl).2 j (List.mem_finRange j), rfl⟩

/-! ### The references -/

theorem sum_update_univ {α : Type} [Fintype α] [DecidableEq α] (f : α → ℕ) (a : α) (v : ℕ) :
    ∑ x, Function.update f a v x + f a = ∑ x, f x + v := by
  rw [Finset.sum_update_of_mem (Finset.mem_univ a),
    ← Finset.add_sum_erase Finset.univ f (Finset.mem_univ a), Finset.sdiff_singleton_eq_erase]
  omega

namespace IcacheState

variable {σ : IcacheState sb} {i j : Fin NINODE} {k l : Fin sb.inodeCount} {v : ℕ}

theorem setHeld_self : σ.setHeld i k v i k = v := by
  rw [setHeld, Function.update_self, Function.update_self]

theorem setHeld_of_ne (h : ¬ (j = i ∧ l = k)) : σ.setHeld i k v j l = σ.held j l := by
  unfold setHeld
  by_cases hj : j = i
  · rw [hj, Function.update_self, Function.update_of_ne fun hl => h ⟨hj, hl⟩]
  · rw [Function.update_of_ne hj]

/-- The references to an entry. -/
theorem sum_setHeld (j : Fin NINODE) : ∑ l, σ.setHeld i k v j l + (if j = i then σ.held i k else 0) =
    ∑ l, σ.held j l + if j = i then v else 0 := by
  by_cases hj : j = i
  · rw [if_pos hj, if_pos hj, hj]
    unfold setHeld
    rw [Function.update_self]
    exact sum_update_univ ..
  · rw [if_neg hj, if_neg hj]
    unfold setHeld
    rw [Function.update_of_ne hj]

/-- The references to an inode. -/
theorem refs_setHeld (c : Icache) : (⟨c, σ.setHeld i k v⟩ : IcacheState sb).refs =
    Function.update σ.refs k (σ.refs k + v - σ.held i k) := by
  funext l
  by_cases hl : l = k
  · have hcol : (fun j => σ.setHeld i k v j k) = Function.update (fun j => σ.held j k) i v := by
      funext j
      by_cases hj : j = i
      · rw [hj, setHeld_self, Function.update_self]
      · rw [setHeld_of_ne fun h => hj h.1, Function.update_of_ne hj]
    have hsum : ∑ j, σ.setHeld i k v j k + σ.held i k = ∑ j, σ.held j k + v := by
      have h1 := sum_update_univ (fun j => σ.held j k) i v
      rwa [← hcol] at h1
    rw [hl, Function.update_self]
    change ∑ j, σ.setHeld i k v j k = ∑ j, σ.held j k + v - σ.held i k
    omega
  · rw [Function.update_of_ne hl]
    exact Finset.sum_congr rfl fun j _ => setHeld_of_ne fun h => hl h.2

end IcacheState

namespace SharedEntries

variable {σ σ' : IcacheState sb} {i i₀ j : Fin NINODE} {k : Fin sb.inodeCount} {v : ℕ} {e : IcacheEntry}
  {a : IcacheAct sb}

theorem held_ne_zero (h : SharedEntries σ) (hpos : 0 < (σ.cache i).ref) (hinum : (σ.cache i).inum = k) :
    σ.held i k ≠ 0 := by
  rw [h.ref] at hpos
  obtain ⟨l, -, hl⟩ := Finset.exists_ne_zero_of_sum_ne_zero hpos.ne'
  have hlk : l = k := Fin.ext ((h.inum i l hl).symm.trans hinum)
  rwa [← hlk]

theorem ref_pos (h : SharedEntries σ) (hk : σ.held i k ≠ 0) : 0 < (σ.cache i).ref := by
  rw [h.ref]
  exact (Nat.pos_of_ne_zero hk).trans_le
    (Finset.single_le_sum (f := σ.held i) (fun _ _ => Nat.zero_le _) (Finset.mem_univ k))

theorem held_eq_zero (h : SharedEntries σ) (hno : ∀ j, ¬ (0 < (σ.cache j).ref ∧ (σ.cache j).inum = k))
    (j : Fin NINODE) : σ.held j k = 0 := by
  by_contra hj
  exact hno j ⟨h.ref_pos hj, h.inum j k hj⟩

/-- An entry that is free is none of those in use. -/
theorem busy_lt (h : SharedEntries σ) (hfree : (σ.cache i₀).ref = 0) : busy σ.refs < NINODE := by
  classical
  have hex : ∀ k, 0 < σ.refs k → ∃ i, σ.held i k ≠ 0 := by
    intro k hk
    obtain ⟨i, -, hi⟩ := Finset.exists_ne_zero_of_sum_ne_zero hk.ne'
    exact ⟨i, hi⟩
  -- each inode has an entry, and no two have the same
  let f : Fin sb.inodeCount → Fin NINODE := fun k => if hk : 0 < σ.refs k then (hex k hk).choose else i₀
  have hf : ∀ k, 0 < σ.refs k → σ.held (f k) k ≠ 0 := by
    intro k hk
    show σ.held (if hk : 0 < σ.refs k then (hex k hk).choose else i₀) k ≠ 0
    rw [dif_pos hk]
    exact (hex k hk).choose_spec
  have hcard : busy σ.refs ≤ (Finset.univ.erase i₀).card := by
    refine Finset.card_le_card_of_injOn f (fun k hk => ?_) fun k hk l hl hkl => ?_
    · refine Finset.mem_coe.mpr (Finset.mem_erase.mpr ⟨fun heq => ?_, Finset.mem_univ _⟩)
      have h1 := h.ref_pos (hf k (Finset.mem_filter.mp hk).2)
      rw [heq, hfree] at h1
      exact absurd h1 (Nat.lt_irrefl 0)
    · have h1 := h.inum _ k (hf k (Finset.mem_filter.mp hk).2)
      have h2 := h.inum _ l (hf l (Finset.mem_filter.mp hl).2)
      rw [← hkl] at h2
      exact Fin.ext (h1.symm.trans h2)
  rw [Finset.card_erase_of_mem (Finset.mem_univ i₀), Finset.card_univ, Fintype.card_fin] at hcard
  exact hcard.trans_lt (by decide)

/-- When all entries are in use, they are so for different inodes. -/
theorem le_busy (h : SharedEntries σ) (hfull : ∀ j, (σ.cache j).ref ≠ 0) : NINODE ≤ busy σ.refs := by
  have hex : ∀ i, ∃ k, σ.held i k ≠ 0 := by
    intro i
    have h1 := hfull i
    rw [h.ref] at h1
    obtain ⟨k, -, hk⟩ := Finset.exists_ne_zero_of_sum_ne_zero h1
    exact ⟨k, hk⟩
  choose f hf using hex
  have hcard : (Finset.univ : Finset (Fin NINODE)).card ≤ busy σ.refs := by
    refine Finset.card_le_card_of_injOn f (fun i _ => ?_) fun i _ j _ hij => ?_
    · refine Finset.mem_coe.mpr (Finset.mem_filter.mpr ⟨Finset.mem_univ _, ?_⟩)
      exact (Nat.pos_of_ne_zero (hf i)).trans_le
        (Finset.single_le_sum (f := fun j => σ.held j (f i)) (fun _ _ => Nat.zero_le _) (Finset.mem_univ i))
    · refine h.unique i j (f i) (hf i) ?_
      rw [hij]
      exact hf j
  rwa [Finset.card_univ, Fintype.card_fin] at hcard

/-- Another entry, with another number of references for `k`. -/
theorem set (h : SharedEntries σ) (hinum : v ≠ 0 → e.inum = k)
    (hother : ∀ l, l ≠ k → σ.held i l ≠ 0 → e.inum = l) (href : e.ref + σ.held i k = (σ.cache i).ref + v)
    (hone : v ≠ 0 → ∀ j, j ≠ i → σ.held j k = 0) :
    SharedEntries ⟨Function.update σ.cache i e, σ.setHeld i k v⟩ where
  inum j l hjl := by
    change σ.setHeld i k v j l ≠ 0 at hjl
    show (Function.update σ.cache i e j).inum = l
    by_cases hjk : j = i ∧ l = k
    · obtain ⟨rfl, rfl⟩ := hjk
      rw [IcacheState.setHeld_self] at hjl
      rw [Function.update_self]
      exact hinum hjl
    · rw [IcacheState.setHeld_of_ne hjk] at hjl
      by_cases hj : j = i
      · rw [hj] at hjl
        rw [hj, Function.update_self]
        exact hother l (fun hl => hjk ⟨hj, hl⟩) hjl
      · rw [Function.update_of_ne hj]
        exact h.inum j l hjl
  ref j := by
    have hsum := IcacheState.sum_setHeld (σ := σ) (i := i) (k := k) (v := v) j
    have hj' := h.ref j
    show (Function.update σ.cache i e j).ref = ∑ l, σ.setHeld i k v j l
    by_cases hj : j = i
    · rw [if_pos hj, if_pos hj] at hsum
      rw [hj] at hsum hj' ⊢
      rw [Function.update_self]
      omega
    · rw [if_neg hj, if_neg hj] at hsum
      rw [Function.update_of_ne hj]
      omega
  unique j j' l hj hj' := by
    change σ.setHeld i k v j l ≠ 0 at hj
    change σ.setHeld i k v j' l ≠ 0 at hj'
    by_cases hjk : j = i ∧ l = k
    · obtain ⟨rfl, rfl⟩ := hjk
      rw [IcacheState.setHeld_self] at hj
      by_contra hne
      rw [IcacheState.setHeld_of_ne fun h' => hne h'.1.symm] at hj'
      exact hj' (hone hj j' fun h' => hne h'.symm)
    · rw [IcacheState.setHeld_of_ne hjk] at hj
      by_cases hjk' : j' = i ∧ l = k
      · obtain ⟨rfl, rfl⟩ := hjk'
        rw [IcacheState.setHeld_self] at hj'
        by_contra hne
        exact hj (hone hj' j hne)
      · rw [IcacheState.setHeld_of_ne hjk'] at hj'
        exact h.unique j j' l hj hj'

/-- A reference more to an entry that has one. -/
theorem dup (h : SharedEntries σ) (hk : σ.held i k ≠ 0) :
    SharedEntries ⟨σ.cache.idup i, σ.setHeld i k (σ.held i k + 1)⟩ := by
  refine h.set (fun _ => h.inum i k hk) (fun l _ hl => h.inum i l hl) ?_ fun _ j hj => ?_
  · show (σ.cache i).ref + 1 + σ.held i k = _
    omega
  · by_contra hne
    exact hj (h.unique j i k hne hk)

theorem boot : SharedEntries (.boot : IcacheState sb) :=
  ⟨fun _ _ h => absurd rfl h, fun _ => Finset.sum_const_zero.symm, fun _ _ _ h => absurd rfl h⟩

theorem step (h : SharedEntries σ) (ha : σ.Holder a) (hs : σ.step a = .ok σ') : SharedEntries σ' := by
  cases a with
  | iget k =>
    rw [IcacheState.step] at hs
    rcases iget_cases σ.cache k with ⟨i, hpos, hinum, hget⟩ | ⟨hno, ⟨i, hfree, hget⟩ | ⟨-, hget⟩⟩
    · rw [hget] at hs
      obtain rfl := Except.ok.inj hs
      exact h.dup (h.held_ne_zero hpos hinum)
    · -- an entry that is recycled has no references, and no other entry has any for the inode
      rw [hget] at hs
      obtain rfl := Except.ok.inj hs
      have hzero : ∀ l, σ.held i l = 0 := by
        intro l
        by_contra hl
        exact (h.ref_pos hl).ne' hfree
      refine h.set (fun _ => rfl) (fun l _ hl => absurd (hzero l) hl) ?_ fun _ j _ => h.held_eq_zero hno j
      rw [hzero k, hfree]
    · rw [hget] at hs
      cases hs
  | idup i k =>
    obtain rfl := Except.ok.inj hs
    exact h.dup ha
  | iput i k =>
    obtain rfl := Except.ok.inj hs
    have hk : σ.held i k ≠ 0 := ha
    have hpos := h.ref_pos hk
    refine h.set (fun _ => h.inum i k hk) (fun l _ hl => h.inum i l hl) ?_ fun _ j hj => ?_
    · show (σ.cache i).ref - 1 + σ.held i k = (σ.cache i).ref + (σ.held i k - 1)
      omega
    · by_contra hne
      exact hj (h.unique j i k hne hk)

/-- A call does to the references what `withRefs` says. -/
theorem refs_step (h : SharedEntries σ) (ha : σ.Holder a) :
    (σ.step a).map IcacheState.refs = refsStep σ.refs a.op := by
  have hmore : ∀ c i (k : Fin sb.inodeCount), (⟨c, σ.setHeld i k (σ.held i k + 1)⟩ : IcacheState sb).refs =
      Function.update σ.refs k (σ.refs k + 1) := by
    intro c i k
    rw [IcacheState.refs_setHeld, ← Nat.add_assoc, Nat.add_right_comm, Nat.add_sub_cancel]
  cases a with
  | iget k =>
    -- the panic is for an inode without references when there are `NINODE` others
    have hok : σ.refs k ≠ 0 ∨ busy σ.refs < NINODE →
        refsStep σ.refs (.iget k) = .ok (Function.update σ.refs k (σ.refs k + 1)) := by
      intro hroom
      rw [refsStep, withRefs, InodeRefs.iget_ok hroom]
      rfl
    rw [IcacheState.step, IcacheAct.op]
    rcases iget_cases σ.cache k with ⟨i, hpos, hinum, hget⟩ | ⟨hno, ⟨i, hfree, hget⟩ | ⟨hfull, hget⟩⟩
    · have hk : σ.refs k ≠ 0 := fun h0 =>
        h.held_ne_zero hpos hinum (Finset.sum_eq_zero_iff.mp h0 i (Finset.mem_univ i))
      rw [hget, hok (Or.inl hk), ← hmore]
      rfl
    · rw [hget, hok (Or.inr (h.busy_lt hfree)), ← hmore]
      rfl
    · have hk : σ.refs k = 0 := Finset.sum_eq_zero fun j _ => h.held_eq_zero hno j
      rw [hget, refsStep, withRefs, InodeRefs.iget_full hk (h.le_busy hfull)]
      rfl
  | idup i k => exact congrArg Except.ok (hmore _ i k)
  | iput i k =>
    have hk : σ.held i k ≠ 0 := ha
    refine congrArg Except.ok ((IcacheState.refs_setHeld _).trans (congrArg _ ?_))
    show σ.refs k + (σ.held i k - 1) - σ.held i k = σ.refs k - 1
    omega

end SharedEntries

section

variable {σ σ' : IcacheState sb} {a : IcacheAct sb}

/-- **One entry for each inode**: however references are taken and given back, those for an inode are all to
one entry, which keeps the inode and counts them, and `iget` panics only when there are references to
`NINODE` other inodes. -/
theorem icache_references (hσ : (icacheSystem sb).Reach IcacheState.Holder σ) :
    SharedEntries σ ∧ ∀ a, σ.Holder a → (σ.step a).map IcacheState.refs = refsStep σ.refs a.op := by
  have h : SharedEntries σ := by
    refine hσ.invariant (fun s hs => ?_) fun s a s' hI ha hs => hI.step ha hs
    rw [show s = .boot from hs]
    exact SharedEntries.boot
  exact ⟨h, fun a ha => h.refs_step ha⟩

end

/-- Three references to the root directory, and one to an inode that has the entry of another one. -/
theorem icache_references_two : ∃ σ : IcacheState mkfsSuperblock,
    σ.refs (FsProg.rootInum mkfsSuperblock) = 3 ∧ σ.refs ⟨7, by decide⟩ = 1 ∧
      (σ.cache ⟨0, by decide⟩).ref = 3 ∧ (σ.cache ⟨1, by decide⟩).inum = 7 ∧ SharedEntries σ ∧
      ∀ a, σ.Holder a → (σ.step a).map IcacheState.refs = refsStep σ.refs a.op := by
  let root := FsProg.rootInum mkfsSuperblock
  let as : List (IcacheAct mkfsSuperblock) := [.iget root, .iget ⟨5, by decide⟩,
    .idup ⟨0, by decide⟩ root, .iget root, .iput ⟨1, by decide⟩ ⟨5, by decide⟩,
    .iget ⟨7, by decide⟩]
  have hguard : (icacheSystem mkfsSuperblock).Obeys IcacheState.Holder .boot as := by
    decide +kernel
  have hrun : (icacheSystem mkfsSuperblock).Ends (fun σ => σ.refs root = 3 ∧
      σ.refs ⟨7, by decide⟩ = 1 ∧ (σ.cache ⟨0, by decide⟩).ref = 3 ∧
      (σ.cache ⟨1, by decide⟩).inum = 7) .boot as := by
    decide +kernel
  obtain ⟨σ, hσ, h1, h2, h3, h4⟩ := System.Reach.of_ends (S := icacheSystem mkfsSuperblock) as rfl hguard hrun
  exact ⟨σ, h1, h2, h3, h4, icache_references hσ⟩

end OsSemester.Xv6
