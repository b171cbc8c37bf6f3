import OsSemester.Xv6.FreeList
import OsSemester.Xv6.Spec.Vm

/-!
# `malloc` on a free list (`umalloc.c`)

`malloc` goes around the list for a block that is large enough.  If there is none, `morecore` gets a
new one with `free`, and the loop finds it when it goes around again; otherwise nothing has changed.
-/

namespace OsSemester.Xv6

/-! ### `sbrk` -/

theorem allocLoop_size {oldsz newsz a k sz' : ℕ} {d d' : PageDir} {m m' : PhysMem}
    (h : allocLoop oldsz newsz k a d m = .ok (d', m', sz')) : sz' = 0 ∨ sz' = newsz := by
  induction k generalizing a d m with
  | zero =>
    rw [allocLoop] at h
    cases h
    exact .inr rfl
  | succ k ih =>
    rw [allocLoop] at h
    split_ifs at h
    · split at h
      · cases h
        exact .inl rfl
      · split at h
        · cases h
        · exact ih h
        · cases h
          exact .inl rfl
    · cases h
      exact .inr rfl

section

variable {sz newsz n : ℕ} {mem : Bool} (top : ℕ) (hn : n ≠ 0) (hnew : newsz = (sz + n) % 2 ^ 32)

include hn hnew in
/-- Growing, with the size that `allocuvm` returns. -/
theorem growprocSize_grow {r : ℕ} (hlt : n < 2 ^ 31)
    (hr : (if newsz ≥ KERNBASE then 0 else if newsz < sz then sz else if mem then newsz else 0) = r) :
    (growprocSize sz top n mem).1 = (if r = 0 then sz else r) ∧
      (growprocSize sz top n mem).2.2 = decide (r ≠ 0) := by
  simp only [growprocSize, if_neg hn, if_pos hlt, ← hnew, hr]
  split_ifs with h0
  · exact ⟨rfl, by simp [h0]⟩
  · exact ⟨rfl, by simp [h0]⟩

include hn hnew in
/-- Shrinking, with the size that `deallocuvm` returns. -/
theorem growprocSize_shrink {r : ℕ} (hge : ¬ n < 2 ^ 31) (hr : (if newsz ≥ sz then sz else newsz) = r) :
    (growprocSize sz top n mem).1 = (if r = 0 then sz else r) ∧
      (growprocSize sz top n mem).2.2 = decide (r ≠ 0) := by
  simp only [growprocSize, if_neg hn, if_neg hge, ← hnew, hr]
  by_cases h0 : r = 0
  · subst h0
    exact ⟨rfl, rfl⟩
  · simp [h0]

end

/-- `growprocSize` is what `growproc` does to the size of the process. -/
theorem growproc_size {d d' : PageDir} {m m' : PhysMem} {sz sz' : ℕ} {n : ℤ} {r : Bool} (top : ℕ)
    (hlo : -2 ^ 31 ≤ n) (hhi : n < 2 ^ 31) (h : growproc d m sz n = .ok (d', m', sz', r)) :
    ∃ mem, (growprocSize sz top (uint n) mem).1 = sz' ∧ (growprocSize sz top (uint n) mem).2.2 = r := by
  have huint : uint (sz + n) = (sz + uint n) % 2 ^ 32 := by
    rw [uint, uint]
    omega
  unfold growproc at h
  obtain hn | rfl | hn := lt_trichotomy n 0
  · have hbits : uint n ≠ 0 ∧ ¬ uint n < 2 ^ 31 := by
      rw [uint]
      omega
    rw [if_neg (by omega), if_pos hn] at h
    cases h
    refine ⟨true, growprocSize_shrink top hbits.1 huint hbits.2 ?_⟩
    rw [deallocuvm]
    split_ifs <;> rfl
  · rw [if_neg (by omega), if_neg (by omega)] at h
    cases h
    exact ⟨true, rfl, rfl⟩
  · have hbits : uint n ≠ 0 ∧ uint n < 2 ^ 31 := by
      rw [uint]
      omega
    rw [if_pos hn] at h
    split at h
    · cases h
    next d1 m1 sz1 hall =>
      cases h
      suffices hmem : ∃ mem : Bool, (if uint (sz + n) ≥ KERNBASE then 0
          else if uint (sz + n) < sz then sz else if mem then uint (sz + n) else 0) = sz1 from
        hmem.imp fun mem hr => growprocSize_grow top hbits.1 huint hbits.2 hr
      unfold allocuvm at hall
      split_ifs at hall ⊢ with h1 h2
      · cases hall
        exact ⟨true, rfl⟩
      · cases hall
        exact ⟨true, rfl⟩
      · -- whether the loop had memory is seen from what it returns
        obtain h0 | h0 := allocLoop_size hall
        · exact ⟨false, h0.symm⟩
        · exact ⟨true, h0.symm⟩

/-- To grow by a positive amount succeeds as a whole or not at all. -/
theorem growprocSize_pos {sz n : ℕ} (top : ℕ) (mem : Bool) (hsz : sz < 2 ^ 31) (h0 : 0 < n)
    (hn : n < 2 ^ 31) :
    growprocSize sz top n mem = (sz, top, false) ∨
      sz + n < 2 ^ 31 ∧ ∃ top', top ≤ top' ∧ sz + n ≤ top' ∧
        growprocSize sz top n mem = (sz + n, top', true) := by
  have hmod : (sz + n) % 2 ^ 32 = sz + n := Nat.mod_eq_of_lt (by omega)
  simp only [growprocSize, if_neg (Nat.ne_of_gt h0), if_pos hn, hmod]
  by_cases hK : sz + n ≥ KERNBASE
  · left
    rw [if_pos hK]
    rfl
  · rw [if_neg hK, if_neg (Nat.not_lt.mpr (Nat.le_add_right ..))]
    cases mem with
    | false => exact .inl rfl
    | true =>
      have hround := PGROUNDUP_eq (Nat.le_of_not_le hK)
      refine .inr ⟨Nat.not_le.mp hK, max top (PGROUNDUP (sz + n)), Nat.le_max_left .., ?_, ?_⟩
      · omega
      · exact if_neg (by simp; omega)

namespace Heap

variable {h h' : Heap} {base a b c p q x n : ℕ} {l l' : List ℕ} {mem : ℕ → Bool}

namespace FreeList

variable (hl : FreeList base h l)

include hl in
/-- No block reaches another one. -/
theorem apart_of_ne (ha : a ∈ l) (hb : b ∈ l) (hne : a ≠ b) : h.stop a < b ∨ h.stop b < a := by
  have hsymm : Std.Symm fun a b => a ≠ b → h.stop a < b ∨ h.stop b < a :=
    ⟨fun _ _ hab hne => (hab hne.symm).symm⟩
  have hpair : l.Pairwise fun a b => a ≠ b → h.stop a < b ∨ h.stop b < a :=
    hl.apart.imp fun hab _ => .inl hab
  exact hpair.forall_of_forall (fun a _ hne => absurd rfl hne) ha hb hne

include hl in
theorem not_mem_of_inside (hq : q ∈ l) (h1 : q < x) (h2 : x < h.stop q) : x ∉ l := by
  intro hx
  have h3 := hl.apart_of_ne hq hx (Nat.ne_of_lt h1)
  have h4 := Node.le_stop (h := h) x
  omega

include hl in
/-- The blocks of the list, other than `base`, are some of its bytes. -/
theorem not_mem_of_not_covers (ha : base < a) (hnot : ¬ h.Covers l a) : a ∉ l := by
  intro h1
  have h2 := ((hl.nodes a h1).block (Nat.ne_of_gt ha)).lt_stop
  exact hnot ⟨a, h1, le_rfl, by omega⟩

include hl in
/-- A block none of whose bytes is in the list is apart from the list. -/
theorem apart_of_disjoint (hc : Block base h c)
    (hdisj : ∀ x, c ≤ x → x < h.stop c → ¬ h.Covers l x) (ha : a ∈ l) :
    h.stop a ≤ c ∨ h.stop c ≤ a := by
  obtain ⟨rfl, h0⟩ | hb := hl.nodes a ha
  · left
    have := hc.base_le
    rw [stop, h0]
    omega
  · by_contra hcon
    obtain ⟨h1, h2⟩ := not_or.mp hcon
    have h3 := hb.lt_stop
    have h4 := hc.lt_stop
    exact hdisj (max a c) (Nat.le_max_right ..) (by omega) ⟨a, ha, Nat.le_max_left .., by omega⟩

include hl in
/-- A block that is not `base` is the one behind another. -/
theorem split_at (hp : p ∈ l) (hq : h.next p ≠ base) : ∃ s t, l = s ++ p :: h.next p :: t := by
  obtain ⟨s, t, hst⟩ := List.append_of_mem hp
  have h1 := hl.next_eq hst
  cases t with
  | nil => exact absurd (Option.some.inj h1).symm hq
  | cons d t =>
    obtain rfl : d = h.next p := Option.some.inj h1
    exact ⟨s, t, hst⟩

end FreeList

/-! ### Taking a block -/

/-- What is true when the block `b` of `n` headers is taken out of the list. -/
structure Taken (base : ℕ) (h : Heap) (l : List ℕ) (n b : ℕ) (h' : Heap) (l' : List ℕ) : Prop where
  list : FreeList base h' l'
  sz : h'.sz = h.sz
  top : h'.top = h.top
  block : Block base h' b
  units : h'.units b = n
  covers : ∀ x, h.Covers l x ↔ h'.Covers l' x ∨ b ≤ x ∧ x < h'.stop b
  disjoint : ∀ x, b ≤ x → x < h'.stop b → ¬ h'.Covers l' x
  hdr : ∀ a, a ∉ l → ¬ h.Covers l a → h'.hdr a = h.hdr a

/-- The block has the size that is asked for. -/
theorem take_exact (hl : FreeList base h l) (hr : Room base h) (hp : p ∈ l) (hq : h.next p ≠ base)
    (hn : h.units (h.next p) = n) :
    ∃ h' l', h.take n p (h.next p) = .ok (h.next p + 8, h') ∧ Taken base h l n (h.next p) h' l' := by
  obtain ⟨s, t, hst⟩ := hl.split_at hp hq
  set q := h.next p with hqdef
  have hql : q ∈ l := by rw [hst]; simp
  have hblock : Block base h q := (hl.nodes q hql).block hq
  have hpq : p < q := by
    have := hst ▸ hl.sorted
    exact (List.pairwise_cons.mp (List.pairwise_append.mp this).2.1).1 q (List.mem_cons_self ..)
  -- how the blocks of the list lie to each other
  obtain ⟨hs_apart, hp_apart, hsp⟩ := List.pairwise_append.mp (hst ▸ hl.apart)
  obtain ⟨hpt, hq_apart⟩ := List.pairwise_cons.mp hp_apart
  obtain ⟨hqt, ht_apart⟩ := List.pairwise_cons.mp hq_apart
  have hpath := hst ▸ hl.path
  rw [List.append_assoc, List.cons_append, Path.split, List.cons_append, Path.cons_cons] at hpath
  obtain ⟨hpath1, -, hpath2⟩ := hpath
  set y : Header := { h.hdr p with ptr := h.next q } with hy
  -- only the pointer of `p` changes, no size
  have hstop : ∀ a, (h.set p y).stop a = h.stop a := by
    intro a
    by_cases hap : a = p
    · rw [hap, set_stop_self]
      rfl
    · exact set_stop_of_ne hap
  have hunits : ∀ a, (h.set p y).units a = h.units a := by
    intro a
    have := hstop a
    rw [stop, stop] at this
    omega
  have hsub : ∀ a, a ∈ s ++ p :: t → a ∈ l := by
    intro a ha
    rw [hst]
    simp only [List.mem_append, List.mem_cons] at ha ⊢
    tauto
  refine ⟨{ h.set p y with freep := p }, s ++ p :: t, ?_, ⟨?_, ?_, ?_, ?_, ?_⟩, rfl, rfl, ?_, ?_, ?_, ?_, ?_⟩
  · have hb : behind q 1 = q + 8 := by
      have h1 := hblock.lt_stop
      have h2 := hblock.stop_le
      have h3 := hr.sz_lt
      exact Nat.mod_eq_of_lt (by omega)
    rw [take, read_eq (hl.mapped hr hql), read_eq (hl.mapped hr hp)]
    show (if h.units q = n then _ else _) = _
    rw [if_pos hn]
    show (do
      let h' ← h.write p y
      return (behind q 1, { h' with freep := p })) = _
    rw [write_eq (hl.mapped hr hp), hb]
    rfl
  · have h1 := hst ▸ hl.head
    cases s with
    | nil => exact h1
    | cons d s => exact h1
  -- the list runs from `p` to what was behind `q`
  · show Path (h.set p y).next _
    rw [List.append_assoc, List.cons_append, Path.split]
    have hlast : ∀ a ∈ s, a ≠ p := fun a ha =>
      Nat.ne_of_lt ((Node.le_stop _).trans_lt (hsp a ha p (List.mem_cons_self ..)))
    refine ⟨hpath1.congr fun a ha => set_next_of_ne (hlast a ha), ?_⟩
    refine Path.replace_head hpath2 ?_ fun a ha => ?_
    · exact set_next_self
    · have h1 := hpt a (List.mem_cons_of_mem _ ha)
      have h2 := Node.le_stop (h := h) p
      exact set_next_of_ne (by omega)
  · show (s ++ p :: t).Pairwise fun a b => (h.set p y).stop a < b
    simp only [hstop]
    refine List.pairwise_append.mpr ⟨hs_apart, ?_, fun a ha b hb => ?_⟩
    · exact List.pairwise_cons.mpr ⟨fun a ha => hpt a (List.mem_cons_of_mem _ ha), ht_apart⟩
    · apply hsp a ha
      simp only [List.mem_cons] at hb ⊢
      tauto
  · exact fun a ha => (hl.nodes a (hsub a ha)).congr le_rfl (hunits a)
  · show p ∈ s ++ p :: t
    simp
  · exact hblock.congr le_rfl (hunits q)
  · exact (hunits q).trans hn
  · intro x
    show _ ↔ (h.set p y).Covers (s ++ p :: t) x ∨ q ≤ x ∧ x < (h.set p y).stop q
    rw [covers_congr fun a _ => hstop a, hstop, hst, covers_append, covers_append, covers_cons, covers_cons,
      covers_cons]
    tauto
  -- the block that is taken lies apart from the others
  · intro x h1 h2
    show ¬ (h.set p y).Covers (s ++ p :: t) x
    rw [covers_congr fun a _ => hstop a]
    rintro ⟨a, ha, h3, h4⟩
    have h2 : x < h.stop q := hstop q ▸ h2
    have h5 := Node.le_stop (h := h) a
    have h6 := Node.le_stop (h := h) p
    have h7 := hpt q (List.mem_cons_self ..)
    rw [List.mem_append, List.mem_cons] at ha
    obtain ha | rfl | ha := ha
    · have := hsp a ha p (List.mem_cons_self ..)
      omega
    · omega
    · have := hqt a ha
      omega
  · exact fun a ha _ => set_hdr_of_ne fun h1 => ha (h1 ▸ hp)

/-- The end of a larger block. -/
theorem take_split (hl : FreeList base h l) (hr : Room base h) (hp : p ∈ l) (hql : q ∈ l) (h0 : 0 < n)
    (hn : n < h.units q) :
    ∃ h', h.take n p q = .ok (q + 8 * (h.units q - n) + 8, h') ∧
      Taken base h l n (q + 8 * (h.units q - n)) h' l := by
  have hblock : Block base h q := by
    refine (hl.nodes q hql).resolve_left ?_
    rintro ⟨-, h1⟩
    omega
  set b := q + 8 * (h.units q - n) with hb
  have hqb : q < b := by omega
  have hbstop : b + 8 * n = h.stop q := by
    rw [stop]
    omega
  have hstop_le := hblock.stop_le
  have hsz := hr.sz_lt
  have htop := hr.sz_le
  set y : Header := { h.hdr q with size := h.units q - n } with hy
  set z : Header := { h.hdr b with size := n } with hz
  -- the new header lies inside of the block `q`
  have hbl : ∀ a ∈ l, a ≠ b := by
    rintro a ha rfl
    exact hl.not_mem_of_inside hql hqb (by omega) ha
  set h2 := (h.set q y).set b z with hh2
  have hunits : ∀ a, a ≠ q → a ≠ b → h2.units a = h.units a := fun a h3 h4 =>
    (set_units_of_ne h4).trans (set_units_of_ne h3)
  have hunitsq : h2.units q = h.units q - n := (set_units_of_ne (Nat.ne_of_lt hqb)).trans set_units_self
  have hstopq : h2.stop q = b := by rw [stop, hunitsq]
  have hstopb : h2.stop b = h.stop q := set_stop_self.trans hbstop
  have hstop : ∀ a ∈ l, a ≠ q → h2.stop a = h.stop a := by
    intro a ha haq
    rw [stop, stop, hunits a haq (hbl a ha)]
  have hnext : ∀ a ∈ l, h2.next a = h.next a := by
    intro a ha
    refine (set_next_of_ne (hbl a ha)).trans ?_
    by_cases haq : a = q
    · rw [haq]
      exact set_next_self
    · exact set_next_of_ne haq
  -- the other blocks are not touched
  have hother : ∀ a ∈ l, a ≠ q → h.stop a < q ∨ h.stop q < a := fun a ha haq =>
    hl.apart_of_ne ha hql haq
  refine ⟨{ h2 with freep := p }, ?_, ⟨hl.head, ?_, ?_, ?_, hp⟩, rfl, rfl, ?_, ?_, ?_, ?_, ?_⟩
  · have hbehind1 : behind q (h.units q - n) = b := Nat.mod_eq_of_lt (by omega)
    have hbehind2 : behind b 1 = b + 8 := Nat.mod_eq_of_lt (by omega)
    rw [take, read_eq (hl.mapped hr hql)]
    show (if h.units q = n then _ else _) = _
    rw [if_neg (Nat.ne_of_gt hn)]
    show (do
      let h1 ← h.write q y
      let q := behind q (h.units q - n)
      let h2 ← h1.write q { (← h1.read q) with size := n }
      return (behind q 1, { h2 with freep := p })) = _
    rw [write_eq (hl.mapped hr hql), hbehind1]
    show (do
      let h2 ← (h.set q y).write b { (← (h.set q y).read b) with size := n }
      return (behind b 1, { h2 with freep := p })) = _
    have hbtop : b + 8 ≤ (h.set q y).top := by
      show b + 8 ≤ h.top
      omega
    rw [read_eq hbtop]
    show (do
      let h2 ← (h.set q y).write b { (h.set q y).hdr b with size := n }
      return (behind b 1, { h2 with freep := p })) = _
    rw [set_hdr_of_ne (Nat.ne_of_gt hqb), write_eq hbtop, hbehind2]
    rfl
  · exact hl.path.congr hnext
  · show l.Pairwise fun a b => h2.stop a < b
    refine hl.apart.imp_of_mem fun {a c} ha _ hac => ?_
    by_cases haq : a = q
    · rw [haq] at hac ⊢
      rw [hstopq]
      omega
    · rwa [hstop a ha haq]
  · intro a ha
    by_cases haq : a = q
    · right
      rw [haq]
      refine ⟨hblock.base_le, ?_, ?_⟩
      · show 0 < h2.units q
        omega
      · show h2.stop q ≤ h.sz
        omega
    · exact (hl.nodes a ha).congr le_rfl (hunits a haq (hbl a ha))
  · refine ⟨?_, ?_, ?_⟩
    · have := hblock.base_le
      omega
    · show 0 < h2.units b
      rw [set_units_self]
      exact h0
    · show h2.stop b ≤ h.sz
      omega
  · exact set_units_self
  -- the bytes of `q` are divided at `b`
  · intro x
    show (∃ a ∈ l, _) ↔ (∃ a ∈ l, a ≤ x ∧ x < h2.stop a) ∨ b ≤ x ∧ x < h2.stop b
    constructor
    · rintro ⟨a, ha, h3, h4⟩
      by_cases haq : a = q
      · rw [haq] at h3 h4
        by_cases hxb : x < b
        · exact .inl ⟨q, hql, h3, hstopq ▸ hxb⟩
        · exact .inr ⟨Nat.not_lt.mp hxb, hstopb ▸ h4⟩
      · exact .inl ⟨a, ha, h3, (hstop a ha haq).symm ▸ h4⟩
    · rintro (⟨a, ha, h3, h4⟩ | ⟨h3, h4⟩)
      · by_cases haq : a = q
        · rw [haq] at h3 h4
          exact ⟨q, hql, h3, by omega⟩
        · exact ⟨a, ha, h3, hstop a ha haq ▸ h4⟩
      · exact ⟨q, hql, by omega, hstopb ▸ h4⟩
  · rintro x h3 h4 ⟨a, ha, h5, h6⟩
    have h4 : x < h2.stop b := h4
    have h6 : x < h2.stop a := h6
    by_cases haq : a = q
    · rw [haq] at h6
      omega
    · rw [hstop a ha haq] at h6
      have := hother a ha haq
      omega
  · intro a ha hnot
    refine (set_hdr_of_ne ?_).trans (set_hdr_of_ne fun h3 => ha (h3 ▸ hql))
    rintro rfl
    exact hnot ⟨q, hql, hqb.le, by omega⟩

theorem take_spec (hl : FreeList base h l) (hr : Room base h) (hp : p ∈ l) (h0 : 0 < n)
    (hn : n ≤ h.units (h.next p)) :
    ∃ b h' l', h.take n p (h.next p) = .ok (b + 8, h') ∧ Taken base h l n b h' l' := by
  have hq : h.next p ∈ l := by
    obtain ⟨h1, -⟩ | ⟨h1, -⟩ := hl.next_cases hp
    · exact h1 ▸ hl.base_mem
    · exact h1
  obtain hn | hn := hn.eq_or_lt
  · have hne : h.next p ≠ base := by
      intro h1
      obtain ⟨-, h2⟩ | h2 := hl.nodes _ hq
      · omega
      · have := h2.base_le
        omega
    obtain ⟨h', l', h1, h2⟩ := take_exact hl hr hp hne hn.symm
    exact ⟨_, h', l', h1, h2⟩
  · obtain ⟨h', h1, h2⟩ := take_split hl hr hp hq h0 hn
    exact ⟨_, h', l, h1, h2⟩

/-! ### The loop -/

/-- The rest of the loop when it has come back to `freep`, with `k` rounds left. -/
def atFreep (n : ℕ) (mem : ℕ → Bool) (k : ℕ) (h : Heap) : Except MallocHalt (ℕ × Heap) := do
  let (h', ok) ← h.morecore n mem
  if ok then mallocLoop n mem k h' h'.freep (← h'.read h'.freep).ptr
  else return (0, h')

theorem mallocLoop_succ {k : ℕ} (hq : q + 8 ≤ h.top) :
    mallocLoop n mem (k + 1) h p q =
      if n ≤ h.units q then h.take n p q
      else if q = h.freep then h.atFreep n mem k
      else mallocLoop n mem k h q (h.next q) := by
  rw [mallocLoop, read_eq hq]
  rfl

/-- The loop goes along a path to the first block that is large enough, or to `freep`. -/
theorem mallocLoop_path (mem : ℕ → Bool) {k : ℕ} (hpath : Path h.next (p :: (l ++ [h.freep])))
    (hne : ∀ a ∈ l, a ≠ h.freep) (hm : ∀ a ∈ l ++ [h.freep], a + 8 ≤ h.top) :
    (∃ b ∈ p :: l, n ≤ h.units (h.next b) ∧
      mallocLoop n mem (k + l.length + 1) h p (h.next p) = h.take n b (h.next b)) ∨
    (∀ a ∈ l ++ [h.freep], h.units a < n) ∧
      mallocLoop n mem (k + l.length + 1) h p (h.next p) = h.atFreep n mem k := by
  induction l generalizing p with
  | nil =>
    have hnext : h.next p = h.freep := (Path.cons_cons.mp hpath).1
    have hm' : h.next p + 8 ≤ h.top := hnext ▸ hm _ (List.mem_singleton_self _)
    rw [List.length_nil, Nat.add_zero, mallocLoop_succ hm']
    by_cases hn : n ≤ h.units (h.next p)
    · exact .inl ⟨p, List.mem_cons_self .., hn, if_pos hn⟩
    · right
      rw [if_neg hn, if_pos hnext]
      refine ⟨fun a ha => ?_, rfl⟩
      rw [List.mem_singleton.mp ha, ← hnext]
      exact Nat.not_le.mp hn
  | cons d l ih =>
    obtain ⟨hnext, hpath'⟩ := Path.cons_cons.mp hpath
    obtain rfl : h.next p = d := hnext
    set d := h.next p
    have hd := hm d (List.mem_cons_self ..)
    rw [List.length_cons, ← Nat.add_assoc, mallocLoop_succ hd]
    by_cases hn : n ≤ h.units d
    · exact .inl ⟨p, List.mem_cons_self .., hn, if_pos hn⟩
    · rw [if_neg hn, if_neg (hne d (List.mem_cons_self ..))]
      have ih := ih hpath' (fun a ha => hne a (List.mem_cons_of_mem _ ha))
        fun a ha => hm a (List.mem_cons_of_mem _ ha)
      refine ih.imp ?_ ?_
      · rintro ⟨b, hb, h1, h2⟩
        exact ⟨b, List.mem_cons_of_mem _ hb, h1, h2⟩
      · rintro ⟨h1, h2⟩
        refine ⟨fun a ha => ?_, h2⟩
        obtain rfl | ha := List.mem_cons.mp ha
        · exact Nat.not_le.mp hn
        · exact h1 a ha

/-- Once around the list. -/
theorem mallocLoop_round (mem : ℕ → Bool) {k : ℕ} (hl : FreeList base h l) (hr : Room base h) :
    (∃ b ∈ l, n ≤ h.units (h.next b) ∧
      mallocLoop n mem (k + l.length) h h.freep (h.next h.freep) = h.take n b (h.next b)) ∨
    (∀ a ∈ l, h.units a < n) ∧
      mallocLoop n mem (k + l.length) h h.freep (h.next h.freep) = h.atFreep n mem k := by
  obtain ⟨s, t, hst, hpath⟩ := hl.from_mem hl.mem
  have hmem : ∀ a, a ∈ (t ++ s) ++ [h.freep] ↔ a ∈ l := by
    intro a
    conv_rhs => rw [hst]
    simp only [List.mem_append, List.mem_cons, List.not_mem_nil]
    tauto
  have hlen : k + l.length = k + (t ++ s).length + 1 := by
    conv_lhs => rw [hst]
    simp only [List.length_append, List.length_cons]
    omega
  have hne : ∀ a ∈ t ++ s, a ≠ h.freep := by
    have h1 := hst ▸ hl.sorted
    obtain ⟨-, h2, h3⟩ := List.pairwise_append.mp h1
    intro a ha
    obtain ha | ha := List.mem_append.mp ha
    · exact Nat.ne_of_gt ((List.pairwise_cons.mp h2).1 a ha)
    · exact Nat.ne_of_lt (h3 a ha _ (List.mem_cons_self ..))
  have hpath' : Path h.next (h.freep :: ((t ++ s) ++ [h.freep])) := by simpa using hpath
  have hround := mallocLoop_path (n := n) mem (k := k) hpath' hne
    fun a ha => hl.mapped hr ((hmem a).mp ha)
  rw [hlen]
  refine hround.imp ?_ ?_
  · rintro ⟨b, hb, h1, h2⟩
    refine ⟨b, (hmem b).mp ?_, h1, h2⟩
    simp only [List.mem_append, List.mem_cons, List.not_mem_nil] at hb ⊢
    tauto
  · rintro ⟨h1, h2⟩
    exact ⟨fun a ha => h1 a ((hmem a).mpr ha), h2⟩

/-! ### `morecore` -/

/-- What is true when `morecore` got a new block of at least `n` headers at the old break. -/
structure Extended (base : ℕ) (h : Heap) (l : List ℕ) (n : ℕ) (h' : Heap) (l' : List ℕ) : Prop where
  list : FreeList base h' l'
  room : Room base h'
  sz : h.sz ≤ h'.sz
  top : h.top ≤ h'.top
  covers : ∀ x, h'.Covers l' x ↔ h.Covers l x ∨ h.sz ≤ x ∧ x < h'.sz
  hdr : ∀ a, a ∉ l → a ≠ h.sz → h'.hdr a = h.hdr a
  large : ∃ a ∈ l', n ≤ h'.units a
  length : l'.length ≤ l.length + 1

/-- The blocks of the list end below the break. -/
theorem FreeList.lt_sz_of_covers (hl : FreeList base h l) (hr : Room base h) (hx : h.Covers l x) :
    x < h.sz := by
  obtain ⟨a, ha, -, h1⟩ := hx
  exact h1.trans_le ((hl.nodes a ha).stop_le hr)

theorem morecore_spec (mem : ℕ → Bool) (hl : FreeList base h l) (hr : Room base h) (hn : 8 * n < 2 ^ 31) :
    h.morecore n mem = .ok (h, false) ∨
      ∃ h' l', h.morecore n mem = .ok (h', true) ∧ Extended base h l n h' l' := by
  obtain ⟨u, hu⟩ : ∃ u, u = if n < 4096 then 4096 else n := ⟨_, rfl⟩
  have hnu : n ≤ u ∧ 4096 ≤ u ∧ 8 * u < 2 ^ 31 := by
    rw [hu]
    split_ifs <;> omega
  have hbytes : 8 * u % 2 ^ 32 = 8 * u := Nat.mod_eq_of_lt (by omega)
  have hsz := hr.sz_lt
  have hpos := hr.base_pos
  have hbase := hr.base_le
  rw [morecore, ← hu, hbytes]
  obtain hg | ⟨hlt, top', htop, hle, hg⟩ :=
    growprocSize_pos h.top (mem h.sz) hsz (by omega) hnu.2.2
  · left
    rw [hg]
    rfl
  · right
    set c := h.sz with hc
    -- the new block, before it is given to `free`
    set h1 : Heap := { h with sz := c + 8 * u, top := top' } with hh1
    set y : Header := { h1.hdr c with size := u } with hy
    have hcl : ∀ a ∈ l, a ≠ c := by
      rintro a ha rfl
      have h2 := hl.nodes _ ha
      have h3 := h2.stop_le hr
      have h4 := h2.base_le
      obtain ⟨h5, -⟩ | h5 := h2
      · omega
      · have := h5.lt_stop
        omega
    have hstop : ∀ a ∈ l, (h1.set c y).stop a = h.stop a := fun a ha => set_stop_of_ne (hcl a ha)
    have hr2 : Room base (h1.set c y) := ⟨hpos, Nat.le_add_right_of_le hbase, hlt, hle⟩
    have hl2 : FreeList base (h1.set c y) l := by
      refine ⟨hl.head, hl.path.congr fun a ha => set_next_of_ne (hcl a ha), ?_, fun a ha => ?_, hl.mem⟩
      · exact hl.apart.imp_of_mem fun {a b} ha _ hab => by rwa [hstop a ha]
      · exact (hl.nodes a ha).congr (Nat.le_add_right ..) (set_units_of_ne (hcl a ha))
    have hstopc : (h1.set c y).stop c = c + 8 * u := set_stop_self
    have hblock : Block base (h1.set c y) c := by
      refine ⟨hbase, ?_, hstopc.le⟩
      rw [set_units_self]
      show 0 < u
      omega
    obtain ⟨h', l', hfree, hfreed⟩ := free_spec hl2 hr2 hblock fun a ha =>
      .inl ((hstop a ha).trans_le ((hl.nodes a ha).stop_le hr))
    refine ⟨h', l', ?_, ⟨hfreed.list, ?_, ?_, ?_, fun x => ?_, fun a ha hac => ?_, ?_, hfreed.length⟩⟩
    · rw [hg]
      show (do
        let h2 ← h1.write c { (← h1.read c) with size := u }
        return (← h2.free (behind c 1), true)) = _
      have hctop : c + 8 ≤ h1.top := by
        show c + 8 ≤ top'
        omega
      have hbehind : behind c 1 = c + 8 := Nat.mod_eq_of_lt (by omega)
      rw [read_eq hctop]
      show (do
        let h2 ← h1.write c y
        return (← h2.free (behind c 1), true)) = _
      rw [write_eq hctop, hbehind]
      show (do return (← (h1.set c y).free (c + 8), true)) = _
      rw [hfree]
      rfl
    · refine ⟨hpos, ?_, ?_, ?_⟩
      · rw [hfreed.sz]
        exact hr2.base_le
      · rw [hfreed.sz]
        exact hr2.sz_lt
      · rw [hfreed.sz, hfreed.top]
        exact hr2.sz_le
    · rw [hfreed.sz]
      exact Nat.le_add_right ..
    · rw [hfreed.top]
      exact htop
    · rw [hfreed.covers, hstopc, hfreed.sz, covers_congr hstop]
      rfl
    · exact (hfreed.hdr a ha hac).trans (set_hdr_of_ne hac)
    · obtain ⟨a, ha, h2⟩ := hfreed.large
      rw [set_units_self] at h2
      exact ⟨a, ha, hnu.1.trans h2⟩

/-! ### `malloc` -/

/-- What is true when `malloc` returned the block `b` of `n` headers. -/
structure Given (base : ℕ) (h : Heap) (l : List ℕ) (n b : ℕ) (h' : Heap) (l' : List ℕ) : Prop where
  list : FreeList base h' l'
  room : Room base h'
  sz : h.sz ≤ h'.sz
  block : Block base h' b
  units : h'.units b = n
  covers : ∀ x, h.Covers l x ∨ h.sz ≤ x ∧ x < h'.sz ↔ h'.Covers l' x ∨ b ≤ x ∧ x < h'.stop b
  disjoint : ∀ x, b ≤ x → x < h'.stop b → ¬ h'.Covers l' x
  hdr : ∀ a, base < a → a < h.sz → ¬ h.Covers l a → h'.hdr a = h.hdr a

theorem mallocLoop_spec (mem : ℕ → Bool) (hl : FreeList base h l) (hr : Room base h) (h0 : 0 < n) (hn : 8 * n < 2 ^ 31) :
    mallocLoop n mem h.rounds h h.freep (h.next h.freep) = .ok (0, h) ∨
      ∃ b h' l', mallocLoop n mem h.rounds h h.freep (h.next h.freep) = .ok (b + 8, h') ∧
        Given base h l n b h' l' := by
  have hlen := hl.length_le hr
  have hrounds : h.rounds = 2 * h.sz + 4 := rfl
  obtain ⟨k, hk⟩ := Nat.exists_eq_add_of_le' (show l.length ≤ h.rounds by omega)
  rw [hk]
  obtain ⟨p, hp, hbig, hloop⟩ | ⟨hsmall, hloop⟩ := mallocLoop_round (n := n) mem (k := k) hl hr
  · right
    obtain ⟨b, h', l', htake, ht⟩ := take_spec hl hr hp h0 hbig
    refine ⟨b, h', l', hloop.trans htake, ht.list, ?_, ht.sz.ge, ht.block, ht.units, fun x => ?_,
      ht.disjoint, fun a h1 _ h2 => ht.hdr a (hl.not_mem_of_not_covers h1 h2) h2⟩
    · refine ⟨hr.base_pos, ?_, ?_, ?_⟩
      · exact ht.sz ▸ hr.base_le
      · exact ht.sz ▸ hr.sz_lt
      · rw [ht.sz, ht.top]
        exact hr.sz_le
    · rw [ht.covers, ht.sz]
      have : ¬ (h.sz ≤ x ∧ x < h.sz) := by omega
      tauto
  · rw [hloop, atFreep]
    obtain hmore | ⟨h1, l1, hmore, hext⟩ := morecore_spec mem hl hr hn
    · left
      rw [hmore]
      rfl
    · right
      -- a second round ends at the new block, or at one before it
      have hlen2 := hext.length
      obtain ⟨j, hj⟩ := Nat.exists_eq_add_of_le' (show l1.length ≤ k by omega)
      have hread : h1.read h1.freep = .ok (h1.hdr h1.freep) :=
        read_eq (hext.list.mapped hext.room hext.list.mem)
      rw [hmore]
      show ∃ b h' l', (do mallocLoop n mem k h1 h1.freep (← h1.read h1.freep).ptr) = _ ∧ _
      rw [hread]
      show ∃ b h' l', mallocLoop n mem k h1 h1.freep (h1.next h1.freep) = _ ∧ _
      rw [hj]
      obtain ⟨p, hp, hbig, hloop⟩ | ⟨hsmall, -⟩ :=
        mallocLoop_round (n := n) mem (k := j) hext.list hext.room
      · obtain ⟨b, h', l', htake, ht⟩ := take_spec hext.list hext.room hp h0 hbig
        have hroom := hext.room
        refine ⟨b, h', l', hloop.trans htake, ht.list, ?_, ?_, ht.block, ht.units, fun x => ?_,
          ht.disjoint, fun a h2 h3 h4 => ?_⟩
        · refine ⟨hroom.base_pos, ?_, ?_, ?_⟩
          · exact ht.sz ▸ hroom.base_le
          · exact ht.sz ▸ hroom.sz_lt
          · rw [ht.sz, ht.top]
            exact hroom.sz_le
        · exact hext.sz.trans ht.sz.ge
        · rw [← ht.covers, hext.covers, ht.sz]
        · have h5 : ¬ h1.Covers l1 a := by
            rw [hext.covers]
            rintro (h6 | h6)
            · exact h4 h6
            · omega
          rw [ht.hdr a (hext.list.not_mem_of_not_covers h2 h5) h5]
          exact hext.hdr a (hl.not_mem_of_not_covers h2 h4) (Nat.ne_of_lt h3)
      · obtain ⟨a, ha, h2⟩ := hext.large
        exact absurd (hsmall a ha) (Nat.not_lt.mpr h2)

end Heap

end OsSemester.Xv6
