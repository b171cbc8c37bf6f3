import OsSemester.Lib.LinkedPath
import OsSemester.Xv6.Malloc

/-!
# The free list (`umalloc.c`)

The blocks of the list are described from `base` on: `FreeList base h l` says that `l` are the blocks
in the order of the list, which is the order of their addresses, that no block reaches to the next one,
and that `freep` is one of them.  `free_spec` is what `free` does to such a list, and `Heap.link` is the
half of it that is done twice, to the block in front and to the block behind.
-/

namespace OsSemester.Xv6.Heap

variable {h h' : Heap} {base a b c p x : ℕ} {l l' : List ℕ} {y : Header}

/-- The link of a block. -/
def next (h : Heap) (a : ℕ) : ℕ := (h.hdr a).ptr

/-- The number of headers of a block. -/
def units (h : Heap) (a : ℕ) : ℕ := (h.hdr a).size

/-- The first byte behind a block. -/
def stop (h : Heap) (a : ℕ) : ℕ := a + 8 * h.units a

/-- The byte is in one of the blocks. -/
def Covers (h : Heap) (l : List ℕ) (x : ℕ) : Prop := ∃ a ∈ l, a ≤ x ∧ x < h.stop a

/-- What is in the memory of the process. -/
structure Room (base : ℕ) (h : Heap) : Prop where
  base_pos : 0 < base
  base_le : base + 8 ≤ h.sz
  sz_lt : h.sz < 2 ^ 31
  sz_le : h.sz ≤ h.top

/-- A block between `base` and the break. -/
structure Block (base : ℕ) (h : Heap) (a : ℕ) : Prop where
  base_le : base + 8 ≤ a
  pos : 0 < h.units a
  stop_le : h.stop a ≤ h.sz

/-- A block of the list. -/
def Node (base : ℕ) (h : Heap) (a : ℕ) : Prop := a = base ∧ h.units a = 0 ∨ Block base h a

/-- The end of the list, without `base`. -/
structure Segment (base : ℕ) (h : Heap) (l : List ℕ) : Prop where
  path : Path h.next (l ++ [base])
  apart : l.Pairwise fun a b => h.stop a < b
  blocks : ∀ a ∈ l, Block base h a

/-- The list from `base` on. -/
structure FreeList (base : ℕ) (h : Heap) (l : List ℕ) : Prop where
  head : l.head? = some base
  path : Path h.next (l ++ [base])
  apart : l.Pairwise fun a b => h.stop a < b
  nodes : ∀ a ∈ l, Node base h a
  mem : h.freep ∈ l

/-! ### Headers -/

/-- The heap with a new header. -/
def set (h : Heap) (a : ℕ) (y : Header) : Heap := { h with hdr := Function.update h.hdr a y }

@[simp]
theorem set_sz : (h.set a y).sz = h.sz := rfl

@[simp]
theorem set_top : (h.set a y).top = h.top := rfl

@[simp]
theorem set_freep : (h.set a y).freep = h.freep := rfl

@[simp]
theorem set_hdr_self : (h.set a y).hdr a = y := Function.update_self ..

theorem set_hdr_of_ne (hc : c ≠ a) : (h.set a y).hdr c = h.hdr c := Function.update_of_ne hc ..

@[simp]
theorem set_next_self : (h.set a y).next a = y.ptr := congrArg Header.ptr set_hdr_self

@[simp]
theorem set_units_self : (h.set a y).units a = y.size := congrArg Header.size set_hdr_self

@[simp]
theorem set_stop_self : (h.set a y).stop a = a + 8 * y.size := by rw [stop, set_units_self]

theorem set_next_of_ne (hc : c ≠ a) : (h.set a y).next c = h.next c :=
  congrArg Header.ptr (set_hdr_of_ne hc)

theorem set_units_of_ne (hc : c ≠ a) : (h.set a y).units c = h.units c :=
  congrArg Header.size (set_hdr_of_ne hc)

theorem set_stop_of_ne (hc : c ≠ a) : (h.set a y).stop c = h.stop c := by
  rw [stop, stop, set_units_of_ne hc]

theorem read_eq (ha : a + 8 ≤ h.top) : h.read a = .ok (h.hdr a) := if_pos ha

theorem write_eq (ha : a + 8 ≤ h.top) : h.write a y = .ok (h.set a y) := if_pos ha

theorem Room.set (hr : Room base h) : Room base (h.set a y) := ⟨hr.1, hr.2, hr.3, hr.4⟩

/-! ### Blocks -/

theorem covers_cons : h.Covers (a :: l) x ↔ a ≤ x ∧ x < h.stop a ∨ h.Covers l x := by
  simp only [Covers, List.mem_cons, exists_eq_or_imp]

theorem covers_append : h.Covers (l ++ l') x ↔ h.Covers l x ∨ h.Covers l' x := by
  simp only [Covers, List.mem_append, or_and_right, exists_or]

theorem covers_congr (hl : ∀ a ∈ l, h'.stop a = h.stop a) : h'.Covers l x ↔ h.Covers l x := by
  constructor
  · rintro ⟨a, ha, h1, h2⟩
    exact ⟨a, ha, h1, hl a ha ▸ h2⟩
  · rintro ⟨a, ha, h1, h2⟩
    exact ⟨a, ha, h1, (hl a ha).symm ▸ h2⟩

theorem Block.lt_stop (ha : Block base h a) : a + 8 ≤ h.stop a := by
  have := ha.pos
  rw [stop]
  omega

theorem Block.congr (ha : Block base h a) (hs : h.sz ≤ h'.sz) (hu : h'.units a = h.units a) :
    Block base h' a where
  base_le := ha.base_le
  pos := hu ▸ ha.pos
  stop_le := by
    rw [stop, hu]
    exact ha.stop_le.trans hs

theorem Node.base_le (ha : Node base h a) : base ≤ a := by
  obtain ⟨rfl, -⟩ | ha := ha
  · exact le_rfl
  · exact (Nat.le_add_right ..).trans ha.base_le

theorem Node.block (ha : Node base h a) (hne : a ≠ base) : Block base h a :=
  ha.resolve_left fun h1 => hne h1.1

/-- The header of a block is mapped. -/
theorem Node.mapped (ha : Node base h a) (hr : Room base h) : a + 8 ≤ h.top := by
  obtain ⟨rfl, -⟩ | ha := ha
  · exact hr.base_le.trans hr.sz_le
  · exact (ha.lt_stop.trans ha.stop_le).trans hr.sz_le

theorem Node.le_stop (a : ℕ) : a ≤ h.stop a := Nat.le_add_right ..

theorem Node.stop_le (ha : Node base h a) (hr : Room base h) : h.stop a ≤ h.sz := by
  obtain ⟨rfl, h0⟩ | ha := ha
  · have := hr.base_le
    rw [stop, h0]
    omega
  · exact ha.stop_le

/-- No number is cut off at the end of a block. -/
theorem Node.behind_eq (ha : Node base h a) (hr : Room base h) : behind a (h.units a) = h.stop a := by
  have h1 := ha.stop_le hr
  have h2 := hr.sz_lt
  exact Nat.mod_eq_of_lt (by rw [stop] at h1; omega)

theorem Node.congr (ha : Node base h a) (hs : h.sz ≤ h'.sz) (hu : h'.units a = h.units a) :
    Node base h' a := by
  obtain ⟨rfl, h0⟩ | ha := ha
  · exact .inl ⟨rfl, hu.trans h0⟩
  · exact .inr (ha.congr hs hu)

/-! ### Joining two blocks -/

/-- The block `a` is joined with `b` behind it, or linked to it. -/
def link (h : Heap) (a b : ℕ) : Except MallocHalt Heap := do
  let x ← h.read a
  if behind a x.size = b then do
    let n ← h.read b
    h.write a ⟨n.ptr, (x.size + n.size) % 2 ^ 32⟩
  else h.write a { x with ptr := b }

theorem joinUpper_eq (hp : p + 8 ≤ h.top) : h.joinUpper a p = h.link a (h.next p) := by
  rw [joinUpper, link, read_eq hp]
  rfl

theorem joinLower_eq : h.joinLower a p = h.link p a := rfl

/-- The outcome of `link`: the blocks behind `a`, and which bytes they have. -/
structure Linked (base : ℕ) (h : Heap) (a : ℕ) (l : List ℕ) (y : Header) (l' : List ℕ) : Prop where
  sublist : List.Sublist l' l
  size : h.units a ≤ y.size
  joined : ∀ c ∈ l, c ∈ l' ∨ h.units c ≤ y.size
  path : Path (h.set a y).next (a :: (l' ++ [base]))
  apart : (a :: l').Pairwise fun c d => (h.set a y).stop c < d
  node : Node base (h.set a y) a
  covers : ∀ x, (h.set a y).Covers (a :: l') x ↔ a ≤ x ∧ x < h.stop a ∨ h.Covers l x

theorem link_spec (hr : Room base h) (hl : Segment base h l) (ha : Node base h a)
    (hlt : ∀ c ∈ l, h.stop a ≤ c) (hb : (l ++ [base]).head? = some b) (hne : a = base → l ≠ []) :
    ∃ y l', h.link a b = .ok (h.set a y) ∧ Linked base h a l y l' := by
  have hal : ∀ c ∈ l, c ≠ a := by
    intro c hc hca
    obtain ⟨rfl, -⟩ | ha := ha
    · have := (hl.blocks c hc).base_le
      omega
    · have h1 := hlt c hc
      have h2 := ha.lt_stop
      omega
  have hread := read_eq (ha.mapped hr)
  have hwrite : ∀ y, h.write a y = .ok (h.set a y) := fun _ => write_eq (ha.mapped hr)
  have hstop : ∀ y, ∀ c ∈ l, (h.set a y).stop c = h.stop c := fun y c hc => set_stop_of_ne (hal c hc)
  -- the block in front of `b` grows by it, or points to it
  by_cases hab : h.stop a = b
  · -- `b` is a block, since no block reaches to `base`
    cases l with
    | nil =>
      obtain rfl : base = b := Option.some.inj hb
      obtain ⟨rfl, -⟩ | ha := ha
      · exact absurd rfl (hne rfl)
      · have h1 := ha.base_le
        have h2 := ha.lt_stop
        omega
    | cons d l =>
      obtain rfl : d = b := Option.some.inj hb
      have hd := hl.blocks d (List.mem_cons_self ..)
      have hab' : Block base h a := by
        refine ha.resolve_left ?_
        rintro ⟨rfl, h0⟩
        have := hd.base_le
        rw [stop, h0] at hab
        omega
      -- the sum of the sizes does not wrap, as the blocks lie below `sz`
      have hsum : (h.units a + h.units d) % 2 ^ 32 = h.units a + h.units d := by
        have h1 := hr.sz_lt
        have h2 := hd.stop_le
        apply Nat.mod_eq_of_lt
        rw [stop] at h2 hab
        omega
      have hstop' : (h.set a ⟨h.next d, h.units a + h.units d⟩).stop a = h.stop d := by
        have hab : a + 8 * h.units a = d := hab
        rw [set_stop_self]
        show a + 8 * (h.units a + h.units d) = d + 8 * h.units d
        omega
      obtain ⟨hlt', hapart⟩ := List.pairwise_cons.mp hl.apart
      refine ⟨⟨h.next d, h.units a + h.units d⟩, l, ?_, ?_⟩
      · rw [link, hread]
        show (if behind a (h.units a) = d then _ else _) = _
        rw [ha.behind_eq hr, if_pos hab, read_eq (Node.mapped (.inr hd) hr)]
        show h.write a ⟨h.next d, (h.units a + h.units d) % 2 ^ 32⟩ = _
        rw [hsum, hwrite]
      · refine ⟨List.sublist_cons_self .., Nat.le_add_right .., fun c hc => ?_, ?_, ?_, ?_, ?_⟩
        · obtain rfl | hc := List.mem_cons.mp hc
          · exact .inr (Nat.le_add_left ..)
          · exact .inl hc
        · refine Path.replace_head hl.path ?_ fun c hc => set_next_of_ne (hal c (List.mem_cons_of_mem _ hc))
          exact set_next_self
        · refine List.pairwise_cons.mpr ⟨fun c hc => hstop'.symm ▸ hlt' c hc, ?_⟩
          refine hapart.imp_of_mem fun {c e} hc _ hce => ?_
          rwa [hstop _ c (List.mem_cons_of_mem _ hc)]
        · refine .inr ⟨hab'.base_le, ?_, ?_⟩
          · rw [set_units_self]
            exact Nat.add_pos_left hab'.pos _
          · rw [hstop']
            exact hd.stop_le
        · intro x
          rw [covers_cons, covers_cons, hstop',
            covers_congr fun c hc => hstop _ c (List.mem_cons_of_mem _ hc)]
          have h1 : a ≤ d := hab ▸ Node.le_stop a
          have h2 := hd.lt_stop
          have h3 : a ≤ x ∧ x < h.stop d ↔ (a ≤ x ∧ x < h.stop a) ∨ (d ≤ x ∧ x < h.stop d) := by
            omega
          rw [h3, or_assoc]
  · refine ⟨{ h.hdr a with ptr := b }, l, ?_, ?_⟩
    · rw [link, hread]
      show (if behind a (h.units a) = b then _ else _) = _
      rw [ha.behind_eq hr, if_neg hab, hwrite]
    · have hself : (h.set a { h.hdr a with ptr := b }).stop a = h.stop a := set_stop_self
      refine ⟨List.Sublist.refl _, Nat.le_refl _, fun c hc => .inl hc, ?_, ?_, ?_, ?_⟩
      · have hpath : Path (h.set a { h.hdr a with ptr := b }).next (l ++ [base]) :=
          hl.path.congr fun c hc => set_next_of_ne (hal c hc)
        cases l with
        | nil =>
          obtain rfl : base = b := Option.some.inj hb
          exact Path.cons_cons.mpr ⟨set_next_self, hpath⟩
        | cons d l =>
          obtain rfl : d = b := Option.some.inj hb
          exact Path.cons_cons.mpr ⟨set_next_self, hpath⟩
      · refine List.pairwise_cons.mpr ⟨fun c hc => ?_, ?_⟩
        · rw [hself]
          refine (hlt c hc).lt_of_ne fun hac => hab ?_
          cases l with
          | nil => exact absurd hc List.not_mem_nil
          | cons d l =>
            obtain rfl : d = b := Option.some.inj hb
            obtain rfl | hc' := List.mem_cons.mp hc
            · exact hac
            · -- the first block of the list lies in front of `c`
              have h1 := (List.pairwise_cons.mp hl.apart).1 c hc'
              have h2 := hlt d (List.mem_cons_self ..)
              have h3 := (hl.blocks d (List.mem_cons_self ..)).lt_stop
              omega
        · refine hl.apart.imp_of_mem fun {c e} hc _ hce => ?_
          rwa [hstop _ c hc]
      · exact ha.congr le_rfl set_units_self
      · intro x
        rw [covers_cons, hself, covers_congr (hstop _)]

/-! ### The search of `free` -/

/-- `free` stops its search at `p`. -/
def Fits (h : Heap) (c p : ℕ) : Prop :=
  c > p ∧ c < h.next p ∨ p ≥ h.next p ∧ (c > p ∨ c < h.next p)

theorem freeSearch_succ {n : ℕ} (hp : p + 8 ≤ h.top) :
    h.freeSearch c (n + 1) p =
      if c > p ∧ c < h.next p then .ok p
      else if p ≥ h.next p ∧ (c > p ∨ c < h.next p) then .ok p
      else h.freeSearch c n (h.next p) := by
  rw [freeSearch, read_eq hp]
  rfl

theorem freeSearch_fits {n : ℕ} (hp : p + 8 ≤ h.top) (hfit : h.Fits c p) :
    h.freeSearch c (n + 1) p = .ok p := by
  rw [freeSearch_succ hp]
  obtain h1 | h1 := hfit
  · exact if_pos h1
  · rw [if_pos h1, ite_self]

/-- The search goes along a path to the first block where it stops. -/
theorem freeSearch_path {n : ℕ} (hpath : Path h.next (l ++ [p])) (hhead : (l ++ [p]).head? = some a)
    (hmapped : ∀ b ∈ l ++ [p], b + 8 ≤ h.top) (hnot : ∀ b ∈ l, ¬ h.Fits c b) (hfit : h.Fits c p)
    (hn : l.length < n) : h.freeSearch c n a = .ok p := by
  induction l generalizing n a with
  | nil =>
    obtain rfl : p = a := Option.some.inj hhead
    obtain ⟨n, rfl⟩ := Nat.exists_eq_add_of_lt hn
    exact freeSearch_fits (hmapped p (List.mem_singleton_self p)) hfit
  | cons b l ih =>
    obtain rfl : b = a := Option.some.inj hhead
    obtain ⟨n, rfl⟩ := Nat.exists_eq_succ_of_ne_zero (Nat.ne_zero_of_lt hn)
    have h1 := not_or.mp (hnot b (List.mem_cons_self ..))
    rw [freeSearch_succ (hmapped b (List.mem_cons_self ..)), if_neg h1.1, if_neg h1.2]
    have hnext : (l ++ [p]).head? = some (h.next b) := by
      cases l with
      | nil => exact congrArg some (Path.cons_cons.mp hpath).1.symm
      | cons d l => exact congrArg some (Path.cons_cons.mp hpath).1.symm
    apply ih (List.IsChain.tail hpath) hnext
    · exact fun d hd => hmapped d (List.mem_cons_of_mem _ hd)
    · exact fun d hd => hnot d (List.mem_cons_of_mem _ hd)
    · exact Nat.lt_of_succ_lt_succ hn

namespace FreeList

variable (hl : FreeList base h l) (hr : Room base h)

include hl in
theorem base_mem : base ∈ l := by
  obtain ⟨l, rfl⟩ := List.head?_eq_some_iff.mp hl.head
  exact List.mem_cons_self ..

include hl in
/-- The blocks are in the order of their addresses. -/
theorem sorted : l.Pairwise (· < ·) := hl.apart.imp fun hab => (Node.le_stop _).trans_lt hab

include hl hr in
theorem mapped (ha : a ∈ l) : a + 8 ≤ h.top := (hl.nodes a ha).mapped hr

include hl in
/-- The link of a block leads to the next one, and that of the last block to `base`. -/
theorem next_eq {s t : List ℕ} (hs : l = s ++ a :: t) : (t ++ [base]).head? = some (h.next a) := by
  have hpath := hl.path
  rw [hs, List.append_assoc, List.cons_append, Path.split] at hpath
  cases t with
  | nil => exact congrArg some (Path.cons_cons.mp hpath.2).1.symm
  | cons d t => exact congrArg some (Path.cons_cons.mp hpath.2).1.symm

include hl hr in
/-- There are at most half as many blocks as rounds of a search. -/
theorem length_le : l.length ≤ h.sz + 1 := by
  have h1 : l ⊆ List.range (h.sz + 1) := by
    intro a ha
    have h2 := (hl.nodes a ha).stop_le hr
    have h3 := Node.le_stop (h := h) a
    exact List.mem_range.mpr (by omega)
  have hnodup : l.Nodup := hl.sorted.imp fun {a b} hab => Nat.ne_of_lt hab
  have h2 := (List.subperm_of_subset hnodup h1).length_le
  rwa [List.length_range] at h2

include hl in
/-- The list from one of its blocks on. -/
theorem from_mem (ha : a ∈ l) : ∃ s t, l = s ++ a :: t ∧ Path h.next (a :: t ++ s ++ [a]) := by
  obtain ⟨s, t, rfl⟩ := List.append_of_mem ha
  exact ⟨s, t, rfl, Path.rotate hl.path hl.head⟩

include hl in
/-- The last block links to `base`, and every other one to the smallest block behind it. -/
theorem next_cases (ha : a ∈ l) :
    h.next a = base ∧ (∀ b ∈ l, b ≤ a) ∨
      h.next a ∈ l ∧ a < h.next a ∧ ∀ b ∈ l, b ≤ a ∨ h.next a ≤ b := by
  obtain ⟨s, t, hst⟩ := List.append_of_mem ha
  have hnext := hl.next_eq hst
  have hsorted := hl.sorted
  rw [hst, List.pairwise_append, List.pairwise_cons] at hsorted
  obtain ⟨-, ⟨ht, htt⟩, hs⟩ := hsorted
  have hfront : ∀ b ∈ s, b ≤ a := fun b hb => (hs b hb a (List.mem_cons_self ..)).le
  cases t with
  | nil =>
    refine .inl ⟨(Option.some.inj hnext).symm, fun b hb => ?_⟩
    rw [hst, List.mem_append, List.mem_singleton] at hb
    obtain hb | rfl := hb
    · exact hfront b hb
    · exact le_rfl
  | cons d t =>
    obtain rfl : d = h.next a := Option.some.inj hnext
    refine .inr ⟨?_, ht _ (List.mem_cons_self ..), fun b hb => ?_⟩
    · rw [hst]
      simp
    · rw [hst, List.mem_append, List.mem_cons, List.mem_cons] at hb
      obtain hb | rfl | rfl | hb := hb
      · exact .inl (hfront b hb)
      · exact .inl le_rfl
      · exact .inr le_rfl
      · exact .inr ((List.pairwise_cons.mp htt).1 b hb).le

include hl in
/-- The search of `free` stops at the last block in front of `c`. -/
theorem fits_iff (hc : base < c) (ha : a ∈ l) :
    h.Fits c a ↔ a < c ∧ ∀ b ∈ l, b ≤ a ∨ c < b := by
  have hbase := (hl.nodes a ha).base_le
  obtain ⟨hnext, hmax⟩ | ⟨hmem, hlt, hmin⟩ := hl.next_cases ha
  · have hfit : h.Fits c a ↔ a < c := by
      rw [Fits, hnext]
      omega
    rw [hfit, and_iff_left fun b hb => .inl (hmax b hb)]
  · have hfit : h.Fits c a ↔ a < c ∧ c < h.next a := by
      rw [Fits]
      omega
    rw [hfit, and_congr_right_iff]
    intro _
    constructor
    · intro h1 b hb
      exact (hmin b hb).imp_right h1.trans_le
    · intro h1
      exact (h1 _ hmem).resolve_left (Nat.not_le.mpr hlt)

end FreeList

/-- In a sorted list there is a last element in front of `c`. -/
theorem exists_split (hs : (a :: l).Pairwise (· < ·)) (ha : a < c) (hcl : c ∉ a :: l) :
    ∃ s p t, a :: l = s ++ p :: t ∧ p < c ∧ ∀ b ∈ t, c < b := by
  induction l generalizing a with
  | nil => exact ⟨[], a, [], rfl, ha, fun b hb => absurd hb List.not_mem_nil⟩
  | cons d l ih =>
    obtain ⟨-, hs'⟩ := List.pairwise_cons.mp hs
    have hcl' : c ∉ d :: l := fun h1 => hcl (List.mem_cons_of_mem _ h1)
    obtain hd | hd | hd := Nat.lt_trichotomy d c
    · obtain ⟨s, p, t, hst, hp, ht⟩ := ih hs' hd hcl'
      exact ⟨a :: s, p, t, by rw [hst, List.cons_append], hp, ht⟩
    · exact absurd (hd ▸ List.mem_cons_self ..) hcl'
    · refine ⟨[], a, d :: l, rfl, ha, fun b hb => ?_⟩
      obtain rfl | hb := List.mem_cons.mp hb
      · exact hd
      · exact hd.trans ((List.pairwise_cons.mp hs').1 b hb)

/-- The search of `free` ends in front of the place of the block. -/
theorem FreeList.search_spec (hl : FreeList base h l) (hr : Room base h) (hc : base < c) (hcl : c ∉ l) :
    ∃ s p t, h.freeSearch c h.rounds h.freep = .ok p ∧ l = s ++ p :: t ∧ p < c ∧ ∀ b ∈ t, c < b := by
  obtain ⟨l1, hl1⟩ := List.head?_eq_some_iff.mp hl.head
  obtain ⟨s, p, t, hst, hp, ht⟩ := exists_split (hl1 ▸ hl.sorted) hc (hl1 ▸ hcl)
  rw [← hl1] at hst
  refine ⟨s, p, t, ?_, hst, hp, ht⟩
  have hsorted := hst ▸ hl.sorted
  have hpl : p ∈ l := by rw [hst]; simp
  -- `p` is the only block where the search stops
  have hlast : ∀ b ∈ l, b ≤ p ∨ c < b := by
    intro b hb
    rw [hst, List.mem_append, List.mem_cons] at hb
    obtain hb | rfl | hb := hb
    · exact .inl ((List.pairwise_append.mp hsorted).2.2 b hb p (List.mem_cons_self ..)).le
    · exact .inl le_rfl
    · exact .inr (ht b hb)
  have hfit : h.Fits c p := (hl.fits_iff hc hpl).mpr ⟨hp, hlast⟩
  have honly : ∀ b ∈ l, b ≠ p → ¬ h.Fits c b := by
    intro b hb hbp hfitb
    obtain ⟨h1, h2⟩ := (hl.fits_iff hc hb).mp hfitb
    have h3 := h2 p hpl
    have h4 := hlast b hb
    omega
  obtain ⟨s', t', hst', hpath⟩ := hl.from_mem hl.mem
  have hmem : ∀ b, b ∈ h.freep :: t' ++ s' ↔ b ∈ l := by
    intro b
    rw [hst']
    simp only [List.cons_append, List.mem_cons, List.mem_append]
    tauto
  obtain ⟨u, v, huv, hpu⟩ := List.eq_append_cons_of_mem ((hmem p).mpr hpl)
  have hul : ∀ b ∈ u ++ [p], b ∈ l := by
    intro b hb
    rw [← hmem b, huv]
    simp only [List.mem_append, List.mem_cons] at hb ⊢
    tauto
  have hlen : u.length ≤ l.length := by
    have h1 := congrArg List.length huv
    have h2 := congrArg List.length hst'
    simp only [List.cons_append, List.length_cons, List.length_append] at h1 h2
    omega
  rw [huv, List.append_assoc, List.cons_append, Path.split] at hpath
  apply freeSearch_path hpath.1
  · cases u with
    | nil => exact congrArg some (List.cons.inj huv).1.symm
    | cons d u => exact congrArg some (List.cons.inj huv).1.symm
  · exact fun b hb => hl.mapped hr (hul b hb)
  · exact fun b hb => honly b (hul b (List.mem_append_left _ hb)) fun h1 => hpu (h1 ▸ hb)
  · exact hfit
  · have := hl.length_le hr
    rw [rounds]
    omega

/-! ### `free` -/

/-- What `free` does with the block `c`: its bytes are in the list afterwards. -/
structure Freed (base : ℕ) (h : Heap) (c : ℕ) (l : List ℕ) (h' : Heap) (l' : List ℕ) : Prop where
  list : FreeList base h' l'
  sz : h'.sz = h.sz
  top : h'.top = h.top
  covers : ∀ x, h'.Covers l' x ↔ h.Covers l x ∨ c ≤ x ∧ x < h.stop c
  hdr : ∀ a, a ∉ l → a ≠ c → h'.hdr a = h.hdr a
  large : ∃ a ∈ l', h.units c ≤ h'.units a
  length : l'.length ≤ l.length + 1

/-- The block `c` is to be put behind `p` and in front of `t`. -/
structure Spot (base : ℕ) (h : Heap) (c : ℕ) (l s : List ℕ) (p : ℕ) (t : List ℕ) : Prop where
  free : FreeList base h l
  room : Room base h
  block : Block base h c
  apart : ∀ a ∈ l, h.stop a ≤ c ∨ h.stop c ≤ a
  list : l = s ++ p :: t
  lower : p < c
  upper : ∀ a ∈ t, c < a

namespace Spot

variable {s t t1 t2 : List ℕ} {y1 y2 : Header} (hs : Spot base h c l s p t)

include hs

theorem mem : p ∈ l := by
  rw [hs.list]
  simp

theorem mem_upper (ha : a ∈ t) : a ∈ l := by
  rw [hs.list]
  simp [ha]

theorem mem_front (ha : a ∈ s) : a ∈ l := by
  rw [hs.list]
  simp [ha]

theorem ne (ha : a ∈ l) : a ≠ c := by
  rintro rfl
  have h1 := hs.apart a ha
  have h2 := hs.block.lt_stop
  omega

theorem lower_ne : p ≠ c := Nat.ne_of_lt hs.lower

/-- No block in front of `c` reaches into it. -/
theorem stop_le : h.stop p ≤ c := by
  have h1 := hs.apart p hs.mem
  have h2 := hs.lower
  have h3 := hs.block.lt_stop
  omega

theorem front (ha : a ∈ s) : h.stop a < p :=
  (List.pairwise_append.mp (hs.list ▸ hs.free.apart)).2.2 a ha p (List.mem_cons_self ..)

theorem front_ne (ha : a ∈ s) : a ≠ p ∧ a ≠ c := by
  have h1 := hs.front ha
  have h2 := hs.lower
  have h3 := Node.le_stop (h := h) a
  omega

/-- The list behind `p`. -/
theorem segment : Segment base h t := by
  obtain ⟨-, hp, -⟩ := List.pairwise_append.mp (hs.list ▸ hs.free.apart)
  have hpath := hs.list ▸ hs.free.path
  rw [List.append_assoc, List.cons_append, Path.split] at hpath
  refine ⟨List.IsChain.tail hpath.2, (List.pairwise_cons.mp hp).2, fun a ha => ?_⟩
  apply (hs.free.nodes a (hs.mem_upper ha)).block
  have h1 := hs.upper a ha
  have h2 := hs.block.base_le
  omega

/-- `c` is joined with what is behind it. -/
theorem joinUpper : ∃ y t1, h.joinUpper c p = .ok (h.set c y) ∧ Linked base h c t y t1 := by
  rw [joinUpper_eq (hs.free.mapped hs.room hs.mem)]
  refine link_spec hs.room hs.segment (.inr hs.block) (fun a ha => ?_) (hs.free.next_eq hs.list)
    fun h1 => ?_
  · have h1 := hs.apart a (hs.mem_upper ha)
    have h2 := hs.upper a ha
    have h3 := Node.le_stop (h := h) a
    omega
  · have := hs.block.base_le
    omega

variable (hup : Linked base h c t y1 t1)

include hup

theorem upperSegment : Segment base (h.set c y1) (c :: t1) := by
  refine ⟨hup.path, hup.apart, fun a ha => ?_⟩
  obtain rfl | ha := List.mem_cons.mp ha
  · have hbase : a ≠ base := by
      have := hs.block.base_le
      omega
    exact hup.node.block hbase
  · have h1 := hup.sublist.subset ha
    exact (hs.segment.blocks a h1).congr le_rfl (set_units_of_ne (hs.ne (hs.mem_upper h1)))

/-- `p` is joined with what is then behind it. -/
theorem joinLower : ∃ y t2, (h.set c y1).joinLower c p = .ok ((h.set c y1).set p y) ∧
    Linked base (h.set c y1) p (c :: t1) y t2 := by
  rw [joinLower_eq]
  refine link_spec (Room.set hs.room) (hs.upperSegment hup)
    ((hs.free.nodes p hs.mem).congr le_rfl (set_units_of_ne hs.lower_ne)) (fun a ha => ?_) rfl
    fun _ => List.cons_ne_nil _ _
  rw [set_stop_of_ne hs.lower_ne]
  obtain rfl | ha := List.mem_cons.mp ha
  · exact hs.stop_le
  · exact hs.stop_le.trans (hs.upper a (hup.sublist.subset ha)).le

variable (hlow : Linked base (h.set c y1) p (c :: t1) y2 t2)

include hlow

omit hs in
theorem mem_joined (ha : a ∈ t2) : a = c ∨ a ∈ t :=
  (List.mem_cons.mp (hlow.sublist.subset ha)).imp id fun h1 => hup.sublist.subset h1

omit hs hup hlow in
theorem hdr (hap : a ≠ p) (hac : a ≠ c) : ((h.set c y1).set p y2).hdr a = h.hdr a :=
  (set_hdr_of_ne hap).trans (set_hdr_of_ne hac)

omit hup hlow in
theorem front_stop (ha : a ∈ s) : ((h.set c y1).set p y2).stop a = h.stop a := by
  obtain ⟨h1, h2⟩ := hs.front_ne ha
  rw [stop, stop, units, units, hdr h1 h2]

/-- The new list goes around, in the order of the addresses. -/
theorem freeList : FreeList base { (h.set c y1).set p y2 with freep := p } (s ++ p :: t2) := by
  refine ⟨?_, ?_, ?_, fun a ha => ?_, by simp⟩
  · have h1 := hs.list ▸ hs.free.head
    cases s with
    | nil => exact h1
    | cons d s => exact h1
  · have hpath := hs.list ▸ hs.free.path
    rw [List.append_assoc, List.cons_append, Path.split] at hpath
    show Path ((h.set c y1).set p y2).next _
    rw [List.append_assoc, List.cons_append, Path.split]
    refine ⟨hpath.1.congr fun a ha => ?_, hlow.path⟩
    exact congrArg Header.ptr (hdr (hs.front_ne ha).1 (hs.front_ne ha).2)
  · show (s ++ p :: t2).Pairwise fun a b => ((h.set c y1).set p y2).stop a < b
    refine List.pairwise_append.mpr ⟨?_, hlow.apart, fun a ha b hb => ?_⟩
    · have happ := (List.pairwise_append.mp (hs.list ▸ hs.free.apart)).1
      exact happ.imp_of_mem fun {a b} ha _ hab => by rwa [hs.front_stop ha]
    · rw [hs.front_stop ha]
      obtain rfl | hb := List.mem_cons.mp hb
      · exact hs.front ha
      · obtain rfl | hb := mem_joined hup hlow hb
        · exact (hs.front ha).trans hs.lower
        · exact (hs.front ha).trans (hs.lower.trans (hs.upper b hb))
  · rw [List.mem_append, List.mem_cons] at ha
    obtain ha | rfl | ha := ha
    · have hhdr : ((h.set c y1).set p y2).hdr a = h.hdr a :=
        hdr (hs.front_ne ha).1 (hs.front_ne ha).2
      exact (hs.free.nodes a (hs.mem_front ha)).congr le_rfl (congrArg Header.size hhdr)
    · exact hlow.node.congr (h := (h.set c y1).set a y2) le_rfl rfl
    · have h1 : a ≠ p := by
        obtain rfl | h2 := mem_joined hup hlow ha
        · exact hs.lower_ne.symm
        · exact Nat.ne_of_gt (hs.lower.trans (hs.upper a h2))
      have h2 := (hs.upperSegment hup).blocks a (hlow.sublist.subset ha)
      exact .inr (h2.congr le_rfl (set_units_of_ne h1))

/-- The bytes of `c` have come to those of the list. -/
theorem covers (x : ℕ) : ((h.set c y1).set p y2).Covers (s ++ p :: t2) x ↔
    h.Covers l x ∨ c ≤ x ∧ x < h.stop c := by
  rw [covers_append, hlow.covers, hup.covers, covers_congr fun a ha => hs.front_stop ha,
    set_stop_of_ne hs.lower_ne, hs.list, covers_append, covers_cons]
  constructor
  · rintro (h3 | h3 | h3 | h3)
    · exact .inl (.inl h3)
    · exact .inl (.inr (.inl h3))
    · exact .inr h3
    · exact .inl (.inr (.inr h3))
  · rintro ((h3 | h3 | h3) | h3)
    · exact .inl h3
    · exact .inr (.inl h3)
    · exact .inr (.inr (.inr h3))
    · exact .inr (.inr (.inl h3))

/-- Some block of the list is at least as large as `c`. -/
theorem large : ∃ a ∈ s ++ p :: t2, h.units c ≤ ((h.set c y1).set p y2).units a := by
  obtain hct | hcy := hlow.joined c (List.mem_cons_self ..)
  · refine ⟨c, by simp [hct], ?_⟩
    rw [set_units_of_ne hs.lower_ne.symm, set_units_self]
    exact hup.size
  · refine ⟨p, by simp, ?_⟩
    rw [set_units_self] at hcy ⊢
    exact hup.size.trans hcy

theorem length_le : (s ++ p :: t2).length ≤ l.length + 1 := by
  have h1 := hlow.sublist.length_le
  have h2 := hup.sublist.length_le
  rw [hs.list]
  simp only [List.length_append, List.length_cons] at h1 ⊢
  omega

end Spot

theorem free_spec (hl : FreeList base h l) (hr : Room base h) (hc : Block base h c)
    (hdisj : ∀ a ∈ l, h.stop a ≤ c ∨ h.stop c ≤ a) :
    ∃ h' l', h.free (c + 8) = .ok h' ∧ Freed base h c l h' l' := by
  have hlt := hc.lt_stop
  have hbc : base < c := by
    have := hc.base_le
    omega
  have hcl : c ∉ l := by
    intro h1
    have := hdisj c h1
    omega
  obtain ⟨s, p, t, hsearch, hst, hpc, ht⟩ := hl.search_spec hr hbc hcl
  have hs : Spot base h c l s p t := ⟨hl, hr, hc, hdisj, hst, hpc, ht⟩
  obtain ⟨y1, t1, hjoin1, hup⟩ := hs.joinUpper
  obtain ⟨y2, t2, hjoin2, hlow⟩ := hs.joinLower hup
  refine ⟨{ (h.set c y1).set p y2 with freep := p }, s ++ p :: t2, ?_, hs.freeList hup hlow, rfl, rfl,
    hs.covers hup hlow, fun a ha hac => Spot.hdr (fun h1 => ha (h1 ▸ hs.mem)) hac, hs.large hup hlow,
    hs.length_le hup hlow⟩
  have hbp : (c + 8 + (2 ^ 32 - 8)) % 2 ^ 32 = c := by
    have h1 := hc.stop_le
    have h2 := hr.sz_lt
    omega
  rw [free, hbp, hsearch]
  show (do
    let h1 ← h.joinUpper c p
    let h2 ← h1.joinLower c p
    return { h2 with freep := p }) = _
  rw [hjoin1]
  show (do
    let h2 ← (h.set c y1).joinLower c p
    return { h2 with freep := p }) = _
  rw [hjoin2]
  rfl

end OsSemester.Xv6.Heap
