import OsSemester.Lib.Transition
import OsSemester.Xv6.MallocCall

/-!
# A process and its heap (`umalloc.c`)

A run of a process is any sequence of calls of `malloc`, of `free` with pointers that it still has,
and of `sbrk` for itself, and of stores to the memory that it may use.  `free_list_invariant` says
what is true of the list of free blocks all along such a run, and that each of the calls returns, as
long as no block with its header is 2 GB or more.  Under the same condition a block has the bytes that
were asked for (`malloc_enough`); without it, the number of headers wraps around or is taken by `sbrk`
for a negative number (`malloc_enough_counterexample`).
-/

namespace OsSemester.Xv6

open Heap

/-- A process that uses the allocator. -/
structure UserHeap where
  heap : Heap
  /-- The pointers that `malloc` returned and `free` did not get yet, with the bytes asked for. -/
  live : List (ℕ × ℕ)
  /-- The bytes that `malloc` got from `sbrk` and the process still has. -/
  owned : Set ℕ

/-- What the process can do. -/
inductive HeapOp
  | malloc (nbytes : ℕ) (mem : ℕ → Bool)
  | free (ap : ℕ)
  | sbrk (n : ℕ) (mem : Bool)
  /-- Stores to memory, with what is there afterwards. -/
  | store (hdr : ℕ → Header)

/-- The bytes of a block for so many bytes, with its header. -/
def blockBytes (nbytes : ℕ) : ℕ := 8 * ((nbytes + 7) / 8 + 1)

namespace UserHeap

variable (base : ℕ) (s : UserHeap)

/-- A call of `malloc`: the pointer that it returns. -/
def malloc (nbytes : ℕ) (mem : ℕ → Bool) : Except MallocHalt (ℕ × UserHeap) :=
  (s.heap.malloc base nbytes mem).map fun (p, h) =>
    (p, { heap := h
          live := if p = 0 then s.live else (p, nbytes) :: s.live
          owned := {x | (x ∈ s.owned ∨ s.heap.sz ≤ x) ∧ x < h.sz} })

/-- A call of `free`. -/
def free (ap : ℕ) : Except MallocHalt UserHeap :=
  (s.heap.free ap).map fun h => { s with heap := h, live := s.live.filter fun b => b.1 ≠ ap }

/-- A call of `sbrk` by the program itself. -/
def sbrk (n : ℕ) (mem : Bool) : UserHeap :=
  { s with heap.sz := (growprocSize s.heap.sz s.heap.top n mem).1
           heap.top := (growprocSize s.heap.sz s.heap.top n mem).2.1 }

def step : HeapOp → Except MallocHalt UserHeap
  | .malloc nbytes mem => (s.malloc base nbytes mem).map Prod.snd
  | .free ap => s.free ap
  | .sbrk n mem => .ok (s.sbrk n mem)
  | .store hdr => .ok { s with heap.hdr := hdr }

/-- The program may use its blocks, as many bytes of each as it asked for, and all memory that does not
belong to the allocator. -/
def Usable (x : ℕ) : Prop :=
  (∃ b ∈ s.live, b.1 ≤ x ∧ x < b.1 + b.2) ∨ x ∉ s.owned ∧ (x < base ∨ base + 8 ≤ x)

/-- The program uses the allocator as it should. -/
def Allowed : HeapOp → Prop
  | .malloc nbytes _ => nbytes < 2 ^ 32
  | .free ap => ∃ nbytes, (ap, nbytes) ∈ s.live
  | .sbrk n _ => n < 2 ^ 31
  | .store hdr => ∀ a, (∀ x, a ≤ x → x < a + 8 → ¬ s.Usable base x) → hdr a = s.heap.hdr a

/-- Nothing has been allocated yet. -/
structure Fresh : Prop where
  room : Room base s.heap
  freep : s.heap.freep = 0
  live : s.live = []
  owned : s.owned = ∅

end UserHeap

/-- A block that is asked for has less than 2 GB. -/
def HeapOp.Small : HeapOp → Prop
  | .malloc nbytes _ => blockBytes nbytes < 2 ^ 31
  | _ => True

/-- A process whose program has its `base` at this address. -/
def heapSystem (base : ℕ) : System MallocHalt UserHeap HeapOp where
  init := UserHeap.Fresh base
  step := UserHeap.step base

/-! ### The invariant -/

namespace Heap

variable {h h' : Heap} {base a x : ℕ} {l : List ℕ} {b : ℕ × ℕ}

/-- The byte is in the block of a pointer. -/
def InBlock (h : Heap) (b : ℕ × ℕ) (x : ℕ) : Prop := b.1 - 8 ≤ x ∧ x < h.stop (b.1 - 8)

/-- A block that is large enough for its pointer. -/
structure LiveBlock (base : ℕ) (h : Heap) (b : ℕ × ℕ) : Prop where
  block : Block base h (b.1 - 8)
  le : 8 ≤ b.1
  size : b.2 + 8 ≤ 8 * h.units (b.1 - 8)

theorem LiveBlock.congr (hb : LiveBlock base h b) (hs : h.sz ≤ h'.sz)
    (hu : h'.units (b.1 - 8) = h.units (b.1 - 8)) : LiveBlock base h' b where
  block := hb.block.congr hs hu
  le := hb.le
  size := hu ▸ hb.size

theorem inBlock_congr (hu : h'.units (b.1 - 8) = h.units (b.1 - 8)) :
    h'.InBlock b x ↔ h.InBlock b x := by
  rw [InBlock, InBlock, stop, stop, hu]

theorem LiveBlock.inBlock_header (hb : LiveBlock base h b) (h1 : b.1 - 8 ≤ x) (h2 : x < b.1) :
    h.InBlock b x := by
  have := hb.block.lt_stop
  exact ⟨h1, by omega⟩

theorem LiveBlock.inBlock_bytes (hb : LiveBlock base h b) (h1 : b.1 ≤ x) (h2 : x < b.1 + b.2) :
    h.InBlock b x := by
  have h3 := hb.size
  have h4 := hb.le
  refine ⟨by omega, ?_⟩
  rw [stop]
  omega

/-- The heap after the first lines of `malloc`. -/
def inited (h : Heap) (base : ℕ) : Heap :=
  if h.freep = 0 then { h.set base ⟨base, 0⟩ with freep := base } else h

theorem initBase_eq (hr : Room base h) : h.initBase base = .ok (h.inited base) := by
  rw [initBase, inited]
  split_ifs
  · rw [write_eq (hr.base_le.trans hr.sz_le)]
    rfl
  · rfl

end Heap

/-- The state of the allocator: the list, and the blocks that are in use. -/
structure Consistent (base : ℕ) (s : UserHeap) (l : List ℕ) : Prop where
  room : Room base s.heap
  list : FreeList base s.heap l
  blocks : ∀ b ∈ s.live, LiveBlock base s.heap b
  apart : s.live.Pairwise fun b c => ∀ x, s.heap.InBlock b x → ¬ s.heap.InBlock c x
  free : ∀ b ∈ s.live, ∀ x, s.heap.InBlock b x → ¬ s.heap.Covers l x
  owned : ∀ x, x ∈ s.owned ↔ s.heap.Covers l x ∨ ∃ b ∈ s.live, s.heap.InBlock b x

/-- The invariant of a process. -/
def HeapInv (base : ℕ) (s : UserHeap) : Prop := s.Fresh base ∨ ∃ l, Consistent base s l

namespace Consistent

variable {base : ℕ} {s : UserHeap} {l : List ℕ} (hc : Consistent base s l)

include hc in
theorem freep_ne_zero : s.heap.freep ≠ 0 := by
  have h1 := (hc.list.nodes _ hc.list.mem).base_le
  have h2 := hc.room.base_pos
  omega

include hc in
theorem lt_sz {x : ℕ} (hx : x ∈ s.owned) : x < s.heap.sz := by
  obtain hx | ⟨b, hb, hx⟩ := (hc.owned x).mp hx
  · exact hc.list.lt_sz_of_covers hc.room hx
  · exact hx.2.trans_le (hc.blocks b hb).block.stop_le

include hc in
/-- The header of a block in use is not in the list. -/
theorem header_not_covered {b : ℕ × ℕ} (hb : b ∈ s.live) : ¬ s.heap.Covers l (b.1 - 8) := by
  have h1 := (hc.blocks b hb).le
  exact hc.free b hb _ ((hc.blocks b hb).inBlock_header le_rfl (by omega))

include hc in
/-- No byte is in two blocks. -/
theorem disjoint {b c : ℕ × ℕ} (hb : b ∈ s.live) (hcl : c ∈ s.live) (hne : b ≠ c) (x : ℕ)
    (hx : s.heap.InBlock b x) : ¬ s.heap.InBlock c x := by
  have hsymm : Std.Symm fun b c : ℕ × ℕ => ∀ x, s.heap.InBlock b x → ¬ s.heap.InBlock c x :=
    ⟨fun _ _ hbc x hx hx' => hbc x hx' hx⟩
  exact hc.apart.forall hb hcl hne x hx

/-- The state is as consistent with other contents of memory, another break or another `freep`. -/
theorem of_hdr {h' : Heap} {owned : Set ℕ} (hc : Consistent base s l) (hr : Room base h')
    (hsz : s.heap.sz ≤ h'.sz) (hfreep : h'.freep = s.heap.freep)
    (hl : ∀ a ∈ l, h'.hdr a = s.heap.hdr a) (hlive : ∀ b ∈ s.live, h'.hdr (b.1 - 8) = s.heap.hdr (b.1 - 8))
    (hown : ∀ x, x ∈ owned ↔ x ∈ s.owned) :
    Consistent base { heap := h', live := s.live, owned := owned } l := by
  have hunits : ∀ b ∈ s.live, h'.units (b.1 - 8) = s.heap.units (b.1 - 8) := fun b hb =>
    congrArg Header.size (hlive b hb)
  have hstop : ∀ a ∈ l, h'.stop a = s.heap.stop a := by
    intro a ha
    rw [stop, stop, units, units, hl a ha]
  refine ⟨hr, ⟨hc.list.head, ?_, ?_, fun a ha => ?_, ?_⟩, fun b hb => ?_, ?_, fun b hb x hx => ?_,
    fun x => ?_⟩
  · exact hc.list.path.congr fun a ha => congrArg Header.ptr (hl a ha)
  · exact hc.list.apart.imp_of_mem fun {a b} ha _ hab => by rwa [hstop a ha]
  · exact (hc.list.nodes a ha).congr hsz (congrArg Header.size (hl a ha))
  · exact hfreep ▸ hc.list.mem
  · exact (hc.blocks b hb).congr hsz (hunits b hb)
  · refine hc.apart.imp_of_mem fun {b c} hb hcm hbc x => ?_
    show h'.InBlock b x → ¬ h'.InBlock c x
    rw [inBlock_congr (hunits b hb), inBlock_congr (hunits c hcm)]
    exact hbc x
  · have hx : h'.InBlock b x := hx
    rw [inBlock_congr (hunits b hb)] at hx
    show ¬ h'.Covers l x
    rw [covers_congr hstop]
    exact hc.free b hb x hx
  · show x ∈ owned ↔ h'.Covers l x ∨ ∃ b ∈ s.live, h'.InBlock b x
    rw [hown, hc.owned, covers_congr hstop]
    refine or_congr_right (exists_congr fun b => and_congr_right fun hb => ?_)
    rw [inBlock_congr (hunits b hb)]

end Consistent

/-! ### Calls of `malloc` -/

theorem nunits_eq {nbytes : ℕ} (hn : blockBytes nbytes < 2 ^ 31) :
    8 * nunits nbytes = blockBytes nbytes ∧ nbytes + 8 ≤ 8 * nunits nbytes := by
  rw [blockBytes] at hn ⊢
  rw [nunits, Nat.mod_eq_of_lt (by omega)]
  omega

section

variable {base nbytes : ℕ} {mem : ℕ → Bool} {s : UserHeap} {l : List ℕ}

theorem malloc_of_heap {p : ℕ} {h' : Heap} (hm : s.heap.malloc base nbytes mem = .ok (p, h')) :
    ∃ s', s.malloc base nbytes mem = .ok (p, s') ∧ s'.heap = h' := by
  rw [UserHeap.malloc, hm]
  exact ⟨_, rfl, rfl⟩

/-- Only the first call sets `base` up. -/
theorem malloc_inited (hr : Room base s.heap) :
    s.malloc base nbytes mem = { s with heap := s.heap.inited base }.malloc base nbytes mem := by
  have hsz : (s.heap.inited base).sz = s.heap.sz := by
    rw [inited]
    split_ifs <;> rfl
  have hr' : Room base (s.heap.inited base) := by
    rw [inited]
    split_ifs
    · exact ⟨hr.1, hr.2, hr.3, hr.4⟩
    · exact hr
  have hinit : (s.heap.inited base).inited base = s.heap.inited base := by
    have hpos := hr.base_pos
    by_cases h0 : s.heap.freep = 0
    · have h1 : (s.heap.inited base).freep ≠ 0 := by
        rw [inited, if_pos h0]
        exact Nat.ne_of_gt hpos
      exact if_neg h1
    · have h1 : s.heap.inited base = s.heap := if_neg h0
      rw [h1, h1]
  have hmalloc : s.heap.malloc base nbytes mem = (s.heap.inited base).malloc base nbytes mem := by
    rw [Heap.malloc, Heap.malloc, initBase_eq hr, initBase_eq hr', hinit]
  rw [UserHeap.malloc, UserHeap.malloc, hmalloc]
  simp only [hsz]

theorem UserHeap.Fresh.inited (hf : s.Fresh base) :
    Consistent base { s with heap := s.heap.inited base } [base] := by
  have hinit : s.heap.inited base = { s.heap.set base ⟨base, 0⟩ with freep := base } := if_pos hf.freep
  have hunits : (s.heap.inited base).units base = 0 := by
    rw [hinit]
    exact set_units_self
  have hcovers : ∀ x, ¬ (s.heap.inited base).Covers [base] x := by
    rintro x ⟨a, ha, h1, h2⟩
    rw [List.mem_singleton.mp ha] at h1 h2
    rw [stop, hunits] at h2
    omega
  refine ⟨?_, ⟨rfl, ?_, List.pairwise_singleton .., ?_, ?_⟩, ?_, ?_, ?_, ?_⟩
  · rw [hinit]
    exact ⟨hf.room.1, hf.room.2, hf.room.3, hf.room.4⟩
  · refine Path.cons_cons.mpr ⟨?_, Path.singleton _ _⟩
    rw [hinit]
    exact set_next_self
  · intro a ha
    exact .inl ⟨List.mem_singleton.mp ha, (List.mem_singleton.mp ha).symm ▸ hunits⟩
  · rw [hinit]
    exact List.mem_singleton_self _
  · simp [hf.live]
  · simp [hf.live]
  · simp [hf.live]
  · intro x
    have h1 := hcovers x
    simp [hf.live, hf.owned, h1]

/-- What `malloc` does: a null pointer and nothing changes, or a new block. -/
theorem Consistent.malloc_spec (hc : Consistent base s l) (mem : ℕ → Bool) (hn : blockBytes nbytes < 2 ^ 31) :
    ∃ p s', s.malloc base nbytes mem = .ok (p, s') ∧ (∃ l', Consistent base s' l') ∧
      (p = 0 → s'.heap = s.heap) ∧ (p ≠ 0 → s'.live = (p, nbytes) :: s.live) := by
  obtain ⟨hn1, hn2⟩ := nunits_eq hn
  have hr := hc.room
  have hinit : s.heap.initBase base = .ok s.heap := if_neg hc.freep_ne_zero
  have hread := read_eq (hc.list.mapped hr hc.list.mem)
  have hmalloc : s.heap.malloc base nbytes mem =
      mallocLoop (nunits nbytes) mem s.heap.rounds s.heap s.heap.freep (s.heap.next s.heap.freep) := by
    rw [Heap.malloc, hinit]
    show (do
      let x ← s.heap.read s.heap.freep
      mallocLoop (nunits nbytes) mem s.heap.rounds s.heap s.heap.freep x.ptr) = _
    rw [hread]
    rfl
  have hpos : 0 < nunits nbytes := Nat.succ_pos _
  have hbytes : 8 * nunits nbytes < 2 ^ 31 := hn1 ▸ hn
  obtain hloop | ⟨b, h', l', hloop, hg⟩ := mallocLoop_spec mem hc.list hr hpos hbytes
  · refine ⟨0, { s with owned := {x | (x ∈ s.owned ∨ s.heap.sz ≤ x) ∧ x < s.heap.sz} }, ?_,
      ⟨l, hc.of_hdr hr le_rfl rfl (fun _ _ => rfl) (fun _ _ => rfl) fun x => ?_⟩,
      fun _ => rfl, fun h0 => absurd rfl h0⟩
    · rw [UserHeap.malloc, hmalloc, hloop]
      rfl
    · show (x ∈ s.owned ∨ s.heap.sz ≤ x) ∧ x < s.heap.sz ↔ x ∈ s.owned
      constructor
      · rintro ⟨h1 | h1, h2⟩
        · exact h1
        · omega
      · exact fun h1 => ⟨.inl h1, hc.lt_sz h1⟩
  · have hp0 : b + 8 ≠ 0 := Nat.succ_ne_zero _
    have hbase := hr.base_pos
    -- the headers of the blocks in use are as before
    have hlive : ∀ c ∈ s.live, h'.hdr (c.1 - 8) = s.heap.hdr (c.1 - 8) := by
      intro c hcl
      have h1 := (hc.blocks c hcl).block
      have h2 := h1.base_le
      have h3 := h1.lt_stop
      have h4 := h1.stop_le
      exact hg.hdr _ (by omega) (by omega) (hc.header_not_covered hcl)
    have hunits : ∀ c ∈ s.live, h'.units (c.1 - 8) = s.heap.units (c.1 - 8) := fun c hcl =>
      congrArg Header.size (hlive c hcl)
    have hblock : LiveBlock base h' (b + 8, nbytes) := by
      refine ⟨hg.block, Nat.le_add_left .., ?_⟩
      show nbytes + 8 ≤ 8 * h'.units b
      rw [hg.units]
      exact hn2
    have hnew : ∀ x, h'.InBlock (b + 8, nbytes) x ↔ b ≤ x ∧ x < h'.stop b := fun x => Iff.rfl
    -- and so are their bytes, which are not in the list or the new block
    have hold : ∀ c ∈ s.live, ∀ x, h'.InBlock c x → ¬ (h'.Covers l' x ∨ b ≤ x ∧ x < h'.stop b) := by
      intro c hcl x hx
      rw [inBlock_congr (hunits c hcl)] at hx
      rw [← hg.covers]
      rintro (h1 | h1)
      · exact hc.free c hcl x hx h1
      · have := hx.2.trans_le (hc.blocks c hcl).block.stop_le
        omega
    refine ⟨b + 8, ⟨h', (b + 8, nbytes) :: s.live, {x | (x ∈ s.owned ∨ s.heap.sz ≤ x) ∧ x < h'.sz}⟩, ?_,
      ⟨l', hg.room, hg.list, ?_, ?_, ?_, ?_⟩, fun h0 => absurd h0 hp0, fun _ => rfl⟩
    · rw [UserHeap.malloc, hmalloc, hloop]
      rfl
    · intro c hcl
      obtain rfl | hcl := List.mem_cons.mp hcl
      · exact hblock
      · exact (hc.blocks c hcl).congr hg.sz (hunits c hcl)
    · refine List.pairwise_cons.mpr ⟨fun c hcl x hx hx' => ?_, ?_⟩
      · exact hold c hcl x hx' (.inr hx)
      · refine hc.apart.imp_of_mem fun {c d} hcm hdm hcd x => ?_
        show h'.InBlock c x → ¬ h'.InBlock d x
        rw [inBlock_congr (hunits c hcm), inBlock_congr (hunits d hdm)]
        exact hcd x
    · intro c hcl x hx
      obtain rfl | hcl := List.mem_cons.mp hcl
      · exact hg.disjoint x hx.1 hx.2
      · exact fun h1 => hold c hcl x hx (.inl h1)
    · intro x
      show (x ∈ s.owned ∨ s.heap.sz ≤ x) ∧ x < h'.sz ↔
        h'.Covers l' x ∨ ∃ c ∈ (b + 8, nbytes) :: s.live, h'.InBlock c x
      have hlive' : (∃ c ∈ s.live, h'.InBlock c x) ↔ ∃ c ∈ s.live, s.heap.InBlock c x :=
        exists_congr fun c => and_congr_right fun hcl => inBlock_congr (hunits c hcl)
      rw [List.exists_mem_cons_iff, hnew, ← or_assoc, ← hg.covers, hlive']
      have h1 := hc.owned x
      have h2 : x ∈ s.owned → x < h'.sz := fun h3 => (hc.lt_sz h3).trans_le hg.sz
      constructor
      · rintro ⟨h3 | h3, h4⟩
        · obtain h5 | h5 := h1.mp h3
          · exact .inl (.inl h5)
          · exact .inr h5
        · exact .inl (.inr ⟨h3, h4⟩)
      · rintro ((h3 | h3) | h3)
        · have h4 := h1.mpr (.inl h3)
          exact ⟨.inl h4, h2 h4⟩
        · exact ⟨.inr h3.1, h3.2⟩
        · have h4 := h1.mpr (.inr h3)
          exact ⟨.inl h4, h2 h4⟩

/-! ### The other steps -/

theorem Consistent.free_spec (hc : Consistent base s l) {b : ℕ × ℕ} (hb : b ∈ s.live) :
    ∃ s' l', s.free b.1 = .ok s' ∧ Consistent base s' l' := by
  have hblock := (hc.blocks b hb).block
  have hle := (hc.blocks b hb).le
  have hptr : b.1 - 8 + 8 = b.1 := Nat.sub_add_cancel hle
  obtain ⟨h', l', hfree, hf⟩ := Heap.free_spec hc.list hc.room hblock fun a ha =>
    hc.list.apart_of_disjoint hblock (fun x h1 h2 => hc.free b hb x ⟨h1, h2⟩) ha
  rw [hptr] at hfree
  -- the other blocks in use have other headers
  have hother : ∀ c ∈ s.live, c.1 ≠ b.1 → ∀ x, s.heap.InBlock c x → ¬ s.heap.InBlock b x :=
    fun c hcl hne => hc.disjoint hcl hb fun h1 => hne (congrArg Prod.fst h1)
  have hbase := hc.room.base_pos
  have hhdr : ∀ c ∈ s.live, c.1 ≠ b.1 → h'.hdr (c.1 - 8) = s.heap.hdr (c.1 - 8) := by
    intro c hcl hne
    have h1 := (hc.blocks c hcl).block.base_le
    have h2 := (hc.blocks c hcl).le
    apply hf.hdr
    · exact hc.list.not_mem_of_not_covers (by omega) (hc.header_not_covered hcl)
    · omega
  have hunits : ∀ c ∈ s.live, c.1 ≠ b.1 → h'.units (c.1 - 8) = s.heap.units (c.1 - 8) :=
    fun c hcl hne => congrArg Header.size (hhdr c hcl hne)
  have hmem : ∀ c, c ∈ s.live.filter (fun c => c.1 ≠ b.1) ↔ c ∈ s.live ∧ c.1 ≠ b.1 := by
    simp
  refine ⟨{ s with heap := h', live := s.live.filter fun c => c.1 ≠ b.1 }, l', ?_, ?_, hf.list, ?_, ?_, ?_,
    fun x => ?_⟩
  · rw [UserHeap.free, hfree]
    rfl
  · refine ⟨hbase, ?_, ?_, ?_⟩
    · exact hf.sz ▸ hc.room.base_le
    · exact hf.sz ▸ hc.room.sz_lt
    · show h'.sz ≤ h'.top
      rw [hf.sz, hf.top]
      exact hc.room.sz_le
  · intro c hcl
    obtain ⟨hcl, hne⟩ := (hmem c).mp hcl
    exact (hc.blocks c hcl).congr hf.sz.ge (hunits c hcl hne)
  · refine (hc.apart.filter _).imp_of_mem fun {c d} hcm hdm hcd x => ?_
    obtain ⟨hcl, hnec⟩ := (hmem c).mp hcm
    obtain ⟨hdl, hned⟩ := (hmem d).mp hdm
    show h'.InBlock c x → ¬ h'.InBlock d x
    rw [inBlock_congr (hunits c hcl hnec), inBlock_congr (hunits d hdl hned)]
    exact hcd x
  · intro c hcm x hx
    obtain ⟨hcl, hne⟩ := (hmem c).mp hcm
    have hx : h'.InBlock c x := hx
    rw [inBlock_congr (hunits c hcl hne)] at hx
    rw [hf.covers]
    rintro (h1 | h1)
    · exact hc.free c hcl x hx h1
    · exact hother c hcl hne x hx h1
  · show x ∈ s.owned ↔ h'.Covers l' x ∨ ∃ c ∈ s.live.filter (fun c => c.1 ≠ b.1), h'.InBlock c x
    rw [hc.owned, hf.covers, or_assoc]
    refine or_congr_right ?_
    constructor
    · rintro ⟨c, hcl, hx⟩
      by_cases hne : c.1 = b.1
      · left
        rwa [InBlock, hne] at hx
      · exact .inr ⟨c, (hmem c).mpr ⟨hcl, hne⟩, (inBlock_congr (hunits c hcl hne)).mpr hx⟩
    · rintro (hx | ⟨c, hcm, hx⟩)
      · exact ⟨b, hb, hx⟩
      · obtain ⟨hcl, hne⟩ := (hmem c).mp hcm
        exact ⟨c, hcl, (inBlock_congr (hunits c hcl hne)).mp hx⟩

theorem room_sbrk {n : ℕ} {m : Bool} (hr : Room base s.heap) (hn : n < 2 ^ 31) :
    Room base (s.sbrk n m).heap ∧ s.heap.sz ≤ (s.sbrk n m).heap.sz := by
  rw [UserHeap.sbrk]
  obtain h0 | h0 := Nat.eq_zero_or_pos n
  · have hg : growprocSize s.heap.sz s.heap.top n m = (s.heap.sz, s.heap.top, true) := if_pos h0
    rw [hg]
    exact ⟨⟨hr.1, hr.2, hr.3, hr.4⟩, le_rfl⟩
  · obtain hg | ⟨hlt, top', -, hle, hg⟩ := growprocSize_pos s.heap.top m hr.sz_lt h0 hn
    · rw [hg]
      exact ⟨⟨hr.1, hr.2, hr.3, hr.4⟩, le_rfl⟩
    · rw [hg]
      exact ⟨⟨hr.base_pos, Nat.le_add_right_of_le hr.base_le, hlt, hle⟩, Nat.le_add_right ..⟩

/-- Stores to usable memory leave every header of the allocator as it is. -/
theorem Consistent.store (hc : Consistent base s l) {hdr : ℕ → Header}
    (hok : s.Allowed base (.store hdr)) : Consistent base { s with heap.hdr := hdr } l := by
  have hr := hc.room
  -- a byte of a free block, or of the header of a block in use, is not usable
  have howned : ∀ x, x ∈ s.owned → (∀ b ∈ s.live, s.heap.InBlock b x → x < b.1) → ¬ s.Usable base x := by
    rintro x hx hlt (⟨b, hb, h1, h2⟩ | ⟨h1, -⟩)
    · have := hlt b hb ((hc.blocks b hb).inBlock_bytes h1 h2)
      omega
    · exact h1 hx
  refine hc.of_hdr ⟨hr.1, hr.2, hr.3, hr.4⟩ le_rfl rfl (fun a ha => hok a fun x h1 h2 => ?_)
    (fun b hb => hok _ fun x h1 h2 => ?_) fun x => Iff.rfl
  · obtain ⟨rfl, -⟩ | hblock := hc.list.nodes a ha
    · rintro (⟨b, hb, h3, -⟩ | ⟨-, h3⟩)
      · have h4 := (hc.blocks b hb).block.base_le
        omega
      · omega
    · have h3 : s.heap.Covers l x := ⟨a, ha, h1, h2.trans_le hblock.lt_stop⟩
      exact howned x ((hc.owned x).mpr (.inl h3)) fun b hb hx => absurd h3 (hc.free b hb x hx)
  · have hle := (hc.blocks b hb).le
    have hx := (hc.blocks b hb).inBlock_header h1 (by omega)
    apply howned x ((hc.owned x).mpr (.inr ⟨b, hb, hx⟩))
    intro c hcl hx'
    by_cases hcb : c = b
    · rw [hcb]
      omega
    · exact absurd hx (hc.disjoint hcl hb hcb x hx')

end

/-! ### Runs -/

section

variable {base nbytes p : ℕ} {mem : ℕ → Bool} {s s' : UserHeap}

/-- The program uses the allocator as it should, and no block is too large. -/
def Careful (base : ℕ) (s : UserHeap) (op : HeapOp) : Prop := s.Allowed base op ∧ op.Small

theorem HeapInv.inited (hi : HeapInv base s) :
    Room base s.heap ∧ ∃ l, Consistent base { s with heap := s.heap.inited base } l := by
  obtain hf | ⟨l, hc⟩ := hi
  · exact ⟨hf.room, [base], hf.inited⟩
  · have hinit : s.heap.inited base = s.heap := if_neg hc.freep_ne_zero
    refine ⟨hc.room, l, ?_⟩
    rw [hinit]
    exact hc

/-- What one call of `malloc` does to a process. -/
theorem HeapInv.malloc (hi : HeapInv base s) (mem : ℕ → Bool) (hn : blockBytes nbytes < 2 ^ 31) :
    ∃ p s', s.malloc base nbytes mem = .ok (p, s') ∧ (∃ l', Consistent base s' l') ∧
      (p = 0 → s'.heap = s.heap.inited base) ∧ (p ≠ 0 → s'.live = (p, nbytes) :: s.live) := by
  obtain ⟨hr, l, hc⟩ := hi.inited
  rw [malloc_inited hr]
  exact hc.malloc_spec mem hn

/-- Every call returns, and keeps the invariant. -/
theorem HeapInv.step (hi : HeapInv base s) {op : HeapOp} (hok : Careful base s op) :
    ∃ s', s.step base op = .ok s' ∧ HeapInv base s' := by
  cases op with
  | malloc nbytes mem =>
    obtain ⟨p, s', hm, hc, -⟩ := hi.malloc mem hok.2
    refine ⟨s', ?_, .inr hc⟩
    rw [UserHeap.step, hm]
    rfl
  | free ap =>
    obtain ⟨nbytes, hb⟩ := hok.1
    obtain hf | ⟨l, hc⟩ := hi
    · rw [hf.live] at hb
      exact absurd hb List.not_mem_nil
    · obtain ⟨s', l', hfree, hc'⟩ := hc.free_spec hb
      exact ⟨s', hfree, .inr ⟨l', hc'⟩⟩
  | sbrk n m =>
    refine ⟨_, rfl, ?_⟩
    obtain hf | ⟨l, hc⟩ := hi
    · exact .inl ⟨(room_sbrk hf.room hok.1).1, hf.freep, hf.live, hf.owned⟩
    · obtain ⟨hr, hle⟩ := room_sbrk (m := m) hc.room hok.1
      exact .inr ⟨l, hc.of_hdr hr hle rfl (fun _ _ => rfl) (fun _ _ => rfl) fun _ => Iff.rfl⟩
  | store hdr =>
    refine ⟨_, rfl, ?_⟩
    obtain hf | ⟨l, hc⟩ := hi
    · exact .inl ⟨⟨hf.room.1, hf.room.2, hf.room.3, hf.room.4⟩, hf.freep, hf.live, hf.owned⟩
    · exact .inr ⟨l, hc.store hok.1⟩

theorem heap_inv (h : (heapSystem base).Reach (Careful base) s) : HeapInv base s := by
  apply h.invariant (fun s hs => .inl hs)
  intro s op s' hi hok hst
  obtain ⟨t, ht, hinv⟩ := hi.step hok
  obtain rfl : t = s' := Except.ok.inj (ht.symm.trans hst)
  exact hinv

/-- The list of the free blocks, from `freep` on. -/
structure FreeListOk (base : ℕ) (s : UserHeap) (l : List ℕ) : Prop where
  freep : l.head? = some s.heap.freep
  circle : Path s.heap.next (l ++ [s.heap.freep])
  /-- The addresses increase but for one wrap. -/
  order : ∃ u v, l = u ++ v ∧ (v ++ u).Pairwise (· < ·)
  base_mem : base ∈ l
  base_units : s.heap.units base = 0
  /-- No free block meets another one or is adjacent to it. -/
  apart : ∀ a ∈ l, ∀ b ∈ l, a ≠ b → s.heap.stop a < b ∨ s.heap.stop b < a
  free_live : ∀ a ∈ l, ∀ b ∈ s.live, s.heap.stop a ≤ b.1 - 8 ∨ s.heap.stop (b.1 - 8) ≤ a
  live_apart : s.live.Pairwise fun b c =>
    s.heap.stop (b.1 - 8) ≤ c.1 - 8 ∨ s.heap.stop (c.1 - 8) ≤ b.1 - 8
  /-- What is left of the memory from `sbrk` is in the blocks, which have nothing else. -/
  owned : ∀ x, x ∈ s.owned ↔ s.heap.Covers l x ∨ ∃ b ∈ s.live, s.heap.InBlock b x

theorem Consistent.freeListOk {l : List ℕ} (hc : Consistent base s l) : ∃ l', FreeListOk base s l' := by
  obtain ⟨u, t, hst, hpath⟩ := hc.list.from_mem hc.list.mem
  have hmem : ∀ a, a ∈ (s.heap.freep :: t) ++ u ↔ a ∈ l := by
    intro a
    conv_rhs => rw [hst]
    exact List.mem_append.trans (or_comm.trans List.mem_append.symm)
  have hlt : ∀ b ∈ s.live, b.1 - 8 < s.heap.stop (b.1 - 8) := by
    intro b hb
    have := (hc.blocks b hb).block.lt_stop
    omega
  refine ⟨(s.heap.freep :: t) ++ u, rfl, hpath, ⟨_, u, rfl, hst ▸ hc.list.sorted⟩,
    (hmem base).mpr hc.list.base_mem, ?_, fun a ha b hb => ?_, fun a ha b hb => ?_, ?_, fun x => ?_⟩
  · obtain ⟨-, h0⟩ | h1 := hc.list.nodes base hc.list.base_mem
    · exact h0
    · have := h1.base_le
      omega
  · exact hc.list.apart_of_ne ((hmem a).mp ha) ((hmem b).mp hb)
  · exact hc.list.apart_of_disjoint (hc.blocks b hb).block (fun x h1 h2 => hc.free b hb x ⟨h1, h2⟩)
      ((hmem a).mp ha)
  · refine hc.apart.imp_of_mem fun {b c} hb hcl hbc => ?_
    by_contra hcon
    have h1 := hlt b hb
    have h2 := hlt c hcl
    obtain ⟨h3, h4⟩ := not_or.mp hcon
    refine hbc (max (b.1 - 8) (c.1 - 8)) ⟨Nat.le_max_left .., ?_⟩ ⟨Nat.le_max_right .., ?_⟩
    · omega
    · omega
  · rw [hc.owned]
    simp only [Covers, hmem]

/-- **The free list**: in every state of a run it is a circle in the order of the addresses, and the
free blocks and the blocks in use share the memory from `sbrk`; and each call returns. -/
theorem free_list_invariant (h : (heapSystem base).Reach (Careful base) s) :
    (s.heap.freep = 0 ∧ s.live = [] ∧ s.owned = ∅ ∨ ∃ l, FreeListOk base s l) ∧
      ∀ op, Careful base s op → ∃ s', s.step base op = .ok s' := by
  have hi := heap_inv h
  constructor
  · obtain hf | ⟨l, hc⟩ := hi
    · exact .inl ⟨hf.freep, hf.live, hf.owned⟩
    · exact .inr hc.freeListOk
  · intro op hok
    obtain ⟨s', hst, -⟩ := hi.step hok
    exact ⟨s', hst⟩

/-- A process of one page. -/
def pageHeap : UserHeap := ⟨⟨0, fun _ => ⟨0, 0⟩, 4096, 4096⟩, [], ∅⟩

theorem pageHeap_fresh : pageHeap.Fresh 16 := ⟨⟨by decide, by decide, by decide, by decide⟩, rfl, rfl, rfl⟩

theorem free_list_invariant_page : ∃ s, pageHeap.step 16 (.malloc 4096 fun _ => true) = .ok s ∧
    (s.heap.freep = 0 ∧ s.live = [] ∧ s.owned = ∅ ∨ ∃ l, FreeListOk 16 s l) ∧
      ∀ op, Careful 16 s op → ∃ s', s.step 16 op = .ok s' :=
  ⟨_, rfl, free_list_invariant (.step (.init pageHeap_fresh) (a := .malloc 4096 fun _ => true)
    ⟨show 4096 < 2 ^ 32 by decide, show blockBytes 4096 < 2 ^ 31 by decide⟩ rfl)⟩

/-! ### The size of a block -/

/-- What the caller of `malloc` relies on: the bytes belong to the process and to no other block, or
nothing has changed. -/
def Enough (base : ℕ) (s : UserHeap) (nbytes p : ℕ) (s' : UserHeap) : Prop :=
  (p ≠ 0 → ∀ x, p ≤ x → x < p + nbytes →
    x ∈ s'.owned ∧ x < s'.heap.sz ∧ ∀ b ∈ s.live, ¬ s'.heap.InBlock b x) ∧
  (p = 0 → s'.heap.sz = s.heap.sz ∧ s'.heap = s.heap.inited base)

/-- **`malloc` returns no short block**, in a run where no block has 2 GB. -/
theorem malloc_enough (h : (heapSystem base).Reach (Careful base) s)
    (hn : (HeapOp.malloc nbytes mem).Small) (hm : s.malloc base nbytes mem = .ok (p, s')) :
    Enough base s nbytes p s' := by
  obtain ⟨q, t, hm', ⟨l', hc⟩, h0, h1⟩ := (heap_inv h).malloc mem hn
  obtain ⟨rfl, rfl⟩ : q = p ∧ t = s' := Prod.mk.inj (Except.ok.inj (hm'.symm.trans hm))
  constructor
  · intro hq x hx hx'
    have hlive := h1 hq
    have hmem : (q, nbytes) ∈ t.live := hlive ▸ List.mem_cons_self ..
    have hin := (hc.blocks _ hmem).inBlock_bytes hx hx'
    have howned := (hc.owned x).mpr (.inr ⟨_, hmem, hin⟩)
    refine ⟨howned, hc.lt_sz howned, fun b hb => ?_⟩
    have hapart := hc.apart
    rw [hlive] at hapart
    exact (List.pairwise_cons.mp hapart).1 b hb x hin
  · intro hq
    refine ⟨?_, h0 hq⟩
    rw [h0 hq, inited]
    split_ifs <;> rfl

/-- Two blocks are allocated, the first one is freed, and `malloc` takes a block out of what was
freed. -/
theorem malloc_enough_freed : ∃ s p s', (heapSystem 16).Reach (Careful 16) s ∧
    s.live = [(32656, 100)] ∧ s.malloc 16 4000 (fun _ => true) = .ok (p, s') ∧ p = 32864 ∧
    Enough 16 s 4000 p s' := by
  let as : List HeapOp := [.malloc 4096 fun _ => true, .malloc 100 fun _ => true]
  have hcareful : ∀ a ∈ as, ∀ s, Careful 16 s a := by
    intro a ha s
    simp only [as, List.mem_cons, List.not_mem_nil, or_false] at ha
    rcases ha with rfl | rfl
    · exact ⟨show 4096 < 2 ^ 32 by decide, show blockBytes 4096 < 2 ^ 31 by decide⟩
    · exact ⟨show 100 < 2 ^ 32 by decide, show blockBytes 100 < 2 ^ 31 by decide⟩
  have hends : (heapSystem 16).Ends (fun s => (32768, 4096) ∈ s.live ∧
      (s.free 32768).toOption.map (fun t =>
        (t.live, (t.malloc 16 4000 fun _ => true).toOption.map Prod.fst)) =
          some ([(32656, 100)], some 32864)) pageHeap as := by decide +kernel
  obtain ⟨s, hs, hlive, hres⟩ := System.Reach.of_ends as pageHeap_fresh
    (System.obeys_of_forall _ _ hcareful) hends
  cases hfree : s.free 32768 with
  | error e =>
    rw [hfree] at hres
    cases hres
  | ok t =>
    have ht : (heapSystem 16).Reach (Careful 16) t :=
      hs.step (a := .free 32768) ⟨⟨4096, hlive⟩, trivial⟩ hfree
    rw [hfree] at hres
    obtain ⟨hlive', hp⟩ := Prod.mk.inj (Option.some.inj hres)
    cases hm : t.malloc 16 4000 fun _ => true with
    | error e =>
      rw [hm] at hp
      cases hp
    | ok r =>
      obtain ⟨p, s'⟩ := r
      rw [hm] at hp
      exact ⟨t, p, s', ht, hlive', hm, Option.some.inj hp,
        malloc_enough ht (show blockBytes 4000 < 2 ^ 31 by decide) hm⟩

/-- For 4294967295 bytes a block of one header is returned, at the end of the memory. -/
theorem malloc_enough_counterexample :
    ¬ ∀ (base : ℕ) (s : UserHeap) (nbytes : ℕ) (mem : ℕ → Bool) (p : ℕ) (s' : UserHeap),
      (heapSystem base).Reach (UserHeap.Allowed base) s → nbytes < 2 ^ 32 →
        s.malloc base nbytes mem = .ok (p, s') → Enough base s nbytes p s' := by
  intro hall
  obtain ⟨h', hm, hsz⟩ : ∃ h', Heap.malloc ⟨0, fun _ => ⟨0, 0⟩, 4096, 4096⟩ 16 4294967295 (fun _ => true) =
      .ok (36864, h') ∧ h'.sz = 36864 := ⟨_, rfl, rfl⟩
  obtain ⟨s', hs, rfl⟩ := malloc_of_heap (s := pageHeap) hm
  have henough := hall 16 pageHeap 4294967295 _ _ _ (.init pageHeap_fresh) (by decide) hs
  obtain ⟨-, hlt, -⟩ := henough.1 (by decide) 36864 le_rfl (by decide)
  omega

end

end OsSemester.Xv6
