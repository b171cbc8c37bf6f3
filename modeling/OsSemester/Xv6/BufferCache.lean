import OsSemester.Lib.Tally
import OsSemester.Xv6.Bio

/-!
# The buffer cache is transparent

`Booked` says that `refcnt` counts the processes at a buffer and that its lock has one holder, so
that a buffer somebody waits for is not recycled.  `Coherent` says that a block has at most one
buffer and where its content is: in the buffer if there is one with `B_VALID`, on the disk as long as
there is none with `B_DIRTY`.  `Ring` says that the list has all the buffers.  `buffer_cache` draws
the conclusion: `bread` returns what was last written.
-/

namespace OsSemester.Xv6

variable {P D : Type} {env : BioEnv P} {σ σ' : Bio P D} {p q : P} {a b c : BufId} {n : Blockno}
variable {dev : ℕ} {u : BioUser} {pc : BioPc} {owns : Finset BufId} {x : Buf D}

/-! ### Who is at a buffer -/

namespace BioPc

/-- The buffer the process has counted in `refcnt`, besides those it owns. -/
def refers : BioPc → Option BufId
  | bget b _ | bread b _ | iderwRead b _ | brelse b => some b
  | _ => none

/-- The buffer the process has locked, besides those it owns. -/
def locks : BioPc → Option BufId
  | bread b _ | iderwRead b _ => some b
  | _ => none

/-- The buffer and the block that `bread` was called for. -/
def reads : BioPc → Option (BufId × Blockno)
  | bget b n | bread b n | iderwRead b n => some (b, n)
  | _ => none

theorem refers_idle : idle.refers = none := rfl

theorem locks_idle : idle.locks = none := rfl

end BioPc

namespace BioUser

def refs (b : BufId) (u : BioUser) : ℕ :=
  (if u.pc.refers = some b then 1 else 0) + if b ∈ u.owns then 1 else 0

def locks (b : BufId) (u : BioUser) : ℕ :=
  (if u.pc.locks = some b then 1 else 0) + if b ∈ u.owns then 1 else 0

/-- The process holds the lock of the buffer. -/
def Holds (b : BufId) (u : BioUser) : Prop := u.pc.locks = some b ∨ b ∈ u.owns

/-- The buffers of a process are those of the blocks it asked for. -/
structure Ok (dev : ℕ) (buf : BufId → Buf D) (u : BioUser) : Prop where
  reads : ∀ {b n}, u.pc.reads = some (b, n) → (buf b).dev = dev ∧ (buf b).blockno = n
  owned : ∀ {b}, b ∈ u.owns → (buf b).dev = dev ∧ (buf b).valid = true
  writes : ∀ {b}, u.pc = .iderwWrite b → b ∈ u.owns

theorem locks_le_refs (b : BufId) (u : BioUser) : u.locks b ≤ u.refs b := by
  unfold locks refs
  refine Nat.add_le_add_right ?_ _
  cases u.pc <;> simp [BioPc.locks, BioPc.refers]

theorem refs_pos_of_reads (h : u.pc.reads = some (b, n)) : 0 < u.refs b := by
  unfold refs
  cases hp : u.pc <;> rw [hp] at h <;> simp_all [BioPc.reads, BioPc.refers]

theorem locks_pos_of_owns (h : b ∈ u.owns) : 0 < u.locks b := by
  rw [locks, if_pos h]
  exact Nat.succ_pos _

theorem locks_pos_iff : 0 < u.locks b ↔ u.Holds b := by
  unfold locks Holds
  split_ifs with h1 h2 h2 <;> simp [h1, h2]

theorem Ok.congr {buf buf' : BufId → Buf D} (h : u.Ok dev buf)
    (hb : ∀ b, 0 < u.refs b → (buf' b).dev = (buf b).dev ∧ (buf' b).blockno = (buf b).blockno ∧
      ((buf b).valid = true → (buf' b).valid = true)) : u.Ok dev buf' := by
  refine ⟨fun {b n} hr => ?_, fun {b} ho => ?_, h.writes⟩
  · obtain ⟨h1, h2, -⟩ := hb b (refs_pos_of_reads hr)
    rw [h1, h2]
    exact h.reads hr
  · obtain ⟨h1, -, h3⟩ := hb b ((locks_pos_of_owns ho).trans_le (locks_le_refs b u))
    rw [h1]
    exact ⟨(h.owned ho).1, h3 (h.owned ho).2⟩

end BioUser

section Booked

variable [Fintype P]

/-- **The references and the locks of the buffers.** -/
structure Booked (dev : ℕ) (σ : Bio P D) : Prop where
  refs : ∀ b, (σ.buf b).refcnt = tally (BioUser.refs b) σ.user
  locks : ∀ b, tally (BioUser.locks b) σ.user = if (σ.buf b).lock.locked then 1 else 0
  ok : ∀ p, (σ.user p).Ok dev σ.buf
  pending : ∀ {b}, b ∈ σ.pending → ∃ p, b ∈ (σ.user p).owns ∧ (σ.user p).pc ≠ .iderwWrite b

namespace Booked

theorem locks_le_one (h : Booked dev σ) (b : BufId) : tally (BioUser.locks b) σ.user ≤ 1 := by
  rw [h.locks b]
  split_ifs <;> omega

variable [DecidableEq P]

/-- **A buffer has one holder.** -/
theorem holder_unique (h : Booked dev σ) (hp : 0 < (σ.user p).locks b)
    (hq : 0 < (σ.user q).locks b) : p = q := by
  by_contra hne
  have h1 := add_le_tally (w := BioUser.locks b) (f := σ.user) hne
  have h2 := h.locks_le_one b
  omega

/-- The lock that a process waited for in `bread` is of no buffer that is owned. -/
theorem not_owned (h : Booked dev σ) (hp : (σ.user p).pc.locks = some b) (q : P) :
    b ∉ (σ.user q).owns := by
  intro hq
  have h1 : 0 < (σ.user p).locks b := by
    rw [BioUser.locks, if_pos hp]
    omega
  obtain rfl := h.holder_unique h1 (BioUser.locks_pos_of_owns hq)
  have h2 := le_tally (w := BioUser.locks b) (f := σ.user) p
  have h3 := h.locks_le_one b
  rw [BioUser.locks, if_pos hp, if_pos hq] at h2
  omega

theorem not_pending (h : Booked dev σ) (hp : (σ.user p).pc.locks = some b) : b ∉ σ.pending := by
  intro hb
  obtain ⟨q, hq, -⟩ := h.pending hb
  exact h.not_owned hp q hq

theorem not_pending_write (h : Booked dev σ) (hp : (σ.user p).pc = .iderwWrite b) :
    b ∉ σ.pending := by
  intro hb
  obtain ⟨q, hq, hne⟩ := h.pending hb
  obtain rfl := h.holder_unique (BioUser.locks_pos_of_owns ((h.ok p).writes hp))
    (BioUser.locks_pos_of_owns hq)
  exact hne hp

omit [DecidableEq P] in
/-- Nobody is at an unused buffer. -/
theorem refs_eq_zero (h : Booked dev σ) (hb : (σ.buf b).refcnt = 0) (p : P) :
    (σ.user p).refs b = 0 := by
  have h1 := le_tally (w := BioUser.refs b) (f := σ.user) p
  have h2 := h.refs b
  omega

omit [DecidableEq P] in
theorem not_pending_unused (h : Booked dev σ) (hb : (σ.buf b).refcnt = 0) : b ∉ σ.pending := by
  intro hp
  obtain ⟨q, hq, -⟩ := h.pending hp
  have h1 := h.refs_eq_zero hb q
  rw [BioUser.refs, if_pos hq] at h1
  omega

/-- A step of `p` that concerns the buffer `b`. -/
theorem move (h : Booked dev σ) (hu : σ'.user = Function.update σ.user p u) (hself : σ'.buf b = x)
    (hne : ∀ c, c ≠ b → σ'.buf c = σ.buf c)
    (hrefs : x.refcnt + (σ.user p).refs b = (σ.buf b).refcnt + u.refs b)
    (hlocks : (if x.lock.locked then 1 else 0) + (σ.user p).locks b =
      (if (σ.buf b).lock.locked then 1 else 0) + u.locks b)
    (hsame : ∀ c, c ≠ b → u.refs c = (σ.user p).refs c ∧ u.locks c = (σ.user p).locks c)
    (hx : (σ.buf b).refcnt ≠ 0 → x.dev = (σ.buf b).dev ∧ x.blockno = (σ.buf b).blockno ∧
      ((σ.buf b).valid = true → x.valid = true))
    (hok : (σ.user p).Ok dev σ'.buf → u.Ok dev σ'.buf)
    (hpend : ∀ c ∈ σ'.pending, c ∈ σ.pending ∧
      (c ∈ (σ.user p).owns → c ∈ u.owns ∧ u.pc ≠ .iderwWrite c) ∨
      c ∈ u.owns ∧ u.pc ≠ .iderwWrite c) : Booked dev σ' := by
  have hrefs : ∀ c, (σ'.buf c).refcnt + (σ.user p).refs c = (σ.buf c).refcnt + u.refs c := by
    intro c
    by_cases hc : c = b
    · rw [hc, hself, hrefs]
    · rw [hne c hc, (hsame c hc).1]
  have hlocks : ∀ c, (if (σ'.buf c).lock.locked then 1 else 0) + (σ.user p).locks c =
      (if (σ.buf c).lock.locked then 1 else 0) + u.locks c := by
    intro c
    by_cases hc : c = b
    · rw [hc, hself, hlocks]
    · rw [hne c hc, (hsame c hc).2]
  have hbuf : ∀ q c, 0 < (σ.user q).refs c → (σ'.buf c).dev = (σ.buf c).dev ∧
      (σ'.buf c).blockno = (σ.buf c).blockno ∧
      ((σ.buf c).valid = true → (σ'.buf c).valid = true) := by
    intro q c hq
    by_cases hc : c = b
    · rw [hc] at hq ⊢
      rw [hself]
      refine hx fun h0 => ?_
      have := h.refs_eq_zero h0 q
      omega
    · rw [hne c hc]
      exact ⟨rfl, rfl, id⟩
  refine ⟨fun b => ?_, fun b => ?_, fun q => ?_, fun {b} hb => ?_⟩
  · have h1 := h.refs b
    have h2 := tally_update (BioUser.refs b) σ.user p u
    have h3 := hrefs b
    rw [hu]
    omega
  · have h1 := h.locks b
    have h2 := tally_update (BioUser.locks b) σ.user p u
    have h3 := hlocks b
    rw [hu]
    omega
  · rw [hu, Function.update_apply]
    split_ifs with hq
    · exact hok ((h.ok p).congr (hbuf p))
    · exact (h.ok q).congr (hbuf q)
  · have hself : b ∈ u.owns ∧ u.pc ≠ .iderwWrite b →
        ∃ q, b ∈ (σ'.user q).owns ∧ (σ'.user q).pc ≠ .iderwWrite b := by
      intro hb
      refine ⟨p, ?_⟩
      rwa [hu, Function.update_self]
    rcases hpend b hb with ⟨hb, hkeep⟩ | hb
    · obtain ⟨q, hq⟩ := h.pending hb
      by_cases hqp : q = p
      · rw [hqp] at hq
        exact hself (hkeep hq.1)
      · refine ⟨q, ?_⟩
        rwa [hu, Function.update_of_ne hqp]
    · exact hself hb

end Booked

end Booked

/-! ### Where the content of a block is -/

/-- **The content of the blocks.** -/
structure Coherent (dev : ℕ) (σ : Bio P D) : Prop where
  unique : ∀ {a b}, (σ.buf a).dev = dev → (σ.buf b).dev = dev →
    (σ.buf a).blockno = (σ.buf b).blockno → a = b
  valid : ∀ {b}, (σ.buf b).valid = true → (σ.buf b).dev = dev
  dirty : ∀ {b}, (σ.buf b).dirty = true → (σ.buf b).valid = true
  data : ∀ {b}, (σ.buf b).valid = true → b ∉ σ.pending →
    (σ.buf b).data = σ.content (σ.buf b).blockno
  clean : ∀ {b}, (σ.buf b).dev = dev → (σ.buf b).dirty = false → b ∉ σ.pending →
    σ.disk (σ.buf b).blockno = σ.content (σ.buf b).blockno
  uncached : ∀ {n}, (∀ b, (σ.buf b).dev = dev → (σ.buf b).blockno ≠ n) → σ.disk n = σ.content n

/-- What `Coherent` says of a buffer depends on these fields. -/
def Buf.cached (x : Buf D) : Bool × Bool × ℕ × Blockno × D :=
  (x.valid, x.dirty, x.dev, x.blockno, x.data)

theorem Buf.cached_inj {y : Buf D} : y.cached = x.cached ↔ y.valid = x.valid ∧ y.dirty = x.dirty ∧
    y.dev = x.dev ∧ y.blockno = x.blockno ∧ y.data = x.data := by
  simp only [Buf.cached, Prod.mk.injEq]

@[simp] theorem Bio.setBuf_self (σ : Bio P D) (b : BufId) (x : Buf D) : (σ.setBuf b x).buf b = x :=
  Function.update_self ..

theorem Bio.setBuf_of_ne (σ : Bio P D) (x : Buf D) (h : c ≠ b) :
    (σ.setBuf b x).buf c = σ.buf c :=
  Function.update_of_ne h ..

namespace Coherent

theorem congr (h : Coherent dev σ) (hb : ∀ c, (σ'.buf c).cached = (σ.buf c).cached)
    (hd : σ'.disk = σ.disk) (hc : σ'.content = σ.content) (hp : σ'.pending = σ.pending) :
    Coherent dev σ' := by
  simp only [Buf.cached_inj] at hb
  constructor
  · intro a b
    rw [(hb a).2.2.1, (hb b).2.2.1, (hb a).2.2.2.1, (hb b).2.2.2.1]
    exact h.unique
  · intro b
    rw [(hb b).1, (hb b).2.2.1]
    exact h.valid
  · intro b
    rw [(hb b).1, (hb b).2.1]
    exact h.dirty
  · intro b
    rw [(hb b).1, (hb b).2.2.2.1, (hb b).2.2.2.2, hc, hp]
    exact h.data
  · intro b
    rw [(hb b).2.1, (hb b).2.2.1, (hb b).2.2.2.1, hc, hd, hp]
    exact h.clean
  · intro n hn
    rw [hc, hd]
    refine h.uncached fun b => ?_
    rw [← (hb b).2.2.1, ← (hb b).2.2.2.1]
    exact hn b

/-- A step that changes one buffer. -/
theorem setBuf_congr (h : Coherent dev σ) (hx : x.cached = (σ.buf b).cached) :
    Coherent dev (σ.setBuf b x) := by
  refine h.congr (fun c => ?_) rfl rfl rfl
  by_cases hc : c = b
  · rw [hc, Bio.setBuf_self, hx]
  · rw [Bio.setBuf_of_ne _ _ hc]

/-- A buffer that is neither used nor dirty is given to a block that has none. -/
theorem recycle (h : Coherent dev σ) (hn : ∀ c, (σ.buf c).dev = dev → (σ.buf c).blockno ≠ n)
    (hd : (σ.buf b).dirty = false) (hp : b ∉ σ.pending) (hx : x.dev = dev) (hxn : x.blockno = n)
    (hxv : x.valid = false) (hxd : x.dirty = false) : Coherent dev (σ.setBuf b x) := by
  constructor
  · intro a c ha hc hac
    by_cases hab : a = b <;> by_cases hcb : c = b
    · rw [hab, hcb]
    · rw [hab, Bio.setBuf_self, Bio.setBuf_of_ne _ _ hcb, hxn] at hac
      rw [Bio.setBuf_of_ne _ _ hcb] at hc
      exact absurd hac.symm (hn c hc)
    · rw [hcb, Bio.setBuf_self, Bio.setBuf_of_ne _ _ hab, hxn] at hac
      rw [Bio.setBuf_of_ne _ _ hab] at ha
      exact absurd hac (hn a ha)
    · rw [Bio.setBuf_of_ne _ _ hab] at ha hac
      rw [Bio.setBuf_of_ne _ _ hcb] at hc hac
      exact h.unique ha hc hac
  · intro c hc
    by_cases hcb : c = b
    · rw [hcb, Bio.setBuf_self]
      exact hx
    · rw [Bio.setBuf_of_ne _ _ hcb] at hc ⊢
      exact h.valid hc
  · intro c hc
    by_cases hcb : c = b
    · rw [hcb, Bio.setBuf_self, hxd] at hc
      cases hc
    · rw [Bio.setBuf_of_ne _ _ hcb] at hc ⊢
      exact h.dirty hc
  · intro c hc hcp
    by_cases hcb : c = b
    · rw [hcb, Bio.setBuf_self, hxv] at hc
      cases hc
    · rw [Bio.setBuf_of_ne _ _ hcb] at hc ⊢
      exact h.data hc hcp
  · intro c hc hcd hcp
    by_cases hcb : c = b
    · rw [hcb, Bio.setBuf_self, hxn]
      exact h.uncached hn
    · rw [Bio.setBuf_of_ne _ _ hcb] at hc hcd ⊢
      exact h.clean hc hcd hcp
  · intro m hm
    -- the block that had the buffer before
    by_cases hold : (σ.buf b).dev = dev ∧ (σ.buf b).blockno = m
    · rw [← hold.2]
      exact h.clean hold.1 hd hp
    · refine h.uncached fun c hc => ?_
      by_cases hcb : c = b
      · rw [hcb] at hc ⊢
        exact fun he => hold ⟨hc, he⟩
      · have := hm c
        rw [Bio.setBuf_of_ne _ _ hcb] at this
        exact this hc

/-- A step that changes a buffer of the device and what belongs to its block. -/
theorem change (h : Coherent dev σ) (hdev : (σ.buf b).dev = dev) (hself : σ'.buf b = x)
    (hne : ∀ c, c ≠ b → σ'.buf c = σ.buf c) (hxdev : x.dev = (σ.buf b).dev)
    (hxn : x.blockno = (σ.buf b).blockno)
    (hother : ∀ m, m ≠ (σ.buf b).blockno → σ'.content m = σ.content m ∧ σ'.disk m = σ.disk m)
    (hpend : ∀ c, c ≠ b → (c ∈ σ'.pending ↔ c ∈ σ.pending))
    (hd : x.dirty = true → x.valid = true)
    (hdata : x.valid = true → b ∉ σ'.pending → x.data = σ'.content (σ.buf b).blockno)
    (hclean : x.dirty = false → b ∉ σ'.pending →
      σ'.disk (σ.buf b).blockno = σ'.content (σ.buf b).blockno) : Coherent dev σ' := by
  have hdev' : (σ'.buf b).dev = dev := by rw [hself, hxdev, hdev]
  have hn : (σ'.buf b).blockno = (σ.buf b).blockno := by rw [hself, hxn]
  rw [← hself] at hd hdata hclean
  have hdevs : ∀ c, (σ'.buf c).dev = dev ↔ (σ.buf c).dev = dev := by
    intro c
    by_cases hc : c = b
    · rw [hc]
      exact iff_of_true hdev' hdev
    · rw [hne c hc]
  have hblocks : ∀ c, (σ'.buf c).blockno = (σ.buf c).blockno := by
    intro c
    by_cases hc : c = b
    · rw [hc, hn]
    · rw [hne c hc]
  -- the other buffers are of other blocks
  have hsep : ∀ c, c ≠ b → (σ.buf c).dev = dev → (σ.buf c).blockno ≠ (σ.buf b).blockno :=
    fun c hc hcd he => hc (h.unique hcd hdev he)
  constructor
  · intro a c ha hc hac
    rw [hblocks, hblocks] at hac
    exact h.unique ((hdevs a).mp ha) ((hdevs c).mp hc) hac
  · intro c hv
    by_cases hc : c = b
    · rw [hc]
      exact hdev'
    · rw [hne c hc] at hv ⊢
      exact h.valid hv
  · intro c
    by_cases hc : c = b
    · rw [hc]
      exact hd
    · rw [hne c hc]
      exact h.dirty
  · intro c hv hp
    by_cases hc : c = b
    · rw [hc] at hv hp ⊢
      rw [hn]
      exact hdata hv hp
    · rw [hne c hc] at hv ⊢
      rw [(hother _ (hsep c hc (h.valid hv))).1]
      exact h.data hv (mt (hpend c hc).mpr hp)
  · intro c hcd hcl hp
    by_cases hc : c = b
    · rw [hc] at hcl hp ⊢
      rw [hn]
      exact hclean hcl hp
    · rw [hne c hc] at hcd hcl ⊢
      obtain ⟨h1, h2⟩ := hother _ (hsep c hc hcd)
      rw [h1, h2]
      exact h.clean hcd hcl (mt (hpend c hc).mpr hp)
  · intro m hm
    have hmb : m ≠ (σ.buf b).blockno := by
      have := hm b hdev'
      rw [hn] at this
      exact this.symm
    obtain ⟨h1, h2⟩ := hother m hmb
    rw [h1, h2]
    refine h.uncached fun c hc => ?_
    rw [← hblocks c]
    exact hm c ((hdevs c).mpr hc)

/-- The end of a request to the disk. -/
theorem ideintr (h : Coherent dev σ) (hdev : (σ.buf b).dev = dev) (hp : b ∉ σ.pending)
    {disk : Blockno → D} (hx : (σ.buf b).ideintr σ.disk = .ok (disk, x)) :
    Coherent dev { σ.setBuf b x with disk := disk } := by
  unfold Buf.ideintr at hx
  split_ifs at hx with hlim hd
  · obtain ⟨rfl, rfl⟩ := Prod.mk.inj (Except.ok.inj hx)
    have hdata := h.data (h.dirty hd) hp
    refine h.change hdev (Bio.setBuf_self ..) (fun c hc => Bio.setBuf_of_ne _ _ hc) rfl rfl
      (fun m hm => ⟨rfl, Function.update_of_ne hm ..⟩) (fun _ _ => Iff.rfl) (fun _ => rfl)
      (fun _ _ => hdata) fun _ _ => ?_
    exact (Function.update_self ..).trans hdata
  · obtain ⟨rfl, rfl⟩ := Prod.mk.inj (Except.ok.inj hx)
    have hclean := h.clean hdev (by simpa using hd) hp
    exact h.change hdev (Bio.setBuf_self ..) (fun c hc => Bio.setBuf_of_ne _ _ hc) rfl rfl
      (fun m hm => ⟨rfl, rfl⟩) (fun _ _ => Iff.rfl) (fun _ => rfl) (fun _ _ => hclean)
      fun _ _ => hclean

theorem modify (h : Coherent dev σ) (hv : (σ.buf b).valid = true) {d : D} : Coherent dev
    { σ.setBuf b { σ.buf b with data := d } with pending := insert b σ.pending } := by
  have hb := Finset.mem_insert_self b σ.pending
  refine h.change (h.valid hv) (Bio.setBuf_self ..) (fun c hc => Bio.setBuf_of_ne _ _ hc) rfl rfl
    (fun m hm => ⟨rfl, rfl⟩) (fun c hc => ?_) (fun _ => hv) (fun _ hp => absurd hb hp)
    fun _ hp => absurd hb hp
  simp [Finset.mem_insert, hc]

theorem write [DecidableEq P] (h : Coherent dev σ) (hv : (σ.buf b).valid = true) :
    Coherent dev (σ.write b) := by
  refine h.change (h.valid hv) (Bio.setBuf_self ..) (fun c hc => Bio.setBuf_of_ne _ _ hc) rfl rfl
    (fun m hm => ⟨Function.update_of_ne hm .., rfl⟩) (fun c hc => ?_) (fun _ => hv) (fun _ _ => ?_)
    nofun
  · simp [Bio.write, Finset.mem_erase, hc]
  · simp [Bio.write]

end Coherent

/-! ### The list -/

/-- The list has every buffer. -/
def Ring (L : Links BufId) : Prop := ∃ l, L.Linked l ∧ ∀ b, b ∈ l

theorem Ring.walk {L : Links BufId} (h : Ring L) (b : BufId) : b ∈ L.walk (NBUF + 1) none := by
  obtain ⟨l, hl, hall⟩ := h
  have hlen : l.length ≤ NBUF := by
    have := hl.nodup.length_le_card
    rwa [Fintype.card_fin] at this
  rw [(hl.walk (Nat.lt_succ_of_le hlen)).1]
  exact hall b

theorem ring_binit [Zero D] : Ring (Bcache.binit : Bcache D).links :=
  ⟨_, Links.linked_empty.foldl (List.nodup_finRange NBUF) nofun, fun b => by simp⟩

theorem Ring.unref {L : Links BufId} (h : Ring L) (b : BufId) : Ring ((L.unlink b).pushFront b) := by
  obtain ⟨l, hl, hall⟩ := h
  obtain ⟨l₁, l₂, rfl⟩ := List.append_of_mem (hall b)
  have hb : b ∉ l₁ ++ l₂ := (List.nodup_middle.mp hl.nodup).notMem
  refine ⟨b :: (l₁ ++ l₂), hl.unlink.pushFront hb, fun c => ?_⟩
  have := hall c
  simpa [or_left_comm] using this

/-! ### The steps -/

/-- **What holds of the buffer cache.** -/
structure CacheSound [Fintype P] (env : BioEnv P) (σ : Bio P D) : Prop where
  booked : Booked env.dev σ
  coherent : Coherent env.dev σ
  ring : Ring σ.bcache.links

theorem cacheSound_boot [Fintype P] [Zero D] (hdev : env.dev ≠ 0) (disk : Blockno → D) :
    CacheSound env (Bio.boot disk : Bio P D) := by
  have hzero : ∀ b : BufId, ((Bio.boot disk : Bio P D).buf b).dev ≠ env.dev := fun b => hdev.symm
  refine ⟨⟨fun b => ?_, fun b => ?_, fun p => ⟨nofun, nofun, nofun⟩, nofun⟩, ?_, ring_binit⟩
  · simp [tally, BioUser.refs, Bio.boot, Bio.buf, Bcache.binit, BioPc.refers]
  · simp [tally, BioUser.locks, Bio.boot, Bio.buf, Bcache.binit, BioPc.locks, Sleeplock.init]
  · exact ⟨fun ha => absurd ha (hzero _), nofun, nofun, nofun, fun hb => absurd hb (hzero _),
      fun _ => rfl⟩

variable [Fintype P] [DecidableEq P]

/-- The state of `p` does not change. -/
theorem Booked.stay (h : Booked dev σ) (hu : σ'.user = σ.user) (hself : σ'.buf b = x)
    (hne : ∀ c, c ≠ b → σ'.buf c = σ.buf c) (hrefs : x.refcnt = (σ.buf b).refcnt)
    (hlock : x.lock = (σ.buf b).lock) (hdev : x.dev = (σ.buf b).dev)
    (hn : x.blockno = (σ.buf b).blockno) (hv : (σ.buf b).valid = true → x.valid = true)
    (hpend : ∀ c ∈ σ'.pending, c ∈ σ.pending ∨
      c ∈ (σ.user p).owns ∧ (σ.user p).pc ≠ .iderwWrite c) : Booked dev σ' := by
  have hu' : σ'.user = Function.update σ.user p (σ.user p) := by rw [hu, Function.update_eq_self]
  refine h.move hu' hself hne (by rw [hrefs]) (by rw [hlock]) (fun _ _ => ⟨rfl, rfl⟩)
    (fun _ => ⟨hdev, hn, hv⟩) id fun c hc => ?_
  rcases hpend c hc with hc | hc
  · exact Or.inl ⟨hc, fun ho => ⟨ho, fun he => h.not_pending_write he hc⟩⟩
  · exact Or.inr hc

/-- `bread` returns a buffer. -/
theorem Booked.returned (h : Booked dev σ)
    (hpc : (σ.user p).pc = .bread b n ∨ (σ.user p).pc = .iderwRead b n)
    (hv : (σ.buf b).valid = true) :
    Booked dev (σ.setUser p .idle (insert b (σ.user p).owns)) := by
  have hlocks : (σ.user p).pc.locks = some b := by rcases hpc with he | he <;> rw [he] <;> rfl
  have hrefers : (σ.user p).pc.refers = some b := by rcases hpc with he | he <;> rw [he] <;> rfl
  have hreads : (σ.user p).pc.reads = some (b, n) := by rcases hpc with he | he <;> rw [he] <;> rfl
  have ho : b ∉ (σ.user p).owns := h.not_owned hlocks p
  refine h.move (b := b) (x := σ.buf b) rfl rfl (fun _ _ => rfl) ?_ ?_ (fun c hc => ?_) (fun _ => ⟨rfl, rfl, id⟩)
    (fun h1 => ⟨nofun, fun {c} hc => ?_, nofun⟩)
    fun c hc => Or.inl ⟨hc, fun ho => ⟨Finset.mem_insert_of_mem ho, nofun⟩⟩
  · simp [BioUser.refs, hrefers, BioPc.refers_idle, ho]
  · simp [BioUser.locks, hlocks, BioPc.locks_idle, ho]
  · simp [BioUser.refs, BioUser.locks, hrefers, hlocks, BioPc.refers_idle, BioPc.locks_idle, hc,
      Ne.symm hc]
  · rcases Finset.mem_insert.mp hc with rfl | hc
    · exact ⟨(h1.reads hreads).1, hv⟩
    · exact h1.owned hc

theorem Bcache.unref_buf (bc : Bcache D) (b : BufId) : (bc.unref b).buf =
    Function.update bc.buf b { bc.buf b with refcnt := (bc.buf b).refcnt - 1 } := by
  simp only [Bcache.unref]
  split_ifs <;> rfl

theorem Booked.effect {e : BioAct D} (h : Booked env.dev σ) (hok : Flushed σ (p, e))
    (he : Bio.Effect env σ p e σ') : Booked env.dev σ' := by
  cases he with
  | @bread bcache b n hpc hb =>
    have hkeep : ∀ c ∈ σ.pending, c ∈ σ.pending ∧ (c ∈ (σ.user p).owns →
        c ∈ (σ.user p).owns ∧ BioPc.bget b n ≠ .iderwWrite c) ∨
        c ∈ (σ.user p).owns ∧ BioPc.bget b n ≠ .iderwWrite c :=
      fun c hc => Or.inl ⟨hc, fun ho => ⟨ho, nofun⟩⟩
    have hsame : ∀ c, c ≠ b → (⟨.bget b n, (σ.user p).owns⟩ : BioUser).refs c = (σ.user p).refs c ∧
        (⟨.bget b n, (σ.user p).owns⟩ : BioUser).locks c = (σ.user p).locks c := by
      intro c hc
      simp [BioUser.refs, BioUser.locks, hpc, BioPc.refers, BioPc.locks, Ne.symm hc]
    -- the buffer holds the block already, or is recycled for it
    rcases Bcache.bget_ok hb with ⟨hd, hn, rfl⟩ | ⟨-, h0, -, rfl⟩
    · refine h.move (b := b) rfl (Function.update_self ..) (fun c hc => Function.update_of_ne hc ..)
        ?_ ?_ hsame (fun _ => ⟨rfl, rfl, id⟩) (fun h1 => ⟨?_, h1.owned, nofun⟩) hkeep
      · simp [BioUser.refs, hpc, BioPc.refers, Bio.buf]
        omega
      · simp [BioUser.locks, hpc, BioPc.locks]
        rfl
      · rintro _ _ he
        obtain ⟨rfl, rfl⟩ := Prod.mk.inj (Option.some.inj he)
        simp only [Bio.buf, Bio.setUser, Bcache.setBuf, Function.update_self]
        exact ⟨hd, hn⟩
    -- nobody refers to a recycled buffer, the caller included
    · have h1 : (σ.user p).refs b = 0 := h.refs_eq_zero h0 p
      refine h.move (b := b) rfl (Function.update_self ..) (fun c hc => Function.update_of_ne hc ..)
        ?_ ?_ hsame (fun h2 => absurd h0 h2) (fun h1 => ⟨?_, h1.owned, nofun⟩) hkeep
      · have h2 : (σ.buf b).refcnt = 0 := h0
        rw [h1, h2]
        simp only [BioUser.refs, hpc, BioPc.refers] at h1 ⊢
        simp at h1
        simp [h1]
      · simp [BioUser.locks, hpc, BioPc.locks]
        rfl
      · rintro _ _ he
        obtain ⟨rfl, rfl⟩ := Prod.mk.inj (Option.some.inj he)
        simp only [Bio.buf, Bio.setUser, Bcache.setBuf, Function.update_self, and_self]
  | @acquiresleep b n lk hpc hfree hlk =>
    refine h.move (b := b) rfl (Function.update_self ..) (fun c hc => Function.update_of_ne hc ..)
      ?_ ?_ (fun c hc => ?_) (fun _ => ⟨rfl, rfl, id⟩) (fun h1 => ⟨?_, h1.owned, nofun⟩)
      fun c hc => Or.inl ⟨hc, fun ho => ⟨ho, nofun⟩⟩
    · simp [BioUser.refs, hpc, BioPc.refers]
    · simp [BioUser.locks, hpc, BioPc.locks, hfree, hlk]
    · simp [BioUser.refs, BioUser.locks, hpc, BioPc.refers, BioPc.locks, Ne.symm hc]
    · rintro _ _ he
      exact h1.reads (by rw [hpc]; exact he)
  | cached hpc hv => exact h.returned (Or.inl hpc) hv
  | @request b n hpc hv =>
    refine h.move (b := b) (x := σ.buf b) rfl rfl (fun _ _ => rfl) ?_ ?_ (fun c hc => ?_)
      (fun _ => ⟨rfl, rfl, id⟩) (fun h1 => ⟨?_, h1.owned, nofun⟩)
      fun c hc => Or.inl ⟨hc, fun ho => ⟨ho, nofun⟩⟩
    · simp [BioUser.refs, hpc, BioPc.refers]
    · simp [BioUser.locks, hpc, BioPc.locks]
    · simp [BioUser.refs, BioUser.locks, hpc, BioPc.refers, BioPc.locks]
    · rintro _ _ he
      exact h1.reads (by rw [hpc]; exact he)
  | @ideintr b n disk x hpc _ hx =>
    unfold Buf.ideintr at hx
    split_ifs at hx
    all_goals
      obtain ⟨rfl, rfl⟩ := Prod.mk.inj (Except.ok.inj hx)
      exact h.stay (p := p) rfl (Bio.setBuf_self ..) (fun c hc => Bio.setBuf_of_ne _ _ hc) rfl rfl
        rfl rfl (fun _ => rfl) fun c hc => Or.inl hc
  | wakeRead hpc hv => exact h.returned (Or.inr hpc) hv
  | @wakeWrite b hpc hd =>
    refine h.move (b := b) (x := σ.buf b) rfl rfl (fun _ _ => rfl) ?_ ?_ (fun c hc => ?_)
      (fun _ => ⟨rfl, rfl, id⟩) (fun h1 => ⟨nofun, h1.owned, nofun⟩)
      fun c hc => Or.inl ⟨hc, fun ho => ⟨ho, nofun⟩⟩
    · simp [BioUser.refs, hpc, BioPc.refers]
    · simp [BioUser.locks, hpc, BioPc.locks]
    · simp [BioUser.refs, BioUser.locks, hpc, BioPc.refers, BioPc.locks]
  | @modify b d hpc ho =>
    refine h.stay (p := p) rfl (Bio.setBuf_self ..) (fun c hc => Bio.setBuf_of_ne _ _ hc) rfl rfl
      rfl rfl id fun c hc => ?_
    rcases Finset.mem_insert.mp hc with rfl | hc
    · exact Or.inr ⟨ho, by rw [hpc]; nofun⟩
    · exact Or.inl hc
  | logWrite hpc ho =>
    exact h.stay (p := p) rfl (Bio.setBuf_self ..) (fun c hc => Bio.setBuf_of_ne _ _ hc) rfl rfl
      rfl rfl id fun c hc => Or.inl (Finset.mem_of_mem_erase hc)
  | @bwrite b hpc ho =>
    refine h.move (b := b) rfl (Bio.setBuf_self ..) (fun c hc => Bio.setBuf_of_ne _ _ hc) ?_ ?_
      (fun c hc => ?_) (fun _ => ⟨rfl, rfl, id⟩) (fun h1 => ⟨nofun, h1.owned, ?_⟩)
      fun c hc => Or.inl ⟨Finset.mem_of_mem_erase hc, fun ho => ⟨ho, ?_⟩⟩
    · simp [BioUser.refs, hpc, BioPc.refers]
    · simp [BioUser.locks, hpc, BioPc.locks]
    · simp [BioUser.refs, BioUser.locks, hpc, BioPc.refers, BioPc.locks]
    · rintro c he
      obtain rfl := BioPc.iderwWrite.inj he
      exact ho
    · rintro he
      obtain rfl := BioPc.iderwWrite.inj he
      exact (Finset.mem_erase.mp hc).1 rfl
  | @brelse b hpc ho =>
    -- the buffer is owned, so its lock is held
    have hlocked : (σ.buf b).lock.locked = true := by
      by_contra hne
      have h1 := h.locks b
      have h2 := le_tally (w := BioUser.locks b) (f := σ.user) p
      have h3 := BioUser.locks_pos_of_owns ho
      rw [if_neg hne] at h1
      omega
    refine h.move (b := b) rfl (Bio.setBuf_self ..) (fun c hc => Bio.setBuf_of_ne _ _ hc) ?_ ?_
      (fun c hc => ?_) (fun _ => ⟨rfl, rfl, id⟩)
      (fun h1 => ⟨nofun, fun hc => h1.owned (Finset.mem_of_mem_erase hc), nofun⟩)
      fun c hc => Or.inl ⟨hc, fun hco => ⟨Finset.mem_erase.mpr ⟨?_, hco⟩, nofun⟩⟩
    · simp [BioUser.refs, hpc, BioPc.refers, ho]
    · simp [BioUser.locks, hpc, BioPc.locks, ho, hlocked, Sleeplock.releasesleep]
    · simp [BioUser.refs, BioUser.locks, hpc, BioPc.refers, BioPc.locks, hc, Ne.symm hc]
    · rintro rfl
      exact hok hc
  | @unref b hpc =>
    -- the count does not wrap: the caller still has its reference
    have hpos : 0 < (σ.buf b).refcnt := by
      have h1 := h.refs b
      have h2 := le_tally (w := BioUser.refs b) (f := σ.user) p
      rw [BioUser.refs, hpc, BioPc.refers, if_pos rfl] at h2
      omega
    refine h.move (b := b) (x := { σ.buf b with refcnt := (σ.buf b).refcnt - 1 }) rfl
      ?_ (fun c hc => ?_) ?_ ?_ (fun c hc => ?_) (fun _ => ⟨rfl, rfl, id⟩)
      (fun h1 => ⟨nofun, h1.owned, nofun⟩) fun c hc => Or.inl ⟨hc, fun ho => ⟨ho, nofun⟩⟩
    · exact (congrFun (Bcache.unref_buf ..) b).trans (Function.update_self ..)
    · exact (congrFun (Bcache.unref_buf ..) c).trans (Function.update_of_ne hc ..)
    · simp [BioUser.refs, hpc, BioPc.refers]
      omega
    · simp [BioUser.locks, hpc, BioPc.locks]
    · simp [BioUser.refs, BioUser.locks, hpc, BioPc.refers, BioPc.locks, Ne.symm hc]

omit [Fintype P] in
theorem Coherent.setUser (h : Coherent dev σ) : Coherent dev (σ.setUser p pc owns) :=
  h.congr (fun _ => rfl) rfl rfl rfl

theorem Coherent.effect {e : BioAct D} (h : Coherent env.dev σ) (hB : Booked env.dev σ)
    (hR : Ring σ.bcache.links) (he : Bio.Effect env σ p e σ') : Coherent env.dev σ' := by
  cases he with
  | @bread bcache b n hpc hb =>
    rcases Bcache.bget_ok hb with ⟨-, -, rfl⟩ | ⟨hn, h0, hd, rfl⟩
    · have h1 : Coherent env.dev
          (σ.setBuf b { σ.buf b with refcnt := (σ.buf b).refcnt + 1 }) := h.setBuf_congr rfl
      exact h1.setUser
    · have h1 := h.recycle (b := b) (n := n)
        (x := { σ.buf b with
          dev := env.dev
          blockno := n
          valid := false
          dirty := false
          refcnt := 1 }) (fun c => hn c (hR.walk c)) hd (hB.not_pending_unused h0) rfl rfl rfl rfl
      exact h1.setUser
  | @acquiresleep b n lk hpc hfree hlk =>
    have h1 : Coherent env.dev (σ.setBuf b { σ.buf b with lock := lk }) := h.setBuf_congr rfl
    exact h1.setUser
  | ideintr hpc _ hx =>
    rcases hpc with hpc | hpc
    · exact h.ideintr ((hB.ok p).reads (by rw [hpc]; rfl)).1 (hB.not_pending (by rw [hpc]; rfl)) hx
    · exact h.ideintr ((hB.ok p).owned ((hB.ok p).writes hpc)).1 (hB.not_pending_write hpc) hx
  | modify _ ho => exact h.modify ((hB.ok p).owned ho).2
  | logWrite _ ho => exact h.write ((hB.ok p).owned ho).2
  | bwrite _ ho => exact (h.write ((hB.ok p).owned ho).2).setUser
  | @brelse b hpc ho =>
    have h1 : Coherent env.dev (σ.setBuf b { σ.buf b with lock := Sleeplock.releasesleep }) :=
      h.setBuf_congr rfl
    exact h1.setUser
  | @unref b =>
    refine h.congr (fun c => ?_) rfl rfl rfl
    show ((σ.bcache.unref b).buf c).cached = _
    rw [Bcache.unref_buf]
    by_cases hc : c = b
    · rw [hc, Function.update_self]
      rfl
    · rw [Function.update_of_ne hc]
      rfl
  | _ => exact h.setUser

omit [Fintype P] in
theorem Ring.effect {e : BioAct D} (h : Ring σ.bcache.links) (he : Bio.Effect env σ p e σ') :
    Ring σ'.bcache.links := by
  cases he with
  | @bread bcache b n hpc hb =>
    rcases Bcache.bget_ok hb with ⟨-, -, rfl⟩ | ⟨-, -, -, rfl⟩ <;> exact h
  | @unref b =>
    show Ring (σ.bcache.unref b).links
    simp only [Bcache.unref]
    split_ifs
    · exact h.unref b
    · exact h
  | _ => exact h

/-- **One step.** -/
theorem CacheSound.step {e : P × BioAct D} (h : CacheSound env σ) (hok : Flushed σ e)
    (hs : σ.step env e.1 e.2 = .ok σ') : CacheSound env σ' := by
  have he := Bio.step_effect hs
  exact ⟨h.booked.effect hok he, h.coherent.effect h.booked h.ring he, h.ring.effect he⟩

variable [Zero D]

theorem Reach.cacheSound (hdev : env.dev ≠ 0) (h : (bioSystem P D env).Reach Flushed σ) :
    CacheSound env σ := by
  refine h.invariant ?_ fun σ e σ' hI hok hs => hI.step hok hs
  rintro _ ⟨disk, rfl⟩
  exact cacheSound_boot hdev disk

/-! ### The main result -/

omit [Zero D] in
theorem CacheSound.holder (h : CacheSound env σ) (b : BufId) :
    if (σ.buf b).lock.locked then ∃! p, (σ.user p).Holds b else ∀ p, ¬ (σ.user p).Holds b := by
  have hl := h.booked.locks b
  split_ifs with hlk
  · rw [if_pos hlk] at hl
    have hex : ∃ p, 0 < (σ.user p).locks b := by
      by_contra hne
      have hzero : tally (BioUser.locks b) σ.user = 0 :=
        Finset.sum_eq_zero fun p _ => Nat.eq_zero_of_not_pos fun hp => hne ⟨p, hp⟩
      omega
    obtain ⟨p, hp⟩ := hex
    exact ⟨p, BioUser.locks_pos_iff.mp hp, fun q hq =>
      h.booked.holder_unique (BioUser.locks_pos_iff.mpr hq) hp⟩
  · intro p hp
    rw [if_neg hlk] at hl
    have h1 := le_tally (w := BioUser.locks b) (f := σ.user) p
    have h2 := BioUser.locks_pos_iff.mpr hp
    omega

/-- The step with which `bread` for block `n` returns the buffer `b` to `p`. -/
def Bio.Returns (σ σ' : Bio P D) (p : P) (b : BufId) (n : Blockno) : Prop :=
  (σ.user p).pc.reads = some (b, n) ∧ (σ'.user p).pc = .idle

omit [Zero D] in
theorem CacheSound.returns {e : BioAct D} (h : CacheSound env σ) (hs : σ.step env p e = .ok σ')
    (hr : σ.Returns σ' p b n) : (σ'.buf b).dev = env.dev ∧ (σ'.buf b).blockno = n ∧
      (σ'.buf b).data = σ'.content n ∧ (σ'.user p).Holds b := by
  obtain ⟨hreads, hidle⟩ := hr
  obtain ⟨h1, h2⟩ := (h.booked.ok p).reads hreads
  -- what the buffer holds when it is valid and locked
  have hdata : (σ.user p).pc.locks = some b → (σ.buf b).valid = true →
      (σ.buf b).data = σ.content n := by
    intro hl hv
    rw [h.coherent.data hv (h.booked.not_pending hl), h2]
  cases Bio.step_effect hs with
  | @cached b' n' hpc hv | @wakeRead b' n' hpc hv =>
    rw [hpc] at hreads hdata
    obtain ⟨rfl, rfl⟩ := Prod.mk.inj (Option.some.inj hreads)
    refine ⟨h1, h2, hdata rfl hv, Or.inr ?_⟩
    simp [Bio.setUser]
  | acquiresleep hpc | request hpc =>
    simp [Bio.setUser] at hidle
  | ideintr hpc =>
    have : (σ.user p).pc = .idle := hidle
    rw [this] at hreads
    cases hreads
  | bread hpc | modify hpc | logWrite hpc | bwrite hpc | brelse hpc | wakeWrite hpc | unref hpc =>
    rw [hpc] at hreads
    cases hreads

/-- **The buffer cache is transparent.** No two buffers are of one block, a buffer has the lock
exactly when one process holds it, the list leads through all the buffers in both directions, and
`bread` returns a buffer of the block it was called for with what was last written to the block. -/
theorem buffer_cache (hdev : env.dev ≠ 0) (h : (bioSystem P D env).Reach Flushed σ) :
    (∀ a b, (σ.buf a).dev = env.dev → (σ.buf b).dev = env.dev →
      (σ.buf a).blockno = (σ.buf b).blockno → a = b) ∧
    (∀ b, if (σ.buf b).lock.locked then ∃! p, (σ.user p).Holds b else ∀ p, ¬ (σ.user p).Holds b) ∧
    (∃ l, σ.bcache.links.Linked l ∧ l.Nodup ∧ ∀ b, b ∈ l) ∧
    (∀ p e σ' b n, σ.step env p e = .ok σ' → σ.Returns σ' p b n →
      (σ'.buf b).dev = env.dev ∧ (σ'.buf b).blockno = n ∧ (σ'.buf b).data = σ'.content n ∧
        (σ'.user p).Holds b) := by
  have hS := Reach.cacheSound hdev h
  obtain ⟨l, hl, hall⟩ := hS.ring
  exact ⟨fun a b => hS.coherent.unique, hS.holder, ⟨l, hl, hl.nodup, hall⟩,
    fun p e σ' b n hs hr => hS.returns hs hr⟩

/-- A block is written, and read again by another process. -/
theorem buffer_cache_two : ∃ σ σ' : Bio (Fin 2) ℕ, ∃ b,
    σ.step ⟨1, true, fun _ => 1⟩ 1 .test = .ok σ' ∧ σ.Returns σ' 1 b 3 ∧
    (σ'.buf b).data = σ'.content 3 ∧ σ'.content 3 = 7 := by
  let env : BioEnv (Fin 2) := ⟨1, true, fun _ => 1⟩
  let as : List (Fin 2 × BioAct ℕ) := [(0, .bread 3), (0, .acquiresleep), (0, .test), (0, .ideintr),
    (0, .wake), (0, .modify 0 7), (0, .logWrite 0), (1, .bread 3), (0, .brelse 0), (0, .unref),
    (1, .acquiresleep)]
  have hok : (bioSystem (Fin 2) ℕ env).Obeys Flushed (Bio.boot fun _ => 5) as := by
    decide +kernel
  have hrun : (bioSystem (Fin 2) ℕ env).Ends (fun σ => (σ.user 1).pc = .bread 0 3 ∧
      (σ.buf 0).valid = true ∧ σ.content 3 = 7) (Bio.boot fun _ => 5) as := by
    decide +kernel
  obtain ⟨σ, hσ, hpc, hv, hc⟩ :=
    System.Reach.of_ends (S := bioSystem (Fin 2) ℕ env) as ⟨fun _ => 5, rfl⟩ hok hrun
  have hs : σ.step env 1 .test = .ok (σ.setUser 1 .idle (insert 0 (σ.user 1).owns)) := by
    simp [Bio.step, hpc, hv]
  have hr : σ.Returns (σ.setUser 1 .idle (insert 0 (σ.user 1).owns)) 1 0 3 := by
    simp [Bio.Returns, hpc, BioPc.reads, Bio.setUser]
  have hmain := (buffer_cache (by decide) hσ).2.2.2 1 _ _ 0 3 hs hr
  exact ⟨σ, _, 0, hs, hr, hmain.2.2.1, hc⟩

end OsSemester.Xv6
