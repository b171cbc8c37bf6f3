import OsSemester.Xv6.BufferCache
import OsSemester.Xv6.Transaction

/-!
# What is on the disk while the log is committed

`Encodes disk L T` says what recovery makes of a disk: its log has the blocks `L`, and with these
installed the blocks of the file system are those of `T`.  `Stage` says for every place in `commit`
and in `recover_from_log` what is on the disk there: until the header is written the disk encodes the
content from before the group of operations, from then on that from after it.  A step that writes
nothing (`ReadOnly`) keeps these facts.
-/

namespace OsSemester.Xv6

/-- The log block of the `i`-th entry of the header. -/
def logBlock (i : ℕ) : ℕ := mkfsSuperblock.logstart + i + 1

/-- The block of the header. -/
abbrev headBlock : ℕ := mkfsSuperblock.logstart

/-- The blocks `L` can be logged, their copies in the log are those of `T`, and the other blocks have
the content of `T` already. -/
structure Copied (disk : Blockno → Block) (L : List Blockno) (T : Blockno → Block) : Prop where
  nodup : L.Nodup
  home : ∀ n ∈ L, Home n
  room : L.length < LOGSIZE
  logged : ∀ {i n}, L[i]? = some n → disk (logBlock i) = T n
  rest : ∀ {n}, Home n → n ∉ L → disk n = T n

/-- **What recovery makes of a disk.** -/
structure Encodes (disk : Blockno → Block) (L : List Blockno) (T : Blockno → Block) : Prop where
  header : (disk headBlock).header = L
  copied : Copied disk L T

variable {P : Type} {env : BioEnv P} {β β' : Bio P Block} {σ σ' : Fs P} {p q : P} {b c l h : BufId}
variable {n m : Blockno} {i tail : ℕ} {v : Block} {L : List Blockno} {T T' : Blockno → Block}
variable {disk disk' : Blockno → Block} {toLog boot : Bool}

theorem home_iff {n : ℕ} : Home n ↔ n < 1000 ∧ (n < 2 ∨ 32 ≤ n) := Iff.rfl

theorem logBlock_eq (i : ℕ) : logBlock i = 2 + i + 1 := rfl

theorem logBlock_inj {j : ℕ} (h : logBlock i = logBlock j) : i = j := by
  rw [logBlock_eq, logBlock_eq] at h
  omega

theorem not_home_head : ¬ Home headBlock := by decide

theorem not_home_logBlock (hi : i + 1 < LOGSIZE) : ¬ Home (logBlock i) := by
  rw [home_iff, logBlock_eq]
  simp only [LOGSIZE, MAXOPBLOCKS] at hi
  omega

theorem logBlock_ne_head : logBlock i ≠ headBlock := by
  rw [logBlock_eq]
  show 2 + i + 1 ≠ 2
  omega

theorem Copied.not_home (hc : Copied disk L T) (hi : L[i]? = some n) : ¬ Home (logBlock i) := by
  have h1 := hc.room
  have h2 := (List.getElem?_eq_some_iff.mp hi).1
  exact not_home_logBlock (by omega)

/-- A disk whose blocks have the content of `T`, with nothing to install. -/
theorem copied_nil (h : ∀ n, Home n → disk n = T n) : Copied disk [] T :=
  ⟨List.nodup_nil, nofun, by decide, nofun, fun hn _ => h _ hn⟩

theorem Copied.congr (hc : Copied disk L T) (hd : ∀ n, Home n → n ∉ L → disk' n = disk n)
    (hl : ∀ i n, L[i]? = some n → disk' (logBlock i) = disk (logBlock i)) : Copied disk' L T :=
  ⟨hc.nodup, hc.home, hc.room, fun hi => (hl _ _ hi).trans (hc.logged hi),
    fun hn hnl => (hd _ hn hnl).trans (hc.rest hn hnl)⟩

/-! ### What a step leaves alone in the cache -/

/-- A step that writes nothing. -/
structure ReadOnly (β β' : Bio P Block) : Prop where
  disk : β'.disk = β.disk
  content : β'.content = β.content
  pending : β'.pending = β.pending
  owned : ∀ {b q}, b ∈ (β.user q).owns → (β'.buf b).cached = (β.buf b).cached
  dirty : ∀ {b}, (β.buf b).dirty = true ∨ (β'.buf b).dirty = true →
    (β'.buf b).cached = (β.buf b).cached

/-- In the `iderw` of `bread` a buffer is not dirty. -/
def ReadsClean (β : Bio P Block) : Prop :=
  ∀ {p b n}, (β.user p).pc = .iderwRead b n → (β.buf b).dirty = false

/-- The steps that write nothing. -/
def Still (β : Bio P Block) (p : P) : BioAct Block → Prop
  | .modify _ _ | .logWrite _ | .bwrite _ => False
  | .ideintr => ∀ b, (β.user p).pc ≠ .iderwWrite b
  | _ => True

theorem Bio.cached_setBuf {x : Buf Block} (hx : x.cached = (β.buf b).cached) (c : BufId) :
    ((β.setBuf b x).buf c).cached = (β.buf c).cached := by
  by_cases hc : c = b
  · rw [hc, Bio.setBuf_self, hx]
  · rw [Bio.setBuf_of_ne _ _ hc]

theorem readOnly_of_cached (hb : ∀ b, (β'.buf b).cached = (β.buf b).cached)
    (hd : β'.disk = β.disk) (hc : β'.content = β.content) (hp : β'.pending = β.pending) :
    ReadOnly β β' :=
  ⟨hd, hc, hp, fun {b _} _ => hb b, fun {b} _ => hb b⟩

/-- A step that changes a buffer which is not dirty and which nobody owns. -/
theorem readOnly_of_free (hx : ∀ c, c ≠ b → β'.buf c = β.buf c)
    (hd : (β.buf b).dirty = false) (hd' : (β'.buf b).dirty = false)
    (ho : ∀ q, b ∉ (β.user q).owns) (hk : β'.disk = β.disk) (hc : β'.content = β.content)
    (hp : β'.pending = β.pending) : ReadOnly β β' := by
  refine ⟨hk, hc, hp, fun {c q} hcq => ?_, fun {c} hcd => ?_⟩
  · rw [hx c]
    rintro rfl
    exact ho q hcq
  · rw [hx c]
    rintro rfl
    rw [hd, hd'] at hcd
    rcases hcd with hcd | hcd <;> cases hcd

/-- **A step that is still writes nothing.** -/
theorem Bio.Effect.readOnly [Fintype P] [DecidableEq P] {e : BioAct Block} (hS : CacheSound env β) (hr : ReadsClean β)
    (he : Bio.Effect env β p e β') (hst : Still β p e) : ReadOnly β β' := by
  have hB := hS.booked
  cases he with
  | @bread bcache b n hpc hb =>
    rcases Bcache.bget_ok hb with ⟨-, -, rfl⟩ | ⟨-, h0, hd, rfl⟩
    · exact readOnly_of_cached (Bio.cached_setBuf (b := b)
        (x := { β.buf b with refcnt := (β.buf b).refcnt + 1 }) rfl) rfl rfl rfl
    · refine readOnly_of_free (b := b) (fun c hc => Function.update_of_ne hc ..) hd ?_ (fun q hq => ?_)
        rfl rfl rfl
      · show (Function.update β.bcache.buf b _ b).dirty = false
        rw [Function.update_self]
      · have h1 := hB.refs_eq_zero h0 q
        rw [BioUser.refs, if_pos hq] at h1
        omega
  | @acquiresleep b n lk => exact readOnly_of_cached (Bio.cached_setBuf rfl) rfl rfl rfl
  | cached | request | wakeRead | wakeWrite => exact readOnly_of_cached (fun _ => rfl) rfl rfl rfl
  | @ideintr b n disk x hpc _ hx =>
    rcases hpc with hpc | hpc
    · have hd := hr hpc
      unfold Buf.ideintr at hx
      simp only [hd, Bool.false_eq_true, if_false] at hx
      split_ifs at hx
      obtain ⟨rfl, rfl⟩ := Prod.mk.inj (Except.ok.inj hx)
      exact readOnly_of_free (b := b) (fun c hc => Bio.setBuf_of_ne _ _ hc) hd
        (congrArg Buf.dirty (Bio.setBuf_self ..)) (hB.not_owned (by rw [hpc]; rfl)) rfl rfl rfl
    · exact absurd hpc (hst b)
  | modify | logWrite | bwrite => exact hst.elim
  | brelse => exact readOnly_of_cached (Bio.cached_setBuf rfl) rfl rfl rfl
  | @unref b =>
    refine readOnly_of_cached (fun c => ?_) rfl rfl rfl
    show ((β.bcache.unref b).buf c).cached = _
    rw [Bcache.unref_buf]
    exact Bio.cached_setBuf (b := b) (x := { β.buf b with refcnt := (β.buf b).refcnt - 1 }) rfl c

/-! ### What is on the disk at every place -/

/-- The process owns the buffer of block `n`. -/
def Has (β : Bio P Block) (p : P) (b : BufId) (n : Blockno) : Prop :=
  b ∈ (β.user p).owns ∧ (β.buf b).blockno = n

/-- If the process is in `bread`, it is for block `n`. -/
def Asks (β : Bio P Block) (p : P) (n : Blockno) : Prop :=
  ∀ {b m}, (β.user p).pc.reads = some (b, m) → m = n

/-- Block `n` is on the disk, and will not be written without a call of `log_write` or `bwrite`. -/
structure Synced (β : Bio P Block) (n : Blockno) (v : Block) : Prop where
  disk : β.disk n = v
  clean : ∀ {b}, (β.buf b).dirty = true → (β.buf b).blockno ≠ n

/-- In `bwrite` of the buffer `b` of block `n` with this content. -/
structure Syncing (β : Bio P Block) (p : P) (b : BufId) (n : Blockno) (v : Block) : Prop where
  has : Has β p b n
  pc : (β.user p).pc = .iderwWrite b
  data : (β.buf b).data = v
  done : (β.buf b).dirty = false → β.disk n = v

/-- The buffer that the loop writes to. -/
def dst (toLog : Bool) (l h : BufId) : BufId := if toLog then l else h

/-- The block that the loop writes to for an entry `n`. -/
def dstBlock (toLog : Bool) (tail : ℕ) (n : Blockno) : Blockno := if toLog then logBlock tail else n

/-- In the body of the loop, for the entry `n` at `tail`, the content of which is `v`. -/
def CopyAt (β : Bio P Block) (p : P) (toLog : Bool) (tail : ℕ) (n : Blockno) (v : Block) :
    CopyPc → Prop
  | .lbuf => Asks β p (logBlock tail)
  | .hbuf l => Has β p l (logBlock tail) ∧ Asks β p n
  | .move l h => Has β p l (logBlock tail) ∧ Has β p h n
  | .write l h => Has β p (dst toLog l h) (dstBlock toLog tail n) ∧
      (β.buf (dst toLog l h)).data = v
  | .sync l h => Syncing β p (dst toLog l h) (dstBlock toLog tail n) v
  | .rel1 _ _ | .rel2 _ => Synced β (dstBlock toLog tail n) v

/-- In the loop over the entries `L`, whose content is that of `T`. -/
structure LoopAt (β : Bio P Block) (p : P) (toLog : Bool) (L : List Blockno)
    (T : Blockno → Block) (tail : ℕ) (c : CopyPc) : Prop where
  inside : c = .lbuf ∧ (β.user p).pc.reads = none ∨ tail < L.length
  done : ∀ {i n}, i < tail → L[i]? = some n → Synced β (dstBlock toLog i n) (T n)
  body : ∀ {n}, L[tail]? = some n → CopyAt β p toLog tail n (T n) c

/-- In `write_head` for the entries `L`. -/
def HeadAt (β : Bio P Block) (p : P) (L : List Blockno) : HeadPc → Prop
  | .buf => Asks β p headBlock
  | .fill b => Has β p b headBlock
  | .write b => Has β p b headBlock ∧ (β.buf b).data.header = L
  | .sync b => ∃ v : Block, v.header = L ∧ Syncing β p b headBlock v
  | .rel _ => (β.disk headBlock).header = L

/-- **Before the commit.** The blocks `L` have been logged and are not on the disk yet. -/
structure Fresh (β : Bio P Block) (L : List Blockno) (T : Blockno → Block) : Prop where
  enc : Encodes β.disk [] T
  nodup : L.Nodup
  home : ∀ n ∈ L, Home n
  content : ∀ {n}, Home n → n ∉ L → β.content n = T n

/-- Every logged block is in the cache, with `B_DIRTY`. -/
def Pinned (dev : ℕ) (β : Bio P Block) (L : List Blockno) : Prop :=
  ∀ n ∈ L, ∃ b, (β.buf b).dev = dev ∧ (β.buf b).blockno = n ∧ (β.buf b).dirty = true

namespace Fs

/-- What the disk is to become: the content after the group, or while the log is recovered one of
the two. -/
def Target (σ : Fs P) (boot : Bool) (T : Blockno → Block) : Prop :=
  T = σ.after ∨ boot = true ∧ T = σ.before

/-- **What holds at a place in `commit` or `recover_from_log`.** -/
def Stage (env : BioEnv P) (σ : Fs P) (p : P) : LogPc → Prop
  | .user _ | .logWrite _ => True
  | .writeLog tail c => Fresh σ.bio σ.log.block σ.before ∧
      (∀ {n}, Home n → σ.bio.content n = σ.after n) ∧
      (σ.log.block.length < LOGSIZE ∨ tail = 0 ∧ c = .lbuf ∧ (σ.bio.user p).pc = .idle ∧
        Pinned env.dev σ.bio σ.log.block) ∧
      LoopAt σ.bio p true σ.log.block σ.after tail c
  | .writeHead h => Copied σ.bio.disk σ.log.block σ.after ∧
      (Encodes σ.bio.disk [] σ.before ∨ (σ.bio.disk headBlock).header = σ.log.block) ∧
      HeadAt σ.bio p σ.log.block h
  | .readHead h => (∃ T L, σ.Target true T ∧ Encodes σ.bio.disk L T) ∧
      match h with
      | .buf => Asks σ.bio p headBlock ∧ σ.log.block = []
      | .fill b => Has σ.bio p b headBlock ∧ σ.log.block = []
      | .rel _ => σ.log.block = (σ.bio.disk headBlock).header
      | _ => False
  | .installTrans boot tail c => ∃ T, σ.Target boot T ∧ Encodes σ.bio.disk σ.log.block T ∧
      LoopAt σ.bio p false σ.log.block T tail c
  | .clearHead boot h => σ.log.block = [] ∧ ∃ T, σ.Target boot T ∧
      (∀ n, Home n → σ.bio.disk n = T n) ∧ (∃ L, Encodes σ.bio.disk L T) ∧ HeadAt σ.bio p [] h
  | .finish boot => σ.log.block = [] ∧ ∃ T, σ.Target boot T ∧ Encodes σ.bio.disk [] T

/-- **What holds while nobody commits.** -/
structure Open (env : BioEnv P) (σ : Fs P) : Prop where
  fresh : Fresh σ.bio σ.log.block σ.before
  pinned : Pinned env.dev σ.bio σ.log.block
  same : ∀ {n}, Home n → σ.after n = σ.before n

end Fs

/-! ### What a step that writes nothing keeps -/

/-- A process goes on inside of a call, or does nothing. -/
structure Persist (u u' : BioUser) : Prop where
  owns : u.owns ⊆ u'.owns
  reads : ∀ {b m}, u'.pc.reads = some (b, m) → ∃ b', u.pc.reads = some (b', m)
  writes : ∀ {b}, u.pc = .iderwWrite b → u'.pc = .iderwWrite b
  idle : u.pc = .idle → u'.pc = .idle

theorem Persist.refl (u : BioUser) : Persist u u := ⟨subset_rfl, fun h => ⟨_, h⟩, id, id⟩

theorem Asks.persist (ha : Asks β p n) (hP : Persist (β.user p) (β'.user p)) : Asks β' p n :=
  fun hm => (hP.reads hm).elim fun _ h => ha h

theorem Has.readOnly (hh : Has β p b n) (hQ : ReadOnly β β') (ho : (β.user p).owns ⊆ (β'.user p).owns) :
    Has β' p b n := by
  have h1 := Buf.cached_inj.mp (hQ.owned hh.1)
  exact ⟨ho hh.1, h1.2.2.2.1.trans hh.2⟩

namespace ReadOnly

variable (hQ : ReadOnly β β')

include hQ

theorem synced (hs : Synced β n v) : Synced β' n v := by
  refine ⟨by rw [hQ.disk, hs.disk], fun {b} hd => ?_⟩
  have h1 := Buf.cached_inj.mp (hQ.dirty (Or.inr hd))
  rw [h1.2.1] at hd
  rw [h1.2.2.2.1]
  exact hs.clean hd

theorem fresh (hf : Fresh β L T) : Fresh β' L T := by
  refine ⟨by rw [hQ.disk]; exact hf.enc, hf.nodup, hf.home, ?_⟩
  rw [hQ.content]
  exact hf.content

theorem pinned {dev : ℕ} (hp : Pinned dev β L) : Pinned dev β' L := by
  intro n hn
  obtain ⟨b, h1, h2, h3⟩ := hp n hn
  have h4 := Buf.cached_inj.mp (hQ.dirty (Or.inl h3))
  exact ⟨b, h4.2.2.1.trans h1, h4.2.2.2.1.trans h2, h4.2.1.trans h3⟩

variable (hP : Persist (β.user p) (β'.user p))

include hP

theorem syncing (hs : Syncing β p b n v) : Syncing β' p b n v := by
  have h1 := Buf.cached_inj.mp (hQ.owned hs.has.1)
  refine ⟨hs.has.readOnly hQ hP.owns, hP.writes hs.pc, h1.2.2.2.2.trans hs.data, fun hd => ?_⟩
  rw [hQ.disk]
  exact hs.done (h1.2.1.symm.trans hd)

theorem copyAt {c : CopyPc} (hc : CopyAt β p toLog tail n v c) : CopyAt β' p toLog tail n v c := by
  cases c with
  | lbuf => exact Asks.persist hc hP
  | hbuf l => exact ⟨hc.1.readOnly hQ hP.owns, Asks.persist hc.2 hP⟩
  | move l h => exact ⟨hc.1.readOnly hQ hP.owns, hc.2.readOnly hQ hP.owns⟩
  | write l h =>
    have h1 := Buf.cached_inj.mp (hQ.owned hc.1.1)
    exact ⟨hc.1.readOnly hQ hP.owns, h1.2.2.2.2.trans hc.2⟩
  | sync l h => exact hQ.syncing hP hc
  | rel1 l h => exact hQ.synced hc
  | rel2 b => exact hQ.synced hc

theorem loopAt {c : CopyPc} (hl : LoopAt β p toLog L T tail c) : LoopAt β' p toLog L T tail c := by
  refine ⟨?_, fun hi hn => hQ.synced (hl.done hi hn), fun hn => hQ.copyAt hP (hl.body hn)⟩
  refine hl.inside.imp_left fun ⟨hc, hr⟩ => ⟨hc, ?_⟩
  by_contra hne
  obtain ⟨⟨b, m⟩, hm⟩ := Option.ne_none_iff_exists'.mp hne
  obtain ⟨b', hb'⟩ := hP.reads hm
  rw [hr] at hb'
  cases hb'

theorem headAt {hd : HeadPc} (hh : HeadAt β p L hd) : HeadAt β' p L hd := by
  cases hd with
  | buf => exact Asks.persist hh hP
  | fill b => exact hh.readOnly hQ hP.owns
  | write b =>
    have h1 := Buf.cached_inj.mp (hQ.owned hh.1.1)
    exact ⟨hh.1.readOnly hQ hP.owns, by rw [h1.2.2.2.2, hh.2]⟩
  | sync b =>
    obtain ⟨v, hv, hs⟩ := hh
    exact ⟨v, hv, hQ.syncing hP hs⟩
  | rel b =>
    show (β'.disk headBlock).header = L
    rw [hQ.disk]
    exact hh

end ReadOnly

theorem Fs.Stage.readOnly {pc : LogPc} (hs : σ.Stage env p pc) (hQ : ReadOnly σ.bio σ'.bio)
    (hP : Persist (σ.bio.user p) (σ'.bio.user p)) (hl : σ'.log.block = σ.log.block)
    (hb : σ'.before = σ.before) (ha : σ'.after = σ.after) : σ'.Stage env p pc := by
  cases pc with
  | user | logWrite => trivial
  | writeLog tail c =>
    obtain ⟨h1, h2, h3, h4⟩ := hs
    rw [← hl, ← hb] at h1
    rw [← ha] at h2
    rw [← hl] at h3
    rw [← hl, ← ha] at h4
    refine ⟨hQ.fresh h1, ?_, ?_, hQ.loopAt hP h4⟩
    · rw [hQ.content]
      exact h2
    · rcases h3 with h3 | ⟨h3, h5, h6, h7⟩
      · exact Or.inl h3
      · exact Or.inr ⟨h3, h5, hP.idle h6, hQ.pinned h7⟩
  | writeHead h =>
    obtain ⟨h1, h2, h3⟩ := hs
    rw [← hl, ← ha, ← hQ.disk] at h1
    rw [← hl, ← hb, ← hQ.disk] at h2
    rw [← hl] at h3
    exact ⟨h1, h2, hQ.headAt hP h3⟩
  | readHead h =>
    obtain ⟨⟨T, L, h1, h2⟩, h3⟩ := hs
    rw [Fs.Target, ← hb, ← ha] at h1
    rw [← hQ.disk] at h2
    refine ⟨⟨T, L, h1, h2⟩, ?_⟩
    cases h with
    | buf => exact ⟨Asks.persist h3.1 hP, hl.trans h3.2⟩
    | fill b => exact ⟨h3.1.readOnly hQ hP.owns, hl.trans h3.2⟩
    | rel b =>
      show σ'.log.block = (σ'.bio.disk headBlock).header
      rw [hl, hQ.disk]
      exact h3
    | write | sync => exact h3
  | installTrans boot tail c =>
    obtain ⟨T, h1, h2, h3⟩ := hs
    rw [Fs.Target, ← hb, ← ha] at h1
    rw [← hl, ← hQ.disk] at h2
    rw [← hl] at h3
    exact ⟨T, h1, h2, hQ.loopAt hP h3⟩
  | clearHead boot h =>
    obtain ⟨h0, T, h1, h2, ⟨L, h3⟩, h4⟩ := hs
    rw [Fs.Target, ← hb, ← ha] at h1
    rw [← hQ.disk] at h2 h3
    exact ⟨hl.trans h0, T, h1, h2, ⟨L, h3⟩, hQ.headAt hP h4⟩
  | finish boot =>
    obtain ⟨h0, T, h1, h2⟩ := hs
    rw [Fs.Target, ← hb, ← ha] at h1
    rw [← hQ.disk] at h2
    exact ⟨hl.trans h0, T, h1, h2⟩

theorem Fs.Open.readOnly (ho : σ.Open env) (hQ : ReadOnly σ.bio σ'.bio)
    (hl : σ'.log.block = σ.log.block) (hb : σ'.before = σ.before) (ha : σ'.after = σ.after) :
    σ'.Open env := by
  obtain ⟨h1, h2, h3⟩ := ho
  rw [← hl, ← hb] at h1
  rw [← hl] at h2
  rw [← hb, ← ha] at h3
  exact ⟨hQ.fresh h1, hQ.pinned h2, h3⟩

end OsSemester.Xv6
