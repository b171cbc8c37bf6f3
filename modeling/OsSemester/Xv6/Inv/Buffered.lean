import OsSemester.Xv6.Inv.Commit
import OsSemester.Xv6.Reservation

/-!
# Operations and their buffers

At most one process commits or recovers the log, and only while no operation runs.  The buffers that an
operation has modified stay in the cache until they are installed.
-/

namespace OsSemester.Xv6

variable {P : Type} {env : BioEnv P} {β β' : Bio P Block} {σ σ' : Fs P} {p q : P} {b c l h : BufId}
variable {n m : Blockno} {i tail : ℕ} {v : Block} {L : List Blockno} {T T' : Blockno → Block}
variable {disk disk' : Blockno → Block} {toLog boot : Bool} {x : LogPc}

/-! ### Who commits -/

/-- What a process is doing in `log.c`. -/
inductive Job
  | idle
  | op
  | commit
  | boot
  deriving DecidableEq

namespace LogPc

def job : LogPc → Job
  | user false => .idle
  | user true | logWrite _ => .op
  | writeLog _ _ | writeHead _ => .commit
  | readHead _ => .boot
  | installTrans boot _ _ | clearHead boot _ | finish boot => if boot then .boot else .commit

/-- The buffer whose `bwrite` is being executed. -/
def syncs : LogPc → Option BufId
  | writeLog _ (.sync l _) => some l
  | installTrans _ _ (.sync _ h) => some h
  | writeHead (.sync b) | clearHead _ (.sync b) => some b
  | _ => none

/-- The buffers that may have been modified and not been logged or written. -/
def MayWrite (b : BufId) : LogPc → Prop
  | user true | logWrite _ => True
  | writeLog _ (.write l _) => b = l
  | installTrans _ _ (.write _ h) => b = h
  | writeHead (.write c) | clearHead _ (.write c) => b = c
  | _ => False

end LogPc

namespace Job

def Busy : Job → Prop
  | .commit | .boot => True
  | _ => False

def active : Job → ℕ
  | op => 1
  | _ => 0

end Job

/-- **While a process commits or recovers the log, no operation is going on.** -/
structure Alone [Fintype P] (job : P → Job) (log : Log) (booting : Bool) : Prop where
  busy : ∀ {p q}, (job p).Busy → q ≠ p → job q = .idle
  commit : ∀ {p}, job p = .commit → log.committing = true
  boot : ∀ {p}, job p = .boot → booting = true
  quiet : log.committing = true → log.outstanding = 0
  out : log.outstanding = tally Job.active job

/-- **What holds of the buffers.** -/
structure Buffered [Fintype P] (env : BioEnv P) (σ : Fs P) : Prop where
  cache : CacheSound env σ.bio
  reads : ReadsClean σ.bio
  may : ∀ {p b}, b ∈ (σ.bio.user p).owns → b ∈ σ.bio.pending → (σ.pc p).MayWrite b
  syncs : ∀ {p b}, (σ.bio.user p).pc = .iderwWrite b → (σ.pc p).syncs = some b
  dirty : ∀ {b}, (σ.bio.buf b).dirty = true →
    (σ.bio.buf b).blockno ∈ σ.log.block ∨ ∃ p, (σ.bio.user p).pc = .iderwWrite b

/-- What the processes are doing. -/
def Fs.jobs (σ : Fs P) (p : P) : Job := (σ.pc p).job

/-- **The invariant of the log.** -/
structure Fs.Inv [Fintype P] (env : BioEnv P) (σ : Fs P) : Prop where
  alone : Alone σ.jobs σ.log σ.booting
  start : σ.log.start = headBlock
  buffered : Buffered env σ
  stage : ∀ {p}, (σ.jobs p).Busy → σ.Stage env p (σ.pc p)
  idle : (∀ p, ¬ (σ.jobs p).Busy) → σ.Open env

variable [Fintype P]

/-- Whatever the place, the disk encodes the content from before the group or from after it. -/
theorem Fs.Inv.encodes (h : σ.Inv env) : ∃ T L, σ.Target true T ∧ Encodes σ.bio.disk L T := by
  by_cases hb : ∀ p, ¬ (σ.jobs p).Busy
  · exact ⟨σ.before, [], Or.inr ⟨rfl, rfl⟩, (h.idle hb).fresh.enc⟩
  obtain ⟨p, hp⟩ := not_forall_not.mp hb
  have hs := h.stage hp
  have hT : ∀ {boot T}, σ.Target boot T → σ.Target true T :=
    fun ht => ht.imp_right fun h => ⟨rfl, h.2⟩
  unfold Fs.jobs at hp
  cases hpc : σ.pc p with
  | user op =>
    rw [hpc] at hp
    cases op <;> exact hp.elim
  | logWrite =>
    rw [hpc] at hp
    exact hp.elim
  | writeLog tail c =>
    rw [hpc] at hs
    exact ⟨σ.before, [], Or.inr ⟨rfl, rfl⟩, hs.1.enc⟩
  | writeHead h =>
    rw [hpc] at hs
    rcases hs.2.1 with h1 | h1
    · exact ⟨σ.before, [], Or.inr ⟨rfl, rfl⟩, h1⟩
    · exact ⟨σ.after, _, Or.inl rfl, h1, hs.1⟩
  | readHead h =>
    rw [hpc] at hs
    exact hs.1
  | installTrans boot tail c =>
    rw [hpc] at hs
    obtain ⟨T, h1, h2, -⟩ := hs
    exact ⟨T, _, hT h1, h2⟩
  | clearHead boot h =>
    rw [hpc] at hs
    obtain ⟨-, T, h1, -, ⟨L, h2⟩, -⟩ := hs
    exact ⟨T, L, hT h1, h2⟩
  | finish boot =>
    rw [hpc] at hs
    obtain ⟨-, T, h1, h2⟩ := hs
    exact ⟨T, [], hT h1, h2⟩

variable [DecidableEq P]

/-- After a crash. -/
theorem Fs.inv_crash (hdev : env.dev ≠ 0) (he : ∃ T L, σ.Target true T ∧ Encodes σ.bio.disk L T)
    (p : P) : (σ.crash p).Inv env := by
  have hpc : (σ.crash p).pc p = .readHead .buf := by simp only [Fs.crash, Function.update_self]
  have hself : (σ.crash p).jobs p = .boot := by rw [Fs.jobs, hpc, LogPc.job]
  have hne : ∀ q, q ≠ p → (σ.crash p).jobs q = .idle := by
    intro q hq
    have hq' : (σ.crash p).pc q = .user false := by
      simp only [Fs.crash, Function.update_of_ne hq]
    rw [Fs.jobs, hq', LogPc.job]
  have hbusy : ∀ {q}, ((σ.crash p).jobs q).Busy → q = p := by
    intro q hq
    by_contra hqp
    rw [hne q hqp] at hq
    exact hq
  refine ⟨⟨fun {q r} hq hr => ?_, fun {q} hq => ?_, fun _ => rfl, fun _ => rfl, ?_⟩, rfl,
    ⟨cacheSound_boot hdev _, nofun, nofun, nofun, nofun⟩, fun {q} hq => ?_, fun hno => ?_⟩
  · rw [hbusy hq] at hr
    exact hne r hr
  · have hqp : q = p := hbusy (by rw [hq]; trivial)
    rw [hqp, hself] at hq
    cases hq
  · refine (Finset.sum_eq_zero fun q _ => ?_).symm
    by_cases hq : q = p
    · rw [hq, hself]
      rfl
    · rw [hne q hq]
      rfl
  · rw [hbusy hq, hpc]
    exact ⟨he, nofun, rfl⟩
  · refine absurd ?_ (hno p)
    rw [hself]
    trivial

omit [Fintype P] in
theorem Fs.jobs_update (hpc : σ'.pc = Function.update σ.pc p x) :
    σ'.jobs = Function.update σ.jobs p x.job := by
  funext q
  unfold Fs.jobs
  rw [hpc, Function.update_apply, Function.update_apply]
  split_ifs <;> rfl

/-! ### The buffers after a step -/

namespace Bio.Effect

variable {e : BioAct Block}

omit [Fintype P] in
theorem user_of_ne (he : Bio.Effect env β p e β') (hq : q ≠ p) : β'.user q = β.user q := by
  cases he <;> first | exact Function.update_of_ne hq .. | rfl

theorem owns (hB : Booked env.dev β) (he : Bio.Effect env β p e β')
    (hb : b ∈ (β'.user p).owns) : b ∈ (β.user p).owns ∨ b ∉ β.pending := by
  cases he with
  | cached hpc | wakeRead hpc =>
    simp only [Bio.setUser, Function.update_self, Finset.mem_insert] at hb
    rcases hb with rfl | hb
    · exact Or.inr (hB.not_pending (by rw [hpc]; rfl))
    · exact Or.inl hb
  | brelse =>
    simp only [Bio.setUser, Function.update_self] at hb
    exact Or.inl (Finset.mem_of_mem_erase hb)
  | ideintr | modify | logWrite => exact Or.inl hb
  | _ =>
    simp only [Bio.setUser, Function.update_self] at hb
    exact Or.inl hb

/-- A step that writes changes a buffer of the process only. -/
theorem buf_of_ne (hB : Booked env.dev β) (he : Bio.Effect env β p e β') (hst : ¬ Still β p e) :
    ∃ c ∈ (β.user p).owns, ∀ b, b ≠ c → β'.buf b = β.buf b := by
  cases he with
  | @ideintr c n disk x hpc _ hx =>
    rcases hpc with hpc | hpc
    · exact absurd (fun a ha => by rw [hpc] at ha; cases ha) hst
    · exact ⟨c, (hB.ok p).writes hpc, fun b hc => Bio.setBuf_of_ne _ _ hc⟩
  | @modify c d hpc ho => exact ⟨c, ho, fun b hc => Bio.setBuf_of_ne _ _ hc⟩
  | @logWrite c hpc ho => exact ⟨c, ho, fun b hc => Bio.setBuf_of_ne _ _ hc⟩
  | @bwrite c hpc ho => exact ⟨c, ho, fun b hc => Bio.setBuf_of_ne _ _ hc⟩
  | _ => exact absurd trivial hst

/-- A buffer becomes dirty through its owner. -/
theorem dirty (hS : CacheSound env β) (hr : ReadsClean β) (he : Bio.Effect env β p e β')
    (hd : (β'.buf b).dirty = true) : (β.buf b).dirty = true ∨ b ∈ (β.user p).owns := by
  by_cases hst : Still β p e
  · have h1 := (Buf.cached_inj.mp ((he.readOnly hS hr hst).dirty (Or.inr hd))).2.1
    rw [h1] at hd
    exact Or.inl hd
  · obtain ⟨c, ho, hne⟩ := he.buf_of_ne hS.booked hst
    by_cases hc : b = c
    · rw [hc]
      exact Or.inr ho
    · rw [hne b hc] at hd
      exact Or.inl hd

theorem readsClean (hS : CacheSound env β) (hr : ReadsClean β) (he : Bio.Effect env β p e β') :
    ReadsClean β' := by
  intro q b n hq
  by_contra hd
  rw [Bool.not_eq_false] at hd
  -- the process that reads has the lock
  have hold : ∀ {q}, (β.user q).pc = .iderwRead b n → False := by
    intro q hq
    rcases he.dirty hS hr hd with h1 | h1
    · rw [hr hq] at h1
      cases h1
    · exact hS.booked.not_owned (p := q) (by rw [hq]; rfl) p h1
  by_cases hqp : q = p
  · rw [hqp] at hq
    cases he with
    | @request c m hpc hv =>
      simp only [Bio.setUser, Function.update_self, BioPc.iderwRead.injEq] at hq
      rw [← hq.1] at hd
      have h1 : (β.buf c).valid = true := hS.coherent.dirty hd
      rw [hv] at h1
      cases h1
    | ideintr | modify | logWrite => exact hold hq
    | _ =>
      simp only [Bio.setUser, Function.update_self] at hq
      cases hq
  · rw [he.user_of_ne hqp] at hq
    exact hold hq

omit [Fintype P] in
/-- Who is in `bwrite` stays there until the buffer is written. -/
theorem writes (he : Bio.Effect env β p e β') (hst : Still β p e)
    (hpc : (β.user p).pc = .iderwWrite b) :
    (β'.user p).pc = .iderwWrite b ∨ (β.buf b).dirty = false := by
  cases he with
  | @wakeWrite c hpc' hd =>
    rw [hpc] at hpc'
    obtain rfl := BioPc.iderwWrite.inj hpc'
    exact Or.inr hd
  | ideintr | modify | logWrite => exact Or.inl hpc
  | cached hpc' | request hpc' | acquiresleep hpc' | bread hpc' | wakeRead hpc' | bwrite hpc'
    | brelse hpc' | unref hpc' =>
    rw [hpc] at hpc'
    cases hpc'

end Bio.Effect

/-- A step in `bio.c` that writes nothing. -/
theorem Buffered.still {e : BioAct Block} (h : Buffered env σ) (he : Bio.Effect env σ.bio p e σ'.bio)
    (hst : Still σ.bio p e) (hok : Flushed σ.bio (p, e))
    (hpc : σ'.pc = Function.update σ.pc p x) (hmay : ∀ b, (σ.pc p).MayWrite b → x.MayWrite b)
    (hsync : ∀ b, (σ'.bio.user p).pc = .iderwWrite b → x.syncs = some b)
    (hblock : ∀ n ∈ σ.log.block, n ∈ σ'.log.block) : Buffered env σ' := by
  have hQ := he.readOnly h.cache h.reads hst
  have hcache : CacheSound env σ'.bio := ⟨h.cache.booked.effect hok he,
    h.cache.coherent.effect h.cache.booked h.cache.ring he, h.cache.ring.effect he⟩
  refine ⟨hcache, he.readsClean h.cache h.reads, fun {q b} ho hp => ?_, fun {q b} hq => ?_,
    fun {b} hd => ?_⟩
  · rw [hQ.pending] at hp
    rw [hpc, Function.update_apply]
    split_ifs with hqp
    · rw [hqp] at ho
      rcases he.owns h.cache.booked ho with ho | hnp
      · exact hmay b (h.may ho hp)
      · exact absurd hp hnp
    · rw [he.user_of_ne hqp] at ho
      exact h.may ho hp
  · rw [hpc, Function.update_apply]
    split_ifs with hqp
    · rw [hqp] at hq
      exact hsync b hq
    · rw [he.user_of_ne hqp] at hq
      exact h.syncs hq
  · have h1 := Buf.cached_inj.mp (hQ.dirty (Or.inr hd))
    rw [h1.2.1] at hd
    rw [h1.2.2.2.1]
    rcases h.dirty hd with hn | ⟨q, hq⟩
    · exact Or.inl (hblock _ hn)
    · refine Or.inr ⟨q, ?_⟩
      by_cases hqp : q = p
      · rw [hqp] at hq ⊢
        rcases he.writes hst hq with h2 | h2
        · exact h2
        · rw [hd] at h2
          cases h2
      · rwa [he.user_of_ne hqp]

/-- A step outside of `bio.c`. -/
theorem Buffered.local (h : Buffered env σ) (hbio : σ'.bio = σ.bio)
    (hpc : σ'.pc = Function.update σ.pc p x)
    (hmay : ∀ b ∈ (σ.bio.user p).owns, b ∈ σ.bio.pending → x.MayWrite b)
    (hsync : ∀ b, (σ.bio.user p).pc = .iderwWrite b → x.syncs = some b)
    (hdirty : ∀ {b}, (σ.bio.buf b).dirty = true → (σ.bio.buf b).blockno ∈ σ.log.block →
      (σ.bio.buf b).blockno ∈ σ'.log.block) : Buffered env σ' := by
  refine ⟨by rw [hbio]; exact h.cache, by rw [hbio]; exact h.reads, fun {q b} ho hp => ?_,
    fun {q b} hq => ?_, fun {b} hd => ?_⟩
  · rw [hbio] at ho hp
    rw [hpc, Function.update_apply]
    split_ifs with hqp
    · rw [hqp] at ho
      exact hmay b ho hp
    · exact h.may ho hp
  · rw [hbio] at hq
    rw [hpc, Function.update_apply]
    split_ifs with hqp
    · rw [hqp] at hq
      exact hsync b hq
    · exact h.syncs hq
  · rw [hbio] at hd ⊢
    exact (h.dirty hd).imp_left (hdirty hd)

/-! ### The buffers after a write -/

omit [Fintype P] in
/-- What a modification leaves of the buffers. -/
theorem Bio.Effect.modified {d : Block} (he : Bio.Effect env β p (.modify b d) β') (c : BufId) :
    (β'.buf c).dirty = (β.buf c).dirty ∧ (β'.buf c).dev = (β.buf c).dev ∧
      (β'.buf c).blockno = (β.buf c).blockno ∧ (c ≠ b → (β'.buf c).data = (β.buf c).data) ∧
      (β'.buf b).data = d := by
  cases he with
  | modify =>
    have hself : ∀ {x : Buf Block} {s : Finset BufId},
        ({ β.setBuf b x with pending := s } : Bio P Block).buf b = x := Bio.setBuf_self ..
    by_cases hc : c = b
    · rw [hc, hself]
      exact ⟨rfl, rfl, rfl, fun hne => absurd rfl hne, rfl⟩
    · have hne : ∀ {x : Buf Block} {s : Finset BufId},
          ({ β.setBuf b x with pending := s } : Bio P Block).buf c = β.buf c :=
        Bio.setBuf_of_ne _ _ hc
      rw [hself, hne]
      exact ⟨rfl, rfl, rfl, fun _ => rfl, rfl⟩

omit [Fintype P] [DecidableEq P] in
/-- What `log_write` and `bwrite` leave of the buffers. -/
theorem Bio.written (β : Bio P Block) (b c : BufId) :
    ((β.write b).buf c).dev = (β.buf c).dev ∧ ((β.write b).buf c).blockno = (β.buf c).blockno ∧
      ((β.write b).buf c).data = (β.buf c).data ∧
      (((β.write b).buf c).dirty = true ↔ c = b ∨ (β.buf c).dirty = true) := by
  by_cases hc : c = b
  · have h1 : (β.write b).buf c = { β.buf b with dirty := true } := by
      rw [hc]
      exact Bio.setBuf_self ..
    rw [h1, hc]
    exact ⟨rfl, rfl, rfl, by simp⟩
  · have h1 : (β.write b).buf c = β.buf c := Bio.setBuf_of_ne _ _ hc
    rw [h1]
    exact ⟨rfl, rfl, rfl, by simp [hc]⟩

theorem CacheSound.effect {e : BioAct Block} (h : CacheSound env β) (hok : Flushed β (p, e))
    (he : Bio.Effect env β p e β') : CacheSound env β' :=
  ⟨h.booked.effect hok he, h.coherent.effect h.booked h.ring he, h.ring.effect he⟩

theorem Buffered.modify {d : Block} (h : Buffered env σ)
    (he : Bio.Effect env σ.bio p (.modify b d) σ'.bio) (hpc : σ'.pc = Function.update σ.pc p x)
    (hx : x.MayWrite b) (hmay : ∀ c, (σ.pc p).MayWrite c → x.MayWrite c)
    (hlog : σ'.log = σ.log) : Buffered env σ' := by
  have hmod := he.modified
  have hcache := h.cache.effect (e := .modify b d) trivial he
  have hreads : ReadsClean σ'.bio := he.readsClean h.cache h.reads
  have hown : b ∈ (σ.bio.user p).owns ∧ (σ.bio.user p).pc = .idle ∧
      σ'.bio.pending = insert b σ.bio.pending ∧ σ'.bio.user = σ.bio.user := by
    generalize hb : σ'.bio = β' at he
    cases he with
    | modify hidle ho => exact ⟨ho, hidle, rfl, rfl⟩
  obtain ⟨ho, hidle, hpend, huser⟩ := hown
  refine ⟨hcache, hreads, fun {q c} hq hp => ?_, fun {q c} hq => ?_, fun {c} hd => ?_⟩
  · rw [huser] at hq
    rw [hpc, Function.update_apply]
    by_cases hqp : q = p
    · rw [if_pos hqp]
      rw [hqp] at hq
      rcases Finset.mem_insert.mp (hpend ▸ hp) with rfl | hp
      · exact hx
      · exact hmay c (h.may hq hp)
    · rw [if_neg hqp]
      rcases Finset.mem_insert.mp (hpend ▸ hp) with rfl | hp
      · exact absurd (h.cache.booked.holder_unique (BioUser.locks_pos_of_owns hq)
          (BioUser.locks_pos_of_owns ho)) hqp
      · exact h.may hq hp
  · rw [huser] at hq
    rw [hpc, Function.update_apply]
    by_cases hqp : q = p
    · rw [hqp, hidle] at hq
      cases hq
    · rw [if_neg hqp]
      exact h.syncs hq
  · rw [(hmod c).1] at hd
    rw [(hmod c).2.2.1, hlog, huser]
    exact h.dirty hd

theorem Buffered.bwrite (h : Buffered env σ) (ho : b ∈ (σ.bio.user p).owns)
    (he : Bio.Effect env σ.bio p (.bwrite b) σ'.bio) (hpc : σ'.pc = Function.update σ.pc p x)
    (hx : x.syncs = some b) (hmay : ∀ c, c ≠ b → (σ.pc p).MayWrite c → x.MayWrite c)
    (hlog : σ'.log = σ.log) : Buffered env σ' := by
  have hcache := h.cache.effect (e := .bwrite b) trivial he
  have hreads : ReadsClean σ'.bio := he.readsClean h.cache h.reads
  have hbio : σ'.bio = (σ.bio.write b).setUser p (.iderwWrite b) (σ.bio.user p).owns := by
    generalize hb : σ'.bio = β' at he
    cases he
    rfl
  have hself : σ'.bio.user p = ⟨.iderwWrite b, (σ.bio.user p).owns⟩ := by
    rw [hbio]
    exact Function.update_self ..
  have hother : ∀ q, q ≠ p → σ'.bio.user q = σ.bio.user q := fun q hq => he.user_of_ne hq
  have hpend : σ'.bio.pending = σ.bio.pending.erase b := by
    rw [hbio]
    rfl
  have hbuf : ∀ c, σ'.bio.buf c = (σ.bio.write b).buf c := fun c => by
    rw [hbio]
    rfl
  refine ⟨hcache, hreads, fun {q c} hq hp => ?_, fun {q c} hq => ?_, fun {c} hd => ?_⟩
  · rw [hpend] at hp
    obtain ⟨hne, hp⟩ := Finset.mem_erase.mp hp
    rw [hpc, Function.update_apply]
    split_ifs with hqp
    · rw [hqp, hself] at hq
      exact hmay c hne (h.may hq hp)
    · rw [hother q hqp] at hq
      exact h.may hq hp
  · rw [hpc, Function.update_apply]
    split_ifs with hqp
    · rw [hqp, hself] at hq
      rw [hx, BioPc.iderwWrite.inj hq]
    · rw [hother q hqp] at hq
      exact h.syncs hq
  · rw [hbuf] at hd ⊢
    obtain ⟨-, hn, -, hdirty⟩ := σ.bio.written b c
    rw [hn, hlog]
    rcases hdirty.mp hd with rfl | hd
    · exact Or.inr ⟨p, by rw [hself]⟩
    · refine (h.dirty hd).imp_right fun ⟨q, hq⟩ => ⟨q, ?_⟩
      rw [hother q]
      · exact hq
      · rintro rfl
        -- who is in `bwrite` cannot call it
        generalize hb : σ'.bio = β' at he
        cases he with
        | bwrite hidle =>
          rw [hq] at hidle
          cases hidle

/-! ### Steps that write nothing -/

omit [DecidableEq P] in
theorem alone_of_not_busy {job : P → Job} {log : Log} {booting : Bool}
    (hno : ∀ q, ¬ (job q).Busy) (hq : log.committing = true → log.outstanding = 0)
    (ho : log.outstanding = tally Job.active job) : Alone job log booting := by
  refine ⟨fun {q _} hb => absurd hb (hno q), fun {q} hj => ?_, fun {q} hj => ?_, hq, ho⟩
  · exact absurd (by rw [hj]; trivial) (hno q)
  · exact absurd (by rw [hj]; trivial) (hno q)

omit [Fintype P] in
theorem not_busy_update {job : P → Job} {j : Job} (hno : ∀ q, ¬ (job q).Busy) (hj : ¬ j.Busy) (q : P) :
    ¬ (Function.update job p j q).Busy := by
  rw [Function.update_apply]
  split_ifs
  · exact hj
  · exact hno q

omit [DecidableEq P] in
theorem Alone.congr {job job' : P → Job} {log log' : Log} {booting booting' : Bool}
    (h : Alone job log booting) (hj : job' = job) (hc : log'.committing = log.committing)
    (ho : log'.outstanding = log.outstanding) (hb : booting' = booting) :
    Alone job' log' booting' := by
  rw [hj, hb]
  exact ⟨h.busy, fun hp => hc.trans (h.commit hp), h.boot,
    fun hq => ho.trans (h.quiet (hc.symm.trans hq)), ho.trans h.out⟩

namespace Fs.Inv

theorem readOnly (h : σ.Inv env) (hQ : ReadOnly σ.bio σ'.bio)
    (hu : ∀ q, q ≠ p → σ'.bio.user q = σ.bio.user q) (hpc : σ'.pc = Function.update σ.pc p x)
    (hbuf : Buffered env σ') (halone : Alone σ'.jobs σ'.log σ'.booting)
    (hstart : σ'.log.start = σ.log.start) (hblock : σ'.log.block = σ.log.block)
    (hb : σ'.before = σ.before) (ha : σ'.after = σ.after)
    (hstage : x.job.Busy → σ'.Stage env p x)
    (hidle : (σ.jobs p).Busy → ¬ x.job.Busy → σ'.Open env) : σ'.Inv env := by
  have hself : σ'.pc p = x := by rw [hpc, Function.update_self]
  have hother : ∀ q, q ≠ p → σ'.pc q = σ.pc q := fun q hq => by
    rw [hpc, Function.update_of_ne hq]
  refine ⟨halone, hstart.trans h.start, hbuf, fun {q} hq => ?_, fun hno => ?_⟩
  · by_cases hqp : q = p
    · rw [hqp, Fs.jobs, hself] at hq
      rw [hqp, hself]
      exact hstage hq
    · rw [Fs.jobs, hother q hqp] at hq
      rw [hother q hqp]
      have hP : Persist (σ.bio.user q) (σ'.bio.user q) := by
        rw [hu q hqp]
        exact .refl _
      exact (h.stage hq).readOnly hQ hP hblock hb ha
  · have hx : ¬ x.job.Busy := by
      have := hno p
      rwa [Fs.jobs, hself] at this
    by_cases hp : (σ.jobs p).Busy
    · exact hidle hp hx
    · refine (h.idle fun q => ?_).readOnly hQ hblock hb ha
      by_cases hqp : q = p
      · rwa [hqp]
      · have := hno q
        rwa [Fs.jobs, hother q hqp] at this

/-- A step in `bio.c` that writes nothing. -/
theorem still {e : BioAct Block} (h : σ.Inv env) (he : Bio.Effect env σ.bio p e σ'.bio)
    (hst : Still σ.bio p e) (hok : Flushed σ.bio (p, e)) (hpc : σ'.pc = Function.update σ.pc p x)
    (hlog : σ'.log = σ.log) (hboot : σ'.booting = σ.booting) (hb : σ'.before = σ.before)
    (ha : σ'.after = σ.after) (hjob : x.job = (σ.pc p).job)
    (hmay : ∀ b, (σ.pc p).MayWrite b → x.MayWrite b)
    (hsync : ∀ b, (σ'.bio.user p).pc = .iderwWrite b → x.syncs = some b)
    (hstage : ReadOnly σ.bio σ'.bio → x.job.Busy → σ'.Stage env p x) : σ'.Inv env := by
  have hQ := he.readOnly h.buffered.cache h.buffered.reads hst
  refine h.readOnly hQ (fun q hq => he.user_of_ne hq) hpc
    (h.buffered.still he hst hok hpc hmay hsync ?_) ?_ (by rw [hlog]) (by rw [hlog]) hb ha
    (hstage hQ) fun hp hx => ?_
  · rw [hlog]
    exact fun n hn => hn
  · refine h.alone.congr ?_ (by rw [hlog]) (by rw [hlog]) hboot
    rw [Fs.jobs_update hpc, hjob]
    exact Function.update_eq_self ..
  · rw [hjob] at hx
    exact absurd hp hx

/-- A step outside of `bio.c`. -/
theorem inLog (h : σ.Inv env) (hbio : σ'.bio = σ.bio) (hpc : σ'.pc = Function.update σ.pc p x)
    (halone : Alone σ'.jobs σ'.log σ'.booting) (hstart : σ'.log.start = σ.log.start)
    (hblock : σ'.log.block = σ.log.block) (hb : σ'.before = σ.before) (ha : σ'.after = σ.after)
    (hmay : ∀ b ∈ (σ.bio.user p).owns, b ∈ σ.bio.pending → x.MayWrite b)
    (hidle : (σ.bio.user p).pc = .idle) (hp : (σ.jobs p).Busy → x.job.Busy)
    (hstage : x.job.Busy → σ'.Stage env p x) : σ'.Inv env := by
  have hQ : ReadOnly σ.bio σ'.bio := by
    rw [hbio]
    exact readOnly_of_cached (fun _ => rfl) rfl rfl rfl
  refine h.readOnly hQ (fun q _ => by rw [hbio]) hpc ?_ halone hstart hblock hb ha hstage
    fun h1 h2 => absurd (hp h1) h2
  refine h.buffered.local hbio hpc hmay (fun b hpc => ?_) fun _ hn => by rwa [hblock]
  rw [hidle] at hpc
  cases hpc

end Fs.Inv

/-! ### Operations -/

omit [Fintype P] in
/-- A step that writes nothing does not lead into `bwrite`. -/
theorem Bio.Effect.not_writes {e : BioAct Block} (he : Bio.Effect env β p e β') (hst : Still β p e)
    (hw : (β'.user p).pc = .iderwWrite b) : (β.user p).pc = .iderwWrite b := by
  cases he with
  | ideintr | modify | logWrite => exact hw
  | bwrite => exact hst.elim
  | _ =>
    simp only [Bio.setUser, Function.update_self] at hw
    cases hw

theorem job_eq_idle (h : x.job = .idle) : x = .user false := by
  cases x with
  | user op =>
    cases op with
    | false => rfl
    | true => cases h
  | installTrans boot | clearHead boot | finish boot => cases boot <;> cases h
  | _ => cases h

namespace Fs.Inv

omit [DecidableEq P] in
/-- While an operation is going on, nobody commits. -/
theorem not_busy (h : σ.Inv env) (hp : σ.jobs p = .op) (q : P) : ¬ (σ.jobs q).Busy := by
  intro hq
  by_cases hqp : p = q
  · rw [← hqp, hp] at hq
    exact hq
  · rw [h.alone.busy hq hqp] at hp
    cases hp

omit [DecidableEq P] in
/-- The process that commits or recovers the log. -/
theorem of_busy (hself : σ.pc p = x) (hx : x.job.Busy) (halone : Alone σ.jobs σ.log σ.booting)
    (hstart : σ.log.start = headBlock) (hbuf : Buffered env σ) (hstage : σ.Stage env p x) :
    σ.Inv env := by
  have hp : (σ.jobs p).Busy := by rwa [Fs.jobs, hself]
  refine ⟨halone, hstart, hbuf, fun {q} hq => ?_, fun hno => absurd hp (hno p)⟩
  have hqp : q = p := by
    by_contra hne
    rw [halone.busy hp hne] at hq
    exact hq
  rw [hqp, hself]
  exact hstage

theorem user_bio {op : Bool} {e : BioAct Block} (h : σ.Inv env) (hpc : σ.pc p = .user op)
    (he : Bio.Effect env σ.bio p e β') (hst : Still σ.bio p e) (hok : Flushed σ.bio (p, e)) :
    ({ σ with bio := β' }.setPc p (.user op)).Inv env := by
  refine h.still he hst hok rfl rfl rfl rfl rfl (by rw [hpc]) (fun b hb => by rwa [← hpc])
    (fun b hw => ?_) fun _ _ => trivial
  have := h.buffered.syncs (he.not_writes hst hw)
  rwa [hpc] at this

/-- A step during an operation that keeps the blocks. -/
theorem op (h : σ.Inv env) (hp : σ.jobs p = .op) (hbuf : Buffered env σ')
    (hpc : σ'.pc = Function.update σ.pc p x) (hjob : x.job = .op)
    (hc : σ'.log.committing = σ.log.committing) (ho : σ'.log.outstanding = σ.log.outstanding)
    (hstart : σ'.log.start = σ.log.start) (hboot : σ'.booting = σ.booting)
    (hopen : σ.Open env → σ'.Open env) : σ'.Inv env := by
  have hjobs : σ'.jobs = σ.jobs := by
    rw [Fs.jobs_update hpc, hjob, ← hp, Function.update_eq_self]
  refine ⟨h.alone.congr hjobs hc ho hboot, hstart.trans h.start, hbuf, fun {q} hq => ?_,
    fun _ => hopen (h.idle fun q => h.not_busy hp q)⟩
  rw [hjobs] at hq
  exact absurd hq (h.not_busy hp q)

/-- An operation modifies a block. -/
theorem user_modify {d : Block} (h : σ.Inv env) (hpc : σ.pc p = .user true)
    (he : Bio.Effect env σ.bio p (.modify b d) β') :
    ({ σ with bio := β' }.setPc p (.user true)).Inv env := by
  have hp : σ.jobs p = .op := by rw [Fs.jobs, hpc, LogPc.job]
  have hmod := he.modified
  have hsame : β'.disk = σ.bio.disk ∧ β'.content = σ.bio.content := by
    cases he
    exact ⟨rfl, rfl⟩
  refine h.op hp (h.buffered.modify (b := b) (d := d) he rfl trivial (fun _ _ => trivial) rfl) rfl
    rfl rfl rfl rfl rfl fun hO => ?_
  refine ⟨⟨?_, hO.fresh.nodup, hO.fresh.home, ?_⟩, fun n hn => ?_, hO.same⟩
  · show Encodes β'.disk [] σ.before
    rw [hsame.1]
    exact hO.fresh.enc
  · show ∀ {n}, Home n → n ∉ σ.log.block → β'.content n = σ.before n
    rw [hsame.2]
    exact hO.fresh.content
  · obtain ⟨c, h1, h2, h3⟩ := hO.pinned n hn
    obtain ⟨h4, h5, h6, -⟩ := hmod c
    exact ⟨c, h5.trans h1, h6.trans h2, h4.trans h3⟩

theorem check (h : σ.Inv env) (hpc : σ.pc p = .user true) (hidle : (σ.bio.user p).pc = .idle) :
    (σ.setPc p (.logWrite b)).Inv env := by
  have hp : σ.jobs p = .op := by rw [Fs.jobs, hpc, LogPc.job]
  refine h.op hp (h.buffered.local rfl rfl (fun _ _ _ => trivial) (fun c hc => ?_)
    fun _ hn => hn) rfl rfl rfl rfl rfl rfl fun hO => ⟨hO.fresh, hO.pinned, hO.same⟩
  rw [hidle] at hc
  cases hc

theorem logWrite (h : σ.Inv env) (hpc : σ.pc p = .logWrite b)
    (hhome : Home (σ.bio.buf b).blockno) (he : Bio.Effect env σ.bio p (.logWrite b) β') :
    ({ σ with bio := β', log := σ.log.logWrite (σ.bio.buf b).blockno }.setPc p
      (.user true)).Inv env := by
  have hp : σ.jobs p = .op := by rw [Fs.jobs, hpc, LogPc.job]
  have hblock := logWrite_block σ.log (σ.bio.buf b).blockno
  -- the block is in the header now, once
  have hmem : ∀ n, n ∈ (σ.log.logWrite (σ.bio.buf b).blockno).block ↔
      n ∈ σ.log.block ∨ n = (σ.bio.buf b).blockno := by
    intro n
    rw [hblock]
    split_ifs with hb
    · refine ⟨Or.inl, ?_⟩
      rintro (hn | rfl)
      · exact hn
      · exact hb
    · rw [List.mem_append, List.mem_singleton]
  have hcache := h.buffered.cache.effect (e := .logWrite b) trivial he
  have hreads : ReadsClean β' := he.readsClean h.buffered.cache h.buffered.reads
  cases he with
  | logWrite hidle ho =>
    have hown := (h.buffered.cache.booked.ok p).owned ho
    refine h.op hp ⟨hcache, hreads, fun {q c} hq hpe => ?_, fun {q c} hq => ?_, fun {c} hd => ?_⟩ rfl
      rfl rfl rfl rfl rfl fun hO => ?_
    · show LogPc.MayWrite c (Function.update σ.pc p (.user true) q)
      rw [Function.update_apply]
      split_ifs with hqp
      · trivial
      · exact h.buffered.may hq (Finset.mem_of_mem_erase hpe)
    · show (Function.update σ.pc p (.user true) q).syncs = some c
      rw [Function.update_apply]
      split_ifs with hqp
      · rw [hqp] at hq
        have hq' : (σ.bio.user p).pc = .iderwWrite c := hq
        rw [hidle] at hq'
        cases hq'
      · exact h.buffered.syncs hq
    · obtain ⟨-, hn, -, hdirty⟩ := σ.bio.written b c
      have hn' : ((σ.bio.write b).buf c).blockno ∈ σ.log.block ∨
          (∃ q, (σ.bio.user q).pc = .iderwWrite c) ∨ c = b := by
        rw [hn]
        rcases hdirty.mp hd with hc | hd
        · exact Or.inr (Or.inr hc)
        · exact (h.buffered.dirty hd).imp_right Or.inl
      rcases hn' with hc | hc | rfl
      · exact Or.inl ((hmem _).mpr (Or.inl hc))
      · exact Or.inr hc
      · exact Or.inl ((hmem _).mpr (Or.inr hn))
    · refine ⟨⟨hO.fresh.enc, nodup_logWrite hO.fresh.nodup _, fun n hn => ?_, fun {n} hn hnb => ?_⟩,
        fun n hn => ?_, hO.same⟩
      · rcases (hmem n).mp hn with hn | rfl
        · exact hO.fresh.home n hn
        · exact hhome
      -- outside of the header the contents are those before the group
      · obtain ⟨h1, h2⟩ := not_or.mp (mt (hmem n).mpr hnb)
        show Function.update σ.bio.content _ _ n = σ.before n
        rw [Function.update_of_ne h2]
        exact hO.fresh.content hn h1
      · rcases (hmem n).mp hn with hn | rfl
        · obtain ⟨c, h1, h2, h3⟩ := hO.pinned n hn
          obtain ⟨h4, h5, -, h6⟩ := σ.bio.written b c
          exact ⟨c, h4.trans h1, h5.trans h2, h6.mpr (Or.inr h3)⟩
        · obtain ⟨h4, h5, -, h6⟩ := σ.bio.written b b
          exact ⟨b, h4.trans hown.1, h5, h6.mpr (Or.inl rfl)⟩

theorem beginOp {log : Log} (h : σ.Inv env) (hpc : σ.pc p = .user false)
    (hboot : σ.booting = false) (hidle : (σ.bio.user p).pc = .idle)
    (hb : σ.log.beginOp = .ok log) :
    ({ σ with log := log }.setPc p (.user true)).Inv env := by
  obtain ⟨hcom, -, rfl⟩ := beginOp_ok hb
  have hp : σ.jobs p = .idle := by rw [Fs.jobs, hpc, LogPc.job]
  have hno : ∀ q, ¬ (σ.jobs q).Busy := by
    intro q hq
    cases hj : σ.jobs q with
    | commit => rw [h.alone.commit hj] at hcom; cases hcom
    | boot => rw [h.alone.boot hj] at hboot; cases hboot
    | idle | op => rw [hj] at hq; exact hq
  refine h.inLog (p := p) (x := .user true) rfl rfl ?_ rfl rfl rfl rfl (fun _ _ _ => trivial) hidle
    (fun hq => absurd hq (hno p)) fun hx => hx.elim
  rw [Fs.jobs_update (σ := σ) rfl]
  refine alone_of_not_busy (not_busy_update hno id) (fun hc => ?_) ?_
  · exact absurd (hcom.symm.trans hc) nofun
  · have h1 := tally_update Job.active σ.jobs p .op
    have h2 := h.alone.out
    rw [hp] at h1
    show σ.log.outstanding + 1 = tally Job.active (Function.update σ.jobs p .op)
    simp only [Job.active] at h1
    omega

/-- The last operation of a group ends, or another one. -/
theorem endOp {log : Log} {doCommit : Bool} (h : σ.Inv env) (hpc : σ.pc p = .user true)
    (hidle : (σ.bio.user p).pc = .idle)
    (hclean : ∀ b ∈ (σ.bio.user p).owns, b ∉ σ.bio.pending)
    (he : σ.log.endOp = .ok (log, doCommit)) :
    (if doCommit then { σ with log := log, after := σ.bio.content }.setPc p
      (if log.block.length > 0 then .writeLog 0 .lbuf else .finish false)
    else { σ with log := log }.setPc p (.user false)).Inv env := by
  have hp : σ.jobs p = .op := by rw [Fs.jobs, hpc, LogPc.job]
  have hno := h.not_busy hp
  have hpos : 0 < σ.log.outstanding := by
    have h1 := le_tally (w := Job.active) (f := σ.jobs) p
    have h2 := h.alone.out
    rw [hp] at h1
    simp only [Job.active] at h1
    omega
  have hcom : σ.log.committing = false := by
    by_contra hne
    have := h.alone.quiet (by simpa using hne)
    omega
  rw [endOp_eq σ.log hcom] at he
  obtain ⟨rfl, rfl⟩ := Prod.mk.inj (Except.ok.inj he)
  have htally : ∀ j : Job, j.active = 0 →
      σ.log.outstanding - 1 = tally Job.active (Function.update σ.jobs p j) := by
    intro j hj
    have h1 := tally_update Job.active σ.jobs p j
    have h2 := h.alone.out
    rw [hp] at h1
    simp only [Job.active] at h1 hj
    omega
  by_cases h0 : σ.log.outstanding - 1 = 0
  · simp only [h0, decide_true, if_true]
    -- the other processes are outside of operations
    have hothers : ∀ q, q ≠ p → σ.jobs q = .idle := by
      intro q hq
      have h1 := htally .idle rfl
      have h2 := le_tally (w := Job.active) (f := Function.update σ.jobs p .idle) q
      rw [Function.update_of_ne hq] at h2
      have h3 := hno q
      cases hj : σ.jobs q with
      | idle => rfl
      | op =>
        rw [hj] at h2
        simp only [Job.active] at h2
        omega
      | commit | boot =>
        rw [hj] at h3
        exact absurd trivial h3
    have hO := h.idle hno
    have hbuf : ∀ x : LogPc, x.syncs = none → Buffered env (({ σ with
        log := { σ.log with outstanding := σ.log.outstanding - 1, committing := true }
        after := σ.bio.content } : Fs P).setPc p x) := by
      intro x hx
      refine h.buffered.local rfl rfl (fun b ho hb => absurd hb (hclean b ho)) (fun b hb => ?_)
        fun _ hn => hn
      rw [hidle] at hb
      cases hb
    have halone : ∀ x : LogPc, x.job = .commit → Alone ((({ σ with
        log := { σ.log with outstanding := σ.log.outstanding - 1, committing := true }
        after := σ.bio.content } : Fs P).setPc p x).jobs)
        { σ.log with outstanding := σ.log.outstanding - 1, committing := true } σ.booting := by
      intro x hx
      rw [Fs.jobs_update (σ := σ) rfl, hx]
      refine ⟨fun {q r} hq hr => ?_, fun _ => rfl, fun {q} hq => ?_, fun _ => h0, htally .commit rfl⟩
      · have hqp : q = p := by
          by_contra hne
          rw [Function.update_of_ne hne] at hq
          exact hno q hq
        rw [hqp] at hr
        rw [Function.update_of_ne hr]
        exact hothers r hr
      · rw [Function.update_apply] at hq
        split_ifs at hq
        exact absurd (by rw [hq]; trivial) (hno q)
    have hno_reads : ∀ {b m}, (σ.bio.user p).pc.reads ≠ some (b, m) := by
      intro b m
      rw [hidle]
      nofun
    rw [h0] at hbuf halone
    split_ifs with hlen
    · refine of_busy (p := p) (Function.update_self ..) trivial (halone _ rfl) h.start (hbuf _ rfl)
        ⟨hO.fresh, fun _ => rfl, Or.inr ⟨rfl, rfl, hidle, hO.pinned⟩, ⟨Or.inr hlen, nofun, fun _ => ?_⟩⟩
      exact fun hm => absurd hm hno_reads
    · have hnil : σ.log.block = [] := List.eq_nil_of_length_eq_zero (by omega)
      refine of_busy (p := p) (Function.update_self ..) trivial (halone _ rfl) h.start (hbuf _ rfl)
        ⟨hnil, σ.bio.content, Or.inl rfl, hO.fresh.enc.header, copied_nil fun n hn => ?_⟩
      have hnot : n ∉ σ.log.block := by
        rw [hnil]
        exact List.not_mem_nil
      exact (hO.fresh.enc.copied.rest hn List.not_mem_nil).trans (hO.fresh.content hn hnot).symm
  · rw [if_neg (by simpa using h0)]
    refine h.inLog (p := p) (x := .user false) rfl rfl ?_ rfl rfl rfl rfl
      (fun b ho hb => absurd hb (hclean b ho)) hidle (fun hq => absurd hq (hno p)) fun hx => hx.elim
    rw [Fs.jobs_update (σ := σ) rfl]
    exact alone_of_not_busy (not_busy_update hno id) of_decide_eq_true (htally .idle rfl)

end Fs.Inv

end OsSemester.Xv6
