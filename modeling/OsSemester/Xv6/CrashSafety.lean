import OsSemester.Xv6.Spec.Commit

/-!
# The redo log survives crashes
-/

namespace OsSemester.Xv6

variable {P : Type} {env : BioEnv P} {β β' : Bio P Block} {σ σ' : Fs P} {p q : P} {b c l h : BufId}
variable {n m : Blockno} {i tail : ℕ} {v : Block} {L : List Blockno} {T T' : Blockno → Block}
variable {disk disk' : Blockno → Block} {toLog boot : Bool} {x : LogPc}

variable [Fintype P] [DecidableEq P]

/-! ### The steps of `commit` and `recover_from_log` -/

namespace Fs.Inv

/-- The process stays busy with what it does. -/
theorem keep (h : σ.Inv env) (hp : (σ.jobs p).Busy) (hpc : σ'.pc = Function.update σ.pc p x)
    (hjob : x.job = (σ.pc p).job) (hc : σ'.log.committing = σ.log.committing)
    (ho : σ'.log.outstanding = σ.log.outstanding) (hstart : σ'.log.start = σ.log.start)
    (hboot : σ'.booting = σ.booting) (hbuf : Buffered env σ') (hstage : σ'.Stage env p x) :
    σ'.Inv env := by
  have hself : σ'.pc p = x := by rw [hpc, Function.update_self]
  have hjobs : σ'.jobs = σ.jobs := by
    rw [Fs.jobs_update hpc, hjob]
    exact Function.update_eq_self ..
  refine of_busy hself ?_ (h.alone.congr hjobs hc ho hboot) (hstart.trans h.start) hbuf hstage
  rw [hjob]
  exact hp

/-- A step inside of a call of `bread`, `bwrite` or `brelse`. -/
theorem busy_bio {e : BioAct Block} (h : σ.Inv env) (hp : (σ.jobs p).Busy)
    (hne : (σ.bio.user p).pc ≠ .idle) (he : Bio.Effect env σ.bio p e β') :
    ({ σ with bio := β' }.setPc p
      ((σ.pc p).resume (σ.bio.user p).pc (β'.user p).pc)).Inv env := by
  have hS := h.buffered.cache
  have hs := h.stage hp
  by_cases hst : Still σ.bio p e
  · have hok : Flushed σ.bio (p, e) := by
      cases he with
      | brelse hpc => exact absurd hpc hne
      | _ => trivial
    refine h.still he hst hok rfl rfl rfl rfl rfl (LogPc.job_resume ..)
      (fun b hb => LogPc.mayWrite_resume hb ..) (fun b hw => ?_) fun hQ _ => ?_
    · have hw : (β'.user p).pc = .iderwWrite b := hw
      rw [LogPc.resume_busy _ (by rw [hw]; nofun)]
      exact h.buffered.syncs (he.not_writes hst hw)
    -- the call goes on, has got its buffer, or has written it
    · rcases he.going hS hst hne with ⟨hP, hres⟩ | ⟨b, k, hr, hb, hidle, ho, hres⟩ |
        ⟨b, hpc, hd, hres⟩
      · rw [hres]
        exact hs.readOnly hQ hP rfl rfl rfl
      · rw [hres]
        exact hs.got hQ hr hb hidle ho rfl rfl rfl
      · rw [hres]
        exact hs.written hS hQ (h.buffered.syncs hpc) hd rfl rfl rfl
  · -- the disk writes the buffer
    obtain ⟨b, hpc⟩ : ∃ b, (σ.bio.user p).pc = .iderwWrite b := by
      by_contra hno
      cases he with
      | modify hpc | logWrite hpc | bwrite hpc => exact hne hpc
      | ideintr => exact hst fun b hb => hno ⟨b, hb⟩
      | _ => exact hst trivial
    have he' : e = .ideintr := by
      cases he with
      | modify hpc | logWrite hpc | bwrite hpc => exact absurd hpc hne
      | ideintr => rfl
      | _ => exact absurd trivial hst
    subst he'
    have hW := he.diskWrite hS hpc
    have hsync := h.buffered.syncs hpc
    rw [LogPc.resume_busy _ (by rw [hW.user]; exact hne)]
    have hpc' : Function.update σ.pc p (σ.pc p) = σ.pc := Function.update_eq_self ..
    refine h.keep hp rfl rfl rfl rfl rfl rfl ⟨hS.effect (e := .ideintr) trivial he,
      he.readsClean hS h.buffered.reads, fun {q c} hq hc => ?_, fun {q c} hq => ?_,
      fun {c} hd => ?_⟩ (hs.diskWrite hW hsync rfl rfl rfl)
    · have hq : c ∈ (β'.user q).owns := hq
      have hc : c ∈ β'.pending := hc
      rw [hW.user] at hq
      rw [hW.pending] at hc
      simp only [Fs.setPc, hpc']
      exact h.buffered.may hq hc
    · have hq : (β'.user q).pc = .iderwWrite c := hq
      rw [hW.user] at hq
      simp only [Fs.setPc, hpc']
      exact h.buffered.syncs hq
    · obtain ⟨h1, -, h2⟩ := hW.buf c
      show (β'.buf c).blockno ∈ σ.log.block ∨ ∃ q, (β'.user q).pc = .iderwWrite c
      rw [h1, hW.user]
      exact h.buffered.dirty (h2 hd)

omit [DecidableEq P] in
theorem pc_of_ne (h : σ.Inv env) (hp : (σ.jobs p).Busy) (hq : q ≠ p) : σ.pc q = .user false :=
  job_eq_idle (h.alone.busy hp hq)

omit [DecidableEq P] in
theorem nothing_pending (h : σ.Inv env) (hp : (σ.jobs p).Busy)
    (hmay : ∀ b, ¬ (σ.pc p).MayWrite b) (b : BufId) : b ∉ σ.bio.pending := by
  intro hb
  obtain ⟨q, hq, -⟩ := h.buffered.cache.booked.pending hb
  have h1 := h.buffered.may hq hb
  by_cases hqp : q = p
  · rw [hqp] at h1
    exact hmay b h1
  · rw [h.pc_of_ne hp hqp] at h1
    exact h1

omit [DecidableEq P] in
theorem nobody_writes (h : σ.Inv env) (hp : (σ.jobs p).Busy) (hsync : (σ.pc p).syncs = none)
    (q : P) (b : BufId) : (σ.bio.user q).pc ≠ .iderwWrite b := by
  intro hw
  have h1 := h.buffered.syncs hw
  by_cases hqp : q = p
  · rw [hqp, hsync] at h1
    cases h1
  · rw [h.pc_of_ne hp hqp] at h1
    cases h1

omit [DecidableEq P] in
/-- A block that is not in the log is on the disk. -/
theorem settled (h : σ.Inv env) (hp : (σ.jobs p).Busy) (hmay : ∀ b, ¬ (σ.pc p).MayWrite b)
    (hsync : (σ.pc p).syncs = none) (hn : n ∉ σ.log.block) :
    σ.bio.disk n = σ.bio.content n := by
  have hC := h.buffered.cache.coherent
  by_cases hb : ∃ b, (σ.bio.buf b).dev = env.dev ∧ (σ.bio.buf b).blockno = n
  · obtain ⟨b, h1, rfl⟩ := hb
    refine hC.clean h1 ?_ (h.nothing_pending hp hmay b)
    by_contra hd
    rw [Bool.not_eq_false] at hd
    rcases h.buffered.dirty hd with h2 | ⟨q, h2⟩
    · exact hn h2
    · exact h.nobody_writes hp hsync q b h2
  · exact hC.uncached fun b h1 h2 => hb ⟨b, h1, h2⟩

omit [DecidableEq P] in
/-- What the process has read. -/
theorem data (h : σ.Inv env) (hp : (σ.jobs p).Busy) (hmay : ∀ b, ¬ (σ.pc p).MayWrite b)
    (hb : Has σ.bio p b n) : (σ.bio.buf b).data = σ.bio.content n := by
  have hv := ((h.buffered.cache.booked.ok p).owned hb.1).2
  rw [h.buffered.cache.coherent.data hv (h.nothing_pending hp hmay b), hb.2]

end Fs.Inv

namespace Fs.Inv

/-- A call of `bread` or `brelse`. -/
theorem call_still {e : BioAct Block} (h : σ.Inv env) (hp : (σ.jobs p).Busy)
    (hmay : ∀ b, ¬ (σ.pc p).MayWrite b) (hsync : (σ.pc p).syncs = none)
    (hs : σ.call env p e x = .ok σ') (hst : Still σ.bio p e) (hjob : x.job = (σ.pc p).job)
    (hstage : ∀ β', Bio.Effect env σ.bio p e β' → ReadOnly σ.bio β' →
      Fs.Stage env ({ σ with bio := β' }.setPc p x) p x) : σ'.Inv env := by
  obtain ⟨β', he, rfl⟩ := call_ok hs
  have hok : Flushed σ.bio (p, e) := by
    cases he with
    | @brelse b => exact h.nothing_pending hp hmay b
    | _ => trivial
  refine h.still he hst hok rfl rfl rfl rfl rfl hjob (fun b hb => absurd hb (hmay b))
    (fun b hw => ?_) fun hQ _ => hstage β' he hQ
  exact absurd (he.not_writes hst hw) (h.nobody_writes hp hsync p b)

/-- A statement that modifies a buffer. -/
theorem call_modify {d : Block} (h : σ.Inv env) (hp : (σ.jobs p).Busy)
    (hmay : ∀ b, ¬ (σ.pc p).MayWrite b) (hs : σ.call env p (.modify b d) x = .ok σ')
    (hjob : x.job = (σ.pc p).job) (hx : x.MayWrite b)
    (hstage : ∀ β', Bio.Effect env σ.bio p (.modify b d) β' → β'.disk = σ.bio.disk →
      β'.content = σ.bio.content → Fs.Stage env ({ σ with bio := β' }.setPc p x) p x) :
    σ'.Inv env := by
  obtain ⟨β', he, rfl⟩ := call_ok hs
  have hsame : β'.disk = σ.bio.disk ∧ β'.content = σ.bio.content := by
    cases he
    exact ⟨rfl, rfl⟩
  exact h.keep hp rfl hjob rfl rfl rfl rfl
    (h.buffered.modify (b := b) (d := d) he rfl hx (fun c hc => absurd hc (hmay c)) rfl)
    (hstage β' he hsame.1 hsame.2)

/-- A call of `bwrite`. -/
theorem call_bwrite (h : σ.Inv env) (hp : (σ.jobs p).Busy)
    (hmay : ∀ c, c ≠ b → ¬ (σ.pc p).MayWrite c) (hs : σ.call env p (.bwrite b) x = .ok σ')
    (hjob : x.job = (σ.pc p).job) (hx : x.syncs = some b)
    (hstage : ∀ β', Bio.Effect env σ.bio p (.bwrite b) β' → β'.disk = σ.bio.disk →
      (∀ n, n ≠ (σ.bio.buf b).blockno → β'.content n = σ.bio.content n) →
      Fs.Stage env ({ σ with bio := β' }.setPc p x) p x) : σ'.Inv env := by
  obtain ⟨β', he, rfl⟩ := call_ok hs
  have ho : b ∈ (σ.bio.user p).owns ∧ β'.disk = σ.bio.disk ∧
      ∀ n, n ≠ (σ.bio.buf b).blockno → β'.content n = σ.bio.content n := by
    cases he with
    | bwrite _ ho => exact ⟨ho, rfl, fun n hn => Function.update_of_ne hn ..⟩
  exact h.keep hp rfl hjob rfl rfl rfl rfl
    (h.buffered.bwrite ho.1 he rfl hx (fun c hne hc => absurd hc (hmay c hne)) rfl)
    (hstage β' he ho.2.1 ho.2.2)

theorem writeLog {c : CopyPc} (h : σ.Inv env) (hpc : σ.pc p = .writeLog tail c)
    (hidle : (σ.bio.user p).pc = .idle) (hs : σ.writeLog env p tail c = .ok σ') :
    σ'.Inv env := by
  have hp : (σ.jobs p).Busy := by
    rw [Fs.jobs, hpc]
    trivial
  have hstage := h.stage hp
  rw [hpc] at hstage
  obtain ⟨h1, h2, h3, h4⟩ := hstage
  have hsame : ∀ {β' : Bio P Block}, β'.disk = σ.bio.disk →
      (∀ {n}, Home n → β'.content n = σ.bio.content n) →
      Fresh β' σ.log.block σ.before ∧ ∀ {n}, Home n → β'.content n = σ.after n := by
    intro β' hd hc
    refine ⟨⟨?_, h1.nodup, h1.home, fun hn hnl => (hc hn).trans (h1.content hn hnl)⟩,
      fun hn => (hc hn).trans (h2 hn)⟩
    rw [hd]
    exact h1.enc
  have hkeep : ∀ {β' : Bio P Block}, ReadOnly σ.bio β' →
      Fresh β' σ.log.block σ.before ∧ ∀ {n}, Home n → β'.content n = σ.after n :=
    fun hQ => hsame hQ.disk fun _ => by rw [hQ.content]
  have hroom : c ≠ .lbuf → σ.log.block.length < LOGSIZE := by
    intro hc
    rcases h3 with h3 | ⟨-, h3, -⟩
    · exact h3
    · exact absurd h3 hc
  unfold Fs.writeLog at hs
  cases c with
  | lbuf =>
    simp only [Fs.copyLoop] at hs
    split_ifs at hs with htail
    · refine h.call_still hp (by rw [hpc]; exact fun _ h => h) (by rw [hpc]; rfl) hs trivial
        (by rw [hpc]) fun β' he hQ => ?_
      obtain ⟨hask, ho⟩ := he.asks
      refine ⟨(hkeep hQ).1, (hkeep hQ).2, Or.inl ?_, h4.ask hQ ho (List.getElem?_eq_getElem htail)
        (Or.inl ⟨rfl, ?_⟩)⟩
      · rcases h3 with h3 | ⟨h3, -, -, hpin⟩
        · exact h3
        · cases he with
          | bread _ hb =>
            refine pinned_room hpin h1.nodup h1.home ?_ hb
            rw [h.start, h3]
            exact not_home_logBlock (i := 0) (by decide)
      · rwa [h.start] at hask
    · obtain rfl := Except.ok.inj hs
      refine h.keep hp rfl (by rw [hpc]; rfl) rfl rfl rfl rfl
        (h.buffered.local rfl rfl (fun b _ hb => ?_) (fun b hb => ?_) fun _ hn => hn)
        ⟨⟨h1.nodup, h1.home, ?_, fun {i n} hi => ?_, fun {n} hn hnl => ?_⟩, Or.inl h1.enc,
          asks_idle hidle⟩
      · exact absurd hb (h.nothing_pending hp (by rw [hpc]; exact fun _ h => h) b)
      · rw [hidle] at hb
        cases hb
      · rcases h3 with h3 | ⟨h3, -⟩
        · exact h3
        · show σ.log.block.length < LOGSIZE
          have : 0 < LOGSIZE := by decide
          omega
      · have hlt : i < σ.log.block.length := (List.getElem?_eq_some_iff.mp hi).1
        exact (h4.done (by omega) hi).disk
      · exact (h1.enc.copied.rest hn List.not_mem_nil).trans
          ((h1.content hn hnl).symm.trans (h2 hn))
  | hbuf l =>
    simp only [Fs.copyLoop] at hs
    split at hs
    · cases hs
    · rename_i n hn
      refine h.call_still hp (by rw [hpc]; exact fun _ h => h) (by rw [hpc]; rfl) hs trivial
        (by rw [hpc]) fun β' he hQ => ?_
      obtain ⟨hask, ho⟩ := he.asks
      exact ⟨(hkeep hQ).1, (hkeep hQ).2, Or.inl (hroom fun h => by cases h),
        h4.ask hQ ho hn (Or.inr ⟨⟨l, rfl⟩, hask⟩)⟩
  | move l k =>
    simp only [Fs.copyLoop, if_true] at hs
    refine h.call_modify hp (by rw [hpc]; exact fun _ h => h) hs (by rw [hpc]; rfl) rfl
      fun β' he hd hc => ?_
    obtain ⟨h1', h2'⟩ := hsame hd fun _ => by rw [hc]
    refine ⟨h1', h2', Or.inl (hroom fun h => by cases h), h4.move he fun {n} hn => ?_⟩
    -- the home block is read from the cache
    have hb := (h4.body hn).2
    rw [h.data hp (by rw [hpc]; exact fun _ h => h) hb]
    exact h2 (h1.home n (List.mem_of_getElem? hn))
  | write l k =>
    simp only [Fs.copyLoop, if_true] at hs
    obtain ⟨n, hn⟩ : ∃ n, σ.log.block[tail]? = some n :=
      ⟨_, List.getElem?_eq_getElem (h4.inside.resolve_left fun h => by cases h.1)⟩
    have hblock : (σ.bio.buf l).blockno = logBlock tail := (h4.body hn).1.2
    have hnot : ¬ Home (logBlock tail) := by
      have := (List.getElem?_eq_some_iff.mp hn).1
      have := hroom fun h => by cases h
      exact not_home_logBlock (by omega)
    refine h.call_bwrite hp (by rw [hpc]; exact fun c hc h => hc h) hs (by rw [hpc]; rfl) rfl
      fun β' he hd hc => ?_
    have hcont : ∀ {n}, Home n → β'.content n = σ.bio.content n := by
      intro n hn
      refine hc n ?_
      rw [hblock]
      rintro rfl
      exact hnot hn
    obtain ⟨h1', h2'⟩ := hsame hd hcont
    refine ⟨h1', h2', Or.inl (hroom fun h => by cases h), h4.write he fun hi _ _ he => ?_⟩
    exact absurd (logBlock_inj he) hi.ne
  | sync l k => cases hs
  | rel1 l k =>
    simp only [Fs.copyLoop, if_true] at hs
    exact h.call_still hp (by rw [hpc]; exact fun _ h => h) (by rw [hpc]; rfl) hs trivial
      (by rw [hpc]; rfl) fun β' he hQ =>
        ⟨(hkeep hQ).1, (hkeep hQ).2, Or.inl (hroom fun h => by cases h), h4.rel1 hQ⟩
  | rel2 b =>
    simp only [Fs.copyLoop] at hs
    exact h.call_still hp (by rw [hpc]; exact fun _ h => h) (by rw [hpc]; rfl) hs trivial
      (by rw [hpc]; rfl) fun β' he hQ =>
        ⟨(hkeep hQ).1, (hkeep hQ).2, Or.inl (hroom fun h => by cases h), h4.rel2 hQ he.reads_none⟩

theorem installTrans {c : CopyPc} (h : σ.Inv env) (hpc : σ.pc p = .installTrans boot tail c)
    (hidle : (σ.bio.user p).pc = .idle) (hs : σ.installTrans env p boot tail c = .ok σ') :
    σ'.Inv env := by
  have hp : (σ.jobs p).Busy := by
    rw [Fs.jobs, hpc]
    cases boot <;> trivial
  have hstage := h.stage hp
  rw [hpc] at hstage
  obtain ⟨T, ht, henc, hl⟩ := hstage
  have hkeep : ∀ {β' : Bio P Block}, β'.disk = σ.bio.disk →
      Encodes β'.disk σ.log.block T := by
    intro β' hd
    rw [hd]
    exact henc
  unfold Fs.installTrans at hs
  cases c with
  | lbuf =>
    simp only [Fs.copyLoop] at hs
    split_ifs at hs with htail
    · refine h.call_still hp (by rw [hpc]; exact fun _ h => h) (by rw [hpc]; rfl) hs trivial
        (by rw [hpc]) fun β' he hQ => ?_
      obtain ⟨hask, ho⟩ := he.asks
      refine ⟨T, ht, hkeep hQ.disk, hl.ask hQ ho (List.getElem?_eq_getElem htail)
        (Or.inl ⟨rfl, ?_⟩)⟩
      rwa [h.start] at hask
    · obtain rfl := Except.ok.inj hs
      -- everything is installed
      have hdone : ∀ {n}, n ∈ σ.log.block → Synced σ.bio n (T n) := by
        intro n hn
        obtain ⟨i, hi⟩ := List.mem_iff_getElem?.mp hn
        have hlt : i < σ.log.block.length := (List.getElem?_eq_some_iff.mp hi).1
        exact hl.done (by omega) hi
      refine h.keep hp rfl (by rw [hpc]; rfl) rfl rfl rfl rfl
        (h.buffered.local rfl rfl (fun b _ hb => ?_) (fun b hb => ?_) fun {b} hd hn => ?_)
        ⟨rfl, T, ht, fun n hn => ?_, ⟨_, henc⟩, asks_idle hidle⟩
      · exact absurd hb (h.nothing_pending hp (by rw [hpc]; exact fun _ h => h) b)
      · rw [hidle] at hb
        cases hb
      · exact absurd rfl ((hdone hn).clean hd)
      · by_cases hnl : n ∈ σ.log.block
        · exact (hdone hnl).disk
        · exact henc.copied.rest hn hnl
  | hbuf l =>
    simp only [Fs.copyLoop] at hs
    split at hs
    · cases hs
    · rename_i n hn
      refine h.call_still hp (by rw [hpc]; exact fun _ h => h) (by rw [hpc]; rfl) hs trivial
        (by rw [hpc]) fun β' he hQ => ?_
      obtain ⟨hask, ho⟩ := he.asks
      exact ⟨T, ht, hkeep hQ.disk, hl.ask hQ ho hn (Or.inr ⟨⟨l, rfl⟩, hask⟩)⟩
  | move l k =>
    simp only [Fs.copyLoop, Bool.false_eq_true, if_false] at hs
    refine h.call_modify hp (by rw [hpc]; exact fun _ h => h) hs (by rw [hpc]; rfl) rfl
      fun β' he hd hc => ⟨T, ht, hkeep hd, hl.move he fun {n} hn => ?_⟩
    -- the log block is read from the disk or from the cache
    have hb := (hl.body hn).1
    have hnot := henc.copied.not_home hn
    rw [h.data hp (by rw [hpc]; exact fun _ h => h) hb,
      ← h.settled hp (by rw [hpc]; exact fun _ h => h) (by rw [hpc]; rfl)
        fun hm => hnot (henc.copied.home _ hm)]
    exact henc.copied.logged hn
  | write l k =>
    simp only [Fs.copyLoop, Bool.false_eq_true, if_false] at hs
    refine h.call_bwrite hp (by rw [hpc]; exact fun c hc h => hc h) hs (by rw [hpc]; rfl) rfl
      fun β' he hd hc => ⟨T, ht, hkeep hd, hl.write he fun {i n m} hi hm hn he => ?_⟩
    have he : m = n := he
    have hlt : i < σ.log.block.length := (List.getElem?_eq_some_iff.mp hm).1
    exact hi.ne ((List.getElem?_inj hlt henc.copied.nodup).mp (hm.trans (he ▸ hn.symm)))
  | sync l k => cases hs
  | rel1 l k =>
    simp only [Fs.copyLoop, Bool.false_eq_true, if_false] at hs
    exact h.call_still hp (by rw [hpc]; exact fun _ h => h) (by rw [hpc]; rfl) hs trivial
      (by rw [hpc]; rfl) fun β' he hQ => ⟨T, ht, hkeep hQ.disk, hl.rel1 hQ⟩
  | rel2 b =>
    simp only [Fs.copyLoop] at hs
    exact h.call_still hp (by rw [hpc]; exact fun _ h => h) (by rw [hpc]; rfl) hs trivial
      (by rw [hpc]; rfl) fun β' he hQ => ⟨T, ht, hkeep hQ.disk, hl.rel2 hQ he.reads_none⟩

omit [Fintype P] [DecidableEq P] in
/-- The loop of `install_trans` begins. -/
theorem loop_start (hr : (β.user p).pc.reads = none) : LoopAt β p toLog L T 0 .lbuf := by
  refine ⟨Or.inl ⟨rfl, hr⟩, nofun, fun {n} _ {b m} hm => ?_⟩
  rw [hr] at hm
  cases hm

theorem writeHead {hd : HeadPc} (h : σ.Inv env) (hpc : σ.pc p = .writeHead hd)
    (hs : σ.writeHead env p .writeHead (.installTrans false 0 .lbuf) hd = .ok σ') :
    σ'.Inv env := by
  have hp : (σ.jobs p).Busy := by
    rw [Fs.jobs, hpc]
    trivial
  have hstage := h.stage hp
  rw [hpc] at hstage
  obtain ⟨hcop, henc, hh⟩ := hstage
  have hkeep : ∀ {β' : Bio P Block}, β'.disk = σ.bio.disk →
      Copied β'.disk σ.log.block σ.after ∧ (Encodes β'.disk [] σ.before ∨
        (β'.disk headBlock).header = σ.log.block) := by
    intro β' hd
    rw [hd]
    exact ⟨hcop, henc⟩
  cases hd with
  | buf =>
    refine h.call_still hp (by rw [hpc]; exact fun _ h => h) (by rw [hpc]; rfl) hs trivial
      (by rw [hpc]) fun β' he hQ => ⟨(hkeep hQ.disk).1, (hkeep hQ.disk).2, ?_⟩
    have hask : Asks β' p σ.log.start := he.asks.1
    rwa [h.start] at hask
  | fill b =>
    exact h.call_modify hp (by rw [hpc]; exact fun _ h => h) hs (by rw [hpc]; rfl) rfl
      fun β' he hd hc => ⟨(hkeep hd).1, (hkeep hd).2, hh.fill he hcop.room hcop.home⟩
  | write b =>
    exact h.call_bwrite hp (by rw [hpc]; exact fun c hc h => hc h) hs (by rw [hpc]; rfl) rfl
      fun β' he hd hc => ⟨(hkeep hd).1, (hkeep hd).2, hh.write he⟩
  | sync b => cases hs
  | rel b =>
    refine h.call_still hp (by rw [hpc]; exact fun _ h => h) (by rw [hpc]; rfl) hs trivial
      (by rw [hpc]; rfl) fun β' he hQ => ⟨σ.after, Or.inl rfl, ⟨?_, (hkeep hQ.disk).1⟩,
        loop_start he.reads_none⟩
    exact (congrArg (fun d : Blockno → Block => (d headBlock).header) hQ.disk).trans hh

theorem clearHead {hd : HeadPc} (h : σ.Inv env) (hpc : σ.pc p = .clearHead boot hd)
    (hs : σ.writeHead env p (.clearHead boot) (.finish boot) hd = .ok σ') : σ'.Inv env := by
  have hp : (σ.jobs p).Busy := by
    rw [Fs.jobs, hpc]
    cases boot <;> trivial
  have hstage := h.stage hp
  rw [hpc] at hstage
  obtain ⟨h0, T, ht, hhome, hex, hh⟩ := hstage
  have hkeep : ∀ {β' : Bio P Block}, β'.disk = σ.bio.disk →
      (∀ n, Home n → β'.disk n = T n) ∧ ∃ L, Encodes β'.disk L T := by
    intro β' hd
    rw [hd]
    exact ⟨hhome, hex⟩
  cases hd with
  | buf =>
    refine h.call_still hp (by rw [hpc]; exact fun _ h => h) (by rw [hpc]; rfl) hs trivial
      (by rw [hpc]) fun β' he hQ => ⟨h0, T, ht, (hkeep hQ.disk).1, (hkeep hQ.disk).2, ?_⟩
    have hask : Asks β' p σ.log.start := he.asks.1
    rwa [h.start] at hask
  | fill b =>
    refine h.call_modify hp (by rw [hpc]; exact fun _ h => h) hs (by rw [hpc]; rfl) rfl
      fun β' he hd hc => ⟨h0, T, ht, (hkeep hd).1, (hkeep hd).2, ?_⟩
    rw [h0] at he
    exact hh.fill he (by decide) fun _ h => absurd h List.not_mem_nil
  | write b =>
    exact h.call_bwrite hp (by rw [hpc]; exact fun c hc h => hc h) hs (by rw [hpc]; rfl) rfl
      fun β' he hd hc => ⟨h0, T, ht, (hkeep hd).1, (hkeep hd).2, hh.write he⟩
  | sync b => cases hs
  | rel b =>
    refine h.call_still hp (by rw [hpc]; exact fun _ h => h) (by rw [hpc]; rfl) hs trivial
      (by rw [hpc]; rfl) fun β' he hQ => ⟨h0, T, ht, ?_, copied_nil (hkeep hQ.disk).1⟩
    exact (congrArg (fun d : Blockno → Block => (d headBlock).header) hQ.disk).trans hh

theorem readHead {hd : HeadPc} (h : σ.Inv env) (hpc : σ.pc p = .readHead hd)
    (hidle : (σ.bio.user p).pc = .idle) (hs : σ.readHead env p hd = .ok σ') : σ'.Inv env := by
  have hp : (σ.jobs p).Busy := by
    rw [Fs.jobs, hpc]
    trivial
  have hstage := h.stage hp
  rw [hpc] at hstage
  obtain ⟨⟨T, L, ht, henc⟩, hh⟩ := hstage
  cases hd with
  | buf =>
    refine h.call_still hp (by rw [hpc]; exact fun _ h => h) (by rw [hpc]; rfl) hs trivial
      (by rw [hpc]) fun β' he hQ => ⟨⟨T, L, ht, by rw [← hQ.disk] at henc; exact henc⟩, ?_, hh.2⟩
    have hask : Asks β' p σ.log.start := he.asks.1
    rwa [h.start] at hask
  | fill b =>
    obtain rfl := Except.ok.inj hs
    have hdata : (σ.bio.buf b).data = σ.bio.disk headBlock := by
      rw [h.data hp (by rw [hpc]; exact fun _ h => h) hh.1,
        h.settled hp (by rw [hpc]; exact fun _ h => h) (by rw [hpc]; rfl)]
      rw [hh.2]
      exact List.not_mem_nil
    refine h.keep hp rfl (by rw [hpc]; rfl) rfl rfl rfl rfl
      (h.buffered.local rfl rfl (fun b _ hb => ?_) (fun b hb => ?_) fun {b} hd hn => ?_)
      ⟨⟨T, L, ht, henc⟩, congrArg Block.header hdata⟩
    · exact absurd hb (h.nothing_pending hp (by rw [hpc]; exact fun _ h => h) b)
    · rw [hidle] at hb
      cases hb
    · rw [hh.2] at hn
      exact absurd hn List.not_mem_nil
  | rel b =>
    refine h.call_still hp (by rw [hpc]; exact fun _ h => h) (by rw [hpc]; rfl) hs trivial
      (by rw [hpc]; rfl) fun β' he hQ => ⟨T, ht, ?_, loop_start he.reads_none⟩
    have hL : σ.log.block = L := Eq.trans hh henc.header
    show Encodes β'.disk σ.log.block T
    rw [hQ.disk, hL]
    exact henc
  | write b | sync b => cases hs

/-- The end of a commit or of the recovery: what the disk encodes is the content now. -/
theorem finished (h : σ.Inv env) (hpc : σ.pc p = .finish boot) (hidle : (σ.bio.user p).pc = .idle)
    (hbio : σ'.bio = σ.bio) (hpc' : σ'.pc = Function.update σ.pc p (.user false))
    (hblock : σ'.log.block = σ.log.block) (hstart : σ'.log.start = σ.log.start)
    (hc : σ'.log.committing = true → σ'.log.outstanding = 0)
    (ho : σ'.log.outstanding = σ.log.outstanding) (henc : Encodes σ.bio.disk [] σ'.before)
    (hsame : ∀ {n}, Home n → σ'.after n = σ'.before n) : σ'.Inv env := by
  have hp : (σ.jobs p).Busy := by
    rw [Fs.jobs, hpc]
    cases boot <;> trivial
  have hstage := h.stage hp
  rw [hpc] at hstage
  have hnil : σ.log.block = [] := hstage.1
  have hjobs : σ'.jobs = Function.update σ.jobs p .idle := Fs.jobs_update hpc'
  have hno : ∀ q, ¬ (σ'.jobs q).Busy := by
    intro q hq
    rw [hjobs, Function.update_apply] at hq
    split_ifs at hq with hqp
    · exact hq
    · rw [h.alone.busy hp hqp] at hq
      exact hq
  refine ⟨alone_of_not_busy hno hc ?_, hstart.trans h.start,
    h.buffered.local hbio hpc' (fun b _ hb => ?_) (fun b hb => ?_) fun _ hn => by rwa [hblock],
    fun {q} hq => absurd hq (hno q), fun _ => ⟨⟨by rwa [hbio], ?_, ?_, fun {n} hn _ => ?_⟩, ?_, hsame⟩⟩
  · have h1 := tally_update Job.active σ.jobs p .idle
    have h2 := h.alone.out
    have h3 : (σ.jobs p).active = 0 := by
      rw [Fs.jobs, hpc]
      cases boot <;> rfl
    have h4 : Job.idle.active = 0 := rfl
    rw [hjobs, ho]
    omega
  · exact absurd hb (h.nothing_pending hp (by rw [hpc]; exact fun _ h => h) b)
  · rw [hidle] at hb
    cases hb
  · rw [hblock, hnil]
    exact List.nodup_nil
  · rw [hblock, hnil]
    exact fun _ h => absurd h List.not_mem_nil
  · rw [hbio, ← h.settled hp (by rw [hpc]; exact fun _ h => h) (by rw [hpc]; rfl)]
    · exact henc.copied.rest hn List.not_mem_nil
    · rw [hnil]
      exact List.not_mem_nil
  · rw [hblock, hnil]
    exact fun _ h => absurd h List.not_mem_nil

theorem finish (h : σ.Inv env) (hpc : σ.pc p = .finish boot)
    (hidle : (σ.bio.user p).pc = .idle) : (σ.finish p boot).Inv env := by
  have hp : (σ.jobs p).Busy := by
    rw [Fs.jobs, hpc]
    cases boot <;> trivial
  have hstage := h.stage hp
  rw [hpc] at hstage
  obtain ⟨-, T, ht, henc⟩ := hstage
  cases boot with
  | false =>
    rcases ht with rfl | ⟨hf, -⟩
    · exact h.finished hpc hidle rfl rfl rfl rfl (fun h => by cases h) rfl henc fun _ => rfl
    · cases hf
  | true =>
    exact h.finished hpc hidle rfl rfl rfl rfl h.alone.quiet rfl
      ⟨henc.header, copied_nil fun _ _ => rfl⟩ fun _ => rfl

/-- The next statement. -/
theorem next (h : σ.Inv env) (hidle : (σ.bio.user p).pc = .idle)
    (hs : σ.next env p (σ.pc p) = .ok σ') : σ'.Inv env := by
  cases hpc : σ.pc p with
  | user | logWrite =>
    rw [hpc] at hs
    cases hs
  | writeLog tail c =>
    rw [hpc] at hs
    exact h.writeLog hpc hidle hs
  | writeHead hd =>
    rw [hpc] at hs
    exact h.writeHead hpc hs
  | readHead hd =>
    rw [hpc] at hs
    exact h.readHead hpc hidle hs
  | installTrans boot tail c =>
    rw [hpc] at hs
    exact h.installTrans hpc hidle hs
  | clearHead boot hd =>
    rw [hpc] at hs
    exact h.clearHead hpc hs
  | finish boot =>
    rw [hpc] at hs
    obtain rfl := Except.ok.inj hs
    exact h.finish hpc hidle

/-- **One step.** -/
theorem step {a : P × FsAct} (hdev : env.dev ≠ 0) (h : σ.Inv env) (hok : Disciplined σ a)
    (hs : σ.step env a.1 a.2 = .ok σ') : σ'.Inv env := by
  obtain ⟨p, a⟩ := a
  simp only [Fs.step] at hs
  split at hs
  · obtain rfl := Except.ok.inj hs
    exact Fs.inv_crash hdev h.encodes p
  -- a call of the buffer cache in an operation
  · rename_i op e hpc
    split_ifs at hs with hboot
    split at hs
    · cases hs
    · cases hs
    · rename_i hnb hnl
      obtain ⟨β', he, rfl⟩ := call_ok hs
      by_cases hm : ∃ b d, e = .modify b d
      · obtain ⟨b, d, rfl⟩ := hm
        have hop := hok.1
        rw [hpc] at hop
        obtain rfl := LogPc.user.inj hop
        exact h.user_modify hpc he
      · have hst : Still σ.bio p e := by
          cases e with
          | modify b d => exact absurd ⟨b, d, rfl⟩ hm
          | bwrite b => exact absurd rfl (hnb b)
          | logWrite b => exact absurd rfl (hnl b)
          | ideintr =>
            intro b hb
            have := h.buffered.syncs hb
            rw [hpc] at this
            cases this
          | _ => trivial
        have hfl : Flushed σ.bio (p, e) := by
          cases e with
          | brelse b => exact hok
          | _ => trivial
        exact h.user_bio hpc he hst hfl
  · rename_i hpc
    split_ifs at hs with hboot hidle
    split at hs
    · cases hs
    · rename_i log hb
      obtain rfl := Except.ok.inj hs
      exact h.beginOp hpc (by simpa using hboot) hidle hb
  · rename_i op b hpc
    split_ifs at hs with hboot hidle
    split at hs
    · cases hs
    · obtain rfl := Except.ok.inj hs
      exact h.check hok hidle.1
  · rename_i b hpc
    have hhome : Home (σ.bio.buf b).blockno := by
      simp only [Disciplined, hpc] at hok
      exact hok
    obtain ⟨β', he, rfl⟩ := call_ok hs
    exact h.logWrite hpc hhome he
  · rename_i hpc
    split_ifs at hs with hboot hidle
    split at hs
    · cases hs
    · rename_i log he
      obtain rfl := Except.ok.inj hs
      exact h.endOp hpc hidle hok he
    · rename_i log he
      obtain rfl := Except.ok.inj hs
      exact h.endOp hpc hidle hok he
  · cases hs
  · cases hs
  · rename_i e hu hl
    split_ifs at hs with hidle
    -- a process in the middle of a commit or of the recovery
    have hp : (σ.jobs p).Busy := by
      rw [Fs.jobs]
      cases hpc : σ.pc p with
      | user op => exact (hu op hpc).elim
      | logWrite b => exact (hl b hpc).elim
      | installTrans boot | clearHead boot | finish boot => cases boot <;> trivial
      | _ => trivial
    unfold Fs.bioStep at hs
    split at hs
    · cases hs
    · rename_i β' hβ
      obtain rfl := Except.ok.inj hs
      exact h.busy_bio hp hidle (Bio.step_effect hβ)
  · split_ifs at hs with hidle
    exact h.next hidle hs
  · cases hs

end Fs.Inv

theorem Reach.fsInv (hdev : env.dev ≠ 0) (h : (fsSystem P env).Reach Disciplined σ) : σ.Inv env := by
  refine h.invariant ?_ fun σ a σ' hI hok hs => hI.step hdev hok hs
  rintro _ ⟨disk, p, hd, rfl⟩
  exact Fs.inv_crash hdev ⟨disk, [], Or.inl rfl, hd, copied_nil fun _ _ => rfl⟩ p

/-! ### The main result -/

/-- **Crash atomicity of the redo log.** When a recovery completes, after whatever crashes, the blocks
of the file system have their content from before the group of operations that was being committed, or
all of them that from after it.  Outside of commits the two are one, and it is the content of the
blocks that have not been logged since; a commit starts when the last operation has ended, with the
content that the blocks have then. -/
theorem crash_atomicity (hdev : env.dev ≠ 0) (h : (fsSystem P env).Reach Disciplined σ) :
    (∀ p σ', σ.pc p = .finish true → σ.step env p .next = .ok σ' →
      (∀ n, Home n → σ'.bio.disk n = σ.before n) ∨ ∀ n, Home n → σ'.bio.disk n = σ.after n) ∧
    ((∀ p, ¬ (σ.jobs p).Busy) → ∀ n, Home n → σ.after n = σ.before n ∧
      (n ∉ σ.log.block → σ.bio.content n = σ.before n)) ∧
    (∀ p σ', Disciplined σ (p, .endOp) → σ.step env p .endOp = .ok σ' → σ'.pc p ≠ .user false →
      σ'.before = σ.before ∧ σ'.after = σ.bio.content ∧ ∀ q, q ≠ p → σ'.pc q = .user false) := by
  have hI := Reach.fsInv hdev h
  refine ⟨fun p σ' hpc hs => ?_, fun hno n hn => ?_, fun p σ' hok hs hne => ?_⟩
  · have hp : (σ.jobs p).Busy := by
      rw [Fs.jobs, hpc]
      trivial
    have hstage := hI.stage hp
    rw [hpc] at hstage
    obtain ⟨-, T, ht, henc⟩ := hstage
    simp only [Fs.step, hpc, Fs.next] at hs
    split_ifs at hs
    obtain rfl := Except.ok.inj hs
    have hdisk : ∀ n, Home n → σ.bio.disk n = T n :=
      fun n hn => henc.copied.rest hn List.not_mem_nil
    rcases ht with rfl | ⟨-, rfl⟩
    · exact Or.inr hdisk
    · exact Or.inl hdisk
  · have hO := hI.idle hno
    exact ⟨hO.same hn, hO.fresh.content hn⟩
  · have hI' : σ'.Inv env := hI.step (a := (p, .endOp)) hdev hok hs
    cases hpc : σ.pc p with
    | user op =>
      cases op with
      | false =>
        simp only [Fs.step, hpc] at hs
        cases hs
      | true =>
        simp only [Fs.step, hpc] at hs
        split_ifs at hs
        split at hs
        · cases hs
        · obtain rfl := Except.ok.inj hs
          exact absurd (Function.update_self ..) hne
        · obtain rfl := Except.ok.inj hs
          refine ⟨rfl, rfl, fun q hq => hI'.pc_of_ne (p := p) ?_ hq⟩
          simp only [Fs.jobs, Fs.setPc, Function.update_self]
          split_ifs <;> trivial
    | _ =>
      simp only [Fs.step, hpc] at hs
      cases hs

/-- Block 100 is written by one operation, the machine stops when the header of its commit has been
written and before the block is installed, and the recovery installs it. -/
theorem crash_atomicity_installed : ∃ σ σ' : Fs Unit,
    σ.step ⟨1, true, fun _ => 1⟩ () .next = .ok σ' ∧ σ.before 100 ≠ σ.after 100 ∧
    ((∀ n, Home n → σ'.bio.disk n = σ.before n) ∨ ∀ n, Home n → σ'.bio.disk n = σ.after n) := by
  let env : BioEnv Unit := ⟨1, true, fun _ => 1⟩
  let disk : Blockno → Block := fun _ => 0
  let written : Block := fun i => if i.val = 0 then 1 else 0
  let σ₀ : Fs Unit :=
    .crash ⟨Bio.boot disk, initlog mkfsSuperblock, fun _ => .user false, true, disk, disk⟩ ()
  -- the calls of `log.c`; `hit` finds its block in the cache
  let hit : List FsAct := [.next, .bio .acquiresleep, .bio .test]
  let bread : List FsAct := hit ++ [.bio .ideintr, .bio .wake]
  let bwrite : List FsAct := [.next, .bio .ideintr, .bio .wake]
  let brelse : List FsAct := [.next, .bio .unref]
  let next : List FsAct := [.next]
  let readHead : List FsAct := bread ++ next ++ brelse
  let clearHead : List FsAct := hit ++ next ++ bwrite ++ brelse
  let op : List FsAct := [.beginOp, .bio (.bread 100), .bio .acquiresleep, .bio .test,
    .bio .ideintr, .bio .wake, .bio (.modify 1 written), .check 1, .logWrite, .bio (.brelse 1),
    .bio .unref, .endOp]
  let writeLog : List FsAct := bread ++ hit ++ next ++ bwrite ++ brelse ++ brelse ++ next
  let install : List FsAct := bread ++ bread ++ next ++ bwrite ++ brelse ++ brelse ++ next
  let stopped : List FsAct := hit ++ next ++ [.next, .bio .ideintr, .crash]
  let as : List (Unit × FsAct) := (readHead ++ next ++ clearHead ++ next ++ op ++ writeLog ++
    stopped ++ readHead ++ install ++ clearHead).map fun a => ((), a)
  have hok : (fsSystem Unit env).Obeys Disciplined σ₀ as := by decide +kernel
  have hrun : (fsSystem Unit env).Ends (fun σ => σ.pc () = .finish true ∧
      (σ.bio.user ()).pc = .idle ∧ σ.before 100 ⟨0, by decide⟩ = 0 ∧
      σ.after 100 ⟨0, by decide⟩ = 1) σ₀ as := by decide +kernel
  have hempty : (disk mkfsSuperblock.logstart).header = [] := by decide +kernel
  obtain ⟨σ, hσ, hpc, hidle, hb, ha⟩ := System.Reach.of_ends (S := fsSystem Unit env) as
    ⟨disk, (), hempty, rfl⟩ hok hrun
  have hs : σ.step env () .next = .ok (σ.finish () true) := by
    simp [Fs.step, Fs.next, hpc, hidle]
  refine ⟨σ, _, hs, fun h => ?_, (crash_atomicity (by decide) hσ).1 () _ hpc hs⟩
  rw [h, ha] at hb
  exact absurd hb (by decide)

end OsSemester.Xv6
