import OsSemester.Xv6.Inv.Buffered

/-!
# The parts of `commit` and of `recover_from_log`

What the calls that return, the writes that reach the disk and the statements of the two loops and of
the header preserve.
-/

namespace OsSemester.Xv6

variable {P : Type} {env : BioEnv P} {β β' : Bio P Block} {σ σ' : Fs P} {p q : P} {b c l h : BufId}
variable {n m : Blockno} {i tail : ℕ} {v : Block} {L : List Blockno} {T T' : Blockno → Block}
variable {disk disk' : Blockno → Block} {toLog boot : Bool} {x : LogPc}

variable [Fintype P] [DecidableEq P]

/-! ### Inside of the calls that `commit` and `recover_from_log` make -/

namespace LogPc

theorem job_resume (pc : LogPc) (o o' : BioPc) : (pc.resume o o').job = pc.job := by
  unfold resume
  split
  all_goals
    try unfold map
    cases pc <;> rfl

theorem mayWrite_map {f : CopyPc → CopyPc} {g : HeadPc → HeadPc}
    (hf : ∀ l h, f (.write l h) = .write l h) (hg : ∀ c, g (.write c) = .write c) {pc : LogPc}
    (h : pc.MayWrite b) : (pc.map f g).MayWrite b := by
  cases pc with
  | writeLog tail c | installTrans boot tail c =>
    cases c with
    | write l k =>
      simp only [map, hf]
      exact h
    | _ => exact h.elim
  | writeHead hd | clearHead boot hd =>
    cases hd with
    | write c =>
      simp only [map, hg]
      exact h
    | _ => exact h.elim
  | readHead => exact h.elim
  | _ => exact h

theorem mayWrite_resume {pc : LogPc} (h : pc.MayWrite b) (o o' : BioPc) :
    (pc.resume o o').MayWrite b := by
  unfold resume
  split
  · exact mayWrite_map (fun _ _ => rfl) (fun _ => rfl) h
  · exact mayWrite_map (fun _ _ => rfl) (fun _ => rfl) h
  · exact mayWrite_map (fun _ _ => rfl) (fun _ => rfl) h
  · exact h

theorem resume_busy (pc : LogPc) {o o' : BioPc} (h : o' ≠ .idle) : pc.resume o o' = pc := by
  unfold resume
  split <;> first | rfl | exact absurd rfl h

end LogPc

section Got

variable {k : Blockno} (hQ : ReadOnly β β') (hr : (β.user p).pc.reads = some (b, k))
variable (hb : Has β' p b k) (hidle : (β'.user p).pc = .idle)
variable (ho : (β.user p).owns ⊆ (β'.user p).owns)

include hr hidle ho

omit [Fintype P] [DecidableEq P] in
theorem persist_got : Persist (β.user p) (β'.user p) := by
  refine ⟨ho, fun hm => ?_, fun hw => ?_, fun hi => ?_⟩
  · rw [hidle] at hm
    cases hm
  · rw [hw] at hr
    cases hr
  · rw [hi] at hr
    cases hr

include hQ hb

omit [Fintype P] [DecidableEq P] in
/-- In the loop, `bread` returns. -/
theorem CopyAt.got {c : CopyPc} (hc : CopyAt β p toLog tail n v c) :
    CopyAt β' p toLog tail n v (c.got b) := by
  have hP := persist_got hr hidle ho
  have hno : ∀ {m}, Asks β' p m := fun hm => by
    rw [hidle] at hm
    cases hm
  cases c with
  | lbuf => exact ⟨(hc hr) ▸ hb, hno⟩
  | hbuf l => exact ⟨hc.1.readOnly hQ ho, (hc.2 hr) ▸ hb⟩
  | _ => exact hQ.copyAt hP hc

omit [Fintype P] [DecidableEq P] in
theorem LoopAt.got {c : CopyPc} (hl : LoopAt β p toLog L T tail c) :
    LoopAt β' p toLog L T tail (c.got b) := by
  refine ⟨Or.inr ?_, fun hi hn => hQ.synced (hl.done hi hn),
    fun hn => (hl.body hn).got hQ hr hb hidle ho⟩
  rcases hl.inside with ⟨-, h⟩ | h
  · rw [h] at hr
    cases hr
  · exact h

omit [Fintype P] [DecidableEq P] in
/-- In `write_head`, `bread` returns. -/
theorem HeadAt.got {hd : HeadPc} (hh : HeadAt β p L hd) : HeadAt β' p L (hd.got b) := by
  have hP := persist_got hr hidle ho
  cases hd with
  | buf =>
    show Has β' p b headBlock
    rw [← hh hr]
    exact hb
  | _ => exact hQ.headAt hP hh

end Got

omit [Fintype P] [DecidableEq P] in
/-- `bread` returns to `commit` or `recover_from_log`. -/
theorem Fs.Stage.got {pc : LogPc} {k : Blockno} (hs : σ.Stage env p pc)
    (hQ : ReadOnly σ.bio σ'.bio) (hr : (σ.bio.user p).pc.reads = some (b, k))
    (hb : Has σ'.bio p b k) (hidle : (σ'.bio.user p).pc = .idle)
    (ho : (σ.bio.user p).owns ⊆ (σ'.bio.user p).owns) (hl : σ'.log.block = σ.log.block)
    (hbe : σ'.before = σ.before) (ha : σ'.after = σ.after) :
    σ'.Stage env p (pc.map (.got b) (.got b)) := by
  have hP := persist_got hr hidle ho
  have hs' := hs.readOnly hQ hP hl hbe ha
  cases pc with
  | user | logWrite | finish => exact hs'
  | writeLog tail c =>
    obtain ⟨-, -, h3, h4⟩ := hs
    obtain ⟨h1, h2, -, -⟩ := hs'
    have h5 := h4.got hQ hr hb hidle ho
    rw [← hl, ← ha] at h5
    refine ⟨h1, h2, Or.inl ?_, h5⟩
    rw [hl]
    rcases h3 with h3 | ⟨-, -, h3, -⟩
    · exact h3
    · rw [h3] at hr
      cases hr
  | writeHead hd =>
    have h5 := hs.2.2.got hQ hr hb hidle ho
    rw [← hl] at h5
    exact ⟨hs'.1, hs'.2.1, h5⟩
  | readHead hd =>
    refine ⟨hs'.1, ?_⟩
    cases hd with
    | buf =>
      refine ⟨?_, hs'.2.2⟩
      rw [← hs.2.1 hr]
      exact hb
    | _ => exact hs'.2
  | installTrans boot tail c =>
    obtain ⟨T, h1, h2, h3⟩ := hs
    obtain ⟨T', h1', h2', -⟩ := hs'
    have h5 := h3.got hQ hr hb hidle ho
    rw [← hl] at h5
    rw [Fs.Target, ← hbe, ← ha] at h1
    rw [← hl, ← hQ.disk] at h2
    exact ⟨T, h1, h2, h5⟩
  | clearHead boot hd =>
    obtain ⟨-, -, -, -, -, h4⟩ := hs
    obtain ⟨h0, T, h1, h2, h3, -⟩ := hs'
    exact ⟨h0, T, h1, h2, h3, h4.got hQ hr hb hidle ho⟩

omit [DecidableEq P] in
/-- A buffer that has been written is settled. -/
theorem Syncing.synced (hS : CacheSound env β) (hQ : ReadOnly β β') (hs : Syncing β p b n v)
    (hd : (β.buf b).dirty = false) : Synced β' n v := by
  refine hQ.synced ⟨hs.done hd, fun {c} hc he => ?_⟩
  have h1 := ((hS.booked.ok p).owned hs.has.1).1
  have h2 := hS.coherent.valid (hS.coherent.dirty hc)
  obtain rfl := hS.coherent.unique h2 h1 (he.trans hs.has.2.symm)
  rw [hd] at hc
  cases hc

omit [DecidableEq P] in
/-- `bwrite` returns to `commit` or `recover_from_log`. -/
theorem Fs.Stage.written {pc : LogPc} (hs : σ.Stage env p pc) (hS : CacheSound env σ.bio)
    (hQ : ReadOnly σ.bio σ'.bio) (hsync : pc.syncs = some b)
    (hd : (σ.bio.buf b).dirty = false) (hl : σ'.log.block = σ.log.block)
    (hbe : σ'.before = σ.before) (ha : σ'.after = σ.after) :
    σ'.Stage env p (pc.map .written .written) := by
  cases pc with
  | user | logWrite | finish | readHead => cases hsync
  | writeLog tail c =>
    cases c with
    | sync l h =>
      obtain rfl := Option.some.inj hsync
      obtain ⟨h1, h2, h3, h4⟩ := hs
      refine ⟨?_, ?_, ?_, ?_⟩
      · rw [hl, hbe]
        exact hQ.fresh h1
      · rw [ha, hQ.content]
        exact h2
      · rw [hl]
        rcases h3 with h3 | ⟨-, h3, -⟩
        · exact Or.inl h3
        · cases h3
      · rw [hl, ha]
        exact ⟨Or.inr (h4.inside.resolve_left nofun), fun hi hn => hQ.synced (h4.done hi hn),
          fun hn => (h4.body hn).synced hS hQ hd⟩
    | _ => cases hsync
  | installTrans boot tail c =>
    cases c with
    | sync l h =>
      obtain rfl := Option.some.inj hsync
      obtain ⟨T, h1, h2, h3⟩ := hs
      rw [Fs.Target, ← hbe, ← ha] at h1
      refine ⟨T, h1, ?_, ?_⟩
      · rw [hQ.disk, hl]
        exact h2
      · rw [hl]
        exact ⟨Or.inr (h3.inside.resolve_left nofun), fun hi hn => hQ.synced (h3.done hi hn),
          fun hn => (h3.body hn).synced hS hQ hd⟩
    | _ => cases hsync
  | writeHead hd' =>
    cases hd' with
    | sync c =>
      obtain rfl := Option.some.inj hsync
      obtain ⟨h1, h2, v, hv, h3⟩ := hs
      rw [← hl, ← ha, ← hQ.disk] at h1
      rw [← hl, ← hbe, ← hQ.disk] at h2
      refine ⟨h1, h2, ?_⟩
      show (σ'.bio.disk headBlock).header = σ'.log.block
      rw [hQ.disk, h3.done hd, hv, hl]
    | _ => cases hsync
  | clearHead boot hd' =>
    cases hd' with
    | sync c =>
      obtain rfl := Option.some.inj hsync
      obtain ⟨h0, T, h1, h2, ⟨L, h3⟩, v, hv, h4⟩ := hs
      rw [Fs.Target, ← hbe, ← ha] at h1
      rw [← hQ.disk] at h2 h3
      refine ⟨hl.trans h0, T, h1, h2, ⟨L, h3⟩, ?_⟩
      show (σ'.bio.disk headBlock).header = []
      rw [hQ.disk, h4.done hd, hv]
    | _ => cases hsync

/-! ### Writes to the disk -/

/-- The disk has written the buffer `b`. -/
structure DiskWrite (β β' : Bio P Block) (b : BufId) : Prop where
  disk : β'.disk = Function.update β.disk (β.buf b).blockno (β.buf b).data
  content : β'.content = β.content
  pending : β'.pending = β.pending
  user : β'.user = β.user
  buf : ∀ c, (β'.buf c).blockno = (β.buf c).blockno ∧ (β'.buf c).data = (β.buf c).data ∧
    ((β'.buf c).dirty = true → (β.buf c).dirty = true)

omit [DecidableEq P] in
theorem Bio.Effect.diskWrite [DecidableEq P] (hS : CacheSound env β)
    (he : Bio.Effect env β p .ideintr β') (hpc : (β.user p).pc = .iderwWrite b) :
    DiskWrite β β' b := by
  cases he with
  | @ideintr c n disk x hpc' hdone hx =>
    rw [hpc] at hpc'
    rcases hpc' with hpc' | hpc'
    · cases hpc'
    obtain rfl := BioPc.iderwWrite.inj hpc'
    have hv := ((hS.booked.ok p).owned ((hS.booked.ok p).writes hpc)).2
    have hd : (β.buf b).dirty = true := by
      rw [Buf.done, hv, Bool.true_and] at hdone
      simpa using hdone
    unfold Buf.ideintr at hx
    simp only [hd, if_true] at hx
    split_ifs at hx
    obtain ⟨rfl, rfl⟩ := Prod.mk.inj (Except.ok.inj hx)
    refine ⟨rfl, rfl, rfl, rfl, fun c => ?_⟩
    by_cases hc : c = b
    · rw [hc]
      have hself : ∀ {x : Buf Block} {disk : Blockno → Block},
          ({ β.setBuf b x with disk := disk } : Bio P Block).buf b = x := Bio.setBuf_self ..
      rw [hself]
      exact ⟨rfl, rfl, (fun h => by cases h)⟩
    · have hne : ∀ {x : Buf Block} {disk : Blockno → Block},
          ({ β.setBuf b x with disk := disk } : Bio P Block).buf c = β.buf c :=
        Bio.setBuf_of_ne _ _ hc
      rw [hne]
      exact ⟨rfl, rfl, id⟩

namespace DiskWrite

variable (hW : DiskWrite β β' b)

include hW

omit [Fintype P] [DecidableEq P] in
theorem disk_of_ne (hn : n ≠ (β.buf b).blockno) : β'.disk n = β.disk n := by
  rw [hW.disk, Function.update_of_ne hn]

omit [Fintype P] [DecidableEq P] in
theorem disk_self (hn : n = (β.buf b).blockno) : β'.disk n = (β.buf b).data := by
  rw [hW.disk, hn, Function.update_self]

omit [Fintype P] [DecidableEq P] in
theorem synced (hs : Synced β n v) (hv : n = (β.buf b).blockno → (β.buf b).data = v) :
    Synced β' n v := by
  refine ⟨?_, fun {c} hd => ?_⟩
  · by_cases hn : n = (β.buf b).blockno
    · rw [hW.disk_self hn, hv hn]
    · rw [hW.disk_of_ne hn, hs.disk]
  · obtain ⟨h1, -, h2⟩ := hW.buf c
    rw [h1]
    exact hs.clean (h2 hd)

omit [Fintype P] [DecidableEq P] in
theorem syncing (hs : Syncing β p b n v) : Syncing β' p b n v := by
  obtain ⟨h1, h2, -⟩ := hW.buf b
  refine ⟨⟨?_, h1.trans hs.has.2⟩, ?_, h2.trans hs.data, fun _ => ?_⟩
  · rw [hW.user]
    exact hs.has.1
  · rw [hW.user]
    exact hs.pc
  · rw [hW.disk_self hs.has.2.symm, hs.data]

omit [Fintype P] [DecidableEq P] in
/-- A write outside of the file system's blocks and of the header. -/
theorem encodes_nil (he : Encodes β.disk [] T) (h1 : (β.buf b).blockno ≠ headBlock)
    (h2 : ¬ Home (β.buf b).blockno) : Encodes β'.disk [] T := by
  refine ⟨?_, copied_nil fun n hn => ?_⟩
  · rw [hW.disk_of_ne h1.symm]
    exact he.header
  · rw [hW.disk_of_ne (by rintro rfl; exact h2 hn)]
    exact he.copied.rest hn List.not_mem_nil

end DiskWrite

omit [Fintype P] [DecidableEq P] in
theorem Fs.Stage.diskWrite {pc : LogPc} (hs : σ.Stage env p pc) (hW : DiskWrite σ.bio σ'.bio b)
    (hsync : pc.syncs = some b) (hl : σ'.log.block = σ.log.block) (hbe : σ'.before = σ.before)
    (ha : σ'.after = σ.after) : σ'.Stage env p pc := by
  cases pc with
  | user | logWrite | finish | readHead => cases hsync
  | writeLog tail c =>
    cases c with
    | sync l h =>
      obtain rfl := Option.some.inj hsync
      obtain ⟨h1, h2, h3, h4⟩ := hs
      have h3 : σ.log.block.length < LOGSIZE := by
        rcases h3 with h3 | ⟨-, h3, -⟩
        · exact h3
        · cases h3
      obtain ⟨n, hn⟩ : ∃ n, σ.log.block[tail]? = some n :=
        ⟨_, List.getElem?_eq_getElem (h4.inside.resolve_left nofun)⟩
      have h5 : Syncing σ.bio p l (logBlock tail) (σ.after n) := h4.body hn
      have hnot : ¬ Home (σ.bio.buf l).blockno := by
        rw [h5.has.2]
        have := (List.getElem?_eq_some_iff.mp hn).1
        exact not_home_logBlock (by omega)
      refine ⟨?_, ?_, Or.inl (hl ▸ h3), ?_⟩
      · rw [hl, hbe]
        refine ⟨hW.encodes_nil h1.enc ?_ hnot, h1.nodup, h1.home, ?_⟩
        · rw [h5.has.2]
          exact logBlock_ne_head
        · rw [hW.content]
          exact h1.content
      · rw [ha, hW.content]
        exact h2
      · rw [hl, ha]
        refine ⟨Or.inr (h4.inside.resolve_left nofun), fun {i m} hi hm => ?_, fun {m} hm => ?_⟩
        · refine hW.synced (h4.done hi hm) fun he => ?_
          rw [h5.has.2] at he
          exact absurd (logBlock_inj he) hi.ne
        · obtain rfl := Option.some.inj (hn.symm.trans hm)
          exact hW.syncing h5
    | _ => cases hsync
  | installTrans boot tail c =>
    cases c with
    | sync l h =>
      obtain rfl := Option.some.inj hsync
      obtain ⟨T, h1, h2, h3⟩ := hs
      obtain ⟨n, hn⟩ : ∃ n, σ.log.block[tail]? = some n :=
        ⟨_, List.getElem?_eq_getElem (h3.inside.resolve_left nofun)⟩
      have h5 : Syncing σ.bio p h n (T n) := h3.body hn
      have hmem : n ∈ σ.log.block := List.mem_of_getElem? hn
      have hhome : Home n := h2.copied.home n hmem
      rw [Fs.Target, ← hbe, ← ha] at h1
      refine ⟨T, h1, ?_, ?_⟩
      · -- the block is one of those to be installed
        rw [hl]
        refine ⟨?_, h2.copied.congr (fun m _ hm => ?_) fun i m hi => ?_⟩
        · rw [hW.disk_of_ne, h2.header]
          rw [h5.has.2]
          rintro he
          exact not_home_head (he ▸ hhome)
        · refine hW.disk_of_ne ?_
          rw [h5.has.2]
          rintro rfl
          exact hm hmem
        · refine hW.disk_of_ne ?_
          rw [h5.has.2]
          rintro he
          exact h2.copied.not_home hi (he ▸ hhome)
      · rw [hl]
        refine ⟨Or.inr (h3.inside.resolve_left nofun), fun {i m} hi hm => ?_, fun {m} hm => ?_⟩
        · refine hW.synced (h3.done hi hm) fun he => ?_
          have he : m = n := he.trans h5.has.2
          rw [h5.data, he]
        · obtain rfl := Option.some.inj (hn.symm.trans hm)
          exact hW.syncing h5
    | _ => cases hsync
  | writeHead hd' =>
    cases hd' with
    | sync c =>
      obtain rfl := Option.some.inj hsync
      obtain ⟨h1, h2, v, hv, h3⟩ := hs
      -- the commit
      have hhead : σ'.bio.disk headBlock = v := by
        rw [hW.disk_self h3.has.2.symm, h3.data]
      have hne : ∀ {n}, n ≠ headBlock → σ'.bio.disk n = σ.bio.disk n := fun hn =>
        hW.disk_of_ne (by rwa [h3.has.2])
      refine ⟨?_, Or.inr (by rw [hhead, hv, hl]), v, by rw [hv, hl], hW.syncing h3⟩
      rw [hl, ha]
      refine h1.congr (fun m hm _ => hne ?_) fun i m hi => hne logBlock_ne_head
      rintro rfl
      exact not_home_head hm
    | _ => cases hsync
  | clearHead boot hd' =>
    cases hd' with
    | sync c =>
      obtain rfl := Option.some.inj hsync
      obtain ⟨h0, T, h1, h2, -, v, hv, h4⟩ := hs
      rw [Fs.Target, ← hbe, ← ha] at h1
      have hhome : ∀ n, Home n → σ'.bio.disk n = T n := by
        intro n hn
        rw [hW.disk_of_ne, h2 n hn]
        rw [h4.has.2]
        rintro rfl
        exact not_home_head hn
      refine ⟨hl.trans h0, T, h1, hhome, ⟨[], ?_, copied_nil hhome⟩, v, hv, hW.syncing h4⟩
      rw [hW.disk_self h4.has.2.symm, h4.data, hv]
    | _ => cases hsync

omit [Fintype P] [DecidableEq P] in
theorem persist_call {u u' : BioUser} (hu : u'.owns = u.owns)
    (hreads : ∀ {b m}, u'.pc.reads = some (b, m) → u.pc.reads = some (b, m))
    (hw : ∀ {b}, u.pc ≠ .iderwWrite b) (hi : u.pc ≠ .idle) : Persist u u' :=
  ⟨hu.ge, fun hm => ⟨_, hreads hm⟩, fun h => absurd h hw, fun h => absurd h hi⟩

/-- What a call does that writes nothing: it goes on, `bread` returns a buffer, or `bwrite` returns. -/
theorem Bio.Effect.going {e : BioAct Block} (hS : CacheSound env β)
    (he : Bio.Effect env β p e β') (hst : Still β p e) (hne : (β.user p).pc ≠ .idle) :
    (Persist (β.user p) (β'.user p) ∧
      ∀ pc : LogPc, pc.resume (β.user p).pc (β'.user p).pc = pc) ∨
    (∃ b k, (β.user p).pc.reads = some (b, k) ∧ Has β' p b k ∧ (β'.user p).pc = .idle ∧
      (β.user p).owns ⊆ (β'.user p).owns ∧
      ∀ pc : LogPc, pc.resume (β.user p).pc (β'.user p).pc = pc.map (.got b) (.got b)) ∨
    (∃ b, (β.user p).pc = .iderwWrite b ∧ (β.buf b).dirty = false ∧
      ∀ pc : LogPc, pc.resume (β.user p).pc (β'.user p).pc = pc.map .written .written) := by
  cases he with
  | bread hpc | modify hpc | logWrite hpc | bwrite hpc | brelse hpc => exact absurd hpc hne
  | @acquiresleep b n lk hpc | @request b n hpc =>
    refine Or.inl ⟨persist_call ?_ (fun {c m} hm => ?_) (by rw [hpc]; intro _ h; cases h) hne, fun pc => ?_⟩
    · simp [Bio.setUser]
    · simp only [Bio.setUser, Function.update_self] at hm
      rwa [hpc]
    · exact LogPc.resume_busy _ (by simp [Bio.setUser])
  | @cached b n hpc hv | @wakeRead b n hpc hv =>
    have hreads : (β.user p).pc.reads = some (b, n) := by rw [hpc]; rfl
    refine Or.inr (Or.inl ⟨b, n, hreads, ⟨?_, ((hS.booked.ok p).reads hreads).2⟩, ?_, ?_,
      fun pc => ?_⟩)
    · simp [Bio.setUser]
    · simp [Bio.setUser]
    · simp [Bio.setUser]
    · simp only [Bio.setUser, Function.update_self, hpc]
      rfl
  | @ideintr b n disk x hpc _ hx =>
    exact Or.inl ⟨.refl _, fun pc => LogPc.resume_busy _ hne⟩
  | @wakeWrite b hpc hd =>
    refine Or.inr (Or.inr ⟨b, hpc, hd, fun pc => ?_⟩)
    simp only [Bio.setUser, Function.update_self, hpc]
    rfl
  | @unref b hpc =>
    refine Or.inl ⟨persist_call ?_ (fun {c m} hm => ?_) (by rw [hpc]; intro _ h; cases h) hne, fun pc => ?_⟩
    · simp [Bio.setUser]
    · simp only [Bio.setUser, Function.update_self] at hm
      cases hm
    · simp only [Bio.setUser, Function.update_self, hpc]
      rfl

omit [Fintype P] [DecidableEq P] in
/-- The first `bread` of `write_log` needs a buffer that is not pinned. -/
theorem pinned_room {bcache : Bcache Block} (hpin : Pinned env.dev β L) (hL : L.Nodup)
    (hhome : ∀ n ∈ L, Home n) (hm : ¬ Home m) (hb : β.bcache.bget env.dev m = .ok (bcache, b)) :
    L.length < LOGSIZE := by
  have hne : ∀ {c}, (β.buf c).dirty = true → Home (β.buf c).blockno → c ≠ b := by
    rintro c hd hh rfl
    rcases Bcache.bget_ok hb with ⟨-, h1, -⟩ | ⟨-, -, h1, -⟩
    · have h1 : (β.buf c).blockno = m := h1
      rw [h1] at hh
      exact hm hh
    · have h1 : (β.buf c).dirty = false := h1
      rw [hd] at h1
      cases h1
  have hsub : L.toFinset ⊆ (Finset.univ.erase b).image fun c => (β.buf c).blockno := by
    intro n hn
    have hn := List.mem_toFinset.mp hn
    obtain ⟨c, -, h2, h3⟩ := hpin n hn
    refine Finset.mem_image.mpr ⟨c, Finset.mem_erase.mpr ⟨hne h3 ?_, Finset.mem_univ c⟩, h2⟩
    rw [h2]
    exact hhome n hn
  have h1 := (Finset.card_le_card hsub).trans Finset.card_image_le
  rw [List.toFinset_card_of_nodup hL, Finset.card_erase_of_mem (Finset.mem_univ b),
    Finset.card_univ, Fintype.card_fin] at h1
  have h2 : NBUF = LOGSIZE := rfl
  have h3 : 0 < LOGSIZE := by decide
  omega

/-! ### The loop -/

namespace LoopAt

omit [Fintype P] [DecidableEq P] in
/-- `bread` is called. -/
theorem ask {c : CopyPc} (hl : LoopAt β p toLog L T tail c) (hQ : ReadOnly β β')
    (ho : (β.user p).owns ⊆ (β'.user p).owns) (hn : L[tail]? = some n)
    (hc : c = .lbuf ∧ Asks β' p (logBlock tail) ∨ (∃ l, c = .hbuf l) ∧ Asks β' p n) :
    LoopAt β' p toLog L T tail c := by
  refine ⟨Or.inr (List.getElem?_eq_some_iff.mp hn).1, fun hi hm => hQ.synced (hl.done hi hm),
    fun {m} hm => ?_⟩
  obtain rfl := Option.some.inj (hn.symm.trans hm)
  have hb := hl.body hm
  rcases hc with ⟨rfl, ha⟩ | ⟨⟨l, rfl⟩, ha⟩
  · exact @ha
  · exact ⟨hb.1.readOnly hQ ho, ha⟩

omit [Fintype P] in
/-- `memmove` -/
theorem move {d : Block} (hl : LoopAt β p toLog L T tail (.move l h))
    (he : Bio.Effect env β p (.modify (dst toLog l h) d) β')
    (hd : ∀ {n}, L[tail]? = some n → d = T n) :
    LoopAt β' p toLog L T tail (.write l h) := by
  have hmod := he.modified
  have hsame : β'.disk = β.disk ∧ β'.user = β.user := by
    cases he
    exact ⟨rfl, rfl⟩
  refine ⟨Or.inr (hl.inside.resolve_left nofun), fun {i m} hi hm => ?_, fun {m} hm => ⟨?_, ?_⟩⟩
  · obtain ⟨h1, h2⟩ := hl.done hi hm
    refine ⟨by rw [hsame.1, h1], fun {c} hc => ?_⟩
    rw [(hmod c).1] at hc
    rw [(hmod c).2.2.1]
    exact h2 hc
  · have hb := hl.body hm
    refine ⟨?_, ?_⟩
    · rw [hsame.2]
      cases toLog
      · exact hb.2.1
      · exact hb.1.1
    · rw [(hmod _).2.2.1]
      cases toLog
      · exact hb.2.2
      · exact hb.1.2
  · rw [(hmod (dst toLog l h)).2.2.2.2, hd hm]

omit [Fintype P] in
/-- `bwrite` is called. -/
theorem write (hl : LoopAt β p toLog L T tail (.write l h))
    (he : Bio.Effect env β p (.bwrite (dst toLog l h)) β')
    (hne : ∀ {i n m}, i < tail → L[i]? = some m → L[tail]? = some n →
      dstBlock toLog i m ≠ dstBlock toLog tail n) :
    LoopAt β' p toLog L T tail (.sync l h) := by
  generalize hdst : dst toLog l h = b at he
  cases he with
  | bwrite hidle ho =>
    have hbuf : ∀ c, ((β.write b).setUser p (.iderwWrite b) (β.user p).owns).buf c =
        (β.write b).buf c := fun c => rfl
    obtain ⟨n, hn⟩ : ∃ n, L[tail]? = some n :=
      ⟨_, List.getElem?_eq_getElem (hl.inside.resolve_left nofun)⟩
    obtain ⟨hhas, hdata⟩ := hl.body hn
    rw [hdst] at hhas hdata
    refine ⟨Or.inr (hl.inside.resolve_left nofun), fun {i m} hi hm => ?_, fun {m} hm => ?_⟩
    · obtain ⟨h1, h2⟩ := hl.done hi hm
      refine ⟨h1, fun {c} hc => ?_⟩
      obtain ⟨-, h3, -, h4⟩ := β.written b c
      rw [hbuf] at hc ⊢
      rw [h3]
      rcases h4.mp hc with rfl | hc
      · rw [hhas.2]
        exact (hne hi hm hn).symm
      · exact h2 hc
    · obtain rfl := Option.some.inj (hn.symm.trans hm)
      obtain ⟨-, h3, h4, h5⟩ := β.written b b
      show Syncing _ p (dst toLog l h) (dstBlock toLog tail n) (T n)
      rw [hdst]
      refine ⟨⟨?_, ?_⟩, ?_, ?_, fun hd => ?_⟩
      · simpa [Bio.setUser] using ho
      · rw [hbuf, h3, hhas.2]
      · simp [Bio.setUser]
      · rw [hbuf, h4, hdata]
      · rw [hbuf, h5.mpr (Or.inl rfl)] at hd
        cases hd

omit [Fintype P] [DecidableEq P] in
theorem rel1 {b : BufId} (hl : LoopAt β p toLog L T tail (.rel1 l h)) (hQ : ReadOnly β β') :
    LoopAt β' p toLog L T tail (.rel2 b) :=
  ⟨Or.inr (hl.inside.resolve_left nofun), fun hi hm => hQ.synced (hl.done hi hm),
    fun hm => hQ.synced (hl.body hm)⟩

omit [Fintype P] [DecidableEq P] in
/-- The next round. -/
theorem rel2 {b : BufId} (hl : LoopAt β p toLog L T tail (.rel2 b)) (hQ : ReadOnly β β')
    (hr : (β'.user p).pc.reads = none) : LoopAt β' p toLog L T (tail + 1) .lbuf := by
  refine ⟨Or.inl ⟨rfl, hr⟩, fun {i m} hi hm => ?_, fun {m} _ {b k} hk => ?_⟩
  · rcases Nat.lt_succ_iff_lt_or_eq.mp hi with hi | rfl
    · exact hQ.synced (hl.done hi hm)
    · exact hQ.synced (hl.body hm)
  · rw [hr] at hk
    cases hk

end LoopAt

/-! ### The header -/

omit [Fintype P] in
theorem HeadAt.fill (hh : HeadAt β p L (.fill b)) {d : Block}
    (he : Bio.Effect env β p (.modify b (d.setHeader L)) β') (hlen : L.length < LOGSIZE)
    (hhome : ∀ n ∈ L, Home n) : HeadAt β' p L (.write b) := by
  have hmod := he.modified b
  have hsame : β'.user = β.user := by
    cases he
    rfl
  refine ⟨⟨?_, hmod.2.2.1.trans hh.2⟩, ?_⟩
  · rw [hsame]
    exact hh.1
  · rw [hmod.2.2.2.2]
    refine Block.header_setHeader hlen.le fun n hn => ?_
    exact (home_iff.mp (hhome n hn)).1.trans (by decide)

omit [Fintype P] in
theorem HeadAt.write (hh : HeadAt β p L (.write b)) (he : Bio.Effect env β p (.bwrite b) β') :
    HeadAt β' p L (.sync b) := by
  cases he with
  | bwrite hidle ho =>
    obtain ⟨-, h3, h4, h5⟩ := β.written b b
    have hbuf : ∀ c, ((β.write b).setUser p (.iderwWrite b) (β.user p).owns).buf c =
        (β.write b).buf c := fun c => rfl
    refine ⟨(β.buf b).data, hh.2, ⟨?_, ?_⟩, ?_, ?_, fun hd => ?_⟩
    · simpa [Bio.setUser] using ho
    · rw [hbuf, h3, hh.1.2]
    · simp [Bio.setUser]
    · rw [hbuf, h4]
    · rw [hbuf, h5.mpr (Or.inl rfl)] at hd
      cases hd

/-! ### The statements -/

omit [Fintype P] in
theorem Bio.Effect.asks (he : Bio.Effect env β p (.bread n) β') :
    Asks β' p n ∧ (β.user p).owns ⊆ (β'.user p).owns := by
  cases he with
  | bread =>
    refine ⟨fun {b m} hm => ?_, ?_⟩
    · simp only [Bio.setUser, Function.update_self] at hm
      exact (Prod.mk.inj (Option.some.inj hm)).2.symm
    · simp [Bio.setUser]

omit [Fintype P] in
theorem Bio.Effect.reads_none (he : Bio.Effect env β p (.brelse b) β') :
    (β'.user p).pc.reads = none := by
  cases he with
  | brelse => simp [Bio.setUser, BioPc.reads]

omit [Fintype P] [DecidableEq P] in
theorem asks_idle (hidle : (β.user p).pc = .idle) : Asks β p n := fun hm => by
  rw [hidle] at hm
  cases hm

omit [Fintype P] in
theorem call_ok {e : BioAct Block} (hs : σ.call env p e x = .ok σ') :
    ∃ β', Bio.Effect env σ.bio p e β' ∧ σ' = { σ with bio := β' }.setPc p x := by
  unfold Fs.call Fs.bioStep at hs
  split at hs
  · cases hs
  · rename_i β' hβ
    exact ⟨β', Bio.step_effect hβ, (Except.ok.inj hs).symm⟩

end OsSemester.Xv6
