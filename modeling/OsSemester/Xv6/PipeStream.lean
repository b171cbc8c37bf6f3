import OsSemester.Xv6.PipeCall

/-!
# A pipe is a stream of bytes

`PipeInv` holds in every state that can be reached: what has been stored is what the reads have
returned, then what the reader that holds the lock has copied so far, and then the queue between
`nread` and `nwrite`.

* `PipeInv.wakeup`, `PipeInv.leave`, ...: one lemma for each thing a call does.
* `pipe_stream`: the bytes come out in the order in which they went in, whatever calls interleave.
-/

namespace OsSemester.Xv6

variable {P : Type} {s t : PipeState P} {p q : P} {c d : PipeCall} {e : PipeEnd}

theorem PIPESIZE_dvd : PIPESIZE ∣ 2 ^ 32 := by decide

theorem PIPESIZE_lt : PIPESIZE < 2 ^ 32 := by decide

/-- The bytes that a call has read so far. -/
def Transfer.got : Transfer → List UInt8
  | .write _ _ => []
  | .read _ addr => addr

/-- The bytes that the reader with the lock has read so far. -/
def PipeState.held (s : PipeState P) : List UInt8 :=
  (s.lock.bind s.call).elim [] fun c => c.transfer.got

/-- What holds of a call in progress. -/
structure CallOk (s : PipeState P) (p : P) (c : PipeCall) : Prop where
  holds : c.pc = .loop ∨ c.pc = .copy ↔ s.lock = some p
  id_lt : c.id < s.calls
  isOpen : s.isOpen c.transfer.pipeEnd = true
  wrote : ∀ addr i, c.transfer = .write addr i →
    c.pc ≠ .copy ∧ i ≤ addr.length ∧ s.storedBy c.id = addr.take i
  early : c.pc ≠ .copy → c.transfer.got = []
  fresh : c.pc = .copy → c.transfer.got = [] →
    s.pipe.nread ≠ s.pipe.nwrite ∨ s.pipe.writeopen = false

/-- What a call has returned is what it has done. -/
def Returned.Ok (s : PipeState P) : Returned → Prop
  | .write id addr n => id < s.calls ∧ (∀ p c, s.call p = some c → c.id ≠ id) ∧
      (n = -1 ∨ n = addr.length ∧ s.storedBy id = addr)
  | .read _ _ _ _ => True

structure PipeInv (s : PipeState P) : Prop where
  calls : ∀ p c, s.call p = some c → CallOk s p c
  ids : ∀ p q c d, s.call p = some c → s.call q = some d → c.id = d.id → p = q
  owner : ∀ p, s.lock = some p → ∃ c, s.call p = some c
  queue : ∃ b, Ring.Queued s.pipe.data PIPESIZE s.pipe.nread s.pipe.nwrite b ∧
    s.stored.map Prod.snd = s.delivered ++ s.held ++ b
  stored_lt : ∀ x ∈ s.stored, x.1 < s.calls
  returned : ∀ r ∈ s.log, r.Ok s
  freed : s.freed = true ↔ s.pipe.readopen = false ∧ s.pipe.writeopen = false

/-! ### Small facts -/

theorem CallOk.congr (h : CallOk s p c) (hlock : t.lock = some p ↔ s.lock = some p)
    (hcalls : s.calls ≤ t.calls) (hopen : t.isOpen c.transfer.pipeEnd = true)
    (hst : t.storedBy c.id = s.storedBy c.id) (hpipe : s.lock = some p → t.pipe = s.pipe) :
    CallOk t p c where
  holds := h.holds.trans hlock.symm
  id_lt := h.id_lt.trans_le hcalls
  isOpen := hopen
  wrote addr i hc := by
    rw [hst]
    exact h.wrote addr i hc
  early := h.early
  fresh hc hgot := by
    rw [hpipe (h.holds.1 (.inr hc))]
    exact h.fresh hc hgot

theorem held_of_lock (hl : s.lock = some p) (hc : s.call p = some c) : s.held = c.transfer.got := by
  rw [PipeState.held, hl, Option.bind_some, hc, Option.elim_some]

theorem held_of_free (hl : s.lock = none) : s.held = [] := by
  rw [PipeState.held, hl, Option.bind_none, Option.elim_none]

theorem storedBy_of_le (h : ∀ x ∈ s.stored, x.1 < s.calls) {id : ℕ} (hid : s.calls ≤ id) :
    s.storedBy id = [] :=
  byTag_of_notMem fun x hx => ((h x hx).trans_le hid).ne

/-! ### Sleepers wake up -/

/-- A call that is no longer asleep is as well as before. -/
theorem wakeCall (h : CallOk s p c) (b : Prop) [Decidable b] :
    CallOk s p (if c.pc = .asleep ∧ b then { c with pc := .acquire } else c) := by
  split_ifs with hw
  · have hno : ¬ s.lock = some p := fun hl => by simpa [hw.1] using h.holds.2 hl
    exact ⟨⟨fun hpc => by simp at hpc, fun hl => absurd hl hno⟩, h.id_lt, h.isOpen,
      fun addr i ht => ⟨by simp, (h.wrote addr i ht).2⟩,
      fun _ => h.early (by simp [hw.1]), fun hpc => by simp at hpc⟩
  · exact h

namespace PipeInv

/-- Waking processes changes nothing that matters: `g` says who wakes up. -/
theorem wake (h : PipeInv s) (g : P → PipeCall → Prop) [∀ p c, Decidable (g p c)] (k : P → Bool) :
    PipeInv { s with
      killed := k
      call := fun p => (s.call p).map fun c =>
        if c.pc = .asleep ∧ g p c then { c with pc := .acquire } else c } := by
  have hcall : ∀ {p d}, (s.call p).map (fun c =>
      if c.pc = .asleep ∧ g p c then { c with pc := .acquire } else c) = some d →
      ∃ c, s.call p = some c ∧ d.id = c.id ∧ CallOk s p d := by
    intro p d hd
    obtain ⟨c, hc, rfl⟩ := Option.map_eq_some_iff.1 hd
    refine ⟨c, hc, ?_, wakeCall (h.calls p c hc) _⟩
    split_ifs <;> rfl
  refine ⟨fun p d hd => ?_, fun p q d d' hd hd' hid => ?_, fun p hl => ?_, ?_, h.stored_lt,
    fun r hr => ?_, h.freed⟩
  · obtain ⟨c, -, -, hok⟩ := hcall hd
    exact hok.congr .rfl le_rfl hok.isOpen rfl fun _ => rfl
  · obtain ⟨c, hc, he, -⟩ := hcall hd
    obtain ⟨c', hc', he', -⟩ := hcall hd'
    exact h.ids p q c c' hc hc' (he.symm.trans (hid.trans he'))
  · obtain ⟨c, hc⟩ := h.owner p hl
    exact ⟨_, Option.map_eq_some_iff.2 ⟨c, hc, rfl⟩⟩
  · obtain ⟨b, hb, hst⟩ := h.queue
    refine ⟨b, hb, hst.trans ?_⟩
    congr 2
    -- What the reader with the lock has read is untouched.
    simp only [PipeState.held]
    rcases s.lock with _ | p
    · rfl
    · rcases hc : s.call p with _ | c
      · simp [hc]
      · simp only [Option.bind_some, hc, Option.map_some, Option.elim_some]
        split_ifs <;> rfl
  · have hok := h.returned r hr
    cases r with
    | read => trivial
    | write id addr n =>
      refine ⟨hok.1, fun p d hd => ?_, hok.2.2⟩
      obtain ⟨c, hc, he, -⟩ := hcall hd
      rw [he]
      exact hok.2.1 p c hc

theorem wakeup (h : PipeInv s) (e : PipeEnd) : PipeInv (s.wakeup e) :=
  h.wake (fun _ c => c.transfer.pipeEnd = e) s.killed

end PipeInv

variable [DecidableEq P]

theorem call_update {x : Option PipeCall} (h : Function.update s.call p x q = some d) :
    q = p ∧ x = some d ∨ q ≠ p ∧ s.call q = some d := by
  by_cases hq : q = p
  · subst hq
    exact .inl ⟨rfl, by simpa using h⟩
  · exact .inr ⟨hq, by rwa [Function.update_of_ne hq] at h⟩

theorem held_update (hl : t.lock = some p) (hcall : t.call = Function.update s.call p (some d)) :
    t.held = d.transfer.got :=
  held_of_lock hl (by rw [hcall, Function.update_self])

namespace PipeInv

/-- The call of one process changes, and its number stays. -/
theorem ids_update (h : PipeInv s) (hc : s.call p = some c) {x : Option PipeCall}
    (hx : ∀ d, x = some d → d.id = c.id) {q q' : P} {d d' : PipeCall}
    (hq : Function.update s.call p x q = some d) (hq' : Function.update s.call p x q' = some d')
    (hid : d.id = d'.id) : q = q' := by
  rcases call_update hq with ⟨rfl, hd⟩ | ⟨-, hd⟩ <;>
    rcases call_update hq' with ⟨rfl, hd'⟩ | ⟨-, hd'⟩
  · rfl
  · exact h.ids _ _ _ _ hc hd' ((hx d hd).symm.trans hid)
  · exact h.ids _ _ _ _ hd hc (hid.trans (hx d' hd'))
  · exact h.ids _ _ _ _ hd hd' hid

theorem kill (h : PipeInv s) (p : P) : PipeInv (s.kill p) := by
  have hwake := h.wake (fun q _ => q = p) (Function.update s.killed p true)
  have hcall : (Function.update s.call p ((s.call p).map fun c =>
      if c.pc = .asleep then { c with pc := .acquire } else c)) =
      fun q => (s.call q).map fun c =>
        if c.pc = .asleep ∧ q = p then { c with pc := .acquire } else c := by
    funext q
    by_cases hq : q = p
    · subst hq
      simp
    · simp [hq]
  rw [PipeState.kill, hcall]
  exact hwake

/-! ### The steps of a call -/

/-- The call of one process changes, the others are as well as before. -/
theorem calls_update (h : PipeInv s) {x : Option PipeCall}
    (hcall : t.call = Function.update s.call p x) (hp : ∀ d, x = some d → CallOk t p d)
    (ho : ∀ q d, q ≠ p → s.call q = some d → CallOk s q d → CallOk t q d) :
    ∀ q d, t.call q = some d → CallOk t q d := by
  intro q d hd
  rw [hcall] at hd
  rcases call_update hd with ⟨rfl, hx⟩ | ⟨hq, hx⟩
  · exact hp d hx
  · exact ho q d hq hx (h.calls q d hx)

theorem leave (h : PipeInv s) (hl : s.lock = some p) (hc : s.call p = some c) {r : Returned}
    (hb : r.bytes = c.transfer.got)
    (hr : ∀ id addr n, r = .write id addr n →
      id = c.id ∧ (n = -1 ∨ n = addr.length ∧ s.storedBy id = addr)) : PipeInv (s.leave p r) := by
  refine ⟨h.calls_update (x := none) rfl (by simp) fun q d hq hcq hd => ?_, fun q q' d d' => ?_,
    fun q hq => ?_, ?_, h.stored_lt, fun r' hr' => ?_, h.freed⟩
  · have hlock : ¬ s.lock = some q := fun hlq => hq (Option.some.inj (hlq.symm.trans hl))
    exact hd.congr (by simp [PipeState.leave, hlock]) le_rfl hd.isOpen rfl fun _ => rfl
  · exact h.ids_update hc (by simp)
  · cases hq
  · obtain ⟨b, hbuf, hst⟩ := h.queue
    refine ⟨b, hbuf, hst.trans ?_⟩
    have hheld : (s.leave p r).held = [] := held_of_free rfl
    have hdel : (s.leave p r).delivered = s.delivered ++ r.bytes := by
      simp [PipeState.delivered, PipeState.leave]
    rw [hheld, hdel, held_of_lock hl hc, hb, List.append_nil]
  · have hmem : r' ∈ s.log ∨ r' = r := by simpa [PipeState.leave] using hr'
    cases r' with
    | read => trivial
    | write id addr n =>
      rcases hmem with hold | hnew
      · obtain ⟨hid, hne, hdone⟩ := h.returned _ hold
        refine ⟨hid, fun q d hd => ?_, hdone⟩
        rcases call_update hd with ⟨-, hd⟩ | ⟨-, hd⟩
        · cases hd
        · exact hne q d hd
      · obtain ⟨rfl, hdone⟩ := hr id addr n hnew.symm
        refine ⟨(h.calls p c hc).id_lt, fun q d hd he => ?_, hdone⟩
        rcases call_update hd with ⟨-, hd⟩ | ⟨hq, hd⟩
        · cases hd
        · exact hq (h.ids q p d c hd hc he)

/-- What has been returned stays true when a call goes on without storing anything. -/
theorem returned_update (h : PipeInv s) (hc : s.call p = some c) (hid : d.id = c.id)
    (hcall : t.call = Function.update s.call p (some d)) (hcalls : t.calls = s.calls)
    (hst : t.stored = s.stored) (hlog : t.log = s.log) : ∀ r ∈ t.log, r.Ok t := by
  intro r hr
  rw [hlog] at hr
  cases r with
  | read => trivial
  | write id addr n =>
    obtain ⟨hlt, hne, hdone⟩ := h.returned _ hr
    refine ⟨hcalls ▸ hlt, fun q d' hd' => ?_, by simpa only [PipeState.storedBy, hst] using hdone⟩
    rw [hcall] at hd'
    rcases call_update hd' with ⟨-, hd'⟩ | ⟨-, hd'⟩
    · obtain rfl := Option.some.inj hd'
      rw [hid]
      exact hne p c hc
    · exact hne q d' hd'

theorem sleep (h : PipeInv s) (hl : s.lock = some p) (hc : s.call p = some c)
    (hpc : c.pc = .loop) : PipeInv (s.sleep p c) := by
  have hok := h.calls p c hc
  refine ⟨h.calls_update (x := some { c with pc := .asleep }) rfl (fun d hd => ?_)
    fun q d hq hcq hd => ?_, fun q q' d d' => h.ids_update hc (by simp), fun q hq => ?_, ?_,
    h.stored_lt, h.returned_update (d := { c with pc := .asleep }) hc rfl rfl rfl rfl rfl, h.freed⟩
  · obtain rfl := Option.some.inj hd
    exact ⟨by simp [PipeState.sleep], hok.id_lt, hok.isOpen,
      fun addr i ht => ⟨by simp, (hok.wrote addr i ht).2⟩, fun _ => hok.early (by simp [hpc]),
      by simp⟩
  · have hlock : ¬ s.lock = some q := fun hlq => hq (Option.some.inj (hlq.symm.trans hl))
    exact hd.congr (by simp [PipeState.sleep, hlock]) le_rfl hd.isOpen rfl fun _ => rfl
  · cases hq
  · obtain ⟨b, hbuf, hst⟩ := h.queue
    refine ⟨b, hbuf, hst.trans ?_⟩
    have hheld : (s.sleep p c).held = [] := held_of_free rfl
    rw [hheld, held_of_lock hl hc, hok.early (by simp [hpc])]
    rfl

theorem acquire (h : PipeInv s) (hl : s.lock = none) (hc : s.call p = some c)
    (hpc : c.pc = .acquire) :
    PipeInv { s.setCall p { c with pc := .loop } with lock := some p } := by
  have hok := h.calls p c hc
  refine ⟨h.calls_update (x := some { c with pc := .loop }) rfl (fun d hd => ?_)
    fun q d hq hcq hd => ?_, fun q q' d d' => h.ids_update hc (by simp), fun q hq => ?_, ?_,
    h.stored_lt, h.returned_update (d := { c with pc := .loop }) hc rfl rfl rfl rfl rfl, h.freed⟩
  · obtain rfl := Option.some.inj hd
    exact ⟨by simp, hok.id_lt, hok.isOpen, fun addr i ht => ⟨by simp, (hok.wrote addr i ht).2⟩,
      fun _ => hok.early (by simp [hpc]), by simp⟩
  · exact hd.congr (by simp [hl, hq.symm]) le_rfl hd.isOpen rfl fun hlq => by simp [hl] at hlq
  · obtain rfl := Option.some.inj hq
    exact ⟨_, Function.update_self ..⟩
  · obtain ⟨b, hbuf, hst⟩ := h.queue
    have hheld : s.held = c.transfer.got :=
      (held_of_free hl).trans (hok.early (by simp [hpc])).symm
    exact ⟨b, hbuf, hst.trans (congrArg (fun x => s.delivered ++ x ++ b)
      (hheld.trans (held_update (d := { c with pc := .loop }) rfl rfl).symm))⟩

/-- `piperead` leaves its `while` loop. -/
theorem toCopy (h : PipeInv s) (hl : s.lock = some p) (hc : s.call p = some c)
    (hread : c.transfer.pipeEnd = .readEnd)
    (hgo : ¬ (s.pipe.nread = s.pipe.nwrite ∧ s.pipe.writeopen = true)) :
    PipeInv (s.setCall p { c with pc := .copy }) := by
  have hok := h.calls p c hc
  refine ⟨h.calls_update (x := some { c with pc := .copy }) rfl (fun d hd => ?_)
    fun q d hq hcq hd => ?_, fun q q' d d' => h.ids_update hc (by simp), fun q hq => ?_, ?_,
    h.stored_lt, h.returned_update (d := { c with pc := .copy }) hc rfl rfl rfl rfl rfl, h.freed⟩
  · obtain rfl := Option.some.inj hd
    refine ⟨by simp [PipeState.setCall, hl], hok.id_lt, hok.isOpen, fun addr i ht => ?_, by simp,
      fun _ _ => ?_⟩
    · simp only at ht
      simp [ht, Transfer.pipeEnd] at hread
    · rcases not_and_or.1 hgo with hne | hwo
      · exact .inl hne
      · exact .inr (Bool.not_eq_true _ ▸ hwo)
  · exact hd.congr .rfl le_rfl hd.isOpen rfl fun _ => rfl
  · obtain rfl := Option.some.inj (hl.symm.trans hq)
    exact ⟨_, Function.update_self ..⟩
  · obtain ⟨b, hbuf, hst⟩ := h.queue
    exact ⟨b, hbuf, hst.trans (congrArg (fun x => s.delivered ++ x ++ b)
      ((held_of_lock hl hc).trans (held_update (d := { c with pc := .copy }) (by exact hl) rfl).symm))⟩

/-- `pipewrite` stores a byte. -/
theorem store (h : PipeInv s) (hl : s.lock = some p) (hc : s.call p = some c)
    (hpc : c.pc = .loop) {addr : List UInt8} {i : ℕ} (ht : c.transfer = .write addr i) {x : UInt8}
    (hx : addr[i]? = some x)
    (hroom : s.pipe.nwrite ≠ s.pipe.nread + BitVec.ofNat 32 PIPESIZE) :
    PipeInv { s.setCall p { c with transfer := .write addr (i + 1) } with
      pipe := { s.pipe with
        data := Function.update s.pipe.data (s.pipe.nwrite.toNat % PIPESIZE) x
        nwrite := s.pipe.nwrite + 1 }
      stored := s.stored ++ [(c.id, x)] } := by
  have hok := h.calls p c hc
  obtain ⟨hi, hxi⟩ := List.getElem?_eq_some_iff.1 hx
  -- the call has stored one more byte of its own
  have hown : byTag (s.stored ++ [(c.id, x)]) c.id = addr.take (i + 1) := by
    have hold : byTag s.stored c.id = addr.take i := (hok.wrote addr i ht).2.2
    rw [byTag_append, hold, byTag_singleton_self, ← hxi, List.take_append_getElem]
  have hother : ∀ {id}, id ≠ c.id → byTag (s.stored ++ [(c.id, x)]) id = s.storedBy id :=
    fun hid => byTag_append_of_ne (by simp) hid
  refine ⟨h.calls_update (x := some { c with transfer := .write addr (i + 1) }) rfl
    (fun d hd => ?_) fun q d hq hcq hd => ?_, fun q q' d d' => h.ids_update hc (by simp),
    fun q hq => ?_, ?_, fun y hy => ?_, fun r hr => ?_, h.freed⟩
  · obtain rfl := Option.some.inj hd
    refine ⟨hok.holds, hok.id_lt, ?_, fun addr' i' ht' => ?_, fun _ => rfl, by simp [hpc]⟩
    · have hopen := hok.isOpen
      rw [ht] at hopen
      exact hopen
    · obtain ⟨rfl, rfl⟩ := Transfer.write.inj ht'
      exact ⟨by simp [hpc], hi, hown⟩
  · refine hd.congr .rfl le_rfl ?_ (hother fun he => hq (h.ids q p d c hcq hc he)) fun hlq => ?_
    · have hopen := hd.isOpen
      cases hend : d.transfer.pipeEnd <;> rw [hend] at hopen <;> exact hopen
    · exact absurd (Option.some.inj (hlq.symm.trans hl)) hq
  · obtain rfl := Option.some.inj (hl.symm.trans hq)
    exact ⟨_, Function.update_self ..⟩
  · obtain ⟨b, hbuf, hst⟩ := h.queue
    -- the ring is not full, also modulo 2 ^ 32
    have hb : b.length < PIPESIZE := lt_of_le_of_ne hbuf.room fun hlen =>
      hroom ((hbuf.eq_add_iff PIPESIZE_lt le_rfl).2 hlen)
    refine ⟨b ++ [x], hbuf.push PIPESIZE_dvd hb x,
      Eq.trans ?_ (congrArg (fun y => s.delivered ++ y ++ (b ++ [x]))
        (held_update (d := { c with transfer := .write addr (i + 1) }) (by exact hl) rfl).symm)⟩
    rw [held_of_lock hl hc, ht] at hst
    simp only [List.map_append, hst, Transfer.got, List.append_assoc]
    rfl
  · rcases List.mem_append.1 hy with hold | hnew
    · exact h.stored_lt y hold
    · obtain rfl := List.mem_singleton.1 hnew
      exact hok.id_lt
  · cases r with
    | read => trivial
    | write id addr' n =>
      -- calls that have returned store nothing
      obtain ⟨hlt, hne, hdone⟩ := h.returned _ hr
      refine ⟨hlt, fun q d hd => ?_, hdone.imp_right fun hn => ⟨hn.1, ?_⟩⟩
      · rcases call_update hd with ⟨-, hd'⟩ | ⟨-, hd'⟩
        · obtain rfl := Option.some.inj hd'
          exact hne p c hc
        · exact hne q d hd'
      · exact (hother (hne p c hc).symm).trans hn.2

/-- `piperead` copies a byte. -/
theorem copy (h : PipeInv s) (hl : s.lock = some p) (hc : s.call p = some c)
    (hpc : c.pc = .copy) {n : ℕ} {addr : List UInt8} (ht : c.transfer = .read n addr)
    (hne : s.pipe.nread ≠ s.pipe.nwrite) :
    PipeInv { s.setCall p { c with
      transfer := .read n (addr ++ [s.pipe.data (s.pipe.nread.toNat % PIPESIZE)]) } with
        pipe := { s.pipe with nread := s.pipe.nread + 1 } } := by
  have hok := h.calls p c hc
  set x := s.pipe.data (s.pipe.nread.toNat % PIPESIZE) with hx
  refine ⟨h.calls_update (x := some { c with transfer := .read n (addr ++ [x]) }) rfl
    (fun d hd => ?_) fun q d hq hcq hd => ?_, fun q q' d d' => h.ids_update hc (by simp),
    fun q hq => ?_, ?_, h.stored_lt,
    h.returned_update (d := { c with transfer := .read n (addr ++ [x]) }) hc rfl rfl rfl rfl rfl,
    h.freed⟩
  · obtain rfl := Option.some.inj hd
    refine ⟨hok.holds, hok.id_lt, ?_, by simp, by simp [hpc], by simp [Transfer.got]⟩
    have hopen := hok.isOpen
    rw [ht] at hopen
    exact hopen
  · refine hd.congr .rfl le_rfl ?_ rfl fun hlq => ?_
    · have hopen := hd.isOpen
      cases hend : d.transfer.pipeEnd <;> rw [hend] at hopen <;> exact hopen
    · exact absurd (Option.some.inj (hlq.symm.trans hl)) hq
  · obtain rfl := Option.some.inj (hl.symm.trans hq)
    exact ⟨_, Function.update_self ..⟩
  · obtain ⟨b, hbuf, hst⟩ := h.queue
    obtain ⟨y, b, rfl⟩ := List.exists_cons_of_ne_nil fun hb => hne ((hbuf.eq_iff PIPESIZE_lt).2 hb)
    obtain ⟨hy, hpop⟩ := hbuf.pop PIPESIZE_dvd
    refine ⟨b, hpop, Eq.trans ?_ (congrArg (fun y => s.delivered ++ y ++ b)
      (held_update (d := { c with transfer := .read n (addr ++ [x]) }) (by exact hl) rfl).symm)⟩
    rw [held_of_lock hl hc, ht, ← hy, ← hx] at hst
    refine hst.trans ?_
    simp [Transfer.got]

/-- A new call has stored nothing yet. -/
theorem start (h : PipeInv s) (hc : s.call p = none) {a : Transfer} (hopen : s.isOpen a.pipeEnd)
    (hgot : a.got = []) (hnew : ∀ addr i, a = .write addr i → i = 0) :
    PipeInv { s.setCall p ⟨s.calls, a, .acquire⟩ with calls := s.calls + 1 } := by
  have hnolock : s.lock ≠ some p := fun hl => by
    obtain ⟨c, hc'⟩ := h.owner p hl
    simp [hc] at hc'
  refine ⟨h.calls_update (x := some ⟨s.calls, a, .acquire⟩) rfl (fun d hd => ?_)
    fun q d hq hcq hd => ?_, fun q q' d d' hd hd' hid => ?_, fun q hq => ?_, ?_,
    fun y hy => (h.stored_lt y hy).trans (Nat.lt_succ_self _), fun r hr => ?_, h.freed⟩
  · obtain rfl := Option.some.inj hd
    refine ⟨by simp [PipeState.setCall, hnolock], Nat.lt_succ_self _, hopen, fun addr i ht => ?_,
      fun _ => hgot, by simp⟩
    obtain rfl := hnew addr i ht
    exact ⟨by simp, Nat.zero_le _, storedBy_of_le h.stored_lt le_rfl⟩
  · exact hd.congr .rfl (Nat.le_succ _) hd.isOpen rfl fun _ => rfl
  · -- The new number is larger than those of the calls in progress.
    rcases call_update hd with ⟨rfl, hx⟩ | ⟨-, hx⟩ <;>
      rcases call_update hd' with ⟨rfl, hx'⟩ | ⟨-, hx'⟩
    · rfl
    · obtain rfl := Option.some.inj hx
      exact absurd hid (h.calls _ _ hx').id_lt.ne'
    · obtain rfl := Option.some.inj hx'
      exact absurd hid (h.calls _ _ hx).id_lt.ne
    · exact h.ids _ _ _ _ hx hx' hid
  · obtain ⟨d, hd⟩ := h.owner q hq
    have hqp : q ≠ p := fun he => hnolock (he ▸ hq)
    exact ⟨d, (Function.update_of_ne hqp _ _).trans hd⟩
  · obtain ⟨b, hbuf, hst⟩ := h.queue
    refine ⟨b, hbuf, hst.trans ?_⟩
    congr 2
    rcases hl : s.lock with _ | q
    · rw [held_of_free hl]
      exact (held_of_free (by exact hl)).symm
    · obtain ⟨d, hd⟩ := h.owner q hl
      have hqp : q ≠ p := fun he => hnolock (he ▸ hl)
      rw [held_of_lock hl hd]
      exact (held_of_lock (by exact hl) ((Function.update_of_ne hqp _ _).trans hd)).symm
  · cases r with
    | read => trivial
    | write id addr n =>
      obtain ⟨hlt, hne, hdone⟩ := h.returned _ hr
      refine ⟨hlt.trans (Nat.lt_succ_self _), fun q d hd => ?_, hdone⟩
      rcases call_update hd with ⟨-, hx⟩ | ⟨-, hx⟩
      · obtain rfl := Option.some.inj hx
        exact hlt.ne'
      · exact hne q d hx

omit [DecidableEq P] in
/-- An end is closed that no call uses. -/
theorem close (h : PipeInv s) (hl : s.lock = none) {e : PipeEnd}
    (hidle : ∀ p c, s.call p = some c → c.transfer.pipeEnd ≠ e) (ro wo : Bool)
    (hro : e = .writeEnd → ro = s.pipe.readopen) (hwo : e = .readEnd → wo = s.pipe.writeopen) :
    PipeInv { s with
      pipe := { s.pipe with readopen := ro, writeopen := wo }
      freed := !ro && !wo } := by
  refine ⟨fun q d hd => ?_, h.ids, h.owner, h.queue, h.stored_lt, fun r hr => ?_, by simp⟩
  · have hok := h.calls q d hd
    refine hok.congr .rfl le_rfl ?_ rfl fun hlq => by simp [hl] at hlq
    have hopen := hok.isOpen
    have hne := hidle q d hd
    rcases e with _ | _ <;> cases hend : d.transfer.pipeEnd <;> rw [hend] at hopen hne
    · exact absurd rfl hne
    · exact (hwo rfl).trans hopen
    · exact (hro rfl).trans hopen
    · exact absurd rfl hne
  · have hok := h.returned r hr
    cases r <;> exact hok

omit [DecidableEq P] in
/-- A call that is not asleep does not notice a `wakeup`. -/
theorem wakeup_call (hc : s.call p = some c) (hpc : c.pc ≠ .asleep) (e : PipeEnd) :
    (s.wakeup e).call p = some c := by
  simp [PipeState.wakeup, hc, hpc]

theorem pipewrite (h : PipeInv s) (hl : s.lock = some p) (hc : s.call p = some c)
    (hpc : c.pc = .loop) {addr : List UInt8} {i : ℕ} (ht : c.transfer = .write addr i) :
    PipeInv (s.pipewrite p c addr i) := by
  have hcw := wakeup_call hc (by simp [hpc]) .readEnd
  have hgot : c.transfer.got = [] := by rw [ht, Transfer.got]
  rcases hx : addr[i]? with _ | x
  · -- All bytes are stored.
    have hdone : s.storedBy c.id = addr := by
      rw [((h.calls p c hc).wrote addr i ht).2.2]
      exact List.take_of_length_le (List.getElem?_eq_none_iff.1 hx)
    simp only [PipeState.pipewrite, hx]
    refine (h.wakeup .readEnd).leave hl hcw hgot.symm fun id addr' n hr => ?_
    obtain ⟨rfl, rfl, rfl⟩ := Returned.write.inj hr
    exact ⟨rfl, .inr ⟨rfl, hdone⟩⟩
  · simp only [PipeState.pipewrite, hx]
    split_ifs with hfull hend
    · refine h.leave hl hc hgot.symm fun id addr' n hr => ?_
      obtain ⟨rfl, rfl, rfl⟩ := Returned.write.inj hr
      exact ⟨rfl, .inl rfl⟩
    · exact (h.wakeup .readEnd).sleep hl hcw hpc
    · exact h.store hl hc hpc ht hx hfull

theorem pipereadWait (h : PipeInv s) (hl : s.lock = some p) (hc : s.call p = some c)
    (hpc : c.pc = .loop) {n : ℕ} {addr : List UInt8} (ht : c.transfer = .read n addr) :
    PipeInv (s.pipereadWait p c n addr) := by
  rw [PipeState.pipereadWait]
  split_ifs with hempty hkilled
  · exact h.leave hl hc (by rw [ht]; rfl) fun id addr' m hr => by cases hr
  · exact h.sleep hl hc hpc
  · exact h.toCopy hl hc (by rw [ht]; rfl) hempty

theorem pipereadCopy (h : PipeInv s) (hl : s.lock = some p) (hc : s.call p = some c)
    (hpc : c.pc = .copy) {n : ℕ} {addr : List UInt8} (ht : c.transfer = .read n addr) :
    PipeInv (s.pipereadCopy p c n addr) := by
  rw [PipeState.pipereadCopy]
  split_ifs with hmore
  · exact h.copy hl hc hpc ht hmore.2
  · have hcw := wakeup_call hc (by simp [hpc]) .writeEnd
    exact (h.wakeup .writeEnd).leave hl hcw (by rw [ht]; rfl) fun id addr' m hr => by cases hr

/-- A step of a call. -/
theorem turn (h : PipeInv s) (hc : s.call p = some c) (hst : s.turn p c = some t) :
    PipeInv t := by
  have hok := h.calls p c hc
  obtain ⟨id, transfer, pc⟩ := c
  cases pc with
  | acquire =>
    by_cases hl : s.lock = none
    · obtain rfl := Option.some.inj ((if_pos hl).symm.trans hst)
      exact h.acquire hl hc rfl
    · cases (if_neg hl).symm.trans hst
  | asleep => cases hst
  | loop =>
    have hl : s.lock = some p := hok.holds.1 (.inl rfl)
    cases transfer with
    | write addr i =>
      obtain rfl := Option.some.inj hst
      exact h.pipewrite hl hc rfl rfl
    | read n addr =>
      obtain rfl := Option.some.inj hst
      exact h.pipereadWait hl hc rfl rfl
  | copy =>
    have hl : s.lock = some p := hok.holds.1 (.inr rfl)
    cases transfer with
    | write addr i => cases hst
    | read n addr =>
      obtain rfl := Option.some.inj hst
      exact h.pipereadCopy hl hc rfl rfl

theorem starts (h : PipeInv s) {a : Transfer} (hst : s.start p a = some t)
    (hgot : a.got = []) (hnew : ∀ addr i, a = .write addr i → i = 0) : PipeInv t := by
  rw [PipeState.start] at hst
  split_ifs at hst with hc
  obtain rfl := Option.some.inj hst
  exact h.start hc.1 hc.2 hgot hnew

omit [DecidableEq P] in
theorem wakeup_idle {e e' : PipeEnd}
    (hidle : ∀ p c, s.call p = some c → c.transfer.pipeEnd ≠ e) :
    ∀ p c, (s.wakeup e').call p = some c → c.transfer.pipeEnd ≠ e := by
  intro p d hd
  obtain ⟨c, hc, rfl⟩ := Option.map_eq_some_iff.1 hd
  have hne := hidle p c hc
  split_ifs
  · exact hne
  · exact hne

omit [DecidableEq P] in
theorem pipeclose (h : PipeInv s)
    (hidle : ∀ p c, s.call p = some c → c.transfer.pipeEnd ≠ e) (hst : s.pipeclose e = some t) :
    PipeInv t := by
  cases e with
  | readEnd =>
    simp only [PipeState.pipeclose] at hst
    split_ifs at hst with hl
    obtain rfl := Option.some.inj hst
    exact (h.wakeup .writeEnd).close hl.1 (wakeup_idle hidle) _ _ (fun he => by cases he) fun _ => rfl
  | writeEnd =>
    simp only [PipeState.pipeclose] at hst
    split_ifs at hst with hl
    obtain rfl := Option.some.inj hst
    have hclosed := (h.wakeup .readEnd).close hl.1 (wakeup_idle hidle) _ false
      (fun _ => rfl) fun he => by cases he
    rw [Bool.not_false, Bool.and_true] at hclosed
    exact hclosed

/-- **What every step keeps.** -/
theorem act (h : PipeInv s) {a : PipeAction P} (hok : ClosedWhenIdle s a)
    (hst : s.act a = some t) : PipeInv t := by
  cases a with
  | write p addr =>
    exact h.starts hst rfl fun addr' i ha => (Transfer.write.inj ha).2.symm
  | read p n => exact h.starts hst rfl fun addr i ha => by cases ha
  | turn p =>
    obtain ⟨c, hc, hturn⟩ := Option.bind_eq_some_iff.1 hst
    exact h.turn hc hturn
  | kill p =>
    obtain rfl := Option.some.inj hst
    exact h.kill p
  | close e => exact h.pipeclose (hok e rfl) hst

end PipeInv

theorem pipeInv_init (h : (pipeCalls P).init s) : PipeInv s := by
  obtain ⟨data, killed, rfl⟩ := h
  exact {
    calls := fun p c hc => by cases hc
    ids := fun p q c d hc => by cases hc
    owner := fun p hp => by cases hp
    queue := ⟨[], Ring.Queued.empty _ _ _, rfl⟩
    stored_lt := fun x hx => by cases hx
    returned := fun r hr => by cases hr
    freed := by simp [newPipe] }

theorem pipeCalls_step {a : PipeAction P} : (pipeCalls P).step s a = .ok t ↔ s.act a = some t := by
  show (s.act a).elim (Except.error ()) Except.ok = Except.ok t ↔ _
  cases s.act a <;> simp

theorem Reach.pipeInv (h : (pipeCalls P).Reach ClosedWhenIdle s) : PipeInv s :=
  h.invariant (fun _ => pipeInv_init) fun _ _ _ hi hok hst => hi.act hok (pipeCalls_step.1 hst)

omit [DecidableEq P] in
/-- Once both ends are closed no call uses the page that has been given back. -/
theorem PipeInv.freed_idle (h : PipeInv s) (hf : s.freed = true) (p : P) : s.call p = none := by
  obtain ⟨hro, hwo⟩ := h.freed.1 hf
  rcases hc : s.call p with _ | c
  · rfl
  · have hopen := (h.calls p c hc).isOpen
    cases hend : c.transfer.pipeEnd <;> simp [hend, PipeState.isOpen, hro, hwo] at hopen

/-- Only the end of a call is recorded. -/
theorem log_of_start {a : Transfer} (hst : s.start p a = some t) : t.log = s.log := by
  rw [PipeState.start] at hst
  split_ifs at hst
  obtain rfl := Option.some.inj hst
  rfl

omit [DecidableEq P] in
theorem log_of_pipeclose (hst : s.pipeclose e = some t) : t.log = s.log := by
  cases e <;> simp only [PipeState.pipeclose] at hst <;> split_ifs at hst <;>
    obtain rfl := Option.some.inj hst <;> rfl

/-- A call of `piperead` that returns 0 is at the end of its last loop. -/
theorem returns_zero (hst : s.turn p c = some t) {id n : ℕ} {addr : List UInt8}
    (hlog : t.log = s.log ++ [.read id n 0 addr]) :
    c.pc = .copy ∧ c.transfer = .read n [] ∧
      ¬ (([] : List UInt8).length < n ∧ s.pipe.nread ≠ s.pipe.nwrite) := by
  have hkept : t.log ≠ s.log := by simp [hlog]
  obtain ⟨id', transfer, pc⟩ := c
  cases pc with
  | acquire =>
    by_cases hl : s.lock = none
    · obtain rfl := Option.some.inj ((if_pos hl).symm.trans hst)
      exact absurd rfl hkept
    · cases (if_neg hl).symm.trans hst
  | asleep => cases hst
  | loop =>
    cases transfer with
    | write addr' i =>
      obtain rfl := Option.some.inj hst
      rcases hx : addr'[i]? with _ | x
      · simp [PipeState.pipewrite, hx, PipeState.leave, PipeState.wakeup] at hlog
      · simp only [PipeState.pipewrite, hx] at hlog hkept
        split_ifs at hlog hkept
        · simp [PipeState.leave] at hlog
        · exact absurd rfl hkept
        · exact absurd rfl hkept
    | read n' addr' =>
      obtain rfl := Option.some.inj hst
      simp only [PipeState.pipereadWait] at hlog hkept
      split_ifs at hlog hkept
      · simp [PipeState.leave] at hlog
      · exact absurd rfl hkept
      · exact absurd rfl hkept
  | copy =>
    cases transfer with
    | write addr' i => cases hst
    | read n' addr' =>
      obtain rfl := Option.some.inj hst
      simp only [PipeState.pipereadCopy] at hlog hkept
      split_ifs at hlog hkept with hmore
      · exact absurd rfl hkept
      · have hret : Returned.read id' n' addr'.length addr' = .read id n 0 addr := by
          simpa [PipeState.leave, PipeState.wakeup] using hlog
        obtain ⟨-, rfl, hlen, -⟩ := Returned.read.inj hret
        obtain rfl : addr' = [] := List.length_eq_zero_iff.1 (by exact_mod_cast hlen)
        exact ⟨rfl, rfl, hmore⟩

/-- A read that returns nothing has found the pipe empty and closed. -/
theorem PipeInv.read_zero (h : PipeInv s) {a : PipeAction P} (hst : s.act a = some t) {id n : ℕ}
    {addr : List UInt8} (hlog : t.log = s.log ++ [.read id n 0 addr]) (hn : 0 < n) :
    s.delivered = s.stored.map Prod.snd ∧ s.pipe.writeopen = false := by
  have hkept : t.log ≠ s.log := by simp [hlog]
  cases a with
  | write p addr' => exact absurd (log_of_start hst) hkept
  | read p n' => exact absurd (log_of_start hst) hkept
  | kill p =>
    obtain rfl := Option.some.inj hst
    exact absurd rfl hkept
  | close e => exact absurd (log_of_pipeclose hst) hkept
  | turn p =>
    obtain ⟨c, hc, hturn⟩ := Option.bind_eq_some_iff.1 hst
    obtain ⟨hpc, ht, hend⟩ := returns_zero hturn hlog
    have hok := h.calls p c hc
    have hempty : s.pipe.nread = s.pipe.nwrite := by
      by_contra hne
      exact hend ⟨hn, hne⟩
    have hgot : c.transfer.got = [] := by rw [ht, Transfer.got]
    refine ⟨?_, (hok.fresh hpc hgot).resolve_left fun hne => hne hempty⟩
    obtain ⟨b, hb, hstored⟩ := h.queue
    rw [hstored, held_of_lock (hok.holds.1 (.inr hpc)) hc, hgot, (hb.eq_iff PIPESIZE_lt).1 hempty]
    simp

/-- **A pipe is a stream of bytes.**  Whatever calls interleave, what the reads have returned is
what has been stored first; the buffer is never overfull; a write that has returned `n` has stored
its `n` bytes in order; and a read of at least one byte returns 0 only when all has been read and
the write end is closed.  The page is not used any more when it has been given back. -/
theorem pipe_stream (hs : (pipeCalls P).Reach ClosedWhenIdle s) :
    s.delivered <+: s.stored.map Prod.snd ∧
      (s.pipe.nwrite - s.pipe.nread).toNat ≤ PIPESIZE ∧
      (∀ id addr n, .write id addr n ∈ s.log → 0 ≤ n → n = addr.length ∧ s.storedBy id = addr) ∧
      (∀ a t id n addr, (pipeCalls P).step s a = .ok t →
        t.log = s.log ++ [.read id n 0 addr] → 0 < n →
        s.delivered = s.stored.map Prod.snd ∧ s.pipe.writeopen = false) ∧
      (s.freed = true → ∀ p, s.call p = none) := by
  have h := Reach.pipeInv hs
  refine ⟨?_, ?_, fun id addr n hr hn => ?_, fun a t id n addr hst hlog hn => ?_, h.freed_idle⟩
  · obtain ⟨b, -, hst⟩ := h.queue
    exact ⟨s.held ++ b, by rw [hst, List.append_assoc]⟩
  · obtain ⟨b, hb, -⟩ := h.queue
    rw [hb.toNat_sub PIPESIZE_lt]
    exact hb.room
  · obtain ⟨-, -, hneg | hdone⟩ := h.returned _ hr
    · omega
    · exact hdone
  · exact h.read_zero (pipeCalls_step.1 hst) hlog hn

/-- One process writes two bytes, and another one reads the first of them. -/
theorem pipe_stream_two : ∃ s : PipeState ℕ, s.delivered = [7] ∧
    s.delivered <+: s.stored.map Prod.snd ∧ s.storedBy 0 = [7, 8] := by
  let as : List (PipeAction ℕ) := [.write 0 [7, 8], .read 1 1, .turn 0, .turn 0, .turn 0, .turn 0,
    .turn 1, .turn 1, .turn 1, .turn 1]
  have hrun : (pipeCalls ℕ).Ends (fun s => s.delivered = [7] ∧ .write 0 [7, 8] 2 ∈ s.log)
      (newPipe (fun _ => 0) fun _ => false) as := by decide +kernel
  have hobey : (pipeCalls ℕ).Obeys ClosedWhenIdle (newPipe (fun _ => 0) fun _ => false) as :=
    System.obeys_of_forall _ _ fun a ha s e he => by
      subst he
      simp [as] at ha
  obtain ⟨s, hs, hdel, hlog⟩ := System.Reach.of_ends (S := pipeCalls ℕ) as ⟨_, _, rfl⟩ hobey hrun
  obtain ⟨hupTo, -, hwrites, -⟩ := pipe_stream hs
  exact ⟨s, hdel, hupTo, (hwrites 0 [7, 8] 2 hlog (by decide)).2⟩

end OsSemester.Xv6
