import OsSemester.Xv6.Spec.CloneDir

/-!
# How a thread starts

`sys_clone` reads the start function, the stack and the argument as pointers to four bytes, so it
refuses values behind `sz - 4`: the argument need not be a pointer, and the last three bytes of a
program can hold a function.  `copyout` refuses a stack whose top is not accessible to the user.
`thread_start` says that nothing else comes between the call and the thread.
-/

namespace OsSemester.Xv6

variable {data : ℕ} {wild : Option Slot} {a : CloneArgs} {cur np : Slot} {σ σ' τ : Host}
variable {d dt : PageDir} {m : PhysMem} {g : Pgdir} {b v i func stack flags arg : ℕ}

/-! ### The property -/

/-- The slot `np` holds a new thread of `cur` that starts as it should: its registers, the two words on
its stack, and every other byte of every address space is as before. -/
structure ThreadStarted (σ σ' : Host) (cur np : Slot) (func stack arg : ℕ) : Prop where
  slot : (σ.k.proc np).state = .unused
  state : (σ'.k.proc np).state = .runnable
  eip : (σ'.tf np).eip = func
  eax : (σ'.tf np).eax = 0
  esp : (σ'.tf np).esp = stack + PGSIZE - 8
  words : ∃ d, σ'.pageDir np = some d ∧ d.word σ'.mem (stack + PGSIZE - 8) = 0xffffffff ∧
    d.word σ'.mem (stack + PGSIZE - 4) = arg
  /-- The thread sees what its creator saw. -/
  own : ∃ d d', σ.pageDir cur = some d ∧ σ'.pageDir np = some d' ∧
    ∀ b, b < (σ.k.proc cur).sz → ¬ (stack + PGSIZE - 8 ≤ b ∧ b < stack + PGSIZE) →
      d'.byte σ'.mem b = d.byte σ.mem b
  /-- The directories of the others, and their bytes. -/
  others : ∀ s, s ≠ np → (σ'.k.proc s).pgdir = (σ.k.proc s).pgdir
  kept : ∀ g d, σ.dir g = some d → σ'.dir g = some d ∧ ∀ b, b < KERNBASE →
    ¬ ((σ'.k.proc np).pgdir = some g ∧ stack + PGSIZE - 8 ≤ b ∧ b < stack + PGSIZE) →
    d.byte σ'.mem b = d.byte σ.mem b

namespace Host

/-- The words the caller has put behind its return address. -/
structure Passes (σ : Host) (cur : Slot) (func stack flags arg : ℕ) : Prop where
  func : σ.argint cur 0 = some func
  stack : σ.argint cur 1 = some stack
  flags : σ.argint cur 2 = some flags
  arg : σ.argint cur 3 = some arg

/-- Every `kalloc` of a call of `clone` with the flags `fl` succeeds. -/
def MemoryAvailable (σ : Host) (data : ℕ) (cur : Slot) (d : PageDir) (fl : ℤ) : Prop :=
  ∃ pg mem, kalloc σ.mem = some (pg, mem) ∧ (flagSet fl 2 = false →
    ∃ dt mem', copyuvm data d (σ.k.proc cur).sz mem = .ok (some dt, mem'))

end Host

/-! ### Words -/

theorem wordBytes_get (v : ℕ) (hi : i < 4) : (wordBytes v)[i]? = some (UInt8.ofNat (v / 256 ^ i)) := by
  unfold wordBytes
  rw [List.getElem?_map, List.getElem?_range hi]
  rfl

theorem PageDir.word_of_bytes (hv : v < 2 ^ 32)
    (h : ∀ i, i < 4 → d.byte m (b + i) = (wordBytes v)[i]?) : d.word m b = v := by
  have hb : ∀ i, i < 4 → ((d.byte m (b + i)).getD 0).toNat = v / 256 ^ i % 256 := by
    intro i hi
    rw [h i hi, wordBytes_get v hi, Option.getD_some, UInt8.toNat_ofNat']
  unfold PageDir.word
  simp only [hb 0 (by decide), hb 1 (by decide), hb 2 (by decide), hb 3 (by decide)]
  omega

theorem ustack_length (a : CloneArgs) : a.ustack.length = 8 := rfl

/-! ### The arguments -/

namespace Host

theorem argptr_eq {n size : ℕ} (hn : σ.argint cur n = some i) (hsz : (σ.k.proc cur).sz < KERNBASE)
    (hsize : size < KERNBASE) (hpos : 0 < size) :
    σ.argptr cur n size = if i + size ≤ (σ.k.proc cur).sz then some i else none := by
  unfold argptr
  rw [hn]
  simp only [KERNBASE] at *
  by_cases hi : i ≥ (σ.k.proc cur).sz
  · rw [if_pos (Or.inl hi), if_neg (by omega)]
  · have hmod : (i + size) % 2 ^ 32 = i + size := Nat.mod_eq_of_lt (by omega)
    rw [hmod]
    by_cases hle : i + size ≤ (σ.k.proc cur).sz
    · rw [if_pos hle, if_neg (by omega)]
    · rw [if_neg hle, if_pos (Or.inr (by omega))]

theorem cloneArgs_eq (hp : σ.Passes cur func stack flags arg) (hsz : (σ.k.proc cur).sz < KERNBASE)
    (hs : stack + 4 ≤ (σ.k.proc cur).sz) : σ.cloneArgs cur =
      if func + 4 ≤ (σ.k.proc cur).sz ∧ arg + 4 ≤ (σ.k.proc cur).sz then
        some ⟨func, stack, int flags, arg⟩
      else none := by
  have h4 : 4 < KERNBASE := by decide
  unfold cloneArgs
  rw [argptr_eq hp.func hsz h4 (by decide), argptr_eq hp.stack hsz h4 (by decide), hp.flags,
    argptr_eq hp.arg hsz h4 (by decide), if_pos hs]
  by_cases hf : func + 4 ≤ (σ.k.proc cur).sz
  · by_cases ha : arg + 4 ≤ (σ.k.proc cur).sz
    · rw [if_pos hf, if_pos ha, if_pos ⟨hf, ha⟩]
    · rw [if_pos hf, if_neg ha, if_neg (not_and_of_not_right _ ha)]
  · rw [if_neg hf, if_neg (not_and_of_not_left _ hf)]

/-! ### From the call to the stack -/

theorem int_of_le (h : flags ≤ 31) : int flags = flags := by
  unfold int
  rw [if_pos (by omega)]

/-- With a slot and memory, `clone` comes to the stack of the new thread. -/
theorem clone_placed (wild : Option Slot) (hd : LinkerData data) (hM : σ.Memory) (hc : σ.Caller cur d)
    (hfl : 0 ≤ a.flags ∧ a.flags ≤ 31) (hslot : ∃ s, (σ.k.proc s).state = .unused)
    (hmem : σ.MemoryAvailable data cur d a.flags) :
    ∃ np τ g dt, np ≠ cur ∧ (σ.k.proc np).state = .unused ∧ Placed σ τ cur np a.flags d g dt ∧
      σ.clone data wild cur a = match runClone data wild a cur np 5 .cloneIsthread τ with
        | .error e => .error e
        | .ok (σ', done) => .ok (σ', if done then some np else none) := by
  obtain ⟨pg, mem, hk, hcopy⟩ := hmem
  obtain ⟨s, hs⟩ := hslot
  -- `allocproc` finds a slot
  obtain ⟨np, hnp⟩ := scan_isSome (P := fun s => (σ.k.proc s).state = .unused) (s := s)
    (decide_eq_true hs)
  obtain ⟨k, ha⟩ : ∃ k, allocproc σ.k = some (np, k) := by
    unfold allocproc
    rw [hnp]
    exact ⟨_, rfl⟩
  obtain ⟨hun, -, -, -, hinuse, -⟩ := allocproc_some ha
  have hne : cur ≠ np := by
    rintro rfl
    exact hc.state hun
  have hfree := (kalloc_some hk).1
  have hk' : kalloc ({ σ with k := k } : Host).mem = some (pg, mem) := hk
  have hpg : ({ σ with k := k } : Host).k.inuse pg = false := by
    show k.inuse pg = false
    rw [hinuse]
    exact hM.kstacks pg (by rw [hfree]; exact List.mem_cons_self ..)
  have hB : Begun σ (σ.begin k mem cur np a.flags wild pg) cur np a.flags pg := begun cur a.flags wild ha hk
  obtain ⟨τ, hτ⟩ : ∃ τ, τ = σ.begin k mem cur np a.flags wild pg := ⟨_, rfl⟩
  have hrun : σ.clone data wild cur a =
      match runClone data wild a cur np 6 .clonePgdir τ with
        | .error e => .error e
        | .ok (σ', done) => .ok (σ', if done then some np else none) := by
    unfold clone
    rw [if_neg (by omega), ha]
    simp only
    rw [runClone_front hne hk' hpg, hτ]
    rfl
  rw [← hτ] at hB
  have hcur : τ.k.proc cur = σ.k.proc cur := hB.others cur hne
  have hsrc : τ.pageDir cur = some d := by
    unfold pageDir
    rw [hcur, hB.dir]
    exact hc.dir
  rw [hrun]
  by_cases hvm : flagSet a.flags 2 = true
  -- with `CLONE_VM` the thread has the directory of the caller, otherwise a copy
  · obtain ⟨g, hP⟩ := placed_vm hB hM hne hc
    refine ⟨np, _, g, d, hne.symm, hun, hP, ?_⟩
    rw [runClone_vm (by rw [hB.vm, hvm])]
  · rw [Bool.not_eq_true] at hvm
    obtain ⟨dt, mem', hok⟩ := hcopy hvm
    have hmemeq : τ.mem = mem := by rw [hτ]; rfl
    have hC := copied_of_caller hd hM hc hk hok
    rw [← hmemeq] at hC hok
    refine ⟨np, _, τ.k.ndir, dt, hne.symm, hun, placed_copy hB hM hC hc.size.le, ?_⟩
    rw [runClone_copy (by rw [hB.vm, hvm]) hsrc (by rw [hcur]; exact hok)]

/-! ### The stack -/

/-- The addresses of the 8 bytes on the stack. -/
theorem user_top (d : PageDir) (top : ℕ) (htop : top + 8 ≤ KERNBASE) :
    (∀ i, i < 8 → d.User ((top + i) % 2 ^ 32)) ↔ d.User top ∧ d.User (top + 7) := by
  simp only [KERNBASE] at htop
  have hmod : ∀ i, i < 8 → (top + i) % 2 ^ 32 = top + i := fun i hi =>
    Nat.mod_eq_of_lt (by omega)
  constructor
  · intro h
    have h0 := h 0 (by decide)
    have h7 := h 7 (by decide)
    rw [hmod _ (by decide)] at h0 h7
    exact ⟨h0, h7⟩
  · rintro ⟨h0, h7⟩ i hi
    rw [hmod i hi]
    -- at most two pages
    by_cases hpage : (top + i) / 4096 = top / 4096
    · rwa [PageDir.user_congr ((sameEntry_iff (by omega) (by omega)).mpr hpage)]
    · have h7' : (top + i) / 4096 = (top + 7) / 4096 := by omega
      rwa [PageDir.user_congr ((sameEntry_iff (by omega) (by omega)).mpr h7')]

theorem frame_esp (h : a.stack + PGSIZE < KERNBASE) : a.frame.esp = a.stack + PGSIZE - 8 := by
  show ((a.stack + PGSIZE) % 2 ^ 32 + (2 ^ 32 - 8)) % 2 ^ 32 = _
  simp only [KERNBASE, PGSIZE] at *
  omega

/-- What `threaded` leaves alone. -/
theorem threaded_lends (hP : Placed σ τ cur np a.flags d g dt) (hne : cur ≠ np) (m : PhysMem) :
    Lends ({ τ.threaded cur np a with mem := m } : Host).k cur
        (({ τ.threaded cur np a with mem := m } : Host).k.proc np).cloneFiles
        (({ τ.threaded cur np a with mem := m } : Host).k.proc np).cloneFs ↔
      Lends σ.k cur (flagSet a.flags 0) (flagSet a.flags 1) := by
  have hcur : (τ.threaded cur np a).k.proc cur = σ.k.proc cur := by
    unfold threaded
    rw [Kernel.modify_proc_of_ne _ _ _ hne, hP.others cur hne]
  have hft : (τ.threaded cur np a).k.ftable = σ.k.ftable := hP.ftable
  have hfiles : ((τ.threaded cur np a).k.proc np).cloneFiles = flagSet a.flags 0 := by
    unfold threaded
    rw [Kernel.modify_proc_self]
    exact hP.files
  have hfs : ((τ.threaded cur np a).k.proc np).cloneFs = flagSet a.flags 1 := by
    unfold threaded
    rw [Kernel.modify_proc_self]
    exact hP.fs
  show Lends (τ.threaded cur np a).k cur _ _ ↔ _
  rw [hfiles, hfs]
  constructor
  · rintro ⟨h1, h2⟩
    rw [hcur, hft] at h1
    rw [hcur] at h2
    exact ⟨h1, h2⟩
  · rintro ⟨h1, h2⟩
    refine ⟨?_, ?_⟩
    · rwa [hcur, hft]
    · rwa [hcur]

/-- The state after the two words have been written and the thread has been published. -/
theorem Placed.started (hP : Placed σ τ cur np a.flags d g dt) (hc : σ.Caller cur d)
    (hslot : (σ.k.proc np).state = .unused) (harg : a.arg < 2 ^ 32)
    (hstack : a.stack + PGSIZE ≤ (σ.k.proc cur).sz)
    (hW : Wrote dt (a.stack + PGSIZE - 8) a.ustack τ.mem m)
    (hpub : Published { τ.threaded cur np a with mem := m } σ' np) :
    ThreadStarted σ σ' cur np a.func a.stack a.arg := by
  have hsize := hc.size
  have hesp := frame_esp (a := a) (by omega)
  obtain ⟨top, htop⟩ : ∃ top, top = a.stack + PGSIZE - 8 := ⟨_, rfl⟩
  have hend : a.stack + PGSIZE = top + 8 := by
    simp only [PGSIZE] at *
    omega
  have hmid : a.stack + PGSIZE - 4 = top + 4 := by omega
  rw [← htop] at hW hesp
  have hlen := ustack_length a
  have hrange : top + a.ustack.length ≤ KERNBASE := by omega
  have hmem : σ'.mem = m := hpub.mem
  have htf : σ'.tf np = a.frame := by
    rw [hpub.tf]
    exact Function.update_self ..
  have hpgdir : ∀ s, (σ'.k.proc s).pgdir = (τ.k.proc s).pgdir := by
    intro s
    rw [hpub.pgdir]
    exact Kernel.modify_field (f := fun p =>
      { p with sz := (τ.k.proc cur).sz, isthread := true }) (·.pgdir) rfl s
  have hdir : σ'.dir = τ.dir := hpub.dir
  have hpg : σ'.pageDir np = some dt := by
    unfold pageDir
    rw [hpgdir, hP.pgdir, hdir]
    exact hP.dir
  -- the two words can be read back
  have hread : ∀ i, i < 8 → dt.byte m (top + i) = a.ustack[i]? := fun i hi =>
    byte_written hP.pool hP.dir hW hrange (by omega)
  refine ⟨hslot, ?_, by rw [htf]; rfl, by rw [htf]; rfl, by rw [htf, hesp, htop],
    ⟨dt, hpg, ?_, ?_⟩, ⟨d, dt, hc.dir, hpg, fun b hb hn => ?_⟩, fun s hs => ?_,
    fun g' d' hd' => ?_⟩
  · rw [hpub.state, if_pos rfl]
  · rw [← htop, hmem]
    refine PageDir.word_of_bytes (by decide) fun i hi => ?_
    rw [hread i (by omega)]
    exact List.getElem?_append_left (by rw [wordBytes_length]; exact hi)
  · rw [hmid, hmem]
    refine PageDir.word_of_bytes harg fun i hi => ?_
    rw [Nat.add_assoc, hread (4 + i) (by omega)]
    unfold CloneArgs.ustack
    rw [List.getElem?_append_right (by rw [wordBytes_length]; omega), wordBytes_length,
      Nat.add_sub_cancel_left]
  · rw [hmem, ← hP.own b hb]
    exact byte_wrote hP.pool hP.dir hW hrange hP.dir (by omega) fun h => hn (by omega)
  · rw [hpgdir, hP.others s hs]
  · obtain ⟨h1, h2⟩ := hP.kept g' d' hd'
    refine ⟨by rw [hdir]; exact h1, fun b hb hn => ?_⟩
    rw [hmem, ← h2 b hb]
    refine byte_wrote hP.pool hP.dir hW hrange h1 hb fun h => hn ⟨?_, by omega, by omega⟩
    rw [hpgdir, hP.pgdir, h.1]

/-- From the stack on: the thread starts, or the call does not succeed. -/
theorem Placed.start (data : ℕ) (wild : Option Slot) (hP : Placed σ τ cur np a.flags d g dt) (hc : σ.Caller cur d)
    (hne : np ≠ cur) (hslot : (σ.k.proc np).state = .unused) (harg : a.arg < 2 ^ 32)
    (hstack : a.stack + PGSIZE ≤ (σ.k.proc cur).sz) :
    (d.User (a.stack + PGSIZE - 8) ∧ d.User (a.stack + PGSIZE - 1) ∧
        Lends σ.k cur (flagSet a.flags 0) (flagSet a.flags 1) →
      ∃ σ', runClone data wild a cur np 5 .cloneIsthread τ = .ok (σ', true) ∧
        ThreadStarted σ σ' cur np a.func a.stack a.arg) ∧
    (¬ (d.User (a.stack + PGSIZE - 8) ∧ d.User (a.stack + PGSIZE - 1) ∧
        Lends σ.k cur (flagSet a.flags 0) (flagSet a.flags 1)) →
      ∀ σ', runClone data wild a cur np 5 .cloneIsthread τ ≠ .ok (σ', true)) := by
  have hsize := hc.size
  have hesp := frame_esp (a := a) (by omega)
  have hpos : 8 ≤ a.stack + PGSIZE := by
    simp only [PGSIZE]
    omega
  have hseven : a.stack + PGSIZE - 8 + 7 = a.stack + PGSIZE - 1 := by omega
  have huser := user_top dt (a.stack + PGSIZE - 8) (by omega)
  rw [hseven, hP.user _ (by omega), hP.user _ (by omega)] at huser
  have hdir : τ.pageDir np = some dt := by
    unfold pageDir
    rw [hP.pgdir]
    exact hP.dir
  rw [runClone_stack hdir, hesp]
  unfold copyout
  have hlen := ustack_length a
  have hlt : a.stack + PGSIZE - 8 < 2 ^ 32 := by
    simp only [KERNBASE] at hsize
    omega
  rcases copyoutLoop_spec (d := dt) (m := τ.mem) hlt (le_refl a.ustack.length) with
    ⟨m', hok, hall, hW⟩ | ⟨i, hi, -, hnot, hres⟩
  · rw [hok]
    simp only
    obtain ⟨hu1, hu2⟩ := huser.mp fun i hi => hall i (by omega)
    have hL := threaded_lends hP hne.symm m'
    obtain ⟨hyes, hno⟩ := runClone_end data wild a cur np { τ.threaded cur np a with mem := m' }
    refine ⟨fun hcond => ?_, fun hcond σ' hrun => ?_⟩
    · obtain ⟨σ', hrun, hpub⟩ := hyes (hL.mpr hcond.2.2)
      exact ⟨σ', hrun, hP.started hc hslot harg hstack hW hpub⟩
    · obtain ⟨e, he⟩ := hno fun h => hcond ⟨hu1, hu2, hL.mp h⟩
      rw [he] at hrun
      cases hrun
  · have hcond : ¬ (d.User (a.stack + PGSIZE - 8) ∧ d.User (a.stack + PGSIZE - 1) ∧
        Lends σ.k cur (flagSet a.flags 0) (flagSet a.flags 1)) := fun h =>
      hnot (huser.mpr ⟨h.1, h.2.1⟩ i (by omega))
    refine ⟨fun h => absurd h hcond, fun _ σ' hrun => ?_⟩
    split_ifs at hres with hnone
    · rw [hres] at hrun
      cases hrun
    · obtain ⟨m', hok, -⟩ := hres
      rw [hok] at hrun
      exact absurd (Prod.mk.inj (Except.ok.inj hrun)).2 (by decide)

end Host

/-! ### The call -/

/-- **The thread start contract.** With a free slot and memory, a call of `clone` on a stack inside the
process starts the thread as it should exactly when the function and the argument are addresses of
four bytes of the process, the user has access to the top of the stack, and what is to be shared or
duplicated is there. -/
theorem thread_start (hd : LinkerData data) (hM : σ.Memory) (hc : σ.Caller cur d)
    (hp : σ.Passes cur func stack flags arg) (hstack : stack + PGSIZE ≤ (σ.k.proc cur).sz)
    (hflags : flags ≤ 31) (hslot : ∃ s, (σ.k.proc s).state = .unused)
    (hmem : σ.MemoryAvailable data cur d flags) :
    (∃ σ' np, σ.sysClone cur data wild = .ok (σ', some np) ∧
        ThreadStarted σ σ' cur np func stack arg) ↔
      func + 4 ≤ (σ.k.proc cur).sz ∧ arg + 4 ≤ (σ.k.proc cur).sz ∧
        d.User (stack + PGSIZE - 8) ∧ d.User (stack + PGSIZE - 1) ∧
        Host.Lends σ.k cur (flagSet flags 0) (flagSet flags 1) := by
  have hargs := Host.cloneArgs_eq hp hc.size (by simp only [PGSIZE] at hstack; omega)
  unfold Host.sysClone
  rw [hargs]
  by_cases hin : func + 4 ≤ (σ.k.proc cur).sz ∧ arg + 4 ≤ (σ.k.proc cur).sz
  · rw [if_pos hin]
    simp only
    obtain ⟨a, ha⟩ : ∃ a : CloneArgs, a = ⟨func, stack, int flags, arg⟩ := ⟨_, rfl⟩
    have hint := Host.int_of_le hflags
    have hfl : a.flags = flags := by rw [ha]; exact hint
    have hst : a.stack = stack := by rw [ha]
    have hfn : a.func = func := by rw [ha]
    have har : a.arg = arg := by rw [ha]
    have hsize := hc.size
    obtain ⟨np, τ, g, dt, hne, hun, hP, hrun⟩ := Host.clone_placed wild hd hM hc
      (show 0 ≤ a.flags ∧ a.flags ≤ 31 by rw [hfl]; omega) hslot (by rw [hfl]; exact hmem)
    have hstart := hP.start data wild hc hne hun (by simp only [KERNBASE] at hsize; omega)
      (by rw [hst]; exact hstack)
    rw [hst, hfl, hfn, har] at hstart
    rw [← ha, hrun]
    by_cases hcond : d.User (stack + PGSIZE - 8) ∧ d.User (stack + PGSIZE - 1) ∧
        Host.Lends σ.k cur (flagSet flags 0) (flagSet flags 1)
    · obtain ⟨σ', hok, hstarted⟩ := hstart.1 hcond
      refine iff_of_true ⟨σ', np, ?_, hstarted⟩ ⟨hin.1, hin.2, hcond⟩
      rw [hok]
      rfl
    · refine iff_of_false ?_ fun h => hcond h.2.2
      rintro ⟨σ', np', hok, -⟩
      cases hr : Host.runClone data wild a cur np 5 .cloneIsthread τ with
      | error e =>
        rw [hr] at hok
        cases hok
      | ok r =>
        obtain ⟨σ'', done⟩ := r
        rw [hr] at hok
        cases done with
        | false => exact absurd (Prod.mk.inj (Except.ok.inj hok)).2 nofun
        | true => exact hstart.2 hcond σ'' hr
  · rw [if_neg hin]
    refine iff_of_false ?_ fun h => hin ⟨h.1, h.2.1⟩
    rintro ⟨σ', np, hok, -⟩
    exact absurd (Prod.mk.inj (Except.ok.inj hok)).2 nofun

/-! ### Calls of the first process -/

theorem startHost_available (arg : ℕ) (data : ℕ) :
    (startHost arg).MemoryAvailable data 0 loneDir 4 :=
  ⟨4, _, rfl, fun h => absurd h (by decide)⟩

theorem startHost_slot (arg : ℕ) : ∃ s, ((startHost arg).k.proc s).state = .unused := ⟨1, rfl⟩

theorem startHost_lends (arg : ℕ) : Host.Lends (startHost arg).k 0 false false :=
  ⟨Or.inr nofun, Or.inr nofun⟩

theorem loneDir_user (hb : b < 4096) : loneDir.User b := by
  have hs : SameEntry b 0 := by
    rw [sameEntry_iff (by omega) (by decide)]
    simp only [PGSIZE]
    omega
  exact ⟨lonePte, by rw [loneDir_pte, if_pos hs], rfl⟩

/-- A thread whose argument is 0. -/
theorem thread_start_zero : ∃ σ' np,
    (startHost 0).sysClone 0 0x80108000 none = .ok (σ', some np) ∧
      ThreadStarted (startHost 0) σ' 0 np 0 0 0 := by
  have hp : (startHost 0).Passes 0 0 0 4 0 := by constructor <;> decide +kernel
  exact (thread_start linkerData (startHost_memory 0) (startHost_caller 0) hp (by decide)
    (by decide) (startHost_slot 0) (startHost_available 0 _)).mpr
    ⟨by decide, by decide, loneDir_user (by decide), loneDir_user (by decide), startHost_lends 0⟩

/-- The argument 5000 is not an address of the process: with a slot and memory the call fails. -/
theorem thread_start_counterexample : (startHost 5000).Memory ∧ (startHost 5000).Caller 0 loneDir ∧
    (startHost 5000).Passes 0 0 0 4 5000 ∧ (∃ s, ((startHost 5000).k.proc s).state = .unused) ∧
    (startHost 5000).MemoryAvailable 0x80108000 0 loneDir 4 ∧
    (loneDir.User 4088 ∧ loneDir.User 4095 ∧ Host.Lends (startHost 5000).k 0 false false) ∧
    ¬ ∃ σ' np, (startHost 5000).sysClone 0 0x80108000 none = .ok (σ', some np) ∧
      ThreadStarted (startHost 5000) σ' 0 np 0 0 5000 := by
  have hp : (startHost 5000).Passes 0 0 0 4 5000 := by constructor <;> decide +kernel
  refine ⟨startHost_memory _, startHost_caller _, hp, startHost_slot _, startHost_available _ _,
    ⟨loneDir_user (by decide), loneDir_user (by decide), startHost_lends _⟩, ?_⟩
  rintro ⟨σ', np, hok, -⟩
  have hargs : (startHost 5000).cloneArgs 0 = none := by
    rw [Host.cloneArgs_eq hp (startHost_caller 5000).size (by decide)]
    exact if_neg (by decide)
  unfold Host.sysClone at hok
  rw [hargs] at hok
  exact absurd (Prod.mk.inj (Except.ok.inj hok)).2 nofun

end OsSemester.Xv6
