import OsSemester.Xv6.Machine
import OsSemester.Xv6.Spec.CloneCall

/-!
# The address space of a new thread

After its page directory has been chosen, a new thread has the directory of the caller or a copy of
it; `Placed` says what both cases have in common.  No physical page is in two places (`Host.Memory`),
so that a write through one directory is seen through no other one.
-/

namespace OsSemester.Xv6

namespace Host

variable {data : ℕ} {wild : Option Slot} {a : CloneArgs} {cur np : Slot} {σ σ' τ : Host}
variable {d d' dt : PageDir} {g g' : Pgdir} {b va : ℕ} {buf : List UInt8} {m : PhysMem}

/-! ### Memory -/

/-- The pages of all directories. -/
def held (σ : Host) (u : Pgdir × Use) : Option Page := (σ.dir u.1).bind fun d => d.held u.2

/-- No page is in two places, and the next directory has not been made yet. -/
structure Memory (σ : Host) : Prop where
  pool : Pool σ.mem.free σ.held
  kstacks : ∀ pg, pg ∈ σ.mem.free → σ.k.inuse pg = false
  fresh : σ.dir σ.k.ndir = none

theorem held_page (hg : σ.dir g = some d) (hb : b < KERNBASE) {p : Pte} (hp : d.pte b = some p) :
    σ.held (g, .page (PDX b) (PTX b)) = some p.page := by
  unfold held
  rw [hg, Option.bind_some, PageDir.held_page hb, hp]
  rfl

/-- Two addresses of one physical page are the same address of the same directory, up to the offset. -/
theorem same_of_page (hP : Pool m.free σ.held) (hg : σ.dir g = some d) (hg' : σ.dir g' = some d')
    {c : ℕ} (hb : b < KERNBASE) (hc : c < KERNBASE) {p q : Pte} (hp : d.pte b = some p)
    (hq : d'.pte c = some q) (hpq : p.page = q.page) : g = g' ∧ SameEntry b c := by
  have h1 := held_page hg hb hp
  have h2 := held_page hg' hc hq
  rw [hpq] at h1
  obtain ⟨rfl, hu⟩ := Prod.mk.inj (hP.inj h1 h2)
  obtain ⟨h3, h4⟩ := Use.page.inj hu
  exact ⟨rfl, h3, h4⟩

/-- **A write through one directory** changes the bytes it writes and no others. -/
theorem byte_wrote (hP : Pool σ.mem.free σ.held) (hg : σ.dir g = some d)
    (hW : Wrote d va buf σ.mem m) (hva : va + buf.length ≤ KERNBASE) (hg' : σ.dir g' = some d')
    (hb : b < KERNBASE) (hn : ¬ (g' = g ∧ va ≤ b ∧ b < va + buf.length)) :
    d'.byte m b = d'.byte σ.mem b := by
  unfold PageDir.byte
  cases hp : d'.pte b with
  | none => rfl
  | some p =>
    rw [Option.map_some, Option.map_some]
    congr 1
    unfold Bytes.get
    have hoff : b % PGSIZE < PGSIZE := Nat.mod_lt _ (by decide)
    rw [dif_pos hoff, dif_pos hoff]
    by_contra hne
    obtain ⟨i, q, hi, hq, -, hqp, hj⟩ := hW.changed _ _ hne
    have hlt : va + i < KERNBASE := by omega
    have hmod : (va + i) % 2 ^ 32 = va + i := by
      simp only [KERNBASE] at hlt
      exact Nat.mod_eq_of_lt (by omega)
    rw [hmod] at hq hj
    obtain ⟨hgg, hs⟩ := same_of_page hP hg' hg hb hlt hp hq hqp.symm
    rw [sameEntry_iff (by simp only [KERNBASE] at hb; omega)
      (by simp only [KERNBASE] at hlt; omega)] at hs
    refine hn ⟨hgg, ?_⟩
    simp only [PGSIZE] at hs hj
    omega

/-- What has been written can be read. -/
theorem byte_written (hP : Pool σ.mem.free σ.held) (hg : σ.dir g = some d)
    (hW : Wrote d va buf σ.mem m) (hva : va + buf.length ≤ KERNBASE) {i : ℕ}
    (hi : i < buf.length) : d.byte m (va + i) = buf[i]? := by
  have hmod : ∀ j, j < buf.length → (va + j) % 2 ^ 32 = va + j := by
    intro j hj
    simp only [KERNBASE] at hva
    exact Nat.mod_eq_of_lt (by omega)
  have h := hW.bytes (by simp only [KERNBASE] at hva; omega) (fun i j hi hj p q hp hq hpq => by
    rw [hmod i hi] at hp ⊢
    rw [hmod j hj] at hq ⊢
    exact (same_of_page hP hg hg (by omega) (by omega) hp hq hpq).2) i hi
  rwa [hmod i hi] at h

/-- A new directory with pages from the free list. -/
theorem pool_copied {src : PageDir} {sz : ℕ} {m' : PhysMem} (hP : Pool m.free σ.held)
    (hfresh : σ.dir g = none) (hC : CopiedDir src sz m d m')
    (hdir : σ'.dir = Function.update σ.dir g (some d)) : Pool m'.free σ'.held := by
  have hnone : ∀ u, σ.held (g, u) = none := by
    intro u
    unfold held
    rw [hfresh]
    rfl
  have hframe := hC.evolves.exchange.frame σ.held
  have hnew : Pool m'.free (Sum.elim d.held σ.held) := by
    refine hframe.pool ⟨hP.nodup, ?_, ?_⟩
    · rintro (u | u) f hf
      · cases hf
      · exact hP.apart hf
    · rintro (u | u) (v | v) f hu hv
      · cases hu
      · cases hu
      · cases hv
      · exact congrArg Sum.inr (hP.inj hu hv)
  -- the pages of the new directory are those with its number
  let e : Pgdir × Use → Use ⊕ (Pgdir × Use) := fun u => if u.1 = g then Sum.inl u.2 else Sum.inr u
  have he : Function.Injective e := by
    rintro ⟨g1, u1⟩ ⟨g2, u2⟩ h
    simp only [e] at h
    split_ifs at h with h1 h2 h2
    · rw [h1, h2, Sum.inl.inj h]
    · exact Sum.inr.inj h
  refine (Exchange.rename e he (fun u => ?_) fun r hr => ?_).1.mp hnew
  · simp only [e, held, hdir, Function.update_apply]
    split_ifs with h1
    · rfl
    · rfl
  · rcases r with u | ⟨g1, u⟩
    · exact absurd (if_pos rfl) (hr (g, u))
    · by_cases h1 : g1 = g
      · rw [h1]
        exact hnone u
      · exact absurd (if_neg h1) (hr (g1, u))

/-! ### From the call to the stack -/

/-- The caller of a system call: its pages below its size are mapped. -/
structure Caller (σ : Host) (cur : Slot) (d : PageDir) : Prop where
  state : (σ.k.proc cur).state ≠ .unused
  dir : σ.pageDir cur = some d
  size : (σ.k.proc cur).sz < KERNBASE
  mapped : ∀ b, b < (σ.k.proc cur).sz → d.pte b ≠ none

/-- What has happened when `clone` comes to the page directory. -/
structure Begun (σ τ : Host) (cur np : Slot) (fl : ℤ) (pg : Page) : Prop where
  others : ∀ s, s ≠ np → τ.k.proc s = σ.k.proc s
  kstack : (τ.k.proc np).kstack = some pg
  files : (τ.k.proc np).cloneFiles = flagSet fl 0
  fs : (τ.k.proc np).cloneFs = flagSet fl 1
  vm : (τ.k.proc np).cloneVm = flagSet fl 2
  dir : τ.dir = σ.dir
  ndir : τ.k.ndir = σ.k.ndir
  ftable : τ.k.ftable = σ.k.ftable
  free : σ.mem.free = pg :: τ.mem.free
  data : τ.mem.data = σ.mem.data

/-- The state in which `clone` comes to the page directory. -/
def begin (σ : Host) (k : Kernel) (mem : PhysMem) (cur np : Slot) (fl : ℤ) (wild : Option Slot)
    (pg : Page) : Host :=
  { σ with mem := mem, k := embryoKernel k cur np fl wild pg }

theorem begun (cur : Slot) (fl : ℤ) (wild : Option Slot) {k : Kernel} {mem : PhysMem} {pg : Page}
    (ha : allocproc σ.k = some (np, k)) (hk : kalloc σ.mem = some (pg, mem)) :
    Begun σ (σ.begin k mem cur np fl wild pg) cur np fl pg := by
  obtain ⟨-, hproc, -, -, -, hndir, -, hft⟩ := allocproc_some ha
  obtain ⟨hfree, hdata⟩ := kalloc_some hk
  have hself : ((σ.begin k mem cur np fl wild pg).k.proc np) = embryo k cur np fl wild pg :=
    Function.update_self ..
  refine ⟨fun s hs => ?_, by rw [hself]; rfl, by rw [hself]; rfl, by rw [hself]; rfl,
    by rw [hself]; rfl, rfl, hndir, hft, hfree, hdata⟩
  show Function.update k.proc np _ s = _
  rw [Function.update_of_ne hs, hproc, if_neg hs]

/-- What the page directory of the new thread has to do with the caller's, once it is chosen. -/
structure Placed (σ τ : Host) (cur np : Slot) (fl : ℤ) (d : PageDir) (g : Pgdir) (dt : PageDir) :
    Prop where
  pgdir : (τ.k.proc np).pgdir = some g
  dir : τ.dir g = some dt
  pool : Pool τ.mem.free τ.held
  user : ∀ b, b < (σ.k.proc cur).sz → (dt.User b ↔ d.User b)
  own : ∀ b, b < (σ.k.proc cur).sz → dt.byte τ.mem b = d.byte σ.mem b
  kept : ∀ g' d', σ.dir g' = some d' → τ.dir g' = some d' ∧
    ∀ b, b < KERNBASE → d'.byte τ.mem b = d'.byte σ.mem b
  others : ∀ s, s ≠ np → τ.k.proc s = σ.k.proc s
  files : (τ.k.proc np).cloneFiles = flagSet fl 0
  fs : (τ.k.proc np).cloneFs = flagSet fl 1
  ftable : τ.k.ftable = σ.k.ftable

theorem Begun.pool {fl : ℤ} {pg : Page} (h : Begun σ τ cur np fl pg) (hM : σ.Memory) :
    Pool τ.mem.free τ.held := by
  obtain ⟨hn, ha, hi⟩ := hM.pool
  have hheld : τ.held = σ.held := by
    unfold held
    rw [h.dir]
  rw [h.free] at hn
  rw [hheld]
  refine ⟨(List.nodup_cons.mp hn).2, fun hk hf => ha hk ?_, hi⟩
  rw [h.free]
  exact List.mem_cons_of_mem _ hf

/-- The directory of a process by its number. -/
theorem pageDir_some {s : Slot} (h : σ.pageDir s = some d) :
    ∃ g, (σ.k.proc s).pgdir = some g ∧ σ.dir g = some d := Option.bind_eq_some_iff.mp h

/-- With `CLONE_VM` the thread has the directory of its creator. -/
theorem placed_vm {fl : ℤ} {pg : Page} (h : Begun σ τ cur np fl pg) (hM : σ.Memory)
    (hne : cur ≠ np) (hc : σ.Caller cur d) :
    ∃ g, Placed σ { τ with k := shareDir τ.k cur np } cur np fl d g d := by
  obtain ⟨g, hg, hdir⟩ := pageDir_some hc.dir
  have hbyte : ∀ d' : PageDir, ∀ b, d'.byte τ.mem b = d'.byte σ.mem b := by
    intro d' b
    unfold PageDir.byte
    rw [h.data]
  have hself := shareDir_proc τ.k cur np np
  rw [if_pos rfl] at hself
  refine ⟨g, ?_, by show τ.dir g = some d; rw [h.dir, hdir], h.pool hM, fun b _ => Iff.rfl,
    fun b _ => hbyte d b, fun g' d' hd' => ⟨by show τ.dir g' = some d'; rw [h.dir, hd'],
      fun b _ => hbyte d' b⟩, fun s hs => ?_, ?_, ?_, h.ftable⟩
  · show ((shareDir τ.k cur np).proc np).pgdir = _
    rw [hself, h.others cur hne]
    exact hg
  · show (shareDir τ.k cur np).proc s = _
    rw [shareDir_proc, if_neg hs, h.others s hs]
  · show ((shareDir τ.k cur np).proc np).cloneFiles = _
    rw [hself]
    exact h.files
  · show ((shareDir τ.k cur np).proc np).cloneFs = _
    rw [hself]
    exact h.fs

/-- Without `CLONE_VM` it has a copy. -/
theorem placed_copy {fl : ℤ} {pg : Page} {mem : PhysMem} (h : Begun σ τ cur np fl pg)
    (hM : σ.Memory) (hC : CopiedDir d (σ.k.proc cur).sz τ.mem dt mem)
    (hsz : (σ.k.proc cur).sz ≤ KERNBASE) :
    Placed σ { τ with
      mem := mem
      dir := Function.update τ.dir τ.k.ndir (some dt)
      k := installDir τ.k np } cur np fl d τ.k.ndir dt := by
  have hR := PGROUNDUP_eq hsz
  have hP := h.pool hM
  have hfresh : τ.dir τ.k.ndir = none := by
    rw [h.dir, h.ndir]
    exact hM.fresh
  have hround : ∀ b, b < (σ.k.proc cur).sz → b < PGROUNDUP (σ.k.proc cur).sz := by
    intro b hb
    omega
  have hself := installDir_proc τ.k np np
  rw [if_pos rfl] at hself
  refine ⟨?_, Function.update_self .., pool_copied hP hfresh hC rfl, fun b hb => ?_, fun b hb => ?_,
    fun g' d' hd' => ⟨?_, fun b hb => ?_⟩, fun s hs => ?_, ?_, ?_, h.ftable⟩
  · show ((installDir τ.k np).proc np).pgdir = _
    rw [hself]
  · obtain ⟨p, q, hp, -, hq, -⟩ := hC.copied b (hround b hb)
    unfold PageDir.User
    simp only [hp, hq, Option.some.injEq, exists_eq_left']
  · obtain ⟨p, q, hp, -, hq, hdata⟩ := hC.copied b (hround b hb)
    show dt.byte mem b = _
    unfold PageDir.byte
    rw [hp, hq, Option.map_some, Option.map_some, hdata, h.data]
  · show Function.update τ.dir τ.k.ndir (some dt) g' = _
    rw [Function.update_of_ne, h.dir, hd']
    rintro rfl
    rw [h.dir, hd'] at hfresh
    cases hfresh
  · -- what others map was not free
    show d'.byte mem b = _
    unfold PageDir.byte
    cases hp : d'.pte b with
    | none => rfl
    | some p =>
      have hd'' : τ.dir g' = some d' := by rw [h.dir, hd']
      rw [Option.map_some, Option.map_some, hC.data _ (hP.apart (held_page hd'' hb hp)), h.data]
  · show (installDir τ.k np).proc s = _
    rw [installDir_proc, if_neg hs, h.others s hs]
  · show ((installDir τ.k np).proc np).cloneFiles = _
    rw [hself]
    exact h.files
  · show ((installDir τ.k np).proc np).cloneFs = _
    rw [hself]
    exact h.fs

/-- A copy of the caller's pages that succeeds, after a page has been taken for a kernel stack. -/
theorem copied_of_caller {pg : Page} {mem mem' : PhysMem} (hd : LinkerData data) (hM : σ.Memory)
    (hc : σ.Caller cur d) (hk : kalloc σ.mem = some (pg, mem))
    (hok : copyuvm data d (σ.k.proc cur).sz mem = .ok (some dt, mem')) :
    CopiedDir d (σ.k.proc cur).sz mem dt mem' := by
  have hfree := (kalloc_some hk).1
  have hmapped : ∀ b, b < (σ.k.proc cur).sz → ∃ p, d.pte b = some p ∧ p.page ∉ mem.free := by
    intro b hb
    obtain ⟨g, hg, hdir⟩ := pageDir_some hc.dir
    obtain ⟨p, hp⟩ := Option.ne_none_iff_exists'.mp (hc.mapped b hb)
    refine ⟨p, hp, fun hf => hM.pool.apart (held_page hdir (hb.trans hc.size) hp) ?_⟩
    rw [hfree]
    exact List.mem_cons_of_mem _ hf
  have hnodup : mem.free.Nodup := by
    have hn := hM.pool.nodup
    rw [hfree] at hn
    exact (List.nodup_cons.mp hn).2
  rcases copyuvm_spec hd hnodup hmapped hc.size.le with ⟨d1, m1, h1, h2⟩ | ⟨m1, h1, -⟩
  · rw [hok] at h1
    obtain ⟨h3, rfl⟩ := Prod.mk.inj (Except.ok.inj h1)
    rwa [Option.some.inj h3]
  · rw [hok] at h1
    cases h1

end Host

/-! ### The first process with one page -/

/-- The first process with one page of memory.  Its stack pointer is 0, and behind it stand the
arguments of `clone` with function 0, stack 0, `CLONE_VM` and the argument `arg`. -/
def startHost (arg : ℕ) : Host where
  k := bootKernel (fun _ => none) fun _ => File.zero
  mem := loneMem.setData 3 (((0 : Bytes PGSIZE).setField 12 4 4).setField 16 4 arg)
  dir := Function.update (fun _ => none) 0 (some loneDir)
  tf := fun _ => ⟨0, 0, 0, 0⟩
  name := fun _ => []
  iref := fun _ => 0
  outstanding := 0

/-- The first process with many free pages. -/
def roomyHost : Host :=
  { startHost 0 with mem := { (startHost 0).mem with free := roomyMem.free } }

theorem linkerData : LinkerData 0x80108000 := ⟨by decide, by decide, by decide⟩

theorem memory_of_pool {free : List Page} (hP : Pool free loneDir.held) (hzero : ∀ pg : ℕ, pg ∈ free → pg ≠ 0)
    (arg : ℕ) : ({ startHost arg with mem := { (startHost arg).mem with free := free } } : Host).Memory := by
  refine ⟨?_, fun (pg : ℕ) hpg => decide_eq_false (hzero pg hpg), rfl⟩
  have he : Function.Injective fun u : Use => ((0 : Pgdir), u) := fun _ _ h => (Prod.mk.inj h).2
  refine (Exchange.rename _ he (fun _ => rfl) fun r hr => ?_).1.mpr hP
  obtain ⟨g, u⟩ := r
  have hg : g ≠ 0 := by
    rintro rfl
    exact hr u rfl
  show ((startHost arg).dir g).bind _ = none
  unfold startHost
  simp only [Function.update_of_ne hg]
  rfl

theorem startHost_memory (arg : ℕ) : (startHost arg).Memory :=
  memory_of_pool addrSpace_lone.pool (by decide) arg

theorem roomyHost_memory : roomyHost.Memory := by
  refine memory_of_pool pool_roomy (fun pg hpg => ?_) 0
  have hle := (List.mem_range'_1.mp hpg).1
  omega

theorem startHost_caller (arg : ℕ) : (startHost arg).Caller 0 loneDir :=
  ⟨nofun, rfl, addrSpace_lone.size, fun b hb => addrSpace_lone.mapped b hb⟩

theorem roomyHost_caller : roomyHost.Caller 0 loneDir :=
  ⟨nofun, rfl, addrSpace_lone.size, fun b hb => addrSpace_lone.mapped b hb⟩

end OsSemester.Xv6
