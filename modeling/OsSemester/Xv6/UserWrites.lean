import OsSemester.Xv6.Spec.Program
import OsSemester.Xv6.ThreadStart

/-!
# Kernel writes to user stacks

`clone` and `exec` write to the new stack with `copyout`, which looks up every page with `uva2ka`.  That
function reads the page table entry without a test of the pointer `walkpgdir` returns, so a page without
a page table halts the kernel.  A stack that ends with the region of a page table leads `clone` there,
and an argument string that is longer than the whole program leads `exec` there: `user_writes`.
-/

namespace OsSemester.Xv6

variable {σ τ : Host} {cur np : Slot} {data : ℕ} {wild : Option Slot} {a : CloneArgs} {fs : FileSys}
variable {d dt : PageDir} {m m' : PhysMem} {va sp top argc n : ℕ} {buf s path : List UInt8}
variable {argv : List (List UInt8)} {ptrs : List ℕ} {user table : ℕ → Prop}

/-! ### A call of `copyout` -/

/-- A call of `copyout` writes the bytes up to the first address the user has no access to, and returns
-1 there; it returns 0 when there is none. -/
def Confined (d : PageDir) (va : ℕ) (buf : List UInt8) (m : PhysMem) : Prop :=
  ∃ i m', i ≤ buf.length ∧ (∀ j, j < i → d.User ((va + j) % 2 ^ 32)) ∧
    (i < buf.length → ¬ d.User ((va + i) % 2 ^ 32)) ∧
    copyout d va buf m = .ok (m', decide (i = buf.length)) ∧ Wrote d va (buf.take i) m m'

/-- A walk over `n` addresses that goes on as long as `user` holds finds a `table` for each. -/
def Walks (user table : ℕ → Prop) (va n : ℕ) : Prop :=
  ∀ i, i < n → (∀ j, j < i → user ((va + j) % 2 ^ 32)) → table ((va + i) % 2 ^ 32)

/-- The address has a page table. -/
def PageDir.Tabled (d : PageDir) (b : ℕ) : Prop := d.table (PDX b) ≠ none

theorem confined_iff (hva : va < 2 ^ 32) :
    Confined d va buf m ↔ Walks d.User d.Tabled va buf.length := by
  rcases copyoutLoop_spec (d := d) (m := m) hva (le_refl buf.length) with
    ⟨m', hok, hall, hW⟩ | ⟨i, hi, hbefore, hnot, hres⟩
  · refine iff_of_true ⟨buf.length, m', le_rfl, hall, fun h => absurd h (Nat.lt_irrefl _), ?_, ?_⟩
      fun i hi _ => (hall i hi).table
    · rw [decide_eq_true rfl]
      exact hok
    · rw [List.take_length]
      exact hW
  · split_ifs at hres with ht
    · refine iff_of_false (fun ⟨_, _, _, _, _, hok, _⟩ => ?_) fun h => h i hi hbefore ht
      unfold copyout at hok
      rw [hres] at hok
      cases hok
    · obtain ⟨m', hok, hW⟩ := hres
      refine iff_of_true ⟨i, m', hi.le, hbefore, fun _ => hnot, ?_, hW⟩ fun j hj huser => ?_
      · rw [decide_eq_false hi.ne]
        exact hok
      · rcases Nat.lt_trichotomy j i with hji | rfl | hij
        · exact (hbefore j hji).table
        · exact ht
        · exact absurd (huser i hij) hnot

/-! ### `clone` -/

namespace Host

/-- The state in which `clone`, about to execute `st`, comes to the statement `stop`. -/
def comesTo (stop : Stmt) (data : ℕ) (wild : Option Slot) (a : CloneArgs) (cur np : Slot) :
    ℕ → Stmt → Host → Option Host
  | 0, _, _ => none
  | n + 1, st, σ =>
    if st = stop then some σ
    else
      match σ.execStmt data wild a cur np st with
      | .ok (σ', some st') => comesTo stop data wild a cur np n st' σ'
      | _ => none

/-- The new slot and the state in which `clone` calls `copyout`. -/
def atCopyout (σ : Host) (data : ℕ) (wild : Option Slot) (cur : Slot) (a : CloneArgs) :
    Option (Slot × Host) :=
  if a.flags < 0 ∨ a.flags > 31 then none
  else
    match allocproc σ.k with
    | none => none
    | some (np, k) =>
      (comesTo .cloneCopyout data wild a cur np cloneLength (.kstack (some a.flags))
        { σ with k := k }).map fun τ => (np, τ)

/-- The call of `copyout` in `clone` is confined. -/
def CloneConfined (σ : Host) (data : ℕ) (wild : Option Slot) (cur : Slot) (a : CloneArgs) : Prop :=
  ∀ np τ, σ.atCopyout data wild cur a = some (np, τ) →
    ∃ dt, τ.pageDir np = some dt ∧ Confined dt (τ.tf np).esp a.ustack τ.mem

/-- The two words on a stack find page tables. -/
structure StackTables (user table : ℕ → Prop) (stack : ℕ) : Prop where
  first : table (stack + PGSIZE - 8)
  last : user (stack + PGSIZE - 8) → table (stack + PGSIZE - 1)

/-- The same for the directory of a new thread: with `CLONE_VM` it is the caller's, else a copy, which
has the tables for the caller's size and those of the kernel. -/
def CloneTables (σ : Host) (cur : Slot) (d : PageDir) (a : CloneArgs) : Prop :=
  if flagSet a.flags 2 = true then StackTables d.User d.Tabled a.stack
  else StackTables (fun b => b < PGROUNDUP (σ.k.proc cur).sz ∧ d.User b)
    (fun b => b / 2 ^ 22 * 2 ^ 22 < (σ.k.proc cur).sz ∨ KERNBASE ≤ b) a.stack

/-- `clone` has a slot and the memory to come to its stack. -/
def CloneReaches (σ : Host) (data : ℕ) (cur : Slot) (d : PageDir) (a : CloneArgs) : Prop :=
  0 ≤ a.flags ∧ a.flags ≤ 31 ∧ (∃ s, (σ.k.proc s).state = .unused) ∧
    σ.MemoryAvailable data cur d a.flags

end Host

/-! ### `exec` -/

/-- Every call of `copyout` that the loop over the arguments comes to is confined. -/
def ArgsConfined (d : PageDir) : List (List UInt8) → ℕ → List ℕ → ℕ → PhysMem → Prop
  | [], argc, ptrs, sp, m => Confined d (ustackSp argc sp) (ustackBytes argc ptrs sp) m
  | s :: argv, argc, ptrs, sp, m =>
    argc < MAXARG → Confined d (argSp sp s) (s ++ [0]) m ∧
      ∀ m', copyout d (argSp sp s) (s ++ [0]) m = .ok (m', true) →
        ArgsConfined d argv (argc + 1) (ptrs ++ [argSp sp s]) (argSp sp s) m'

/-- The calls of `copyout` in `exec` are confined. -/
def ExecConfined (σ : Host) (data : ℕ) (fs : FileSys) (path : List UInt8)
    (argv : List (List UInt8)) : Prop :=
  ∀ ip img m d m' top, fs.namei path = some ip →
    loadImage data (fs.readi ip) σ.mem = .ok (m, some img) →
    stackPages img.dir m img.sz = .ok (d, m', some top) → ArgsConfined d argv 0 [] top m'

/-- The file can be loaded and there is memory for its stack. -/
def StackReached (data : ℕ) (read : ReadFn) (m : PhysMem) : Prop :=
  ∃ img m1 d m' top, loadImage data read m = .ok (m1, some img) ∧
    stackPages img.dir m1 img.sz = .ok (d, m', some top)

/-- The top of the stack for the program in a file. -/
def stackTop (read : ReadFn) : ℕ := PGROUNDUP (programSize read) + 2 * PGSIZE

/-- No string goes to the addresses without a table that lie in the kernel's half; a string that does
not fit into the stack page is the last one. -/
def NoHole (top : ℕ) : List (List UInt8) → ℕ → Prop
  | [], _ => True
  | s :: argv, sp =>
    (argSp sp s < KERNBASE + PHYSTOP ∨ DEVSPACE ≤ argSp sp s) ∧
      (top - PGSIZE ≤ argSp sp s → argSp sp s < top → NoHole top argv (argSp sp s))

/-- The same for a program and its arguments. -/
def ExecFitsStack (σ : Host) (data : ℕ) (fs : FileSys) (path : List UInt8)
    (argv : List (List UInt8)) : Prop :=
  ∀ ip, fs.namei path = some ip → StackReached data (fs.readi ip) σ.mem →
    NoHole (stackTop (fs.readi ip)) argv (stackTop (fs.readi ip))

/-! ### The stack of a new thread -/

/-- Eight bytes lie in two pages at most. -/
theorem walks_top (htop : top + 8 ≤ 2 ^ 32)
    (hu : ∀ b c, b < 2 ^ 32 → c < 2 ^ 32 → b / PGSIZE = c / PGSIZE → (user b ↔ user c))
    (ht : ∀ b c, b < 2 ^ 32 → c < 2 ^ 32 → b / PGSIZE = c / PGSIZE → (table b ↔ table c)) :
    Walks user table top 8 ↔ table top ∧ (user top → table (top + 7)) := by
  have hmod : ∀ i, i < 8 → (top + i) % 2 ^ 32 = top + i := fun i hi =>
    Nat.mod_eq_of_lt (by omega)
  have hpage : ∀ i, i < 8 → (top + i) / PGSIZE = top / PGSIZE ∨
      (top + i) / PGSIZE = (top + 7) / PGSIZE := by
    intro i hi
    simp only [PGSIZE]
    omega
  constructor
  · intro h
    have h0 := h 0 (by decide) fun j hj => absurd hj (Nat.not_lt_zero _)
    rw [hmod 0 (by decide)] at h0
    refine ⟨h0, fun hutop => ?_⟩
    by_cases hsame : (top + 7) / PGSIZE = top / PGSIZE
    · exact (ht _ _ (by omega) (by omega) hsame).mpr h0
    · -- the first byte of the second page
      obtain ⟨i, hi⟩ : ∃ i, i = PGSIZE - top % PGSIZE := ⟨_, rfl⟩
      simp only [PGSIZE] at hi hsame
      have h1 := h i (by omega) fun j hj => by
        rw [hmod j (by omega)]
        refine (hu _ _ (by omega) (by omega) ?_).mpr hutop
        simp only [PGSIZE]
        omega
      rw [hmod i (by omega)] at h1
      refine (ht _ _ (by omega) (by omega) ?_).mpr h1
      simp only [PGSIZE]
      omega
  · rintro ⟨h0, h7⟩ i hi huser
    rw [hmod i hi]
    by_cases hsame : (top + i) / PGSIZE = top / PGSIZE
    · exact (ht _ _ (by omega) (by omega) hsame).mpr h0
    · have hpos : 0 < i := by
        by_contra h
        obtain rfl : i = 0 := by omega
        exact hsame rfl
      have hutop := huser 0 hpos
      rw [hmod 0 (by decide)] at hutop
      exact (ht _ _ (by omega) (by omega) ((hpage i hi).resolve_left hsame)).mpr (h7 hutop)

/-- The bounds that `sys_clone` checks. -/
theorem cloneArgs_stack (h : σ.cloneArgs cur = some a) (hsz : (σ.k.proc cur).sz < KERNBASE) :
    a.stack + 4 ≤ (σ.k.proc cur).sz := by
  have hptr : ∀ {n v : ℕ}, σ.argptr cur n 4 = some v → v + 4 ≤ (σ.k.proc cur).sz := by
    intro n v hv
    unfold Host.argptr at hv
    split at hv
    · cases hv
    · rename_i i _
      split_ifs at hv with hc
      obtain rfl := Option.some.inj hv
      simp only [KERNBASE] at hsz
      omega
  unfold Host.cloneArgs at h
  split at h
  · cases h
  · split at h
    · cases h
    · rename_i stack hstack
      split at h
      · cases h
      · split at h
        · cases h
        · obtain rfl := Option.some.inj h
          exact hptr hstack

theorem page_congr {b c : ℕ} (sz : ℕ) (hb : b < 2 ^ 32) (hc : c < 2 ^ 32) (h : b / PGSIZE = c / PGSIZE) :
    (d.User b ↔ d.User c) ∧ (d.Tabled b ↔ d.Tabled c) ∧
      (sz ≤ KERNBASE → (b < PGROUNDUP sz ↔ c < PGROUNDUP sz)) := by
  have hs : SameEntry b c := (sameEntry_iff hb hc).mpr h
  refine ⟨PageDir.user_congr hs, by unfold PageDir.Tabled; rw [hs.1], fun hsz => ?_⟩
  rw [PGROUNDUP_eq hsz]
  simp only [PGSIZE] at h
  omega

/-- The words of a thread that has the directory of its creator. -/
theorem confined_vm (hesp : a.frame.esp = a.stack + PGSIZE - 8)
    (hstack : a.stack + PGSIZE ≤ 2 ^ 32) :
    Confined d a.frame.esp a.ustack m ↔ Host.StackTables d.User d.Tabled a.stack := by
  have hpos : a.stack + PGSIZE - 8 + 7 = a.stack + PGSIZE - 1 := by
    simp only [PGSIZE]
    omega
  rw [confined_iff (by simp only [PGSIZE] at *; omega), ustack_length, hesp,
    walks_top (by simp only [PGSIZE] at *; omega)
      (fun b c hb hc h => (page_congr 0 hb hc h).1)
      (fun b c hb hc h => (page_congr 0 hb hc h).2.1), hpos]
  exact ⟨fun h => ⟨h.1, h.2⟩, fun h => ⟨h.first, h.last⟩⟩

/-- What a copy of `d` has of users and tables. -/
theorem copied_iff {sz b : ℕ} (hC : CopiedDir d sz m dt m') (hsz : sz ≤ KERNBASE)
    (hb : b < KERNBASE + PHYSTOP) : (dt.User b ↔ b < PGROUNDUP sz ∧ d.User b) ∧
      (dt.Tabled b ↔ b / 2 ^ 22 * 2 ^ 22 < sz ∨ KERNBASE ≤ b) := by
  have hR := PGROUNDUP_eq hsz
  have hb32 : b < 2 ^ 32 := by
    simp only [KERNBASE, PHYSTOP] at hb
    omega
  have htabs : dt.Tabled b ↔ dt.tables (PDX b) ≠ none :=
    not_congr PageDir.tables_eq_none_iff.symm
  rw [htabs]
  by_cases hK : b < KERNBASE
  · rw [hC.tables b hK]
    refine ⟨?_, by omega⟩
    by_cases hin : b < PGROUNDUP sz
    · obtain ⟨p, q, hp, -, hq, -⟩ := hC.copied b hin
      unfold PageDir.User
      simp only [hp, hq, hin, true_and, Option.some.injEq, exists_eq_left']
    · refine iff_of_false (fun hu => ?_) fun h => hin h.1
      obtain ⟨p, hp, -⟩ := hu
      rw [hC.rest b (by omega) hK] at hp
      cases hp
  · have hge : KERNBASE ≤ b := by omega
    refine ⟨iff_of_false (fun hu => ?_) fun h => ?_,
      iff_of_true ((hC.kernel.tables b hge hb32).mpr (Or.inl hb)) (Or.inr hge)⟩
    · obtain ⟨p, hp, hu⟩ := hu
      rw [hC.kernel.user b p hge hb32 hp] at hu
      cases hu
    · simp only [KERNBASE] at *
      omega

namespace Host

variable {st st' : Stmt} {σ' : Host} {k : Kernel} {pg : Page} {mem : PhysMem}

theorem comesTo_some (stop : Stmt) (h : execStmt data wild a cur np σ st = .ok (σ', some st'))
    (hst : st ≠ stop) :
    comesTo stop data wild a cur np (n + 1) st σ = comesTo stop data wild a cur np n st' σ' := by
  rw [comesTo, if_neg hst, h]

theorem comesTo_none (stop : Stmt)
    (h : ∀ σ' st', execStmt data wild a cur np σ st ≠ .ok (σ', some st')) (hst : st ≠ stop) :
    comesTo stop data wild a cur np (n + 1) st σ = none := by
  rw [comesTo, if_neg hst]
  split
  · rename_i σ' st' he
    exact absurd he (h σ' st')
  · rfl

theorem comesTo_isthread :
    comesTo .cloneCopyout data wild a cur np 5 .cloneIsthread σ = some (σ.threaded cur np a) := by
  have hstep : execStmt data wild a cur np σ .cloneIsthread =
      .ok (σ.threaded cur np a, some .cloneCopyout) := rfl
  rw [comesTo_some .cloneCopyout hstep nofun]
  rfl

/-- The caller in the state in which `clone` comes to the page directory. -/
theorem begin_caller (wild : Option Slot) (hM : σ.Memory) (hc : σ.Caller cur d)
    (ha : allocproc σ.k = some (np, k)) (hk : kalloc σ.mem = some (pg, mem)) (fl : ℤ) :
    cur ≠ np ∧ k.inuse pg = false ∧ Begun σ (σ.begin k mem cur np fl wild pg) cur np fl pg ∧
      (σ.begin k mem cur np fl wild pg).k.proc cur = σ.k.proc cur ∧
      (σ.begin k mem cur np fl wild pg).pageDir cur = some d := by
  obtain ⟨hun, -, -, -, hinuse, -⟩ := allocproc_some ha
  have hne : cur ≠ np := by
    rintro rfl
    exact hc.state hun
  have hB := begun cur fl wild ha hk
  have hcur := hB.others cur hne
  refine ⟨hne, ?_, hB, hcur, ?_⟩
  · rw [hinuse]
    exact hM.kstacks pg (by rw [(kalloc_some hk).1]; exact List.mem_cons_self ..)
  · unfold pageDir
    rw [hcur, hB.dir]
    exact hc.dir

theorem atCopyout_begin (data : ℕ) (wild : Option Slot) (hM : σ.Memory) (hc : σ.Caller cur d)
    (hfl : 0 ≤ a.flags ∧ a.flags ≤ 31) (ha : allocproc σ.k = some (np, k))
    (hk : kalloc σ.mem = some (pg, mem)) :
    σ.atCopyout data wild cur a =
      (comesTo .cloneCopyout data wild a cur np 6 .clonePgdir
        (σ.begin k mem cur np a.flags wild pg)).map fun τ => (np, τ) := by
  obtain ⟨hne, hpg, -⟩ := begin_caller wild hM hc ha hk a.flags
  have hk' : kalloc ({ σ with k := k } : Host).mem = some (pg, mem) := hk
  obtain ⟨_, _, _, _, h1, h2, h3, h4, h5⟩ := front_steps data wild a hne hk' hpg
  unfold atCopyout
  rw [if_neg (by omega), ha]
  simp only
  unfold cloneLength
  rw [comesTo_some .cloneCopyout h1 nofun, comesTo_some .cloneCopyout h2 nofun,
    comesTo_some .cloneCopyout h3 nofun, comesTo_some .cloneCopyout h4 nofun,
    comesTo_some .cloneCopyout h5 nofun]
  rfl

/-- `clone` comes to its stack with memory and a slot only. -/
theorem reaches_of_atCopyout {τ : Host} (hM : σ.Memory) (hc : σ.Caller cur d)
    (h : σ.atCopyout data wild cur a = some (np, τ)) : σ.CloneReaches data cur d a := by
  have h' := h
  unfold atCopyout at h
  by_cases hfl : a.flags < 0 ∨ a.flags > 31
  · rw [if_pos hfl] at h
    cases h
  rw [if_neg hfl] at h
  cases ha : allocproc σ.k with
  | none =>
    rw [ha] at h
    cases h
  | some r =>
    obtain ⟨np', k⟩ := r
    rw [ha] at h
    have hslot : ∃ s, (σ.k.proc s).state = .unused := ⟨np', (allocproc_some ha).1⟩
    cases hk : kalloc σ.mem with
    | none =>
      -- `allocproc` gives up
      have hstep : ∀ σ' st', execStmt data wild a cur np' { σ with k := k }
          (.kstack (some a.flags)) ≠ .ok (σ', some st') := by
        intro σ' st' he
        have hk' : kalloc ({ σ with k := k } : Host).mem = none := hk
        unfold execStmt at he
        rw [hk'] at he
        cases he
      simp only [cloneLength, comesTo_none .cloneCopyout hstep nofun] at h
      cases h
    | some r =>
      obtain ⟨pg, mem⟩ := r
      refine ⟨by omega, by omega, hslot, pg, mem, hk, fun hvm => ?_⟩
      obtain ⟨-, -, hB, hcur, hdir⟩ := begin_caller wild hM hc ha hk a.flags
      rw [atCopyout_begin data wild hM hc (by omega) ha hk] at h'
      obtain ⟨β, hβ⟩ : ∃ β, β = σ.begin k mem cur np' a.flags wild pg := ⟨_, rfl⟩
      have hmem : β.mem = mem := by rw [hβ]; rfl
      rw [← hβ] at hB hcur hdir h'
      have hvm' : (β.k.proc np').cloneVm = false := hB.vm.trans hvm
      -- without a copy there is no next statement
      have hstep : (∀ dt mem', copyuvm data d (σ.k.proc cur).sz mem ≠ .ok (some dt, mem')) →
          ∀ σ' st', execStmt data wild a cur np' β .clonePgdir ≠ .ok (σ', some st') := by
        intro hno σ' st'
        cases hcopy : copyuvm data d (σ.k.proc cur).sz mem with
        | error e =>
          rw [← hcur, ← hmem] at hcopy
          rw [exec_copy_error hvm' hdir hcopy]
          exact nofun
        | ok r =>
          obtain ⟨dt, mem'⟩ := r
          cases dt with
          | some dt => exact absurd hcopy (hno dt mem')
          | none =>
            rw [← hcur, ← hmem] at hcopy
            rw [exec_copy_none hvm' hdir hcopy hB.kstack]
            exact nofun
      by_contra hno
      have hstep' := hstep fun dt mem' hcopy => hno ⟨dt, mem', hcopy⟩
      rw [comesTo_none .cloneCopyout hstep' nofun] at h'
      cases h'

/-- When it comes there, the directory is the caller's or a copy. -/
theorem atCopyout_of_reaches (wild : Option Slot) (hd : LinkerData data) (hM : σ.Memory)
    (hc : σ.Caller cur d) (hr : σ.CloneReaches data cur d a) : ∃ np τ dt,
    σ.atCopyout data wild cur a = some (np, τ) ∧ τ.pageDir np = some dt ∧
      (τ.tf np).esp = a.frame.esp ∧ (flagSet a.flags 2 = true → dt = d) ∧
      (flagSet a.flags 2 = false → ∃ m m', CopiedDir d (σ.k.proc cur).sz m dt m') := by
  obtain ⟨hfl1, hfl2, ⟨s, hs⟩, pg, mem, hk, hcopy⟩ := hr
  obtain ⟨np, hnp⟩ := scan_isSome (P := fun s => (σ.k.proc s).state = .unused) (s := s)
    (decide_eq_true hs)
  obtain ⟨k, ha⟩ : ∃ k, allocproc σ.k = some (np, k) := by
    unfold allocproc
    rw [hnp]
    exact ⟨_, rfl⟩
  obtain ⟨hne, -, hB, hcur, hdir⟩ := begin_caller wild hM hc ha hk a.flags
  obtain ⟨β, hβ⟩ : ∃ β, β = σ.begin k mem cur np a.flags wild pg := ⟨_, rfl⟩
  have hmem : β.mem = mem := by rw [hβ]; rfl
  have hesp : ∀ τ : Host, ((τ.threaded cur np a).tf np).esp = a.frame.esp := by
    intro τ
    unfold threaded
    simp only [Function.update_self]
  have hat := atCopyout_begin data wild hM hc ⟨hfl1, hfl2⟩ ha hk
  rw [← hβ] at hB hcur hdir hat
  cases hvm : flagSet a.flags 2 with
  | true =>
    obtain ⟨g, hP⟩ := placed_vm hB hM hne hc
    rw [comesTo_some .cloneCopyout (exec_vm (hB.vm.trans hvm)) nofun, comesTo_isthread] at hat
    refine ⟨np, _, d, hat, ?_, hesp _, fun _ => rfl, nofun⟩
    rw [threaded_pageDir]
    unfold pageDir
    rw [hP.pgdir]
    exact hP.dir
  | false =>
    obtain ⟨dt, mem', hok⟩ := hcopy hvm
    have hC := copied_of_caller hd hM hc hk hok
    rw [← hcur, ← hmem] at hok
    have hP := placed_copy hB hM (hmem ▸ hC) hc.size.le
    rw [comesTo_some .cloneCopyout (exec_copy (hB.vm.trans hvm) hdir hok) nofun,
      comesTo_isthread] at hat
    refine ⟨np, _, dt, hat, ?_, hesp _, nofun, fun _ => ⟨_, _, hC⟩⟩
    rw [threaded_pageDir]
    unfold pageDir
    rw [hP.pgdir]
    exact hP.dir

/-- **The words on the stack of a new thread.** -/
theorem cloneConfined_iff (wild : Option Slot) (hd : LinkerData data) (hM : σ.Memory)
    (hc : σ.Caller cur d) (ha : σ.cloneArgs cur = some a) :
    σ.CloneConfined data wild cur a ↔ (σ.CloneReaches data cur d a → σ.CloneTables cur d a) := by
  have hstack := cloneArgs_stack ha hc.size
  have hsize := hc.size
  have hK : a.stack + PGSIZE ≤ 2 ^ 32 := by
    simp only [KERNBASE, PGSIZE] at *
    omega
  have hesp : a.frame.esp = a.stack + PGSIZE - 8 := by
    show ((a.stack + PGSIZE) % 2 ^ 32 + (2 ^ 32 - 8)) % 2 ^ 32 = _
    simp only [KERNBASE, PGSIZE] at *
    omega
  have hwords : ∀ {dt : PageDir} {m : PhysMem}, (flagSet a.flags 2 = true → dt = d) →
      (flagSet a.flags 2 = false → ∃ m m', CopiedDir d (σ.k.proc cur).sz m dt m') →
      (Confined dt a.frame.esp a.ustack m ↔ σ.CloneTables cur d a) := by
    intro dt m h1 h2
    rw [confined_vm hesp hK]
    unfold CloneTables
    split_ifs with hvm
    · rw [h1 hvm]
    · obtain ⟨m1, m2, hC⟩ := h2 (Bool.eq_false_iff.mpr hvm)
      obtain ⟨hu, ht⟩ := copied_iff hC hsize.le (b := a.stack + PGSIZE - 8)
        (by simp only [KERNBASE, PHYSTOP, PGSIZE] at *; omega)
      obtain ⟨-, ht'⟩ := copied_iff hC hsize.le (b := a.stack + PGSIZE - 1)
        (by simp only [KERNBASE, PHYSTOP, PGSIZE] at *; omega)
      exact ⟨fun h => ⟨ht.mp h.first, fun hus => ht'.mp (h.last (hu.mpr hus))⟩,
        fun h => ⟨ht.mpr h.first, fun hus => ht'.mpr (h.last (hu.mp hus))⟩⟩
  constructor
  · intro h hr
    obtain ⟨np, τ, dt, hat, hdir, hτ, h1, h2⟩ := atCopyout_of_reaches wild hd hM hc hr
    obtain ⟨dt', hdir', hconf⟩ := h np τ hat
    rw [hdir] at hdir'
    obtain rfl := Option.some.inj hdir'
    rw [hτ] at hconf
    exact (hwords h1 h2).mp hconf
  · intro h np τ hat
    have hr := reaches_of_atCopyout hM hc hat
    obtain ⟨np', τ', dt, hat', hdir, hτ, h1, h2⟩ := atCopyout_of_reaches wild hd hM hc hr
    rw [hat] at hat'
    obtain ⟨rfl, rfl⟩ := Prod.mk.inj (Option.some.inj hat')
    refine ⟨dt, hdir, ?_⟩
    rw [hτ]
    exact (hwords h1 h2).mpr (h hr)

end Host

/-! ### The arguments of a program -/

/-- A range of addresses below the top finds its tables. -/
theorem walks_below (hS : StackOk d top) (h : va + n ≤ top) : Walks d.User d.Tabled va n := by
  intro i hi _
  have hlt := hS.hi
  rw [Nat.mod_eq_of_lt (by simp only [KERNBASE] at hlt; omega)]
  exact hS.table _ (by omega)

theorem ustack_confined (hS : StackOk d top) (hlo : top - PGSIZE ≤ sp) (hhi : sp ≤ top)
    (hargc : argc < MAXARG) (hptrs : ptrs.length = argc) :
    Confined d (ustackSp argc sp) (ustackBytes argc ptrs sp) m := by
  have hsp := ustackSp_eq hS hlo hhi hargc.le
  have hlo' := hS.lo
  have hva : ustackSp argc sp < 2 ^ 32 := uint_lt _
  rw [confined_iff hva, ustackBytes_length, hptrs, hsp]
  refine walks_below hS ?_
  simp only [PGSIZE, MAXARG] at *
  omega

/-- **One string**: its copy is confined unless it starts in the hole of the kernel's half, and it
succeeds when it starts in the stack page. -/
theorem string_confined (hS : StackOk d top) (hlo : top - PGSIZE ≤ sp) (hhi : sp ≤ top)
    (hlen : s.length < KERNBASE) :
    (Confined d (argSp sp s) (s ++ [0]) m ↔
      argSp sp s < KERNBASE + PHYSTOP ∨ DEVSPACE ≤ argSp sp s) ∧
    ((∃ m', copyout d (argSp sp s) (s ++ [0]) m = .ok (m', true)) ↔
      top - PGSIZE ≤ argSp sp s ∧ argSp sp s < top) := by
  have htop := hS.hi
  have hva : argSp sp s < 2 ^ 32 := argSp_lt sp s
  have hbuf : (s ++ [0]).length = s.length + 1 := List.length_append
  rw [confined_iff hva, copyout_true_iff hva, hbuf]
  rcases argSp_cases (s := s) (show sp < KERNBASE by omega) hlen with ⟨h1, h2, h3⟩ | ⟨h1, h2⟩
  · have hmod : ∀ i, i < s.length + 1 → (argSp sp s + i) % 2 ^ 32 = argSp sp s + i := fun i hi =>
      Nat.mod_eq_of_lt (by simp only [KERNBASE] at htop; omega)
    refine ⟨iff_of_true (walks_below hS (by omega)) (Or.inl ?_), fun h => ⟨?_, by omega⟩,
      fun h i hi => ?_⟩
    · simp only [KERNBASE, PHYSTOP] at *
      omega
    · -- a string that starts below the stack page meets the guard page
      by_contra hlow
      have hguard : ∀ b, top - 2 * PGSIZE ≤ b → b < top - PGSIZE → ¬ d.User b := by
        intro b hb1 hb2
        rw [hS.user b (by omega)]
        simp only [PGSIZE] at *
        omega
      have hlo' := hS.lo
      by_cases hin : top - 2 * PGSIZE ≤ argSp sp s
      · refine hguard (argSp sp s) hin (by omega) ?_
        have h0 := h 0 (by omega)
        rwa [hmod 0 (by omega)] at h0
      · obtain ⟨i, hi⟩ : ∃ i, argSp sp s + i = top - 2 * PGSIZE :=
          ⟨top - 2 * PGSIZE - argSp sp s, by omega⟩
        have hlt : i < s.length + 1 := by
          simp only [PGSIZE] at *
          omega
        have hu := h i hlt
        rw [hmod i hlt, hi] at hu
        exact hguard _ le_rfl (by simp only [PGSIZE] at *; omega) hu
    · rw [hmod i hi, hS.user _ (by omega)]
      omega
  · -- the first byte has no access
    have hnot : ¬ d.User (argSp sp s) := by
      rintro ⟨p, hp, hu⟩
      rw [hS.kernel.user _ p h2 hva hp] at hu
      cases hu
    have hzero : (argSp sp s + 0) % 2 ^ 32 = argSp sp s := Nat.mod_eq_of_lt hva
    have htab : d.Tabled (argSp sp s) ↔
        argSp sp s < KERNBASE + PHYSTOP ∨ DEVSPACE ≤ argSp sp s := by
      rw [← hS.kernel.tables _ h2 hva]
      exact not_congr PageDir.tables_eq_none_iff.symm
    refine ⟨?_, iff_of_false (fun h => hnot ?_) (by omega)⟩
    · rw [← htab]
      constructor
      · intro h
        have h0 := h 0 (by omega) fun j hj => absurd hj (Nat.not_lt_zero _)
        rwa [hzero] at h0
      · intro h i hi huser
        rcases Nat.eq_zero_or_pos i with rfl | hpos
        · rwa [hzero]
        · have h0 := huser 0 hpos
          rw [hzero] at h0
          exact absurd h0 hnot
    · have h0 := h 0 (by omega)
      rwa [hzero] at h0

/-- **The arguments of a program.** -/
theorem argsConfined_iff (hS : StackOk d top) (hlo : top - PGSIZE ≤ sp) (hhi : sp ≤ top)
    (hargc : argc + argv.length < MAXARG) (hptrs : ptrs.length = argc)
    (hlen : ∀ s ∈ argv, s.length < KERNBASE) :
    ArgsConfined d argv argc ptrs sp m ↔ NoHole top argv sp := by
  induction argv generalizing argc ptrs sp m with
  | nil => exact iff_of_true (ustack_confined hS hlo hhi hargc hptrs) trivial
  | cons s argv ih =>
    rw [List.length_cons] at hargc
    obtain ⟨hconf, htrue⟩ := string_confined (m := m) hS hlo hhi (hlen s (List.mem_cons_self ..))
    have hnext : ∀ {m'}, top - PGSIZE ≤ argSp sp s → argSp sp s < top →
        (ArgsConfined d argv (argc + 1) (ptrs ++ [argSp sp s]) (argSp sp s) m' ↔
          NoHole top argv (argSp sp s)) := by
      intro m' h1 h2
      refine ih h1 h2.le (by omega) ?_ fun t ht => hlen t (List.mem_cons_of_mem _ ht)
      rw [List.length_append, hptrs]
      rfl
    unfold ArgsConfined NoHole
    rw [hconf]
    constructor
    · intro h
      obtain ⟨h1, h2⟩ := h (by omega)
      refine ⟨h1, fun h3 h4 => ?_⟩
      obtain ⟨m', hok⟩ := htrue.mpr ⟨h3, h4⟩
      exact (hnext h3 h4).mp (h2 m' hok)
    · rintro ⟨h1, h2⟩ -
      refine ⟨h1, fun m' hok => ?_⟩
      obtain ⟨h3, h4⟩ := htrue.mp ⟨m', hok⟩
      exact (hnext h3 h4).mpr (h2 h3 h4)

/-! ### The bounds of `sys_exec` -/

namespace Host

theorem strFrom_length {addr : ℕ} (h : strFrom d m n addr = some s) : s.length < n := by
  induction n generalizing addr s with
  | zero => cases h
  | succ n ih =>
    unfold strFrom at h
    simp only at h
    split_ifs at h
    · obtain rfl := Option.some.inj h
      exact Nat.succ_pos n
    · obtain ⟨t, ht, rfl⟩ := Option.map_eq_some_iff.mp h
      have hlt := ih ht
      rw [List.length_cons]
      omega

theorem fetchstr_length {addr : ℕ} (h : σ.fetchstr cur addr = some s) :
    s.length < (σ.k.proc cur).sz := by
  unfold fetchstr at h
  split_ifs at h with haddr
  obtain ⟨d, -, hs⟩ := Option.bind_eq_some_iff.mp h
  have hlt := strFrom_length hs
  omega

theorem fetchArgv_spec {uargv i : ℕ} (h : σ.fetchArgv cur uargv n i = some argv) :
    argv.length < n ∧ ∀ s ∈ argv, s.length < (σ.k.proc cur).sz := by
  induction n generalizing i argv with
  | zero => cases h
  | succ n ih =>
    unfold fetchArgv at h
    split at h
    · cases h
    · rename_i uarg _
      split_ifs at h
      · obtain rfl := Option.some.inj h
        exact ⟨Nat.succ_pos n, fun _ hs => absurd hs List.not_mem_nil⟩
      · cases hf : σ.fetchstr cur uarg with
        | none =>
          rw [hf] at h
          cases h
        | some s =>
          rw [hf] at h
          obtain ⟨argv', hrest, rfl⟩ := Option.map_eq_some_iff.mp h
          obtain ⟨h1, h2⟩ := ih hrest
          refine ⟨by rw [List.length_cons]; omega, fun t ht => ?_⟩
          rcases List.mem_cons.mp ht with rfl | ht
          · exact fetchstr_length hf
          · exact h2 t ht

/-- What `sys_exec` accepts. -/
theorem execArgs_spec (h : σ.execArgs cur = some (path, argv)) :
    argv.length < MAXARG ∧ ∀ s ∈ argv, s.length < (σ.k.proc cur).sz := by
  unfold execArgs at h
  split at h
  · obtain ⟨argv', ha, he⟩ := Option.map_eq_some_iff.mp h
    obtain ⟨-, rfl⟩ := Prod.mk.inj he
    exact fetchArgv_spec ha
  · cases h

end Host

/-- **The stack of a new program.** -/
theorem execConfined_iff (fs : FileSys) (hd : LinkerData data) (hn : σ.mem.free.Nodup)
    (hsz : (σ.k.proc cur).sz ≤ KERNBASE) (ha : σ.execArgs cur = some (path, argv)) :
    ExecConfined σ data fs path argv ↔ ExecFitsStack σ data fs path argv := by
  obtain ⟨hargc, hlen⟩ := Host.execArgs_spec ha
  have hlen' : ∀ s ∈ argv, s.length < KERNBASE := fun s hs => (hlen s hs).trans_le hsz
  -- in every run that comes to the stack
  have hrun : ∀ {read img m d m' top}, loadImage data read σ.mem = .ok (m, some img) →
      stackPages img.dir m img.sz = .ok (d, m', some top) →
      (ArgsConfined d argv 0 [] top m' ↔ NoHole (stackTop read) argv (stackTop read)) := by
    intro read img m d m' top hl hst
    obtain ⟨hI, hsize⟩ := (loadImage_spec hd hn hl).2 img rfl
    obtain ⟨hS, htop⟩ := (stackPages_spec hn hI hst).2 top rfl
    have he : stackTop read = top := by
      unfold stackTop
      rw [htop, hsize]
    rw [he]
    exact argsConfined_iff hS (Nat.sub_le _ _) le_rfl (by omega) rfl hlen'
  constructor
  · intro h ip hip ⟨img, m, d, m', top, hl, hst⟩
    exact (hrun hl hst).mp (h ip img m d m' top hip hl hst)
  · intro h ip img m d m' top hip hl hst
    exact (hrun hl hst).mpr (h ip hip ⟨img, m, d, m', top, hl, hst⟩)

/-- **Kernel writes to user stacks** stay in the pages of the user, and find a page table for each of
their addresses, exactly when the stack of a new thread does and no argument string of a new program
goes to the hole of the kernel's half. -/
theorem user_writes (wild : Option Slot) (fs : FileSys) (hd : LinkerData data) (hM : σ.Memory)
    (hc : σ.Caller cur d) :
    (∀ a, σ.cloneArgs cur = some a →
      (σ.CloneConfined data wild cur a ↔ (σ.CloneReaches data cur d a → σ.CloneTables cur d a))) ∧
    ∀ path argv, σ.execArgs cur = some (path, argv) →
      (ExecConfined σ data fs path argv ↔ ExecFitsStack σ data fs path argv) :=
  ⟨fun _ ha => Host.cloneConfined_iff wild hd hM hc ha,
    fun _ _ ha => execConfined_iff fs hd hM.pool.nodup hc.size.le ha⟩

/-- A program that can be loaded comes to its stack. -/
theorem stackReached_program {read : ReadFn} (hd : LinkerData data) (hn : m.free.Nodup) (hp : IsProgram read)
    (hroom : NPDENTRIES + 1 + (2 + pagesFor (programSize read)) ≤ m.free.length) :
    StackReached data read m := by
  obtain ⟨m1, img, hl, hI, hsize, hA⟩ := loadImage_program hd hn hp hroom
  have hfit := hp.room
  rw [← hsize] at hfit
  obtain ⟨d, m2, top, hst, -, -⟩ := stackPages_program hn hI hfit hA
  exact ⟨img, m1, d, m2, top, hl, hst⟩

/-- The first process with many free pages.  The words from its stack pointer 0 on are 64, 64, 0, 4 and 0,
and at 64 there is the string "a". -/
def callHost : Host :=
  { roomyHost with
    mem := { roomyMem with
      data := Function.update (fun _ => 0) 3
        (((((0 : Bytes PGSIZE).setField 0 4 64).setField 4 4 64).setField 12 4 4).setField 64 4 97) } }

theorem callHost_memory : callHost.Memory :=
  ⟨roomyHost_memory.pool, roomyHost_memory.kstacks, roomyHost_memory.fresh⟩

theorem callHost_caller : callHost.Caller 0 loneDir :=
  ⟨roomyHost_caller.state, roomyHost_caller.dir, roomyHost_caller.size, roomyHost_caller.mapped⟩

/-- The first process passes a stack in its page to `clone`, and a program with two arguments to `exec`; both
calls come to their stacks. -/
theorem user_writes_call :
    callHost.CloneReaches 0x80108000 0 loneDir ⟨64, 0, 4, 0⟩ ∧
      callHost.CloneConfined 0x80108000 none 0 ⟨64, 0, 4, 0⟩ ∧
      StackReached 0x80108000 smallProgram callHost.mem ∧
      ExecConfined callHost 0x80108000 programFiles [97] [[97], [97]] := by
  obtain ⟨hclone, hexec⟩ := user_writes none programFiles linkerData callHost_memory callHost_caller
  have hp : callHost.Passes 0 64 0 4 0 := by constructor <;> decide +kernel
  have hargs : callHost.cloneArgs 0 = some ⟨64, 0, 4, 0⟩ := by
    rw [Host.cloneArgs_eq hp callHost_caller.size (by decide)]
    rfl
  have hexecArgs : callHost.execArgs 0 = some ([97], [[97], [97]]) := by decide +kernel
  have hn : callHost.mem.free.Nodup := pool_roomy.nodup
  have hlen : callHost.mem.free.length = 1200 := List.length_range'
  have h1 : loneDir.User 4088 := loneDir_user (by decide)
  have h2 : loneDir.User 4095 := loneDir_user (by decide)
  have htop : stackTop smallProgram = 12288 := by
    rw [stackTop, programSize_small]
    decide
  refine ⟨⟨by decide, by decide, ⟨1, rfl⟩, 1024, _, rfl, fun h => absurd h (by decide)⟩,
    (hclone _ hargs).mpr fun _ => ⟨h1.table, fun _ => h2.table⟩,
    stackReached_program linkerData hn isProgram_small (by rw [hlen, programSize_small]; decide),
    (hexec _ _ hexecArgs).mpr fun ip hip _ => ?_⟩
  show NoHole (stackTop smallProgram) [[97], [97]] (stackTop smallProgram)
  rw [htop]
  exact ⟨by decide, fun _ _ => ⟨by decide, fun _ _ => trivial⟩⟩

/-! ### A stack at the end of the first page table -/

/-- A directory with one page table that is full. -/
def fullDir : PageDir where
  page := 1
  table := Function.update (fun _ => none) 0 (some ⟨2, fun j => some ⟨3 + j, ⟨true, true, 0⟩⟩⟩)

/-- The first process with 4 MB.  It passes the function 0, the last word of its memory as the stack,
`CLONE_VM` and the argument 0. -/
def fullHost : Host :=
  { startHost 0 with
    k := (startHost 0).k.modify 0 fun p => { p with sz := 0x400000 }
    mem := ⟨[2000, 2001], Function.update (fun _ => 0) 3
      (((0 : Bytes PGSIZE).setField 8 4 0x3ffffc).setField 12 4 4), PGSIZE, false⟩
    dir := Function.update (fun _ => none) 0 (some fullDir) }

theorem fullDir_held {u : Use} {f : ℕ} (h : fullDir.held u = some f) :
    (u = .dir ∧ f = 1) ∨ (u = .table 0 ∧ f = 2) ∨ ∃ j : Fin NPTENTRIES, u = .page 0 j ∧ f = 3 + j := by
  cases u with
  | dir => exact Or.inl ⟨rfl, (Option.some.inj h).symm⟩
  | table i =>
    simp only [PageDir.held, PageDir.tables, fullDir, Function.update_apply] at h
    split_ifs at h with hi
    · exact Or.inr (Or.inl ⟨by rw [hi], (Option.some.inj h).symm⟩)
    · cases h
  | page i j =>
    simp only [PageDir.held, fullDir, Function.update_apply] at h
    split_ifs at h with hlt hi
    · exact Or.inr (Or.inr ⟨j, by rw [hi], (Option.some.inj h).symm⟩)
    · cases h

theorem fullHost_memory : fullHost.Memory := by
  have hpool : Pool fullHost.mem.free fullDir.held := by
    refine ⟨by decide, fun {u} (f : ℕ) h hf => ?_, fun {u v f} h1 h2 => ?_⟩
    · have hf' : f = 2000 ∨ f = 2001 := by
        have hmem : f ∈ [2000, 2001] := hf
        simpa using hmem
      rcases fullDir_held h with ⟨-, rfl⟩ | ⟨-, rfl⟩ | ⟨j, -, rfl⟩
      · omega
      · omega
      · have := j.isLt
        simp only [NPTENTRIES] at this
        omega
    · obtain ⟨g, hg⟩ : ∃ g : ℕ, g = f := ⟨f, rfl⟩
      subst hg
      rcases fullDir_held h1 with ⟨rfl, rfl⟩ | ⟨rfl, rfl⟩ | ⟨i, rfl, rfl⟩ <;>
        rcases fullDir_held h2 with ⟨rfl, h⟩ | ⟨rfl, h⟩ | ⟨j, rfl, h⟩
      · rfl
      · cases h
      · omega
      · cases h
      · rfl
      · omega
      · omega
      · omega
      · rw [show i = j from Fin.ext (by omega)]
  refine ⟨?_, fun pg hpg => ?_, rfl⟩
  · have he : Function.Injective fun u : Use => ((0 : Pgdir), u) := fun _ _ h => (Prod.mk.inj h).2
    refine (Exchange.rename _ he (fun _ => rfl) fun r hr => ?_).1.mpr hpool
    obtain ⟨g, u⟩ := r
    have hg : g ≠ 0 := by
      rintro rfl
      exact hr u rfl
    show (fullHost.dir g).bind _ = none
    unfold fullHost
    simp only [Function.update_of_ne hg]
    rfl
  · have hpg' : pg ∈ [2000, 2001] := hpg
    simp only [List.mem_cons, List.not_mem_nil, or_false] at hpg'
    show decide (pg = 0) = false
    rcases hpg' with rfl | rfl <;> rfl

theorem fullHost_caller : fullHost.Caller 0 fullDir := by
  refine ⟨nofun, rfl, by decide, fun b hb => ?_⟩
  have hb' : b < 0x400000 := hb
  have hi : PDX b = 0 := by
    rw [Fin.ext_iff, PDX_val]
    simp only [Fin.val_zero]
    omega
  unfold PageDir.pte fullDir
  simp only [hi, Function.update_self, Option.bind_some]
  exact nofun

/-- The words of the new thread would lie behind the last page of the table: the kernel reads through
the null pointer that `walkpgdir` returns. -/
theorem user_writes_counterexample : fullHost.Memory ∧ fullHost.Caller 0 fullDir ∧
    fullHost.cloneArgs 0 = some ⟨0, 0x3ffffc, 4, 0⟩ ∧
    ¬ fullHost.CloneConfined 0x80108000 none 0 ⟨0, 0x3ffffc, 4, 0⟩ := by
  have hp : fullHost.Passes 0 0 0x3ffffc 4 0 := by constructor <;> decide +kernel
  have hargs : fullHost.cloneArgs 0 = some ⟨0, 0x3ffffc, 4, 0⟩ := by
    rw [Host.cloneArgs_eq hp fullHost_caller.size (by decide)]
    rfl
  refine ⟨fullHost_memory, fullHost_caller, hargs, fun hconf => ?_⟩
  have htables := (Host.cloneConfined_iff none linkerData fullHost_memory fullHost_caller hargs).mp
    hconf ⟨by decide, by decide, ⟨1, rfl⟩, 2000, _, rfl, fun h => absurd h (by decide)⟩
  have htab : fullDir.Tabled 0x400ff4 := Host.StackTables.first htables
  exact htab rfl

end OsSemester.Xv6
