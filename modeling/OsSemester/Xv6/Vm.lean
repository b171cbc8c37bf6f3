import OsSemester.Lib.Bytes
import OsSemester.Xv6.Proc

/-!
# Page tables and the page allocator (`vm.c`, `kalloc.c`, `mmu.h`, `memlayout.h`)

A page directory is a value: for each of its entries the page table there, for each entry of a page
table the page it maps.  The pages that hold directories and tables are kept as numbers, so that every
`kalloc` and `kfree` is a move between the directory and the free list.  Addresses are natural numbers
below `2 ^ 32`; where the code can leave this range the wrap is explicit.

The loops run on a fuel argument, the number of pages that are left; with `sz ≤ KERNBASE` none of
their addresses wraps.
-/

namespace OsSemester.Xv6

/-! ### `mmu.h`, `memlayout.h` -/

abbrev PGSIZE : ℕ := 4096
abbrev NPDENTRIES : ℕ := 1024
abbrev NPTENTRIES : ℕ := 1024
abbrev EXTMEM : ℕ := 0x100000
abbrev PHYSTOP : ℕ := 0xE000000
abbrev DEVSPACE : ℕ := 0xFE000000
abbrev KERNBASE : ℕ := 0x80000000
abbrev KERNLINK : ℕ := KERNBASE + EXTMEM

instance : NeZero NPDENTRIES := ⟨by decide⟩

/-- Arithmetic on `uint` wraps. -/
def uint (a : ℤ) : ℕ := (a % 2 ^ 32).toNat

def PGROUNDUP (a : ℕ) : ℕ := (a + PGSIZE - 1) % 2 ^ 32 / PGSIZE * PGSIZE

def PGROUNDDOWN (a : ℕ) : ℕ := a / PGSIZE * PGSIZE

/-- The index of a virtual address in the page directory. -/
def PDX (va : ℕ) : Fin NPDENTRIES := Fin.ofNat NPDENTRIES (va / 2 ^ 22)

/-- The index of a virtual address in its page table. -/
def PTX (va : ℕ) : Fin NPTENTRIES := Fin.ofNat NPTENTRIES (va / 2 ^ 12)

/-- The flag bits of a present entry. -/
structure Perm where
  /-- `PTE_W` -/
  writable : Bool
  /-- `PTE_U` -/
  user : Bool
  /-- The other ones, `PTE_PWT` and up. -/
  other : BitVec 9
  deriving DecidableEq

/-- A present entry of a page table. -/
structure Pte where
  /-- The physical page number. -/
  page : Page
  perm : Perm
  deriving DecidableEq

/-- A page table and the page it lies in. -/
structure PageTable where
  page : Page
  pte : Fin NPTENTRIES → Option Pte

/-- A page directory and the page it lies in. -/
structure PageDir where
  page : Page
  table : Fin NPDENTRIES → Option PageTable

namespace PageDir

/-- The entry for `va`; without a page table there is none. -/
def pte (d : PageDir) (va : ℕ) : Option Pte := (d.table (PDX va)).bind fun t => t.pte (PTX va)

/-- `*pte = p;` for the entry `walkpgdir` has found. -/
def setPte (d : PageDir) (va : ℕ) (p : Option Pte) : PageDir :=
  match d.table (PDX va) with
  | none => d
  | some t =>
    let t' : PageTable := { t with pte := Function.update t.pte (PTX va) p }
    { d with table := Function.update d.table (PDX va) (some t') }

/-- An empty page table in the page `pg`. -/
def addTable (d : PageDir) (i : Fin NPDENTRIES) (pg : Page) : PageDir :=
  { d with table := Function.update d.table i (some ⟨pg, fun _ => none⟩) }

end PageDir

/-! ### `kalloc.c` -/

/-- The free list, and the content of the pages that processes map. -/
structure PhysMem where
  free : List Page
  data : Page → Bytes PGSIZE
  /-- The physical address of `end`, the first one behind the kernel. -/
  kend : ℕ
  /-- `kfree` has panicked; what is done after that is of no account. -/
  panicked : Bool

/-- The test of `kfree`: the page lies between the kernel and the end of the memory. -/
def PhysMem.Kfreeable (m : PhysMem) (pg : Page) : Prop :=
  m.kend ≤ pg * PGSIZE ∧ pg * PGSIZE < PHYSTOP

instance (m : PhysMem) (pg : Page) : Decidable (m.Kfreeable pg) :=
  inferInstanceAs (Decidable (_ ∧ _))

/-- The page `pg` gets a new content. -/
def PhysMem.setData (m : PhysMem) (pg : Page) (c : Bytes PGSIZE) : PhysMem :=
  { m with data := Function.update m.data pg c }

/-- `memset(v, b, PGSIZE)` -/
def PhysMem.memset (m : PhysMem) (pg : Page) (b : UInt8) : PhysMem := m.setData pg fun _ => b

def kalloc (m : PhysMem) : Option (Page × PhysMem) :=
  match m.free with
  | [] => none
  | pg :: free => some (pg, { m with free := free })

/-- `kfree`; the page is filled with junk. -/
def kfree (m : PhysMem) (pg : Page) : PhysMem :=
  { m.memset pg 1 with
    free := pg :: m.free
    panicked := m.panicked || !decide (m.Kfreeable pg) }

/-- Why the code does not return: it calls `panic`, or it reads through a null pointer, after which
nothing is known. -/
inductive VmHalt
  | panic (msg : String)
  | null
  deriving DecidableEq

/-! ### `vm.c` -/

/-- `walkpgdir`: the directory in which the entry for `va` exists, `none` when 0 is returned. -/
def walkpgdir (d : PageDir) (m : PhysMem) (va : ℕ) (alloc : Bool) : Option (PageDir × PhysMem) :=
  match d.table (PDX va) with
  | some _ => some (d, m)
  | none =>
    if !alloc then none
    else (kalloc m).map fun r => (d.addTable (PDX va) r.1, r.2.memset r.1 0)

/-- The loop of `mappages` for `n` more pages. -/
def mapLoop (perm : Perm) : ℕ → ℕ → Page → PageDir → PhysMem →
    Except VmHalt (PageDir × PhysMem × Bool)
  | 0, _, _, d, m => .ok (d, m, true)
  | n + 1, a, pa, d, m =>
    match walkpgdir d m a true with
    | none => .ok (d, m, false)
    | some (d', m') =>
      if (d'.pte a).isSome then .error (.panic "remap")
      else mapLoop perm n (a + PGSIZE) (pa + 1) (d'.setPte a (some ⟨pa, perm⟩)) m'

/-- `mappages`; `pa` is a page number. -/
def mappages (d : PageDir) (m : PhysMem) (va size : ℕ) (pa : Page) (perm : Perm) :
    Except VmHalt (PageDir × PhysMem × Bool) :=
  let a := PGROUNDDOWN va
  let last := PGROUNDDOWN (va + size - 1)
  mapLoop perm ((last - a) / PGSIZE + 1) a pa d m

/-- The loop of `deallocuvm`. -/
def deallocLoop (oldsz : ℕ) : ℕ → ℕ → PageDir → PhysMem → PageDir × PhysMem
  | 0, _, d, m => (d, m)
  | n + 1, a, d, m =>
    if a < oldsz then
      match d.table (PDX a) with
      -- the rest of the region of a page table is skipped
      | none => deallocLoop oldsz n ((a / 2 ^ 22 + 1) * 2 ^ 22) d m
      | some _ =>
        match d.pte a with
        | none => deallocLoop oldsz n (a + PGSIZE) d m
        -- `kfree` panics for the page 0, too
        | some p => deallocLoop oldsz n (a + PGSIZE) (d.setPte a none) (kfree m p.page)
    else (d, m)

/-- `deallocuvm` -/
def deallocuvm (d : PageDir) (m : PhysMem) (oldsz newsz : ℕ) : PageDir × PhysMem × ℕ :=
  if newsz ≥ oldsz then (d, m, oldsz)
  else
    let r := deallocLoop oldsz (oldsz / PGSIZE + 1) (PGROUNDUP newsz) d m
    (r.1, r.2, newsz)

/-- The loop of `allocuvm`. -/
def allocLoop (oldsz newsz : ℕ) : ℕ → ℕ → PageDir → PhysMem →
    Except VmHalt (PageDir × PhysMem × ℕ)
  | 0, _, d, m => .ok (d, m, newsz)
  | n + 1, a, d, m =>
    if a < newsz then
      match kalloc m with
      | none =>
        let r := deallocuvm d m newsz oldsz
        .ok (r.1, r.2.1, 0)
      | some (mem, m1) =>
        match mappages d (m1.memset mem 0) a PGSIZE mem ⟨true, true, 0⟩ with
        | .error e => .error e
        | .ok (d', m', true) => allocLoop oldsz newsz n (a + PGSIZE) d' m'
        | .ok (d', m', false) =>
          let r := deallocuvm d' m' newsz oldsz
          .ok (r.1, kfree r.2.1 mem, 0)
    else .ok (d, m, newsz)

/-- `allocuvm` -/
def allocuvm (d : PageDir) (m : PhysMem) (oldsz newsz : ℕ) :
    Except VmHalt (PageDir × PhysMem × ℕ) :=
  if newsz ≥ KERNBASE then .ok (d, m, 0)
  else if newsz < oldsz then .ok (d, m, oldsz)
  else allocLoop oldsz newsz (newsz / PGSIZE + 1) (PGROUNDUP oldsz) d m

/-- The loop of `freevm` over the directory entries in the list. -/
def freeTables (d : PageDir) : List (Fin NPDENTRIES) → PhysMem → PhysMem
  | [], m => m
  | i :: is, m =>
    match d.table i with
    | none => freeTables d is m
    | some t => freeTables d is (kfree m t.page)

/-- `freevm` of a directory. -/
def freeDir (d : PageDir) (m : PhysMem) : PhysMem :=
  let r := deallocuvm d m KERNBASE 0
  kfree (freeTables r.1 (List.finRange NPDENTRIES) r.2.1) d.page

/-- An entry of `kmap`. -/
structure Kmap where
  virt : ℕ
  physStart : ℕ
  physEnd : ℕ
  perm : Perm

/-- `kmap`, the kernel's mappings; `data` is the address the linker gives the symbol. -/
def kmap (data : ℕ) : List Kmap :=
  [⟨KERNBASE, 0, EXTMEM, ⟨true, false, 0⟩⟩,
    ⟨KERNLINK, KERNLINK - KERNBASE, data - KERNBASE, ⟨false, false, 0⟩⟩,
    ⟨data, data - KERNBASE, PHYSTOP, ⟨true, false, 0⟩⟩,
    ⟨DEVSPACE, DEVSPACE, 0, ⟨true, false, 0⟩⟩]

/-- `k->phys_end - k->phys_start` -/
def Kmap.size (k : Kmap) : ℕ := uint (k.physEnd - k.physStart)

/-- The loop of `setupkvm`. -/
def mapKernel : List Kmap → PageDir → PhysMem → Except VmHalt (Option PageDir × PhysMem)
  | [], d, m => .ok (some d, m)
  | k :: ks, d, m =>
    match mappages d m k.virt k.size (k.physStart / PGSIZE) k.perm with
    | .error e => .error e
    | .ok (d', m', true) => mapKernel ks d' m'
    | .ok (d', m', false) => .ok (none, freeDir d' m')

/-- `setupkvm` -/
def setupkvm (data : ℕ) (m : PhysMem) : Except VmHalt (Option PageDir × PhysMem) :=
  match kalloc m with
  | none => .ok (none, m)
  | some (pg, m') =>
    if KERNBASE + PHYSTOP > DEVSPACE then .error (.panic "PHYSTOP too high")
    else mapKernel (kmap data) ⟨pg, fun _ => none⟩ m'

/-- `clearpteu` -/
def clearpteu (d : PageDir) (va : ℕ) : Except VmHalt PageDir :=
  match d.table (PDX va) with
  | none => .error (.panic "clearpteu")
  | some _ => .ok (d.setPte va ((d.pte va).map fun p => { p with perm.user := false }))

/-- The loop of `copyuvm` for the pages of `src` from `i` on. -/
def copyLoop (src : PageDir) (sz : ℕ) : ℕ → ℕ → PageDir → PhysMem →
    Except VmHalt (Option PageDir × PhysMem)
  | 0, _, d, m => .ok (some d, m)
  | n + 1, i, d, m =>
    if i < sz then
      match src.table (PDX i) with
      | none => .error (.panic "copyuvm: pte should exist")
      | some _ =>
        match src.pte i with
        | none => .error (.panic "copyuvm: page not present")
        | some p =>
          match kalloc m with
          | none => .ok (none, freeDir d m)
          | some (mem, m1) =>
            -- `memmove(mem, (char*)P2V(pa), PGSIZE);`
            match mappages d (m1.setData mem (m1.data p.page)) i PGSIZE mem p.perm with
            | .error e => .error e
            | .ok (d', m', true) => copyLoop src sz n (i + PGSIZE) d' m'
            | .ok (d', m', false) => .ok (none, freeDir d' (kfree m' mem))
    else .ok (some d, m)

/-- `copyuvm` -/
def copyuvm (data : ℕ) (src : PageDir) (sz : ℕ) (m : PhysMem) :
    Except VmHalt (Option PageDir × PhysMem) :=
  match setupkvm data m with
  | .error e => .error e
  | .ok (none, m') => .ok (none, m')
  | .ok (some d, m') => copyLoop src sz (sz / PGSIZE + 1) 0 d m'

/-- `uva2ka`: the entry is read without a test of the pointer to it. -/
def uva2ka (d : PageDir) (va : ℕ) : Except VmHalt (Option Page) :=
  match d.table (PDX va) with
  | none => .error .null
  | some _ =>
    match d.pte va with
    | none => .ok none
    | some p => .ok (if p.perm.user then some p.page else none)

/-- `memmove(pa0 + off, buf, n)` into a page. -/
def PhysMem.write (m : PhysMem) (pg : Page) (off : ℕ) (buf : List UInt8) : PhysMem :=
  m.setData pg fun j =>
    if off ≤ j ∧ (j : ℕ) < off + buf.length then buf.getD (j - off) 0 else m.data pg j

/-- The loop of `copyout`; every iteration copies at least one byte. -/
def copyoutLoop (d : PageDir) : ℕ → ℕ → List UInt8 → PhysMem → Except VmHalt (PhysMem × Bool)
  | 0, _, _, m => .ok (m, true)
  | k + 1, va, buf, m =>
    if buf = [] then .ok (m, true)
    else
      let va0 := PGROUNDDOWN va
      match uva2ka d va0 with
      | .error e => .error e
      | .ok none => .ok (m, false)
      | .ok (some pg) =>
        let n := min (PGSIZE - (va - va0)) buf.length
        copyoutLoop d k ((va0 + PGSIZE) % 2 ^ 32) (buf.drop n) (m.write pg (va - va0) (buf.take n))

/-- `copyout` -/
def copyout (d : PageDir) (va : ℕ) (buf : List UInt8) (m : PhysMem) :
    Except VmHalt (PhysMem × Bool) :=
  copyoutLoop d buf.length va buf m

/-! ### `growproc` -/

/-- `growproc(n)` on a process of size `sz`: the new size, and whether 0 is returned. -/
def growproc (d : PageDir) (m : PhysMem) (sz : ℕ) (n : ℤ) :
    Except VmHalt (PageDir × PhysMem × ℕ × Bool) :=
  if 0 < n then
    match allocuvm d m sz (uint (sz + n)) with
    | .error e => .error e
    | .ok (d', m', sz') => .ok (d', m', if sz' = 0 then sz else sz', decide (sz' ≠ 0))
  else if n < 0 then
    let r := deallocuvm d m sz (uint (sz + n))
    .ok (r.1, r.2.1, if r.2.2 = 0 then sz else r.2.2, decide (r.2.2 ≠ 0))
  else .ok (d, m, sz, true)

end OsSemester.Xv6
