import OsSemester.Xv6.Vm

/-!
# The allocator of user programs (`umalloc.c`)

`free` and `malloc` keep the free blocks in a circular list in the order of their addresses, which
begins at the static `base`.  A block begins with a header of eight bytes, and its size is counted in
headers.  All numbers are 32 bits wide.

Memory is given by the headers at their addresses.  The kernel keeps the pages below `top` mapped, and
a process that reads or writes a header behind it is killed.
-/

namespace OsSemester.Xv6

/-- `union header` -/
structure Header where
  ptr : ℕ
  size : ℕ

/-- The variables of `umalloc.c`, and the memory of the process. -/
structure Heap where
  freep : ℕ
  hdr : ℕ → Header
  /-- `curproc->sz` -/
  sz : ℕ
  /-- The end of the mapped pages. -/
  top : ℕ

/-- What can keep a call from returning. -/
inductive MallocHalt
  /-- The process is killed. -/
  | fault
  /-- A search goes around the list and does not end. -/
  | loop

/-! ### `sbrk` -/

/-- `growproc(n)` as far as `sbrk` sees it: the sizes of the process and of its mapped part afterwards,
and whether 0 is returned.  The argument is the `uint` whose bits are taken as an `int`; `mem` says
whether there is memory to grow. -/
def growprocSize (sz top n : ℕ) (mem : Bool) : ℕ × ℕ × Bool :=
  let newsz := (sz + n) % 2 ^ 32
  if n = 0 then (sz, top, true)
  else if n < 2 ^ 31 then
    -- `allocuvm`
    let r := if newsz ≥ KERNBASE then 0 else if newsz < sz then sz else if mem then newsz else 0
    if r = 0 then (sz, top, false) else (r, max top (PGROUNDUP r), true)
  else
    -- `deallocuvm`
    let r := if newsz ≥ sz then sz else newsz
    let top' := if newsz ≥ sz then top else min top (PGROUNDUP newsz)
    if r = 0 then (sz, top', false) else (r, top', true)

namespace Heap

variable (h : Heap)

/-- A header is read. -/
def read (a : ℕ) : Except MallocHalt Header := if a + 8 ≤ h.top then .ok (h.hdr a) else .error .fault

/-- A header is written. -/
def write (a : ℕ) (x : Header) : Except MallocHalt Heap :=
  if a + 8 ≤ h.top then .ok { h with hdr := Function.update h.hdr a x } else .error .fault

/-- `p + n` for a `Header *p`. -/
def behind (p n : ℕ) : ℕ := (p + 8 * n) % 2 ^ 32

/-! ### `free` -/

/-- The `for` loop of `free`, with at most so many rounds: the block behind which `bp` belongs. -/
def freeSearch (bp : ℕ) : ℕ → ℕ → Except MallocHalt ℕ
  | 0, _ => .error .loop
  | n + 1, p => do
    let next := (← h.read p).ptr
    if bp > p ∧ bp < next then return p
    else if p ≥ next ∧ (bp > p ∨ bp < next) then return p
    else freeSearch bp n next

/-- `bp` is joined with the block behind it, or linked to it. -/
def joinUpper (bp p : ℕ) : Except MallocHalt Heap := do
  let b ← h.read bp
  let next := (← h.read p).ptr
  if behind bp b.size = next then do
    let n ← h.read next
    h.write bp ⟨n.ptr, (b.size + n.size) % 2 ^ 32⟩
  else h.write bp { b with ptr := next }

/-- `p` is joined with the block `bp`, or linked to it. -/
def joinLower (bp p : ℕ) : Except MallocHalt Heap := do
  let x ← h.read p
  if behind p x.size = bp then do
    let b ← h.read bp
    h.write p ⟨b.ptr, (x.size + b.size) % 2 ^ 32⟩
  else h.write p { x with ptr := bp }

/-- More rounds than a list of different addresses below `sz` needs. -/
def rounds : ℕ := 2 * h.sz + 4

/-- `free` -/
def free (ap : ℕ) : Except MallocHalt Heap := do
  let bp := (ap + (2 ^ 32 - 8)) % 2 ^ 32
  let p ← h.freeSearch bp h.rounds h.freep
  let h1 ← h.joinUpper bp p
  let h2 ← h1.joinLower bp p
  return { h2 with freep := p }

/-! ### `malloc` -/

/-- `morecore`; `none` is the null pointer, otherwise `freep` is returned.  `mem` says of each size
whether there is memory to grow from it. -/
def morecore (nu : ℕ) (mem : ℕ → Bool) : Except MallocHalt (Heap × Bool) := do
  let nu := if nu < 4096 then 4096 else nu
  let (sz, top, ok) := growprocSize h.sz h.top (8 * nu % 2 ^ 32) (mem h.sz)
  let h1 := { h with sz := sz, top := top }
  if ok then do
    let hp := h.sz
    let h2 ← h1.write hp { (← h1.read hp) with size := nu }
    return (← h2.free (behind hp 1), true)
  else return (h1, false)

/-- The number of headers for `nbytes` bytes, with the one of the block itself. -/
def nunits (nbytes : ℕ) : ℕ := (nbytes + 7) % 2 ^ 32 / 8 + 1

/-- The block `p` of the list, or its end, is taken out; `prevp` is the one before it. -/
def take (n prevp p : ℕ) : Except MallocHalt (ℕ × Heap) := do
  let x ← h.read p
  if x.size = n then do
    let h' ← h.write prevp { (← h.read prevp) with ptr := x.ptr }
    return (behind p 1, { h' with freep := prevp })
  else do
    let h1 ← h.write p { x with size := x.size - n }
    let q := behind p (x.size - n)
    let h2 ← h1.write q { (← h1.read q) with size := n }
    return (behind q 1, { h2 with freep := prevp })

/-- The `for` loop of `malloc`, with at most so many rounds. -/
def mallocLoop (n : ℕ) (mem : ℕ → Bool) : ℕ → Heap → ℕ → ℕ → Except MallocHalt (ℕ × Heap)
  | 0, _, _, _ => .error .loop
  | k + 1, h, prevp, p => do
    if (← h.read p).size ≥ n then h.take n prevp p
    else if p = h.freep then do
      let (h', ok) ← h.morecore n mem
      if ok then mallocLoop n mem k h' h'.freep (← h'.read h'.freep).ptr
      else return (0, h')
    else mallocLoop n mem k h p (← h.read p).ptr

/-- `if((prevp = freep) == 0) { base.s.ptr = freep = prevp = &base; base.s.size = 0; }` -/
def initBase (base : ℕ) : Except MallocHalt Heap :=
  if h.freep = 0 then do
    let h' ← h.write base ⟨base, 0⟩
    return { h' with freep := base }
  else .ok h

/-- `malloc`, for a program whose `base` has this address: the pointer it returns. -/
def malloc (base nbytes : ℕ) (mem : ℕ → Bool) : Except MallocHalt (ℕ × Heap) := do
  let h1 ← h.initBase base
  mallocLoop (nunits nbytes) mem h1.rounds h1 h1.freep (← h1.read h1.freep).ptr

end Heap

end OsSemester.Xv6
