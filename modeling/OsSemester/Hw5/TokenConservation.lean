import OsSemester.Hw5.MergeTree

/-!
# No number is lost in the pipe of `Q2.c`

Nothing can be said about which numbers a process reads, only about how many it can hold: a process
of a tier with `size` numbers and its descendants never have more than `size` of them outside the
pipe, and none of them when one of the process' own two `read`s is next.  So the pipe contains what
a `read` asks for, whoever calls it.  The main result is `token_conservation`.
-/

namespace OsSemester.Hw5

variable {t : Tier} {T T' l r : Tree} {p : Process} {e e' : Env} {path : List Bool} {right : Bool}
variable {n : ℕ} {is : List Instr} {num : Vector CInt 800} {σ σ' : State} {a : Action}

/-! ### What the processes hold -/

/-- The number of `int`s that the process has read and not yet written. -/
def carry : List Instr → ℕ
  | .write n :: _ | .fprintf n :: _ => n
  | .qsort _ :: is => carry is
  | _ => 0

/-- The numbers that a process and its descendants have outside the pipe. -/
def Tree.tokens : Tree → Multiset CInt
  | .proc p l r => p.num.take (carry p.code) + (l.tokens + r.tokens)
  | _ => 0

/-- All numbers. -/
def State.tokens (σ : State) : Multiset CInt :=
  σ.env.pipe + (σ.tree.tokens + ((σ.env.out.getD [] : List CInt) : Multiset CInt))

/-- The number of `int`s a branch of `main` reads first. -/
def Tier.size : Tier → ℕ
  | parent => 800
  | third => 400
  | second => 200
  | bottom => 100

/-! ### The shape of the tree -/

/-- A process that has been forked and not been waited for. -/
def Tree.Born : Tree → Prop
  | .proc _ _ _ => True
  | _ => False

/-- The children of a process that has still to execute `is`. -/
def Stage (is : List Instr) (l r : Tree) : Prop :=
  match is.count .fork, is.count .wait with
  | 0, 0 => l = .reaped ∧ r = .reaped
  | 0, 1 => l = .reaped ∧ r.Born ∨ l.Born ∧ r = .reaped
  | 0, _ => l.Born ∧ r.Born
  | 1, _ => l.Born ∧ r = .unborn
  | _, _ => l = .unborn ∧ r = .unborn

/-- The same for a process of the tier `t`. -/
def Kids (t : Tier) (is : List Instr) (l r : Tree) : Prop :=
  if t = .bottom then l = .unborn ∧ r = .unborn else Stage is l r

/-- A process of the tier `t` with its descendants. -/
def Fits : Tier → Tree → Prop
  | t, .proc p l r =>
    (p.tier = t ∧ p.num.length = 800 ∧ p.code <:+ t.code) ∧ Kids t p.code l r ∧
      Fits t.below l ∧ Fits t.below r
  | _, _ => True

/-- No child is forked or waited for just before and after the calls `is`. -/
def Settled (is : List Instr) : Prop :=
  is.count .fork = 2 ∧ is.count .wait = 2 ∨ is.count .fork = 0 ∧ is.count .wait = 0

/-- What a process of the tier `t` that has still to execute `is` does next. -/
def Next (t : Tier) : List Instr → Prop
  | [] => True
  | .read n :: is => n = t.size ∧ carry is = n ∧ Settled is
  | .write n :: is => n = t.size ∧ carry is = 0 ∧ Settled is
  | .fork :: is => t ≠ .bottom ∧ carry is = 0 ∧ is.count .wait = 2 ∧ is.count .fork ≤ 1
  | .wait :: is => t ≠ .bottom ∧ carry is = 0 ∧ is.count .wait ≤ 1 ∧ is.count .fork = 0
  | .qsort n :: is => n = t.size ∧ carry is = n ∧ Settled is
  | .fprintf n :: is => n = t.size ∧ is = [] ∧ t = .parent

instance (is : List Instr) : Decidable (Settled is) := by
  unfold Settled
  infer_instance

instance (t : Tier) : DecidablePred (Next t) := by
  intro is
  unfold Next
  split <;> infer_instance

/-- The calls of a branch come in an order in which numbers are read and then written. -/
theorem next_of_suffix (h : is <:+ t.code) : Next t is := by
  have hall : ∀ is ∈ t.code.tails, Next t is := by
    cases t <;> decide
  exact hall is ((List.mem_tails _ _).mpr h)

/-- The parent prints at last. -/
theorem nonempty_of_suffix {i : Instr} (h : i :: is <:+ Tier.parent.code)
    (hi : ∀ n, i ≠ .fprintf n) : is.isEmpty = false := by
  have hall : ∀ is ∈ Tier.parent.code.tails, ∀ i is', is = i :: is' →
      is'.isEmpty = false ∨ i = .fprintf 800 := by
    simp [Tier.code]
  exact (hall _ ((List.mem_tails _ _).mpr h) i is rfl).resolve_right (hi 800)

theorem suffix_tail {i : Instr} (h : i :: is <:+ t.code) : is <:+ t.code :=
  (List.suffix_cons i is).trans h

theorem tokens_of_not_born (h : ¬ T.Born) : T.tokens = 0 := by
  cases T with
  | proc p l r => exact absurd trivial h
  | _ => rfl

theorem kids_of_settled (is : List Instr) (h : Settled is) (hk : Kids t is l r) :
    ¬ l.Born ∧ ¬ r.Born := by
  unfold Kids Stage at hk
  split_ifs at hk
  · rw [hk.1, hk.2]
    exact ⟨id, id⟩
  · rcases h with ⟨hf, hw⟩ | ⟨hf, hw⟩
    · rw [hf, hw] at hk
      rw [hk.1, hk.2]
      exact ⟨id, id⟩
    · rw [hf, hw] at hk
      rw [hk.1, hk.2]
      exact ⟨id, id⟩

/-- Calls between which no child is forked or waited for leave the children alone. -/
theorem kids_congr {is' : List Instr} (hf : is.count .fork = is'.count .fork)
    (hw : is.count .wait = is'.count .wait) : Kids t is l r ↔ Kids t is' l r := by
  unfold Kids Stage
  rw [hf, hw]

/-- A process holds as many numbers as its tier has, while it has no children, or none. -/
theorem Fits.carry (h : Fits t (.proc p l r)) :
    carry p.code = 0 ∨ carry p.code = t.size ∧ ¬ l.Born ∧ ¬ r.Born := by
  obtain ⟨⟨-, -, hsuf⟩, hk, -, -⟩ := h
  have hn := next_of_suffix hsuf
  cases hc : p.code with
  | nil => exact Or.inl rfl
  | cons i is =>
    rw [hc] at hn hk
    cases i with
    | write n =>
      obtain ⟨rfl, -, hs⟩ := hn
      exact Or.inr ⟨rfl, kids_of_settled (.write t.size :: is) (by simpa [Settled] using hs) hk⟩
    | qsort n =>
      obtain ⟨rfl, hcar, hs⟩ := hn
      exact Or.inr ⟨hcar, kids_of_settled (.qsort t.size :: is) (by simpa [Settled] using hs) hk⟩
    | fprintf n =>
      obtain ⟨rfl, rfl, rfl⟩ := hn
      exact Or.inr ⟨rfl, kids_of_settled [.fprintf Tier.parent.size] (by decide) hk⟩
    | _ => exact Or.inl rfl

/-- **What a subtree holds.** -/
theorem Fits.card_le (h : Fits t T) : T.tokens.card ≤ t.size := by
  induction T generalizing t with
  | unborn | reaped => exact Nat.zero_le _
  | proc p l r ihl ihr =>
    have hcar := h.carry
    obtain ⟨⟨-, hlen, -⟩, hk, hl, hr⟩ := h
    rcases hcar with hcar | ⟨hcar, hnl, hnr⟩
    · have h1 := ihl hl
      have h2 := ihr hr
      have htok : (Tree.proc p l r).tokens.card = l.tokens.card + r.tokens.card := by
        simp [Tree.tokens, hcar]
      rw [htok]
      cases t with
      | bottom =>
        obtain ⟨rfl, rfl⟩ : l = .unborn ∧ r = .unborn := hk
        exact Nat.zero_le _
      | _ =>
        simp only [Tier.below, Tier.size] at h1 h2 ⊢
        omega
    · have htok : (Tree.proc p l r).tokens.card = (p.num.take t.size).length := by
        simp [Tree.tokens, hcar, tokens_of_not_born hnl, tokens_of_not_born hnr]
      rw [htok]
      exact List.length_take_le _ _

/-! ### One step -/

/-- The calls that a process and its descendants, also those it has still to fork, have to make. -/
def Tier.work : Tier → ℕ
  | parent => 86
  | third => 39
  | second => 15
  | bottom => 3

def Tree.work : Tree → ℕ
  | .proc p l r => p.code.length + p.code.count .fork * p.tier.below.work + (l.work + r.work)
  | _ => 0

/-- The pipe contains what the subtree needs besides the numbers it has. -/
def Room (t : Tier) (T : Tree) (e : Env) : Prop := t.size ≤ e.pipe.length + T.tokens.card

/-- While one child is born, both have the room of their tier. -/
theorem Fits.room (h : Fits t (.proc p l r)) (hb : l.Born ∨ r.Born) (hR : Room t (.proc p l r) e) :
    Room t.below l e ∧ Room t.below r e := by
  have hcar : Hw5.carry p.code = 0 := by
    rcases h.carry with h0 | ⟨-, hnl, hnr⟩
    · exact h0
    · exact (hb.elim hnl hnr).elim
  obtain ⟨-, hk, hl, hr⟩ := h
  have h1 := hl.card_le
  have h2 := hr.card_le
  have htok : (Tree.proc p l r).tokens.card = l.tokens.card + r.tokens.card := by
    simp [Tree.tokens, hcar]
  unfold Room at *
  rw [htok] at hR
  cases t with
  | bottom =>
    obtain ⟨rfl, rfl⟩ : l = .unborn ∧ r = .unborn := hk
    exact (hb.elim id id).elim
  | _ =>
    simp only [Tier.below, Tier.size] at hR h1 h2 ⊢
    omega

/-- A process that is about to read holds nothing, and its children neither. -/
theorem Fits.read (h : Fits t (.proc p l r)) (hR : Room t (.proc p l r) e)
    (hc : p.code = .read n :: is) : n ≤ e.pipe.length := by
  obtain ⟨⟨-, -, hsuf⟩, hk, -, -⟩ := h
  have hn := next_of_suffix hsuf
  rw [hc] at hn hk
  obtain ⟨rfl, -, hs⟩ := hn
  obtain ⟨hl, hr⟩ := kids_of_settled (.read t.size :: is) (by simpa [Settled] using hs) hk
  have htok : (Tree.proc p l r).tokens.card = 0 := by
    simp [Tree.tokens, hc, Hw5.carry, tokens_of_not_born hl, tokens_of_not_born hr]
  unfold Room at hR
  omega

/-- The numbers outside `out.dat` that a subtree and the pipe have. -/
def total (T : Tree) (e : Env) : Multiset CInt :=
  e.pipe + (T.tokens + ((e.out.getD [] : List CInt) : Multiset CInt))

/-- What a step of a subtree of the tier `t` does. -/
structure Good (t : Tier) (T T' : Tree) (e e' : Env) : Prop where
  fits : Fits t T'
  born : T'.Born
  total : total T' e' = total T e
  work : T'.work < T.work
  out : e'.out = none ∧ (t = .parent → T'.exited = false) ∨
    t = .parent ∧ T'.exited = true ∧ ∃ l, e'.out = some l ∧ l.length = 800

/-- A call that does not concern the children. -/
theorem Fits.next (h : Fits t (.proc p l r)) {i : Instr} (hc : p.code = i :: is)
    (hi : i ≠ .fork ∧ i ≠ .wait) {num : List CInt} (hlen : num.length = 800) :
    Fits t (.proc { p with num := num, code := is } l r) := by
  obtain ⟨⟨ht, -, hsuf⟩, hk, hl, hr⟩ := h
  rw [hc] at hsuf hk
  refine ⟨⟨ht, hlen, suffix_tail hsuf⟩, (kids_congr ?_ ?_).mp hk, hl, hr⟩
  · rw [List.count_cons_of_ne hi.1]
  · rw [List.count_cons_of_ne hi.2]

theorem length_qsort (n : ℕ) (num : List CInt) : (qsort n num).length = num.length := by
  simp only [qsort, List.length_append, List.length_mergeSort, List.length_take, List.length_drop]
  omega

theorem take_qsort {num : List CInt} (h : n ≤ num.length) :
    ((qsort n num).take n : Multiset CInt) = (num.take n : List CInt) := by
  have hlen : ((num.take n).mergeSort fun a b => compare a b ≤ 0).length = n := by
    rw [List.length_mergeSort, List.length_take]
    omega
  unfold qsort
  rw [List.take_append_of_le_length (by omega), List.take_of_length_le (by omega)]
  exact Multiset.coe_eq_coe.mpr (List.mergeSort_perm _ _)

theorem size_le (t : Tier) : t.size ≤ 800 := by
  cases t <;> decide

theorem fits_child (h : Fits t (.proc p l r)) (ht : t ≠ .bottom) : Fits t.below p.child := by
  obtain ⟨⟨rfl, hlen, -⟩, -⟩ := h
  refine ⟨⟨rfl, hlen, List.suffix_rfl⟩, ?_, trivial, trivial⟩
  have hcode : ∀ t : Tier, t.code.count .fork = 2 ∨ t = .bottom := by
    intro t
    cases t <;> decide
  unfold Kids Stage
  split_ifs with hb
  · exact ⟨rfl, rfl⟩
  · rcases hcode p.tier.below with h2 | h2
    · rw [h2]
      exact ⟨rfl, rfl⟩
    · exact absurd h2 hb

theorem work_child (h : Fits t (.proc p l r)) (ht : t ≠ .bottom) :
    p.child.work = t.below.work := by
  obtain ⟨⟨rfl, -, -⟩, -⟩ := h
  have hall : ∀ t : Tier, t.below.code.length + t.below.code.count .fork * t.below.below.work + 0 =
      t.below.work := by
    intro t
    cases t <;> decide
  exact hall p.tier

theorem tokens_child (p : Process) : p.child.tokens = 0 := by
  have hall : ∀ t : Tier, carry t.below.code = 0 := by
    intro t
    cases t <;> decide
  simp [Process.child, Tree.tokens, hall]

theorem born_of_exited (h : T.exited = true) : T.Born := by
  cases T with
  | proc p l r => trivial
  | _ => cases h

/-- Who has returned from `main` has waited for its children. -/
theorem Fits.exited (h : Fits t T) (he : T.exited = true) : T.tokens = 0 := by
  cases T with
  | proc p l r =>
    have hc : p.code = [] := List.isEmpty_iff.mp he
    have hk := h.2.1
    rw [hc] at hk
    obtain ⟨hl, hr⟩ := kids_of_settled [] (Or.inr ⟨rfl, rfl⟩) hk
    simp [Tree.tokens, hc, Hw5.carry, tokens_of_not_born hl, tokens_of_not_born hr]
  | _ => cases he

/-- What a process does next fits what it has done. -/
theorem Fits.next_code {i : Instr} (h : Fits t (.proc p l r)) (hc : p.code = i :: is) :
    Next t (i :: is) := next_of_suffix (hc ▸ h.1.2.2)

theorem Fits.suffix_tail {i : Instr} (h : Fits t (.proc p l r)) (hc : p.code = i :: is) :
    is <:+ t.code := Hw5.suffix_tail (hc ▸ h.1.2.2)

/-- The parent goes on after everything but its last print. -/
theorem Fits.goes_on {i : Instr} (h : Fits t (.proc p l r)) (hc : p.code = i :: is)
    (hi : ∀ n, i ≠ .fprintf n) : t = .parent → is.isEmpty = false := by
  rintro rfl
  exact nonempty_of_suffix (hc ▸ h.1.2.2) hi

theorem Fits.exec_read (h : Fits t (.proc p l r)) (hR : Room t (.proc p l r) e) (ho : e.out = none)
    (hc : p.code = .read n :: is) (hx : p.exec l r e right = some (T', e')) :
    Good t (.proc p l r) T' e e' := by
  have hsize := size_le t
  have hlen := h.1.2.1
  unfold Process.exec at hx
  rw [hc] at hx
  have hpipe := h.read hR hc
  obtain ⟨rfl, hcar, -⟩ := h.next_code hc
  simp only at hx
  split_ifs at hx
  obtain ⟨rfl, rfl⟩ := Prod.mk.inj (Option.some.inj hx)
  have hgot : (e.pipe.take t.size).length = t.size := by
    rw [List.length_take]
    omega
  refine ⟨h.next hc (by simp) ?_, trivial, ?_, ?_, Or.inl ⟨ho, h.goes_on hc (by simp)⟩⟩
  · rw [List.length_append, List.length_drop]
    omega
  · have htake : (e.pipe.take t.size ++ p.num.drop (e.pipe.take t.size).length).take t.size =
        e.pipe.take t.size := by
      rw [List.take_append_of_le_length hgot.ge, List.take_of_length_le hgot.le]
    have hpq : (e.pipe : Multiset CInt) = ↑(e.pipe.drop t.size) + ↑(e.pipe.take t.size) := by
      rw [Multiset.coe_add, Multiset.coe_eq_coe]
      exact (List.perm_append_comm.trans (by rw [List.take_append_drop])).symm
    simp only [total, Tree.tokens, hcar, htake, hc, Hw5.carry, List.take_zero, hpq]
    simp only [Multiset.coe_nil, zero_add, add_assoc]
  · simp [Tree.work, hc]

theorem Fits.exec_write (h : Fits t (.proc p l r)) (ho : e.out = none)
    (hc : p.code = .write n :: is) (hx : p.exec l r e right = some (T', e')) :
    Good t (.proc p l r) T' e e' := by
  have hlen := h.1.2.1
  unfold Process.exec at hx
  rw [hc] at hx
  obtain ⟨rfl, hcar, -⟩ := h.next_code hc
  simp only at hx
  split_ifs at hx
  obtain ⟨rfl, rfl⟩ := Prod.mk.inj (Option.some.inj hx)
  refine ⟨h.next hc (by simp) hlen, trivial, ?_, ?_, Or.inl ⟨ho, h.goes_on hc (by simp)⟩⟩
  · simp only [total, Tree.tokens, hcar, hc, Hw5.carry, List.take_zero, ← Multiset.coe_add]
    simp only [Multiset.coe_nil, zero_add, add_assoc]
  · simp [Tree.work, hc]

theorem Fits.exec_qsort (h : Fits t (.proc p l r)) (ho : e.out = none)
    (hc : p.code = .qsort n :: is) (hx : p.exec l r e right = some (T', e')) :
    Good t (.proc p l r) T' e e' := by
  have hsize := size_le t
  have hlen := h.1.2.1
  unfold Process.exec at hx
  rw [hc] at hx
  obtain ⟨rfl, hcar, -⟩ := h.next_code hc
  obtain ⟨rfl, rfl⟩ := Prod.mk.inj (Option.some.inj hx)
  refine ⟨h.next hc (by simp) ?_, trivial, ?_, ?_, Or.inl ⟨ho, h.goes_on hc (by simp)⟩⟩
  · rw [length_qsort, hlen]
  · simp only [total, Tree.tokens, hcar, hc, Hw5.carry]
    rw [take_qsort (by omega)]
  · simp [Tree.work, hc]

theorem Fits.exec_fprintf (h : Fits t (.proc p l r)) (ho : e.out = none)
    (hc : p.code = .fprintf n :: is) (hx : p.exec l r e right = some (T', e')) :
    Good t (.proc p l r) T' e e' := by
  have hlen := h.1.2.1
  unfold Process.exec at hx
  rw [hc] at hx
  obtain ⟨rfl, rfl, rfl⟩ := h.next_code hc
  obtain ⟨rfl, rfl⟩ := Prod.mk.inj (Option.some.inj hx)
  refine ⟨h.next hc (by simp) hlen, trivial, ?_, ?_, Or.inr ⟨rfl, rfl, _, rfl, ?_⟩⟩
  · simp only [total, Tree.tokens, hc, Hw5.carry, List.take_zero, ho, Option.getD_some,
      Option.getD_none, Multiset.coe_nil, zero_add, add_zero]
    rw [add_comm (Multiset.ofList (p.num.take _))]
  · simp [Tree.work, hc]
  · simp [Tier.size, hlen]

theorem Fits.exec_fork (h : Fits t (.proc p l r)) (ho : e.out = none)
    (hc : p.code = .fork :: is) (hx : p.exec l r e right = some (T', e')) :
    Good t (.proc p l r) T' e e' := by
  have hlen := h.1.2.1
  unfold Process.exec at hx
  rw [hc] at hx
  obtain ⟨ht, hcar, hw, hf⟩ := h.next_code hc
  have hk := h.2.1
  have hchild := fits_child h ht
  have hwork := work_child h ht
  have htier := h.1.1
  have hcount : (Instr.fork :: is).count .fork = is.count .fork + 1 := List.count_cons_self
  have hcount' : (Instr.fork :: is).count .wait = 2 := hw
  simp only [Kids, if_neg ht, Stage, hc, hcount, hcount'] at hk
  rcases Nat.le_one_iff_eq_zero_or_eq_one.mp hf with hf | hf
  · -- the second child
    rw [hf] at hk
    obtain ⟨hl, rfl⟩ := hk
    obtain ⟨q, ll, lr, rfl⟩ : ∃ q ll lr, l = .proc q ll lr := by
      cases l with
      | proc q ll lr => exact ⟨q, ll, lr, rfl⟩
      | _ => exact hl.elim
    obtain ⟨rfl, rfl⟩ := Prod.mk.inj (Option.some.inj hx)
    refine ⟨⟨⟨htier, hlen, h.suffix_tail hc⟩, ?_, h.2.2.1, hchild⟩, trivial, ?_, ?_,
      Or.inl ⟨ho, h.goes_on hc (by simp)⟩⟩
    · simp only [Kids, if_neg ht, Stage, hf, hw]
      exact ⟨trivial, trivial⟩
    · simp only [total, Tree.tokens, hcar, hc, Hw5.carry, tokens_child]
    · simp only [Tree.work, hc, hcount, hwork, htier, hf, List.length_cons]
      omega
  · -- the first child
    rw [hf] at hk
    obtain ⟨rfl, rfl⟩ := hk
    obtain ⟨rfl, rfl⟩ := Prod.mk.inj (Option.some.inj hx)
    refine ⟨⟨⟨htier, hlen, h.suffix_tail hc⟩, ?_, hchild, trivial⟩, trivial, ?_, ?_,
      Or.inl ⟨ho, h.goes_on hc (by simp)⟩⟩
    · simp only [Kids, if_neg ht, Stage, hf, hw]
      exact ⟨trivial, trivial⟩
    · simp only [total, Tree.tokens, hcar, hc, Hw5.carry, tokens_child]
    · simp only [Tree.work, hc, hcount, hwork, htier, hf, List.length_cons]
      omega

theorem Fits.exec_wait (h : Fits t (.proc p l r)) (ho : e.out = none)
    (hc : p.code = .wait :: is) (hx : p.exec l r e right = some (T', e')) :
    Good t (.proc p l r) T' e e' := by
  have hlen := h.1.2.1
  unfold Process.exec at hx
  rw [hc] at hx
  obtain ⟨ht, hcar, hw, hf⟩ := h.next_code hc
  have hk := h.2.1
  have hcount : (Instr.wait :: is).count .wait = is.count .wait + 1 := List.count_cons_self
  have hcount' : (Instr.wait :: is).count .fork = 0 := hf
  simp only [Kids, if_neg ht, Stage, hc, hcount, hcount'] at hk
  simp only at hx
  split_ifs at hx with hright hex hex
  · obtain ⟨rfl, rfl⟩ := Prod.mk.inj (Option.some.inj hx)
    have htok := h.2.2.2.exited hex
    have hborn := born_of_exited hex
    refine ⟨⟨⟨h.1.1, hlen, h.suffix_tail hc⟩, ?_, h.2.2.1, trivial⟩, trivial, ?_, ?_,
      Or.inl ⟨ho, h.goes_on hc (by simp)⟩⟩
    · simp only [Kids, if_neg ht, Stage, hf]
      rcases Nat.le_one_iff_eq_zero_or_eq_one.mp hw with hw | hw
      · rw [hw] at hk ⊢
        rcases hk with ⟨hl, -⟩ | ⟨-, hr⟩
        · exact ⟨hl, trivial⟩
        · rw [hr] at hborn
          exact hborn.elim
      · rw [hw] at hk ⊢
        exact Or.inr ⟨hk.1, trivial⟩
    · simp only [total, Tree.tokens, hcar, hc, Hw5.carry, htok]
    · simp only [Tree.work, hc, hcount', hf, List.length_cons]
      omega
  · obtain ⟨rfl, rfl⟩ := Prod.mk.inj (Option.some.inj hx)
    have htok := h.2.2.1.exited hex
    have hborn := born_of_exited hex
    refine ⟨⟨⟨h.1.1, hlen, h.suffix_tail hc⟩, ?_, trivial, h.2.2.2⟩, trivial, ?_, ?_,
      Or.inl ⟨ho, h.goes_on hc (by simp)⟩⟩
    · simp only [Kids, if_neg ht, Stage, hf]
      rcases Nat.le_one_iff_eq_zero_or_eq_one.mp hw with hw | hw
      · rw [hw] at hk ⊢
        rcases hk with ⟨hl, -⟩ | ⟨-, hr⟩
        · rw [hl] at hborn
          exact hborn.elim
        · exact ⟨trivial, hr⟩
      · rw [hw] at hk ⊢
        exact Or.inl ⟨trivial, hk.2⟩
    · simp only [total, Tree.tokens, hcar, hc, Hw5.carry, htok]
    · simp only [Tree.work, hc, hcount', hf, List.length_cons]
      omega

/-- **A call of a process.** -/
theorem Fits.exec (h : Fits t (.proc p l r)) (hR : Room t (.proc p l r) e) (ho : e.out = none)
    (hx : p.exec l r e right = some (T', e')) : Good t (.proc p l r) T' e e' := by
  cases hc : p.code with
  | nil =>
    unfold Process.exec at hx
    rw [hc] at hx
    cases hx
  | cons i is =>
    cases i with
    | read n => exact h.exec_read hR ho hc hx
    | write n => exact h.exec_write ho hc hx
    | qsort n => exact h.exec_qsort ho hc hx
    | fprintf n => exact h.exec_fprintf ho hc hx
    | fork => exact h.exec_fork ho hc hx
    | wait => exact h.exec_wait ho hc hx

theorem born_of_step (hs : T.step right path e = some (T', e')) : T.Born := by
  cases T with
  | proc p l r => trivial
  | _ => cases path <;> cases hs

/-- For its parent, a born child is like any other. -/
theorem kids_of_born {l' r' : Tree} (h : Kids t is l r) (hl : l' = l ∨ l.Born ∧ l'.Born)
    (hr : r' = r ∨ r.Born ∧ r'.Born) : Kids t is l' r' := by
  have hborn : ∀ {c c' : Tree}, c' = c ∨ c.Born ∧ c'.Born → (c.Born → c'.Born) ∧
      (c = .unborn → c' = .unborn) ∧ (c = .reaped → c' = .reaped) := by
    rintro c c' (rfl | ⟨hc, hc'⟩)
    · exact ⟨id, id, id⟩
    · refine ⟨fun _ => hc', ?_, ?_⟩ <;> rintro rfl <;> exact hc.elim
  obtain ⟨l1, l2, l3⟩ := hborn hl
  obtain ⟨r1, r2, r3⟩ := hborn hr
  unfold Kids Stage at *
  split_ifs at h ⊢
  · exact ⟨l2 h.1, r2 h.2⟩
  · split at h
    · exact ⟨l3 h.1, r3 h.2⟩
    · exact h.imp (And.imp l3 r1) (And.imp l1 r3)
    · exact ⟨l1 h.1, r1 h.2⟩
    · exact ⟨l1 h.1, r2 h.2⟩
    · exact ⟨l2 h.1, r2 h.2⟩

/-- **A step anywhere in a subtree.** -/
theorem Fits.step (h : Fits t T) (hR : Room t T e) (ho : e.out = none)
    (hs : T.step right path e = some (T', e')) : Good t T T' e e' := by
  have hpar : t.below ≠ .parent := by
    cases t <;> decide
  induction T generalizing t T' path e' with
  | unborn | reaped => cases path <;> cases hs
  | proc p l r ihl ihr =>
    have hcar := h.carry
    have hpar' : t.below.below ≠ .parent := by
      cases t <;> decide
    -- a process with children has not finished its program
    have hbusy : l.Born ∨ r.Born → p.code.isEmpty = false := by
      intro hb
      by_contra hne
      have hc : p.code = [] := by simpa using hne
      have hk := h.2.1
      rw [hc] at hk
      obtain ⟨hl, hr⟩ := kids_of_settled [] (Or.inr ⟨rfl, rfl⟩) hk
      exact hb.elim hl hr
    cases path with
    | nil => exact h.exec hR ho hs
    | cons b path =>
      cases b with
      | false =>
        -- the left child steps, and the process holds no number for it
        obtain ⟨⟨l', e''⟩, hl, he⟩ := Option.map_eq_some_iff.mp hs
        obtain ⟨rfl, rfl⟩ := Prod.mk.inj he
        have hb := born_of_step hl
        have hG := ihl h.2.2.1 (h.room (Or.inl hb) hR).1 hl hpar'
        have hcar : Hw5.carry p.code = 0 := by
          rcases hcar with h0 | ⟨-, hn, -⟩
          · exact h0
          · exact absurd hb hn
        have ho' : e''.out = none := by
          rcases hG.out with ⟨h0, -⟩ | ⟨h0, -⟩
          · exact h0
          · exact absurd h0 hpar
        refine ⟨⟨h.1, kids_of_born h.2.1 (Or.inr ⟨hb, hG.born⟩) (Or.inl rfl), hG.fits, h.2.2.2⟩,
          trivial, ?_, ?_, Or.inl ⟨ho', fun _ => hbusy (by simp [hb])⟩⟩
        · have htot := hG.total
          simp only [Hw5.total, Tree.tokens, hcar, ho, ho', List.take_zero, Multiset.coe_nil,
            zero_add, Option.getD_none, add_zero, ← add_assoc] at htot ⊢
          rw [htot]
        · have hw := hG.work
          simp only [Tree.work]
          omega
      | true =>
        -- the same with the right child
        obtain ⟨⟨r', e''⟩, hr, he⟩ := Option.map_eq_some_iff.mp hs
        obtain ⟨rfl, rfl⟩ := Prod.mk.inj he
        have hb := born_of_step hr
        have hG := ihr h.2.2.2 (h.room (Or.inr hb) hR).2 hr hpar'
        have hcar : Hw5.carry p.code = 0 := by
          rcases hcar with h0 | ⟨-, -, hn⟩
          · exact h0
          · exact absurd hb hn
        have ho' : e''.out = none := by
          rcases hG.out with ⟨h0, -⟩ | ⟨h0, -⟩
          · exact h0
          · exact absurd h0 hpar
        refine ⟨⟨h.1, kids_of_born h.2.1 (Or.inl rfl) (Or.inr ⟨hb, hG.born⟩), h.2.2.1, hG.fits⟩,
          trivial, ?_, ?_, Or.inl ⟨ho', fun _ => hbusy (by simp [hb])⟩⟩
        · have htot := hG.total
          simp only [Hw5.total, Tree.tokens, hcar, ho, ho', List.take_zero, Multiset.coe_nil,
            zero_add, Option.getD_none, add_zero] at htot ⊢
          rw [add_left_comm, htot, add_left_comm]
        · have hw := hG.work
          simp only [Tree.work]
          omega

/-! ### Progress -/

/-- A process whose next call is a `read` finds what it asks for. -/
theorem Fits.reads (h : Fits t T) (hR : Room t T e) (hat : T.at path = some p)
    (hc : p.code = .read n :: is) : n ≤ e.pipe.length := by
  induction T generalizing t path with
  | unborn | reaped => cases path <;> cases hat
  | proc q l r ihl ihr =>
    have hborn : ∀ {T : Tree} {path : List Bool}, T.at path = some p → T.Born := by
      rintro (_ | _ | _) path hT
      · cases path <;> cases hT
      · cases path <;> cases hT
      · trivial
    cases path with
    | nil =>
      obtain rfl := Option.some.inj hat
      exact h.read hR hc
    | cons b path =>
      cases b with
      | false => exact ihl h.2.2.1 (h.room (Or.inl (hborn hat)) hR).1 hat
      | true => exact ihr h.2.2.2 (h.room (Or.inr (hborn hat)) hR).2 hat

/-- **No deadlock.** While a process of a subtree has a call to make, one of them can make it. -/
theorem Fits.progress (h : Fits t T) (hb : T.Born) (hR : Room t T e)
    (hcap : e.pipe.length + T.tokens.card ≤ capacity) (hne : T.exited = false) :
    ∃ path right T' e', T.step right path e = some (T', e') := by
  induction T generalizing t with
  | unborn | reaped => exact hb.elim
  | proc p l r ihl ihr =>
    have hcar := h.carry
    have hn := next_of_suffix h.1.2.2
    have hk := h.2.1
    cases hc : p.code with
    | nil => simp [Tree.exited, hc] at hne
    | cons i is =>
      rw [hc] at hn hk
      -- the process itself can make its call
      have hself : (p.exec l r e false).isSome ∨ (p.exec l r e true).isSome →
          ∃ path right T' e', (Tree.proc p l r).step right path e = some (T', e') := by
        rintro (hx | hx) <;> obtain ⟨⟨T', e'⟩, hx⟩ := Option.isSome_iff_exists.mp hx
        · exact ⟨[], false, T', e', hx⟩
        · exact ⟨[], true, T', e', hx⟩
      cases i with
      | read n =>
        have hpipe := h.read hR hc
        have hpos : 0 < n := by
          obtain ⟨rfl, -⟩ := hn
          cases t <;> decide
        have hne : e.pipe ≠ [] := List.ne_nil_of_length_pos (by omega)
        exact hself (Or.inl (by simp [Process.exec, hc, hne]))
      | write n =>
        have htok : n ≤ (Tree.proc p l r).tokens.card := by
          obtain ⟨rfl, -⟩ := hn
          have := size_le t
          have hlen := h.1.2.1
          simp [Tree.tokens, hc, Hw5.carry]
          omega
        exact hself (Or.inl (by simp [Process.exec, hc]; omega))
      | qsort | fprintf => exact hself (Or.inl (by simp [Process.exec, hc]))
      | fork =>
        obtain ⟨ht, -, hw, hf⟩ := hn
        have hcount : (Instr.fork :: is).count .fork = is.count .fork + 1 := List.count_cons_self
        have hcount' : (Instr.fork :: is).count .wait = 2 := hw
        simp only [Kids, if_neg ht, Stage, hcount, hcount'] at hk
        refine hself (Or.inl ?_)
        rcases Nat.le_one_iff_eq_zero_or_eq_one.mp hf with hf | hf
        · rw [hf] at hk
          obtain ⟨hl, rfl⟩ := hk
          cases l with
          | proc q ll lr => simp [Process.exec, hc]
          | _ => exact hl.elim
        · rw [hf] at hk
          obtain ⟨rfl, rfl⟩ := hk
          simp [Process.exec, hc]
      | wait =>
        obtain ⟨ht, -, hw, hf⟩ := hn
        have hborn : l.Born ∨ r.Born := by
          have hcount : (Instr.wait :: is).count .wait = is.count .wait + 1 := List.count_cons_self
          have hcount' : (Instr.wait :: is).count .fork = 0 := hf
          simp only [Kids, if_neg ht, Stage, hcount, hcount'] at hk
          rcases Nat.le_one_iff_eq_zero_or_eq_one.mp hw with hw | hw
          · rw [hw] at hk
            exact hk.elim (fun h => Or.inr h.2) fun h => Or.inl h.1
          · rw [hw] at hk
            exact Or.inl hk.1
        obtain ⟨hRl, hRr⟩ := h.room hborn hR
        have htok : (Tree.proc p l r).tokens.card = l.tokens.card + r.tokens.card := by
          simp [Tree.tokens, hc, Hw5.carry]
        -- a child that has not returned can go on, one that has can be waited for
        rcases hborn with hb | hb
        · cases hx : l.exited with
          | true => exact hself (Or.inl (by simp [Process.exec, hc, hx]))
          | false =>
            obtain ⟨path, right, T', e', hs⟩ := ihl h.2.2.1 hb hRl (by omega) hx
            exact ⟨false :: path, right, _, _, by rw [Tree.step, hs]; rfl⟩
        · cases hx : r.exited with
          | true => exact hself (Or.inr (by simp [Process.exec, hc, hx]))
          | false =>
            obtain ⟨path, right, T', e', hs⟩ := ihr h.2.2.2 hb hRr (by omega) hx
            exact ⟨true :: path, right, _, _, by rw [Tree.step, hs]; rfl⟩

/-! ### The main result -/

/-- The parent has returned from `main`, and no other process is left. -/
def Tree.Finished (T : Tree) : Prop := T.exited = true ∧ ∃ p, T = .proc p .reaped .reaped

/-- What holds in every state of every run. -/
structure Sound (num : Vector CInt 800) (σ : State) : Prop where
  fits : Fits .parent σ.tree
  born : σ.tree.Born
  total : total σ.tree σ.env = num.toList
  out : σ.env.out.isSome = σ.tree.exited
  length : ∀ l, σ.env.out = some l → l.length = 800

namespace Sound

theorem card (h : Sound num σ) :
    σ.env.pipe.length + (σ.tree.tokens.card + (σ.env.out.getD []).length) = 800 := by
  have := congrArg Multiset.card h.total
  simpa [Hw5.total] using this

theorem room (h : Sound num σ) (ho : σ.env.out = none) : Room .parent σ.tree σ.env := by
  have := h.card
  rw [ho] at this
  exact this.ge

/-- When the parent has returned, nothing can happen any more. -/
theorem stopped (h : Sound num σ) (he : σ.tree.exited = true) :
    σ.tree.Finished ∧ ∀ a, (q2 num).step σ a = .error () := by
  obtain ⟨p, l, r, hT⟩ : ∃ p l r, σ.tree = .proc p l r := by
    cases hT : σ.tree with
    | proc p l r => exact ⟨p, l, r, rfl⟩
    | _ =>
      have := h.born
      rw [hT] at this
      exact this.elim
  have hf := h.fits
  rw [hT] at hf he
  have hc : p.code = [] := List.isEmpty_iff.mp he
  obtain ⟨rfl, rfl⟩ : l = .reaped ∧ r = .reaped := by
    have := hf.2.1
    rw [hc] at this
    exact this
  refine ⟨⟨by rw [hT]; exact he, p, hT⟩, fun a => ?_⟩
  have hstep : σ.tree.step a.right a.path σ.env = none := by
    rw [hT]
    rcases a.path with _ | ⟨_ | _, _ | _⟩ <;> simp [Tree.step, Process.exec, hc]
  simp only [q2, hstep]

theorem step (h : Sound num σ) (hs : (q2 num).step σ a = .ok σ') :
    Sound num σ' ∧ σ'.tree.work < σ.tree.work := by
  have ho : σ.env.out = none := by
    cases he : σ.tree.exited with
    | false => exact Option.isNone_iff_eq_none.mp (by simpa [he] using h.out)
    | true =>
      rw [(h.stopped he).2 a] at hs
      cases hs
  cases hst : σ.tree.step a.right a.path σ.env with
  | none =>
    simp only [q2, hst] at hs
    cases hs
  | some x =>
    simp only [q2, hst] at hs
    obtain rfl := Except.ok.inj hs
    have hG := h.fits.step (h.room ho) ho hst
    rcases hG.out with ⟨h1, h2⟩ | ⟨-, h1, l, h2, hlen⟩
    · refine ⟨⟨hG.fits, hG.born, hG.total.trans h.total, ?_, fun l hl => ?_⟩, hG.work⟩
      · rw [h1, h2 rfl]
        rfl
      · rw [h1] at hl
        cases hl
    · refine ⟨⟨hG.fits, hG.born, hG.total.trans h.total, ?_, fun l' hl => ?_⟩, hG.work⟩
      · rw [h1, h2]
        rfl
      · obtain rfl := Option.some.inj (h2.symm.trans hl)
        exact hlen

end Sound

theorem sound_init (h : (q2 num).init σ) : Sound num σ := by
  obtain rfl := h
  refine ⟨⟨⟨rfl, num.length_toList, List.suffix_rfl⟩, ⟨rfl, rfl⟩, trivial, trivial⟩, trivial, ?_,
    rfl, fun l hl => by cases hl⟩
  have htake : num.toList.take 800 = num.toList := List.take_of_length_le (by simp)
  simp only [total, Tree.tokens, carry, Tier.code, htake]
  simp

theorem Reach.sound (h : (q2 num).Reachable σ) : Sound num σ ∧ σ.tree.work ≤ 86 :=
  h.invariant (I := fun σ => Sound num σ ∧ σ.tree.work ≤ 86)
    (fun σ h0 => ⟨sound_init h0, by obtain rfl := h0; exact Nat.le_refl 86⟩)
    fun σ a σ' hI _ hs => by
      have := hI.1.step hs
      exact ⟨this.1, by omega⟩

/-- **Tokens are conserved.** In every reachable state the pipe contains what the next `read` of
any process asks for; no run makes more than 86 calls, and one in which no call is possible has come
to its end, with every child waited for and `out.dat` written.  What is written to `out.dat` is a
permutation of the input. -/
theorem token_conservation (h : (q2 num).Reachable σ) :
    (∀ path p n is, σ.tree.at path = some p → p.code = .read n :: is → n ≤ σ.env.pipe.length) ∧
    (∀ as, (q2 num).Runs σ as → as.length ≤ 86) ∧
    ((∀ a, (q2 num).step σ a = .error ()) → σ.tree.Finished ∧ ∃ l, σ.env.out = some l) ∧
    ∀ l, σ.env.out = some l → l.Perm num.toList := by
  obtain ⟨hS, hwork⟩ := Reach.sound h
  refine ⟨fun path p n is hat hc => ?_, fun as hrun => ?_, fun hstop => ?_, fun l hl => ?_⟩
  · cases he : σ.tree.exited with
    | false =>
      have ho : σ.env.out = none := Option.isNone_iff_eq_none.mp (by simpa [he] using hS.out)
      exact hS.fits.reads (hS.room ho) hat hc
    | true =>
      obtain ⟨hex, q, hT⟩ := (hS.stopped he).1
      rw [hT] at hat hex
      have hq : q.code = [] := List.isEmpty_iff.mp hex
      rcases path with _ | ⟨_ | _, _ | _⟩
      · obtain rfl := Option.some.inj hat
        rw [hq] at hc
        cases hc
      all_goals cases hat
  · have hlen := hrun.length_le (I := Sound num) (fun σ => σ.tree.work)
      (fun σ a σ' hS hs => hS.step hs) hS
    omega
  · cases he : σ.tree.exited with
    | true =>
      have hout := hS.out
      rw [he] at hout
      exact ⟨(hS.stopped he).1, Option.isSome_iff_exists.mp hout⟩
    | false =>
      -- a process could go on
      have ho : σ.env.out = none := Option.isNone_iff_eq_none.mp (by simpa [he] using hS.out)
      have hcard := hS.card
      rw [ho] at hcard
      obtain ⟨path, right, T', e', hs⟩ :=
        hS.fits.progress hS.born (hS.room ho) (by unfold capacity; simp at hcard; omega) he
      have hno := hstop ⟨path, right⟩
      simp only [q2, hs] at hno
      cases hno
  · have he : σ.tree.exited = true := by
      rw [← hS.out, hl]
      rfl
    have htok := hS.fits.exited he
    have htotal := hS.total
    have hcard := hS.card
    rw [hl, htok, Option.getD_some, hS.length l hl, Multiset.card_zero] at hcard
    have hpipe : σ.env.pipe = [] := List.length_eq_zero_iff.mp (by omega)
    rw [total, hl, htok, hpipe, Option.getD_some, Multiset.coe_nil, zero_add, zero_add] at htotal
    exact Multiset.coe_eq_coe.mp htotal

/-- The parent has written, and its first child reads and writes 400 numbers. -/
theorem token_conservation_first : ∃ σ, (q2 (Vector.replicate 800 5)).Reachable σ ∧
    σ.env.pipe.length = 800 ∧
    ∀ as, (q2 (Vector.replicate 800 5)).Runs σ as → as.length ≤ 86 := by
  let as : List Action := [⟨[], false⟩, ⟨[], false⟩, ⟨[false], false⟩, ⟨[false], false⟩]
  have hrun : (q2 (Vector.replicate 800 5)).Ends (fun σ => σ.env.pipe.length = 800)
      ⟨.proc ⟨.parent, (Vector.replicate 800 5).toList, Tier.parent.code⟩ .unborn .unborn,
        ⟨[], none⟩⟩ as := by
    decide +kernel
  obtain ⟨σ, hσ, hlen⟩ := System.Reachable.of_ends as rfl hrun
  exact ⟨σ, hσ, hlen, (token_conservation hσ).2.1⟩

end OsSemester.Hw5
