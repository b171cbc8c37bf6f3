import Mathlib

/-!
# Programs over a shared memory

A `Prog` reads and writes single cells of a memory and ends with a result.  `Prog.run` takes it to
its end at once; `Prog.step` makes one access, which is what happens between two steps of other
programs over the same memory.

* `Prog.Within S Q`: whatever the program reads, it only accesses cells of `S` and its result
  satisfies `Q`.
* `Prog.Within.step_frame`, `Prog.Within.run_congr`: what a program does depends on its own cells
  only and concerns only them.  So two programs without a common cell do not notice each other: the
  step of one changes neither what the other will do nor, `Prog.run_step`, what it will do itself.
* `Prog.depth` decreases with every step: no program runs for ever.
-/

namespace OsSemester

/-- A program over a memory with cells `α` that hold values `β`, with results in `ρ`. -/
inductive Prog (α β ρ : Type)
  | ret (r : ρ)
  | load (a : α) (k : β → Prog α β ρ)
  | store (a : α) (v : β) (k : Prog α β ρ)

namespace Prog

variable {α β ρ τ : Type}

/-- The one program, and then the other. -/
def bind : Prog α β ρ → (ρ → Prog α β τ) → Prog α β τ
  | ret r, f => f r
  | load a k, f => load a fun v => (k v).bind f
  | store a v k, f => store a v (k.bind f)

instance : Monad (Prog α β) where
  pure := ret
  bind := bind

/-- The value of a cell. -/
def get (a : α) : Prog α β β := load a ret

/-- A new value for a cell. -/
def set (a : α) (v : β) : Prog α β Unit := store a v (ret ())

@[simp] theorem ret_bind (r : ρ) (f : ρ → Prog α β τ) : (ret r : Prog α β ρ) >>= f = f r := rfl

@[simp] theorem pure_bind' (r : ρ) (f : ρ → Prog α β τ) : (pure r : Prog α β ρ) >>= f = f r := rfl

@[simp] theorem load_bind (a : α) (k : β → Prog α β ρ) (f : ρ → Prog α β τ) :
    load a k >>= f = load a fun v => k v >>= f := rfl

@[simp] theorem store_bind (a : α) (v : β) (k : Prog α β ρ) (f : ρ → Prog α β τ) :
    store a v k >>= f = store a v (k >>= f) := rfl

@[simp] theorem get_bind (a : α) (f : β → Prog α β τ) : get a >>= f = load a f := rfl

@[simp] theorem set_bind (a : α) (v : β) (f : Unit → Prog α β τ) :
    set a v >>= f = store a v (f ()) := rfl

theorem bind_bind {σ : Type} (p : Prog α β ρ) (f : ρ → Prog α β τ) (g : τ → Prog α β σ) :
    p >>= f >>= g = p >>= fun r => f r >>= g := by
  induction p with
  | ret r => rfl
  | load a k ih => exact congrArg (load a) (funext ih)
  | store a v k ih => exact congrArg (store a v) ih

/-! ### The cells of a program -/

/-- Whatever the program reads, it only accesses cells of `S` and its result satisfies `Q`. -/
def Within (S : Set α) (Q : ρ → Prop) : Prog α β ρ → Prop
  | ret r => Q r
  | load a k => a ∈ S ∧ ∀ v, (k v).Within S Q
  | store a _ k => a ∈ S ∧ k.Within S Q

/-- The cell of the next step. -/
def next : Prog α β ρ → Option α
  | ret _ => none
  | load a _ => some a
  | store a _ _ => some a

namespace Within

variable {S T : Set α} {Q R : ρ → Prop} {p : Prog α β ρ}

theorem bind {Q' : τ → Prop} (hp : p.Within S Q) {f : ρ → Prog α β τ}
    (hf : ∀ r, Q r → (f r).Within S Q') : (p >>= f).Within S Q' := by
  induction p with
  | ret r => exact hf r hp
  | load a k ih => exact ⟨hp.1, fun v => ih v (hp.2 v)⟩
  | store a v k ih => exact ⟨hp.1, ih hp.2⟩

theorem mono (hp : p.Within S Q) (h : S ⊆ T) (hQ : ∀ r, Q r → R r) : p.Within T R := by
  induction p with
  | ret r => exact hQ r hp
  | load a k ih => exact ⟨h hp.1, fun v => ih v (hp.2 v)⟩
  | store a v k ih => exact ⟨h hp.1, ih hp.2⟩

theorem next (hp : p.Within S Q) {a : α} (h : p.next = some a) : a ∈ S := by
  cases p with
  | ret r => cases h
  | load b k => exact Option.some.inj h ▸ hp.1
  | store b v k => exact Option.some.inj h ▸ hp.1

end Within

/-! ### Running -/

variable [DecidableEq α]

/-- The result of the program and the memory it leaves. -/
def run : Prog α β ρ → (α → β) → ρ × (α → β)
  | ret r, m => (r, m)
  | load a k, m => (k (m a)).run m
  | store a v k, m => k.run (Function.update m a v)

/-- One access. -/
def step : Prog α β ρ → (α → β) → Option (Prog α β ρ × (α → β))
  | ret _, _ => none
  | load a k, m => some (k (m a), m)
  | store a v k, m => some (k, Function.update m a v)

@[simp] theorem run_pure (r : ρ) (m : α → β) : (pure r : Prog α β ρ).run m = (r, m) := rfl

@[simp] theorem run_ret (r : ρ) (m : α → β) : (ret r : Prog α β ρ).run m = (r, m) := rfl

@[simp] theorem run_load (a : α) (k : β → Prog α β ρ) (m : α → β) :
    (load a k).run m = (k (m a)).run m := rfl

@[simp] theorem run_store (a : α) (v : β) (k : Prog α β ρ) (m : α → β) :
    (store a v k).run m = k.run (Function.update m a v) := rfl

theorem run_bind (p : Prog α β ρ) (f : ρ → Prog α β τ) (m : α → β) :
    (p >>= f).run m = (f (p.run m).1).run (p.run m).2 := by
  induction p generalizing m with
  | ret r => rfl
  | load a k ih => exact ih (m a) m
  | store a v k ih => exact ih (Function.update m a v)

variable {S : Set α} {Q : ρ → Prop} {p p' : Prog α β ρ} {m m' : α → β}

/-- A step brings the program closer to the end it would come to. -/
theorem run_step (h : p.step m = some (p', m')) : p'.run m' = p.run m := by
  cases p with
  | ret r => cases h
  | load a k =>
    obtain ⟨rfl, rfl⟩ := Prod.mk.inj (Option.some.inj h)
    rfl
  | store a v k =>
    obtain ⟨rfl, rfl⟩ := Prod.mk.inj (Option.some.inj h)
    rfl

theorem step_eq_none (h : p.step m = none) : ∃ r, p = ret r := by
  cases p with
  | ret r => exact ⟨r, rfl⟩
  | load a k => cases h
  | store a v k => cases h

namespace Within

theorem step (hp : p.Within S Q) (h : p.step m = some (p', m')) : p'.Within S Q := by
  cases p with
  | ret r => cases h
  | load a k =>
    obtain ⟨rfl, rfl⟩ := Prod.mk.inj (Option.some.inj h)
    exact hp.2 (m a)
  | store a v k =>
    obtain ⟨rfl, rfl⟩ := Prod.mk.inj (Option.some.inj h)
    exact hp.2

/-- A step leaves the cells of others alone. -/
theorem step_frame (hp : p.Within S Q) (h : p.step m = some (p', m')) {a : α} (ha : a ∉ S) :
    m' a = m a := by
  cases p with
  | ret r => cases h
  | load b k =>
    obtain ⟨rfl, rfl⟩ := Prod.mk.inj (Option.some.inj h)
    rfl
  | store b v k =>
    obtain ⟨rfl, rfl⟩ := Prod.mk.inj (Option.some.inj h)
    have hne : a ≠ b := by
      rintro rfl
      exact ha hp.1
    exact Function.update_of_ne hne v m

/-- The whole program leaves the cells of others alone. -/
theorem run_frame (hp : p.Within S Q) (m : α → β) {a : α} (ha : a ∉ S) : (p.run m).2 a = m a := by
  induction p generalizing m with
  | ret r => rfl
  | load b k ih => exact ih (m b) (hp.2 _) m
  | store b v k ih =>
    have hne : a ≠ b := by
      rintro rfl
      exact ha hp.1
    exact (ih hp.2 _).trans (Function.update_of_ne hne v m)

/-- What the program does depends on its own cells only. -/
theorem run_congr (hp : p.Within S Q) (h : ∀ a ∈ S, m a = m' a) :
    (p.run m).1 = (p.run m').1 ∧ ∀ a ∈ S, (p.run m).2 a = (p.run m').2 a := by
  induction p generalizing m m' with
  | ret r => exact ⟨rfl, h⟩
  | load a k ih =>
    simp only [run_load, ← h a hp.1]
    exact ih (m a) (hp.2 _) h
  | store a v k ih =>
    refine ih hp.2 fun b hb => ?_
    by_cases hba : b = a
    · subst hba
      simp
    · simp [Function.update_of_ne hba, h b hb]

end Within

/-! ### Termination -/

/-- A bound on the number of steps. -/
def depth [Fintype β] : Prog α β ρ → ℕ
  | ret _ => 0
  | load _ k => (Finset.univ.sup fun v => (k v).depth) + 1
  | store _ _ k => k.depth + 1

theorem depth_step [Fintype β] (h : p.step m = some (p', m')) : p'.depth < p.depth := by
  cases p with
  | ret r => cases h
  | load a k =>
    obtain ⟨rfl, rfl⟩ := Prod.mk.inj (Option.some.inj h)
    exact Nat.lt_succ_of_le (Finset.le_sup (f := fun v => (k v).depth) (Finset.mem_univ (m a)))
  | store a v k =>
    obtain ⟨rfl, rfl⟩ := Prod.mk.inj (Option.some.inj h)
    exact Nat.lt_succ_self _

end Prog

end OsSemester
