import OsSemester.Lib.Calls

/-!
# Programs that make calls

A program over a component makes one call after the other, chosen by what the calls before have returned,
and returns a value or stops with an error of its own.  It cannot tell a component from one that it refines.
-/

namespace OsSemester

universe u

/-- A program with calls `α`, which return a `ρ`; it stops with an `ε` or returns a `β`. -/
inductive Client (α ρ ε β : Type u) : Type u
  | ret (b : β)
  | stop (e : ε)
  | call (a : α) (k : ρ → Client α ρ ε β)

namespace Client

variable {α ρ ε ε' β γ σ τ : Type u}

def bind : Client α ρ ε β → (β → Client α ρ ε γ) → Client α ρ ε γ
  | ret b, f => f b
  | stop e, _ => stop e
  | call a k, f => call a fun r => (k r).bind f

instance : Monad (Client α ρ ε) where
  pure := ret
  bind := bind

/-- What the program does on a component, whose errors become errors of the program. -/
def run (step : σ → α → Except ε' (ρ × σ)) (msg : ε' → ε) : Client α ρ ε β → σ → Except ε (β × σ)
  | ret b, s => .ok (b, s)
  | stop e, _ => .error e
  | call a k, s =>
    match step s a with
    | .error e => .error (msg e)
    | .ok (r, s') => (k r).run step msg s'

section

variable {step : σ → α → Except ε' (ρ × σ)} {msg : ε' → ε} {s s' : σ}

@[simp]
theorem run_pure (b : β) : (pure b : Client α ρ ε β).run step msg s = .ok (b, s) := rfl

@[simp]
theorem run_stop (e : ε) : (stop e : Client α ρ ε β).run step msg s = .error e := rfl

theorem run_call_ok {a : α} {r : ρ} (h : step s a = .ok (r, s')) (k : ρ → Client α ρ ε β) :
    (call a k).run step msg s = (k r).run step msg s' := by
  rw [run, h]

theorem run_bind (c : Client α ρ ε β) (f : β → Client α ρ ε γ) :
    (c >>= f).run step msg s = (c.run step msg s).bind fun x => (f x.1).run step msg x.2 := by
  show (c.bind f).run step msg s = _
  induction c generalizing s with
  | ret b => rfl
  | stop e => rfl
  | call a k ih =>
    show run step msg (call a fun r => (k r).bind f) s = _
    rw [run, run]
    cases step s a with
    | error e => rfl
    | ok x => exact ih x.1

/-- A program goes on with what its first part has returned. -/
theorem run_bind_ok {c : Client α ρ ε β} {b : β} (h : c.run step msg s = .ok (b, s'))
    (f : β → Client α ρ ε γ) : (c >>= f).run step msg s = (f b).run step msg s' := by
  rw [run_bind, h]
  rfl

end

/-- **Programs do the same** on a component and on one that it refines. -/
theorem run_refines {step : σ → α → Except ε' (ρ × σ)} {step' : τ → α → Except ε (ρ × τ)} {R : σ → τ → Prop}
    {msg : ε' → ε} (h : Refines step step' R msg) (view : σ → τ) (hview : ∀ s t, R s t → view s = t)
    {s : σ} {t : τ} (hR : R s t) (c : Client α ρ ε β) :
    (c.run step msg s).map (Prod.map id view) = c.run step' id t ∧
      ∀ b s', c.run step msg s = .ok (b, s') → R s' (view s') := by
  induction c generalizing s t with
  | ret b =>
    refine ⟨congrArg (fun t => Except.ok (b, t)) (hview s t hR), fun b' s' hrun => ?_⟩
    cases hrun
    rw [hview s t hR]
    exact hR
  | stop e =>
    refine ⟨rfl, fun b s' hrun => ?_⟩
    cases hrun
  | call a k ih =>
    rw [run, run]
    cases hs : step s a with
    | error e =>
      rw [h.error hR hs]
      refine ⟨rfl, fun b s' hrun => ?_⟩
      cases hrun
    | ok x =>
      obtain ⟨t', ht, hR'⟩ := h.ok hR hs
      rw [ht]
      exact ih x.1 hR'

end Client

end OsSemester
