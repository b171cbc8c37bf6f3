import Mathlib

/-!
# Calls, what they return, and when one of them stops

A component is used through calls: each returns something and leaves a state, or it stops the component.
Two components with the same calls are compared by what a whole list of calls returns.
-/

namespace OsSemester

theorem bind_ok {α β ε : Type*} {x : Except ε α} {f : α → Except ε β} {b : β} (h : x.bind f = .ok b) :
    ∃ a, x = .ok a ∧ f a = .ok b := by
  cases x with
  | error e => cases h
  | ok a => exact ⟨a, rfl, h⟩

theorem map_ok {α β ε : Type*} {x : Except ε α} {f : α → β} {b : β} (h : x.map f = .ok b) :
    ∃ a, x = .ok a ∧ f a = b := by
  cases x with
  | error e => cases h
  | ok a => exact ⟨a, rfl, Except.ok.inj h⟩

/-- The results of calls one after the other, and the state or the error at the end. -/
def runCalls {σ α ρ ε : Type*} (step : σ → α → Except ε (ρ × σ)) (s : σ) : List α → List ρ × Except ε σ
  | [] => ([], .ok s)
  | a :: as =>
    match step s a with
    | .error e => ([], .error e)
    | .ok (r, s') => (r :: (runCalls step s' as).1, (runCalls step s' as).2)

/-- Two calls return the same and leave states that are related, or both stop. -/
inductive Agree {σ τ ρ ε ε' : Type*} (R : σ → τ → Prop) (msg : ε → ε') :
    Except ε (ρ × σ) → Except ε' (ρ × τ) → Prop
  | ok {r : ρ} {s : σ} {t : τ} (h : R s t) : Agree R msg (.ok (r, s)) (.ok (r, t))
  | error (e : ε) : Agree R msg (.error e) (.error (msg e))

/-- One component does what another one does: states that are related return the same, and stay related
or stop together. -/
structure Refines {σ τ α ρ ε ε' : Type*} (step : σ → α → Except ε (ρ × σ))
    (step' : τ → α → Except ε' (ρ × τ)) (R : σ → τ → Prop) (msg : ε → ε') : Prop where
  ok : ∀ {s t a r s'}, R s t → step s a = .ok (r, s') → ∃ t', step' t a = .ok (r, t') ∧ R s' t'
  error : ∀ {s t a e}, R s t → step s a = .error e → step' t a = .error (msg e)

namespace Refines

variable {σ τ α ρ ε ε' : Type*} {step : σ → α → Except ε (ρ × σ)} {step' : τ → α → Except ε' (ρ × τ)}
  {R : σ → τ → Prop} {msg : ε → ε'} {s s' : σ} {t : τ} {e : ε}

theorem of_agree (h : ∀ s t, R s t → ∀ a, Agree R msg (step s a) (step' t a)) :
    Refines step step' R msg where
  ok {s t a r s'} hR hs := by
    have hagree := h s t hR a
    rw [hs] at hagree
    generalize step' t a = y at hagree ⊢
    cases hagree with
    | ok hR' => exact ⟨_, rfl, hR'⟩
  error {s t a e} hR hs := by
    have hagree := h s t hR a
    rw [hs] at hagree
    generalize step' t a = y at hagree ⊢
    cases hagree with
    | error => rfl

theorem agree (h : Refines step step' R msg) (hR : R s t) (a : α) : Agree R msg (step s a) (step' t a) := by
  cases hs : step s a with
  | error e =>
    rw [h.error hR hs]
    exact Agree.error e
  | ok x =>
    obtain ⟨t', ht, hR'⟩ := h.ok hR hs
    rw [ht]
    exact Agree.ok hR'

/-- What each call keeps can be added to the relation. -/
theorem and_keeps (h : Refines step step' R msg) {I : σ → Prop}
    (hI : ∀ {s a r s'}, I s → step s a = .ok (r, s') → I s') :
    Refines step step' (fun s t => R s t ∧ I s) msg where
  ok hR hs := by
    obtain ⟨t', ht, hR'⟩ := h.ok hR.1 hs
    exact ⟨t', ht, hR', hI hR.2 hs⟩
  error hR hs := h.error hR.1 hs

/-- **The refinement rule**: what holds of one call holds of lists of calls. -/
theorem results (h : Refines step step' R msg) (hR : R s t) (as : List α) :
    (runCalls step s as).1 = (runCalls step' t as).1 := by
  induction as generalizing s t with
  | nil => rfl
  | cons a as ih =>
    cases hs : step s a with
    | error e => rw [runCalls, hs, runCalls, h.error hR hs]
    | ok x =>
      obtain ⟨t', ht, hR'⟩ := h.ok hR hs
      rw [runCalls, hs, runCalls, ht]
      exact congrArg (x.1 :: ·) (ih hR')

theorem run_ok (h : Refines step step' R msg) (hR : R s t) (as : List α)
    (hrun : (runCalls step s as).2 = .ok s') : ∃ t', (runCalls step' t as).2 = .ok t' ∧ R s' t' := by
  induction as generalizing s t with
  | nil =>
    obtain rfl := Except.ok.inj hrun
    exact ⟨t, rfl, hR⟩
  | cons a as ih =>
    cases hs : step s a with
    | error e =>
      rw [runCalls, hs] at hrun
      cases hrun
    | ok x =>
      obtain ⟨t', ht, hR'⟩ := h.ok hR hs
      rw [runCalls, hs] at hrun
      rw [runCalls, ht]
      exact ih hR' hrun

theorem run_error (h : Refines step step' R msg) (hR : R s t) (as : List α)
    (hrun : (runCalls step s as).2 = .error e) : (runCalls step' t as).2 = .error (msg e) := by
  induction as generalizing s t with
  | nil => cases hrun
  | cons a as ih =>
    cases hs : step s a with
    | error e' =>
      rw [runCalls, hs] at hrun
      rw [runCalls, h.error hR hs]
      exact congrArg (fun e => Except.error (msg e)) (Except.error.inj hrun)
    | ok x =>
      obtain ⟨t', ht, hR'⟩ := h.ok hR hs
      rw [runCalls, hs] at hrun
      rw [runCalls, ht]
      exact ih hR' hrun

end Refines

end OsSemester
