import Mathlib

/-!
# Labelled transition systems with a guard

A `System` has a set of initial states and a deterministic partial step: all nondeterminism is in
the label, and a step that cannot be taken, or that stops the machine, is an error.

* `System.Reach ok s`: some run reaches `s` whose steps all satisfy the guard `ok`, a condition on
  the state before the step and on the label.  `System.Reachable` is the unguarded notion.
* `System.Reach.invariant`: what holds initially and is kept by every guarded step holds of every
  state such a run reaches.
* `System.recorded`: the system with a list of what its steps have done, for properties that speak
  about the past of a run.
* `System.Always`: a predicate holds of every state along one run.  `System.obeys_iff_always` turns
  "the guard keeps the invariant, and a step that breaks the guard breaks the property" into an
  equivalence about whole runs: the guard is then exactly the condition for the property.
-/

namespace OsSemester

/-- A deterministic labelled system: states `σ`, labels `α`, reasons `ε` for having no next
state. -/
structure System (ε σ α : Type*) where
  /-- The states a run may start in. -/
  init : σ → Prop
  /-- The state after the step with the given label, if there is one. -/
  step : σ → α → Except ε σ

namespace System

variable {ε σ α : Type*} (S : System ε σ α)

/-- The states reached by runs whose steps all satisfy `ok`. -/
inductive Reach (ok : σ → α → Prop) : σ → Prop
  | init {s : σ} : S.init s → Reach ok s
  | step {s s' : σ} {a : α} : Reach ok s → ok s a → S.step s a = .ok s' → Reach ok s'

/-- The states reached by any run. -/
def Reachable : σ → Prop := S.Reach fun _ _ => True

/-- The state a list of labels leads to. -/
def run (s : σ) : List α → Except ε σ
  | [] => .ok s
  | a :: as =>
    match S.step s a with
    | .ok s' => run s' as
    | .error e => .error e

/-- Every step of the run with labels `as` from `s` satisfies `ok`. -/
def Obeys (ok : σ → α → Prop) : σ → List α → Prop
  | _, [] => True
  | s, a :: as => ok s a ∧ ∀ s', S.step s a = .ok s' → Obeys ok s' as

/-- Every state along the run with labels `as` from `s` satisfies `P`. -/
def Always (P : σ → Prop) : σ → List α → Prop
  | s, [] => P s
  | s, a :: as => P s ∧ ∀ s', S.step s a = .ok s' → Always P s' as

variable {S} {ok ok' : σ → α → Prop} {P I : σ → Prop}

namespace Reach

theorem mono (h : ∀ s a, ok s a → ok' s a) {s : σ} (hs : S.Reach ok s) : S.Reach ok' s := by
  induction hs with
  | init h0 => exact .init h0
  | step _ ha hst ih => exact .step ih (h _ _ ha) hst

/-- **The invariant rule.** -/
theorem invariant (h0 : ∀ s, S.init s → I s)
    (hstep : ∀ s a s', I s → ok s a → S.step s a = .ok s' → I s') {s : σ} (hs : S.Reach ok s) :
    I s := by
  induction hs with
  | init h => exact h0 _ h
  | step _ ha hst ih => exact hstep _ _ _ ih ha hst

/-- The invariant rule, with the reachability of the state before the step at hand: earlier
invariants may be used in the step case. -/
theorem invariant_of_reach (h0 : ∀ s, S.init s → I s)
    (hstep : ∀ s a s', S.Reach ok s → I s → ok s a → S.step s a = .ok s' → I s') {s : σ}
    (hs : S.Reach ok s) : I s := by
  induction hs with
  | init h => exact h0 _ h
  | step hr ha hst ih => exact hstep _ _ _ hr ih ha hst

theorem of_run {s s' : σ} (as : List α) (hs : S.Reach ok s) (hobey : S.Obeys ok s as)
    (h : S.run s as = .ok s') : S.Reach ok s' := by
  induction as generalizing s with
  | nil =>
    obtain rfl := Except.ok.inj h
    exact hs
  | cons a as ih =>
    unfold run at h
    split at h
    · rename_i t ht
      exact ih (.step hs hobey.1 ht) (hobey.2 t ht) h
    · cases h

end Reach

/-- Labels that satisfy the guard in every state. -/
theorem obeys_of_forall (s : σ) (as : List α) (h : ∀ a ∈ as, ∀ s, ok s a) : S.Obeys ok s as := by
  induction as generalizing s with
  | nil => trivial
  | cons a as ih =>
    obtain ⟨ha, has⟩ := List.forall_mem_cons.1 h
    exact ⟨ha s, fun s' _ => ih s' has⟩

theorem obeys_true (s : σ) (as : List α) : S.Obeys (fun _ _ => True) s as :=
  obeys_of_forall s as fun _ _ _ => trivial

/-- The run with labels `as` from `s` takes every step and ends with `P`. -/
@[irreducible] def Ends (S : System ε σ α) (P : σ → Prop) (s : σ) (as : List α) : Prop :=
  match S.run s as with
  | .ok s' => P s'
  | .error _ => False

instance [DecidablePred P] (s : σ) (as : List α) : Decidable (S.Ends P s as) := by
  unfold Ends
  cases S.run s as <;> infer_instance

instance decidableObeys [∀ s a, Decidable (ok s a)] :
    ∀ (s : σ) (as : List α), Decidable (S.Obeys ok s as)
  | _, [] => .isTrue trivial
  | s, a :: as =>
    match hs : S.step s a with
    | .ok t =>
      have := decidableObeys t as
      decidable_of_iff (ok s a ∧ S.Obeys ok t as)
        ⟨fun h => ⟨h.1, fun _ hs' => Except.ok.inj (hs.symm.trans hs') ▸ h.2⟩,
          fun h => ⟨h.1, h.2 t hs⟩⟩
    | .error _ =>
      decidable_of_iff (ok s a) ⟨fun h => ⟨h, fun _ hs' => nomatch hs.symm.trans hs'⟩, And.left⟩

theorem Ends.run {s : σ} {as : List α} (h : S.Ends P s as) : ∃ s', S.run s as = .ok s' ∧ P s' := by
  unfold Ends at h
  split at h
  · rename_i s' hs'
    exact ⟨s', hs', h⟩
  · exact h.elim

theorem Reach.of_ends {s : σ} (as : List α) (h0 : S.init s) (hobey : S.Obeys ok s as)
    (h : S.Ends P s as) : ∃ s', S.Reach ok s' ∧ P s' := by
  obtain ⟨s', hs', hP⟩ := h.run
  exact ⟨s', Reach.of_run as (.init h0) hobey hs', hP⟩

theorem Reachable.of_ends {s : σ} (as : List α) (h0 : S.init s) (h : S.Ends P s as) :
    ∃ s', S.Reachable s' ∧ P s' :=
  Reach.of_ends as h0 (obeys_true s as) h

/-- A run that ends in some state: no step of it fails. -/
def Runs (S : System ε σ α) (s : σ) (as : List α) : Prop := ∃ s', S.run s as = .ok s'

theorem Ends.runs {s : σ} {as : List α} (h : S.Ends P s as) : S.Runs s as := by
  obtain ⟨s', hs', -⟩ := h.run
  exact ⟨s', hs'⟩

theorem Runs.cons {s : σ} {a : α} {as : List α} (h : S.Runs s (a :: as)) :
    ∃ t, S.step s a = .ok t ∧ S.Runs t as := by
  obtain ⟨s', h⟩ := h
  unfold run at h
  split at h
  · rename_i t ht
    exact ⟨t, ht, s', h⟩
  · cases h

/-- **The simulation rule.**  If another system can follow every single step, it can follow whole
runs, with the same labels. -/
theorem run_simulates {τ : Type*} {T : System ε τ α} {R : σ → τ → Prop}
    (hstep : ∀ s t a s', R s t → S.step s a = .ok s' → ∃ t', T.step t a = .ok t' ∧ R s' t')
    {s s' : σ} {t : τ} (h : R s t) (as : List α) (hrun : S.run s as = .ok s') :
    ∃ t', T.run t as = .ok t' ∧ R s' t' := by
  induction as generalizing s t with
  | nil =>
    obtain rfl := Except.ok.inj hrun
    exact ⟨t, rfl, h⟩
  | cons a as ih =>
    unfold run at hrun
    cases hs : S.step s a with
    | ok u =>
      rw [hs] at hrun
      obtain ⟨v, hv, huv⟩ := hstep s t a u h hs
      obtain ⟨t', ht', h'⟩ := ih huv hrun
      exact ⟨t', by rw [run, hv]; exact ht', h'⟩
    | error e =>
      rw [hs] at hrun
      cases hrun

/-- A measure that every step decreases bounds the runs. -/
theorem Runs.length_le (μ : σ → ℕ)
    (hμ : ∀ s a s', I s → S.step s a = .ok s' → I s' ∧ μ s' < μ s) {s : σ} (hs : I s)
    {as : List α} (h : S.Runs s as) : as.length ≤ μ s := by
  induction as generalizing s with
  | nil => exact Nat.zero_le _
  | cons a as ih =>
    obtain ⟨t, ht, hrt⟩ := h.cons
    obtain ⟨hI, h1⟩ := hμ s a t hs ht
    have h2 := ih hI hrt
    rw [List.length_cons]
    omega

section Recorded

variable {β : Type*} {f : σ → α → List β} {s : σ} {l : List β}

/-- The system with a record of what its steps have done, the latest first. -/
def recorded (S : System ε σ α) (f : σ → α → List β) : System ε (σ × List β) α where
  init x := S.init x.1 ∧ x.2 = []
  step x a :=
    match S.step x.1 a with
    | .error e => .error e
    | .ok s' => .ok (s', f x.1 a ++ x.2)

theorem recorded_step_ok {a : α} {y : σ × List β} (h : (S.recorded f).step (s, l) a = .ok y) :
    S.step s a = .ok y.1 ∧ y.2 = f s a ++ l := by
  unfold recorded at h
  dsimp only at h
  split at h
  · cases h
  · rename_i s' hs'
    obtain rfl := Except.ok.inj h
    exact ⟨hs', rfl⟩

/-- The record restricts no run. -/
theorem Reach.of_recorded (h : (S.recorded f).Reach (fun x => ok x.1) (s, l)) : S.Reach ok s := by
  have hall : ∀ x, (S.recorded f).Reach (fun x => ok x.1) x → S.Reach ok x.1 := by
    intro x hx
    refine hx.invariant (I := fun x => S.Reach ok x.1) ?_ ?_
    · rintro ⟨s, l⟩ ⟨hs, -⟩
      exact .init hs
    · rintro ⟨s, l⟩ a ⟨s', l'⟩ hr hok hst
      exact hr.step hok (recorded_step_ok hst).1
  exact hall (s, l) h

/-- **The invariant rule for a recorded system.**  The invariant may speak about the record. -/
theorem Reach.recorded (I : σ → List β → Prop) (h0 : ∀ s, S.init s → I s [])
    (hstep : ∀ s l a s', (S.recorded f).Reach (fun x => ok x.1) (s, l) → I s l → ok s a →
      S.step s a = .ok s' → I s' (f s a ++ l))
    (h : (S.recorded f).Reach (fun x => ok x.1) (s, l)) : I s l := by
  refine h.invariant_of_reach (I := fun x => I x.1 x.2) ?_ ?_
  · rintro ⟨s, l⟩ ⟨hs, rfl⟩
    exact h0 s hs
  · rintro ⟨s, l⟩ a ⟨s', l'⟩ hr hI hok hst
    obtain ⟨hst, rfl⟩ := recorded_step_ok hst
    exact hstep s l a s' hr hI hok hst

theorem Reachable.of_recorded (h : (S.recorded f).Reachable (s, l)) : S.Reachable s :=
  Reach.of_recorded h

theorem Reachable.recorded (I : σ → List β → Prop) (h0 : ∀ s, S.init s → I s [])
    (hstep : ∀ s l a s', S.Reachable s → I s l → S.step s a = .ok s' → I s' (f s a ++ l))
    (h : (S.recorded f).Reachable (s, l)) : I s l := by
  let ok : σ → α → Prop := fun _ _ => True
  have hreach : (S.recorded f).Reach (fun x => ok x.1) (s, l) := h
  refine Reach.recorded I h0 (fun s l a s' hr hI _ hst => ?_) hreach
  exact hstep s l a s' (Reach.of_recorded hr) hI hst

end Recorded

/-- **Exact guards.** If guarded steps keep an invariant that implies `P`, and a step that breaks
the guard in an invariant state leads to a state without `P`, then a run obeys the guard exactly
when `P` holds along it. -/
theorem obeys_iff_always (hI : ∀ s, I s → P s)
    (hkeep : ∀ s a s', I s → ok s a → S.step s a = .ok s' → I s')
    (hbreak : ∀ s a s', I s → ¬ ok s a → S.step s a = .ok s' → ¬ P s') {s : σ} (hs : I s)
    (as : List α) (hrun : S.Runs s as) : S.Obeys ok s as ↔ S.Always P s as := by
  induction as generalizing s with
  | nil => exact ⟨fun _ => hI s hs, fun _ => trivial⟩
  | cons a as ih =>
    obtain ⟨t, ht, hrt⟩ := hrun.cons
    have hsame : ∀ s', S.step s a = .ok s' → s' = t := fun s' h => by
      rw [ht] at h
      exact (Except.ok.inj h).symm
    constructor
    · rintro ⟨hok, hrest⟩
      refine ⟨hI s hs, fun s' h => ?_⟩
      obtain rfl := hsame s' h
      exact (ih (hkeep _ _ _ hs hok ht) hrt).mp (hrest s' h)
    · rintro ⟨-, hrest⟩
      by_cases hok : ok s a
      · refine ⟨hok, fun s' h => ?_⟩
        obtain rfl := hsame s' h
        exact (ih (hkeep _ _ _ hs hok ht) hrt).mpr (hrest s' h)
      · -- the broken guard already shows in the next state
        have hP : P t := by
          have h := hrest t ht
          cases as with
          | nil => exact h
          | cons b bs => exact h.1
        exact absurd hP (hbreak _ _ _ hs hok ht)

end System

end OsSemester
