import Mathlib

/-!
# Reference counts

A table `held` assigns at most one object to each key, and `Counts held ref` says that `ref` counts,
for each object, the keys it is assigned to.  The lemmas are the moves a program with reference
counts makes: a free key receives an object (`Counts.add`), a key gives its object up
(`Counts.drop`), the keys are renamed (`Counts.rename`).
-/

namespace OsSemester

variable {κ φ : Type*}

/-- `ref` counts the keys that hold each object. -/
structure Counts (held : κ → Option φ) (ref : φ → ℤ) : Prop where
  finite : ∀ f, {k | held k = some f}.Finite
  card : ∀ f, ref f = {k | held k = some f}.ncard

namespace Counts

variable {held held' : κ → Option φ} {ref ref' : φ → ℤ} {k : κ} {f : φ}

theorem empty : Counts (fun _ : κ => (none : Option φ)) fun _ => 0 :=
  ⟨fun _ => by simp, fun _ => by simp⟩

/-- An object that a key holds is referenced. -/
theorem pos (h : Counts held ref) (hk : held k = some f) : 0 < ref f := by
  rw [h.card f]
  have hne : {k | held k = some f}.Nonempty := ⟨k, hk⟩
  exact_mod_cast (Set.ncard_pos (h.finite f)).mpr hne

/-- An object that no key holds has no references. -/
theorem eq_zero (h : Counts held ref) (hf : ∀ k, held k ≠ some f) : ref f = 0 := by
  have hset : {k | held k = some f} = ∅ := Set.eq_empty_of_forall_notMem hf
  rw [h.card f, hset]
  simp

/-- Renaming the keys. -/
theorem rename (h : Counts held ref) (e : κ ≃ κ) : Counts (held ∘ e) ref := by
  have hset : ∀ f, {k | (held ∘ e) k = some f} = e.symm '' {k | held k = some f} := by
    intro f
    ext k
    simp
  constructor
  · intro f
    rw [hset f]
    exact (h.finite f).image _
  · intro f
    rw [hset f, Set.ncard_image_of_injective _ e.symm.injective]
    exact h.card f

variable [DecidableEq κ] [DecidableEq φ]

/-- A free key receives `f`. -/
theorem add (h : Counts held ref) (hk : held k = none) :
    Counts (Function.update held k (some f)) (Function.update ref f (ref f + 1)) := by
  have hset : ∀ g, {j | Function.update held k (some f) j = some g} =
      if g = f then insert k {j | held j = some f} else {j | held j = some g} := by
    intro g
    ext j
    by_cases hj : j = k
    · subst hj
      by_cases hg : g = f
      · simp [hg]
      · have hne : some f ≠ some g := fun he => hg (Option.some.inj he).symm
        simp [hg, hk, hne]
    · by_cases hg : g = f <;> simp [hg, hj]
  have hnot : k ∉ {j | held j = some f} := by simp [hk]
  constructor
  · intro g
    rw [hset g]
    split_ifs with hg
    · exact (h.finite f).insert k
    · exact h.finite g
  · intro g
    rw [hset g]
    by_cases hg : g = f
    · rw [if_pos hg, hg, Function.update_self, Set.ncard_insert_of_notMem hnot (h.finite f),
        h.card f]
      push_cast
      rfl
    · rw [if_neg hg, Function.update_of_ne hg]
      exact h.card g

/-- A key gives `f` up. -/
theorem drop (h : Counts held ref) (hk : held k = some f) :
    Counts (Function.update held k none) (Function.update ref f (ref f - 1)) := by
  have hset : ∀ g, {j | Function.update held k none j = some g} =
      if g = f then {j | held j = some f} \ {k} else {j | held j = some g} := by
    intro g
    ext j
    by_cases hj : j = k
    · subst hj
      by_cases hg : g = f
      · simp [hg]
      · have hne : some f ≠ some g := fun he => hg (Option.some.inj he).symm
        simp [hg, hk, hne]
    · by_cases hg : g = f <;> simp [hg, hj]
  have hmem : k ∈ {j | held j = some f} := hk
  constructor
  · intro g
    rw [hset g]
    split_ifs with hg
    · exact (h.finite f).sdiff
    · exact h.finite g
  · intro g
    rw [hset g]
    by_cases hg : g = f
    · have hpos : 0 < {j | held j = some f}.ncard := (Set.ncard_pos (h.finite f)).mpr ⟨k, hmem⟩
      rw [if_pos hg, hg, Function.update_self, Set.ncard_sdiff_singleton_of_mem hmem, h.card f]
      omega
    · rw [if_neg hg, Function.update_of_ne hg]
      exact h.card g

end Counts

end OsSemester
