import Mathlib

/-!
# Resources with one owner

Resources are numbered in the order they are made and released into a list.  Each resource that has
been made and not been released has one owner; further parties may use it without owning it.
`Tenure own use made freed` is the invariant of this discipline: what is used has not been released,
no resource is released twice, and what nobody owns any more has been released.  The operations are
`install` (the owner of a new resource), `release` (by the owner, when nobody uses the resource) and
`reuse` (use spreads from owners and users).
-/

namespace OsSemester

variable {ι : Type*} {own own' use use' : ι → Option ℕ} {made : ℕ} {freed : List ℕ} {p : ι} {d : ℕ}

/-- Ownership, use and release of numbered resources. -/
structure Tenure (own use : ι → Option ℕ) (made : ℕ) (freed : List ℕ) : Prop where
  owned : ∀ {p d}, own p = some d → d < made ∧ d ∉ freed
  inj : ∀ {p q d}, own p = some d → own q = some d → p = q
  total : ∀ {d}, d < made → d ∉ freed → ∃ p, own p = some d
  used : ∀ {t d}, use t = some d → d < made ∧ d ∉ freed
  nodup : freed.Nodup
  lt : ∀ {d}, d ∈ freed → d < made

namespace Tenure

/-- Use may spread from owners and users. -/
theorem reuse (h : Tenure own use made freed)
    (hu : ∀ {t d}, use' t = some d → (∃ q, own q = some d) ∨ ∃ q, use q = some d) :
    Tenure own use' made freed where
  owned := h.owned
  inj := h.inj
  total := h.total
  used ht := by
    rcases hu ht with ⟨q, hq⟩ | ⟨q, hq⟩
    · exact h.owned hq
    · exact h.used hq
  nodup := h.nodup
  lt := h.lt

/-- A new resource, for an owner that has none. -/
theorem install [DecidableEq ι] (h : Tenure own use made freed) (hp : own p = none) :
    Tenure (Function.update own p (some made)) use (made + 1) freed := by
  have hnew : made ∉ freed := fun hm => Nat.lt_irrefl _ (h.lt hm)
  refine ⟨fun {q d} hq => ?_, fun {q r d} hq hr => ?_, fun {d} hd hf => ?_, fun ht => ?_, h.nodup,
    fun hd => Nat.lt_succ_of_lt (h.lt hd)⟩
  · rw [Function.update_apply] at hq
    split_ifs at hq
    · obtain rfl := Option.some.inj hq
      exact ⟨Nat.lt_succ_self _, hnew⟩
    · exact ⟨Nat.lt_succ_of_lt (h.owned hq).1, (h.owned hq).2⟩
  · rw [Function.update_apply] at hq hr
    split_ifs at hq hr with h1 h2 h2
    · rw [h1, h2]
    · obtain rfl := Option.some.inj hq
      exact absurd (h.owned hr).1 (Nat.lt_irrefl _)
    · obtain rfl := Option.some.inj hr
      exact absurd (h.owned hq).1 (Nat.lt_irrefl _)
    · exact h.inj hq hr
  · rcases Nat.lt_succ_iff_lt_or_eq.mp hd with hd | rfl
    · obtain ⟨q, hq⟩ := h.total hd hf
      have hqp : q ≠ p := by
        rintro rfl
        rw [hp] at hq
        cases hq
      exact ⟨q, by rwa [Function.update_of_ne hqp]⟩
    · exact ⟨p, Function.update_self ..⟩
  · exact ⟨Nat.lt_succ_of_lt (h.used ht).1, (h.used ht).2⟩

/-- The owner releases a resource that nobody uses any more. -/
theorem release [DecidableEq ι] (h : Tenure own use made freed) (hp : own p = some d)
    (hu : ∀ t, use t ≠ some d) : Tenure (Function.update own p none) use made (d :: freed) := by
  refine ⟨fun {q e} hq => ?_, fun {q r e} hq hr => ?_, fun {e} he hf => ?_, fun {t e} ht => ?_,
    List.nodup_cons.mpr ⟨(h.owned hp).2, h.nodup⟩, fun {e} he => ?_⟩
  · rw [Function.update_apply] at hq
    split_ifs at hq with hqp
    refine ⟨(h.owned hq).1, fun hm => ?_⟩
    rcases List.mem_cons.mp hm with rfl | hm
    · exact hqp (h.inj hq hp)
    · exact (h.owned hq).2 hm
  · rw [Function.update_apply] at hq hr
    split_ifs at hq hr
    exact h.inj hq hr
  · rw [List.mem_cons, not_or] at hf
    obtain ⟨q, hq⟩ := h.total he hf.2
    have hqp : q ≠ p := by
      rintro rfl
      exact hf.1 (Option.some.inj (hq.symm.trans hp))
    exact ⟨q, by rwa [Function.update_of_ne hqp]⟩
  · refine ⟨(h.used ht).1, fun hm => ?_⟩
    rcases List.mem_cons.mp hm with rfl | hm
    · exact hu t ht
    · exact (h.used ht).2 hm
  · rcases List.mem_cons.mp he with rfl | he
    · exact (h.owned hp).1
    · exact h.lt he

/-- A resource without owner has been released once. -/
theorem count_of_unowned (h : Tenure own use made freed) (hd : d < made)
    (hp : ∀ q, own q ≠ some d) : freed.count d = 1 := by
  have hm : d ∈ freed := by
    by_contra hf
    obtain ⟨q, hq⟩ := h.total hd hf
    exact hp q hq
  exact List.count_eq_one_of_mem h.nodup hm

end Tenure

end OsSemester
