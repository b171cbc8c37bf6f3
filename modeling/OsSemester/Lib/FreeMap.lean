import Mathlib

/-!
# Numbers given out and taken back

An allocator for the numbers from `lo` up to `hi` knows which of them are in use.  `FreeMap lo hi used place`
says that each number in use is at exactly one place; so the places with a number are counted by the
numbers in use, and there is a free number as long as they are fewer than `hi - lo`.
-/

namespace OsSemester

/-- The numbers in use are those at the places, each at a different one. -/
structure FreeMap {κ : Type*} (lo hi : ℕ) (used : ℕ → Prop) (place : κ → Option ℕ) : Prop where
  mem : ∀ u a, place u = some a → lo ≤ a ∧ a < hi
  inj : ∀ u v a, place u = some a → place v = some a → u = v
  used : ∀ a, lo ≤ a → a < hi → (used a ↔ ∃ u, place u = some a)

namespace FreeMap

variable {κ : Type*} {lo hi a : ℕ} {used used' : ℕ → Prop} {place : κ → Option ℕ} {u : κ}

theorem used_of_place (h : FreeMap lo hi used place) (hu : place u = some a) : used a := by
  obtain ⟨h1, h2⟩ := h.mem u a hu
  exact (h.used a h1 h2).mpr ⟨u, hu⟩

/-- A number that is not in use is nowhere. -/
theorem fresh (h : FreeMap lo hi used place) (ha : ¬ used a) : place u ≠ some a := by
  intro hu
  exact ha (h.used_of_place hu)

theorem congr (h : FreeMap lo hi used place) (hused : ∀ b, lo ≤ b → b < hi → (used' b ↔ used b)) :
    FreeMap lo hi used' place where
  mem := h.mem
  inj := h.inj
  used := by
    intro b h1 h2
    rw [hused b h1 h2]
    exact h.used b h1 h2

/-- A number that is not in use is given to a place that has none. -/
theorem take [DecidableEq κ] (h : FreeMap lo hi used place) (hlo : lo ≤ a) (hhi : a < hi) (ha : ¬ used a)
    (hu : place u = none) (hused : ∀ b, lo ≤ b → b < hi → (used' b ↔ b = a ∨ used b)) :
    FreeMap lo hi used' (Function.update place u (some a)) where
  mem := by
    intro v b hv
    rw [Function.update_apply] at hv
    split_ifs at hv with he
    · cases hv
      exact ⟨hlo, hhi⟩
    · exact h.mem v b hv
  inj := by
    intro v w b hv hw
    rw [Function.update_apply] at hv hw
    split_ifs at hv hw with h1 h2 h2
    · rw [h1, h2]
    · cases hv
      exact absurd hw (h.fresh ha)
    · cases hw
      exact absurd hv (h.fresh ha)
    · exact h.inj v w b hv hw
  used := by
    intro b h1 h2
    rw [hused b h1 h2, h.used b h1 h2]
    constructor
    · rintro (rfl | ⟨v, hv⟩)
      · exact ⟨u, Function.update_self ..⟩
      · have hne : v ≠ u := by
          rintro rfl
          rw [hu] at hv
          cases hv
        exact ⟨v, by rw [Function.update_of_ne hne, hv]⟩
    · rintro ⟨v, hv⟩
      rw [Function.update_apply] at hv
      split_ifs at hv with he
      · cases hv
        exact Or.inl rfl
      · exact Or.inr ⟨v, hv⟩

/-- The numbers at some of the places are taken back. -/
theorem release (h : FreeMap lo hi used place) (S : κ → Prop) [DecidablePred S]
    (hused : ∀ b, lo ≤ b → b < hi → (used' b ↔ used b ∧ ¬ ∃ u, S u ∧ place u = some b)) :
    FreeMap lo hi used' (fun u => if S u then none else place u) where
  mem := by
    intro v b hv
    split_ifs at hv
    exact h.mem v b hv
  inj := by
    intro v w b hv hw
    split_ifs at hv hw
    exact h.inj v w b hv hw
  used := by
    intro b h1 h2
    rw [hused b h1 h2, h.used b h1 h2]
    constructor
    · rintro ⟨⟨v, hv⟩, hno⟩
      have hS : ¬ S v := fun hS => hno ⟨v, hS, hv⟩
      exact ⟨v, by rw [if_neg hS, hv]⟩
    · rintro ⟨v, hv⟩
      split_ifs at hv with hS
      refine ⟨⟨v, hv⟩, ?_⟩
      rintro ⟨w, hw, hb⟩
      exact hS (h.inj w v b hb hv ▸ hw)

/-! ### Counting -/

variable {S : Finset κ}

/-- There are as many numbers in use as places that have one. -/
theorem card_eq [DecidablePred used] (h : FreeMap lo hi used place)
    (hS : ∀ u, u ∈ S ↔ ∃ a, place u = some a) : S.card = ((Finset.Ico lo hi).filter used).card := by
  classical
  have himage : S.image (fun u => (place u).getD 0) = (Finset.Ico lo hi).filter used := by
    ext a
    rw [Finset.mem_image, Finset.mem_filter, Finset.mem_Ico]
    constructor
    · rintro ⟨u, hu, ha⟩
      obtain ⟨b, hb⟩ := (hS u).mp hu
      rw [hb] at ha
      obtain rfl : b = a := ha
      exact ⟨h.mem u b hb, h.used_of_place hb⟩
    · rintro ⟨⟨h1, h2⟩, ha⟩
      obtain ⟨u, hu⟩ := (h.used a h1 h2).mp ha
      refine ⟨u, (hS u).mpr ⟨a, hu⟩, ?_⟩
      rw [hu]
      rfl
  rw [← himage, Finset.card_image_of_injOn]
  intro u hu v hv he
  obtain ⟨a, ha⟩ := (hS u).mp hu
  obtain ⟨b, hb⟩ := (hS v).mp hv
  simp only [ha, hb, Option.getD_some] at he
  exact h.inj u v a ha (he ▸ hb)

theorem card_le (h : FreeMap lo hi used place) (hS : ∀ u, u ∈ S ↔ ∃ a, place u = some a) :
    S.card ≤ hi - lo := by
  classical
  rw [h.card_eq hS, ← Nat.card_Ico]
  exact Finset.card_filter_le _ _

/-- When all numbers are in use, they are at as many places. -/
theorem card_of_full (h : FreeMap lo hi used place) (hS : ∀ u, u ∈ S ↔ ∃ a, place u = some a)
    (hfull : ∀ a, lo ≤ a → a < hi → used a) : S.card = hi - lo := by
  classical
  rw [h.card_eq hS, Finset.filter_true_of_mem, Nat.card_Ico]
  intro a ha
  obtain ⟨h1, h2⟩ := Finset.mem_Ico.mp ha
  exact hfull a h1 h2

end FreeMap

end OsSemester
