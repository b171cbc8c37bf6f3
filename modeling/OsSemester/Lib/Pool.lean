import Mathlib

/-!
# Pools of objects that are handed out and taken back

A pool is a list of free objects and a family of holders, each of which holds at most one object.
`Pool free held` says that every object is in one place at most.  An `Exchange` keeps this, and the
`stock` of all objects of the pool with it; the moves are `Exchange.take` and `Exchange.give`.  As an
exchange only touches objects of its stock, it leaves other holders of the same pool alone:
`Exchange.frame`.
-/

namespace OsSemester

variable {κ ρ φ : Type*}

/-- Every object is free once, or held by one holder, or none of both. -/
structure Pool (free : List φ) (held : κ → Option φ) : Prop where
  nodup : free.Nodup
  apart : ∀ {k f}, held k = some f → f ∉ free
  inj : ∀ {j k f}, held j = some f → held k = some f → j = k

/-- The objects that are free or held. -/
def stock (free : List φ) (held : κ → Option φ) : Set φ := {f | f ∈ free ∨ ∃ k, held k = some f}

/-- Objects have moved between the free list and the holders. -/
structure Exchange (free : List φ) (held : κ → Option φ) (free' : List φ) (held' : κ → Option φ) :
    Prop where
  pool : Pool free held → Pool free' held'
  stock : stock free' held' = stock free held

variable {free free' free'' : List φ} {held held' held'' : κ → Option φ} {k : κ} {f : φ}

theorem Pool.notMem_stock {rest : ρ → Option φ} (h : Pool free (Sum.elim held rest)) {r : ρ}
    (hr : rest r = some f) : f ∉ stock free held := by
  rintro (hf | ⟨k, hk⟩)
  · exact h.apart (k := Sum.inr r) hr hf
  · cases h.inj (j := Sum.inl k) (k := Sum.inr r) hk hr

theorem Pool.left {rest : ρ → Option φ} (h : Pool free (Sum.elim held rest)) : Pool free held :=
  ⟨h.nodup, fun hk => h.apart (k := Sum.inl _) hk,
    fun hj hk => Sum.inl.inj (h.inj (j := Sum.inl _) (k := Sum.inl _) hj hk)⟩

namespace Exchange

theorem refl (free : List φ) (held : κ → Option φ) : Exchange free held free held :=
  ⟨id, rfl⟩

theorem trans (h : Exchange free held free' held') (h' : Exchange free' held' free'' held'') :
    Exchange free held free'' held'' :=
  ⟨fun hp => h'.pool (h.pool hp), h'.stock.trans h.stock⟩

/-- With the same objects held, the same objects are free. -/
theorem mem_free_iff (h : Exchange free held free' held) (hp : Pool free held) :
    f ∈ free' ↔ f ∈ free := by
  have hf : f ∈ OsSemester.stock free' held ↔ f ∈ OsSemester.stock free held := by rw [h.stock]
  constructor
  · intro hm
    rcases hf.mp (Or.inl hm) with hm' | ⟨k, hk⟩
    · exact hm'
    · exact absurd hm ((h.pool hp).apart hk)
  · intro hm
    rcases hf.mpr (Or.inl hm) with hm' | ⟨k, hk⟩
    · exact hm'
    · exact absurd hm (hp.apart hk)

/-- An object that was free is free, or has a new holder. -/
theorem free_or_new (h : Exchange free held free' held') (hp : Pool free held) (hf : f ∈ free) :
    f ∈ free' ∨ ∃ k, held' k = some f ∧ held k ≠ some f := by
  have hs : f ∈ OsSemester.stock free' held' := by
    rw [h.stock]
    exact Or.inl hf
  rcases hs with hf' | ⟨k, hk⟩
  · exact Or.inl hf'
  · exact Or.inr ⟨k, hk, fun hk' => hp.apart hk' hf⟩

/-- **The frame rule.** -/
theorem frame (h : Exchange free held free' held') (rest : ρ → Option φ) :
    Exchange free (Sum.elim held rest) free' (Sum.elim held' rest) := by
  have hstock : ∀ {free : List φ} {held : κ → Option φ},
      OsSemester.stock free (Sum.elim held rest) =
        OsSemester.stock free held ∪ {f | ∃ r, rest r = some f} := by
    intro free held
    ext f
    simp only [OsSemester.stock, Set.mem_ofPred_eq, Set.mem_union, Sum.exists, Sum.elim_inl,
      Sum.elim_inr, or_assoc]
  refine ⟨fun hp => ?_, by rw [hstock, hstock, h.stock]⟩
  obtain ⟨hn, ha, hi⟩ := h.pool hp.left
  -- what others hold is not in the stock, before and after
  have hout : ∀ {r f}, rest r = some f → f ∉ OsSemester.stock free' held' := by
    intro r f hr
    rw [h.stock]
    exact hp.notMem_stock hr
  refine ⟨hn, ?_, ?_⟩
  · rintro (k | r) f hk
    · exact ha hk
    · exact fun hf => hout hk (Or.inl hf)
  · rintro (j | r) (k | r') f hj hk
    · exact congrArg Sum.inl (hi hj hk)
    · exact absurd (Or.inr ⟨j, hj⟩) (hout hk)
    · exact absurd (Or.inr ⟨k, hk⟩) (hout hj)
    · exact hp.inj (j := Sum.inr r) (k := Sum.inr r') hj hk

/-- The holders are renamed; the ones that are left out hold nothing. -/
theorem rename (e : κ → ρ) (he : Function.Injective e) {held₁ : ρ → Option φ}
    (h1 : ∀ k, held₁ (e k) = held k) (h2 : ∀ r, (∀ k, e k ≠ r) → held₁ r = none) :
    (Pool free held₁ ↔ Pool free held) ∧ OsSemester.stock free held₁ = OsSemester.stock free held := by
  have hof : ∀ {r f}, held₁ r = some f → ∃ k, e k = r ∧ held k = some f := by
    intro r f hr
    by_contra hno
    push Not at hno
    by_cases hk : ∃ k, e k = r
    · obtain ⟨k, rfl⟩ := hk
      exact hno k rfl (by rw [← h1, hr])
    · push Not at hk
      rw [h2 r hk] at hr
      cases hr
  refine ⟨⟨fun h => ⟨h.nodup, fun hk => h.apart ((h1 _).trans hk), fun hj hk =>
    he (h.inj ((h1 _).trans hj) ((h1 _).trans hk))⟩, fun h => ⟨h.nodup, fun hr => ?_, fun hr hr' => ?_⟩⟩,
    Set.ext fun f => or_congr_right ⟨?_, ?_⟩⟩
  · obtain ⟨k, -, hk⟩ := hof hr
    exact h.apart hk
  · obtain ⟨k, rfl, hk⟩ := hof hr
    obtain ⟨k', rfl, hk'⟩ := hof hr'
    rw [h.inj hk hk']
  · rintro ⟨r, hr⟩
    obtain ⟨k, -, hk⟩ := hof hr
    exact ⟨k, hk⟩
  · rintro ⟨k, hk⟩
    exact ⟨e k, (h1 k).trans hk⟩

/-- An object that stays free throughout. -/
theorem cons (h : Exchange free held free' held') (f : φ) :
    Exchange (f :: free) held (f :: free') held' := by
  have hstock : ∀ {free : List φ} {held : κ → Option φ},
      OsSemester.stock (f :: free) held = insert f (OsSemester.stock free held) := by
    intro free held
    ext g
    simp only [OsSemester.stock, List.mem_cons, Set.mem_ofPred_eq, Set.mem_insert_iff, or_assoc]
  refine ⟨fun hp => ?_, by rw [hstock, hstock, h.stock]⟩
  obtain ⟨hf, hn⟩ := List.nodup_cons.mp hp.nodup
  obtain ⟨hn', ha, hi⟩ := h.pool
    ⟨hn, fun hk hg => hp.apart hk (List.mem_cons_of_mem _ hg), fun hj hk => hp.inj hj hk⟩
  have hout : f ∉ OsSemester.stock free' held' := by
    rw [h.stock]
    rintro (hf' | ⟨k, hk⟩)
    · exact hf hf'
    · exact hp.apart hk (List.mem_cons_self ..)
  refine ⟨List.nodup_cons.mpr ⟨fun hf' => hout (Or.inl hf'), hn'⟩, fun {k g} hk hg => ?_, hi⟩
  rcases List.mem_cons.mp hg with rfl | hg
  · exact hout (Or.inr ⟨k, hk⟩)
  · exact ha hk hg

variable [DecidableEq κ]

/-- A holder without an object takes the first free one. -/
theorem take (hk : held k = none) :
    Exchange (f :: free) held free (Function.update held k (some f)) := by
  constructor
  · intro h
    obtain ⟨hf, hn⟩ := List.nodup_cons.mp h.nodup
    have hnew : ∀ {j}, held j ≠ some f := fun hj => h.apart hj (List.mem_cons_self ..)
    refine ⟨hn, fun {j g} hj => ?_, fun {i j g} hi hj => ?_⟩
    · rw [Function.update_apply] at hj
      split_ifs at hj
      · rwa [← Option.some.inj hj]
      · exact fun hg => h.apart hj (List.mem_cons_of_mem _ hg)
    · rw [Function.update_apply] at hi hj
      split_ifs at hi hj with h1 h2 h2
      · rw [h1, h2]
      · exact absurd (hj.trans hi.symm) hnew
      · exact absurd (hi.trans hj.symm) hnew
      · exact h.inj hi hj
  · ext g
    constructor
    · rintro (hg | ⟨j, hj⟩)
      · exact Or.inl (List.mem_cons_of_mem _ hg)
      · rw [Function.update_apply] at hj
        split_ifs at hj
        · exact Or.inl (List.mem_cons.mpr (Or.inl (Option.some.inj hj).symm))
        · exact Or.inr ⟨j, hj⟩
    · rintro (hg | ⟨j, hj⟩)
      · rcases List.mem_cons.mp hg with rfl | hg
        · exact Or.inr ⟨k, Function.update_self ..⟩
        · exact Or.inl hg
      · refine Or.inr ⟨j, ?_⟩
        rw [Function.update_of_ne, hj]
        rintro rfl
        rw [hk] at hj
        cases hj

/-- A holder gives its object back. -/
theorem give (hk : held k = some f) :
    Exchange free held (f :: free) (Function.update held k none) := by
  constructor
  · intro h
    refine ⟨List.nodup_cons.mpr ⟨h.apart hk, h.nodup⟩, fun {j g} hj => ?_, fun {i j g} hi hj => ?_⟩
    · rw [Function.update_apply] at hj
      split_ifs at hj with hjk
      rw [List.mem_cons, not_or]
      refine ⟨fun hg => hjk (h.inj hj (hg ▸ hk)), h.apart hj⟩
    · rw [Function.update_apply] at hi hj
      split_ifs at hi hj
      exact h.inj hi hj
  · ext g
    constructor
    · rintro (hg | ⟨j, hj⟩)
      · rcases List.mem_cons.mp hg with rfl | hg
        · exact Or.inr ⟨k, hk⟩
        · exact Or.inl hg
      · rw [Function.update_apply] at hj
        split_ifs at hj
        exact Or.inr ⟨j, hj⟩
    · rintro (hg | ⟨j, hj⟩)
      · exact Or.inl (List.mem_cons_of_mem _ hg)
      · by_cases hjk : j = k
        · rw [hjk, hk] at hj
          exact Or.inl (List.mem_cons.mpr (Or.inl (Option.some.inj hj).symm))
        · exact Or.inr ⟨j, by rw [Function.update_of_ne hjk, hj]⟩

end Exchange

end OsSemester
