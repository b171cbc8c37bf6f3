import Mathlib

/-!
# Partial pairings

A `Pairing α` couples some elements of `α` two by two: every element has at most one partner, a
partner's partner is the element itself, and nothing is its own partner.  The two laws are fields,
so every value is such a coupling.  `Pairing.join` couples two free elements, `Pairing.leave`
sets an element and its partner free.
-/

namespace OsSemester

/-- A coupling of some elements of `α` two by two. -/
@[ext]
structure Pairing (α : Type*) where
  /-- The partner of an element, if it has one. -/
  partner : α → Option α
  symm : ∀ {a b}, partner a = some b → partner b = some a
  irrefl : ∀ a, partner a ≠ some a

namespace Pairing

variable {α : Type*}

/-- Nobody has a partner. -/
def empty : Pairing α where
  partner _ := none
  symm h := by cases h
  irrefl _ h := by cases h

variable (π : Pairing α) {a b c : α}

theorem ne_of_partner (h : π.partner a = some b) : a ≠ b := by
  rintro rfl
  exact π.irrefl a h

variable [DecidableEq α]

/-- Couples two different free elements. -/
def join (a b : α) (hne : a ≠ b) (ha : π.partner a = none) (hb : π.partner b = none) :
    Pairing α where
  partner x := if x = a then some b else if x = b then some a else π.partner x
  symm {x y} h := by
    have := π.symm (a := x) (b := y)
    grind
  irrefl x h := by
    have := π.irrefl x
    grind

/-- Sets `a` free, and its partner with it. -/
def leave (a : α) : Pairing α where
  partner x := if x = a then none else if π.partner x = some a then none else π.partner x
  symm {x y} h := by
    have := π.symm (a := x) (b := y)
    grind
  irrefl x h := by
    have := π.irrefl x
    grind

theorem partner_join_left (hne : a ≠ b) (ha : π.partner a = none) (hb : π.partner b = none) :
    (π.join a b hne ha hb).partner a = some b := by
  simp [join]

theorem partner_join_right (hne : a ≠ b) (ha : π.partner a = none) (hb : π.partner b = none) :
    (π.join a b hne ha hb).partner b = some a := by
  simp [join, hne.symm]

theorem partner_join_of_ne (hne : a ≠ b) (ha : π.partner a = none) (hb : π.partner b = none)
    (hca : c ≠ a) (hcb : c ≠ b) : (π.join a b hne ha hb).partner c = π.partner c := by
  simp [join, hca, hcb]

@[simp] theorem partner_leave_self : (π.leave a).partner a = none := by
  simp [leave]

/-- Leaving only frees: who is still coupled afterwards was coupled to the same partner. -/
theorem partner_of_leave (h : (π.leave a).partner b = some c) :
    π.partner b = some c ∧ b ≠ a ∧ c ≠ a := by
  unfold leave at h
  grind

theorem partner_leave_of_ne (h : π.partner b = some c) (hb : b ≠ a) (hc : c ≠ a) :
    (π.leave a).partner b = some c := by
  simp [leave, h, hb, hc]

end Pairing

end OsSemester
