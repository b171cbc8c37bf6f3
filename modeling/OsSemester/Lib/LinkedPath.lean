import Mathlib

/-!
# Singly linked lists that close to a circle

`Path next l` says that the links lead from each element of `l` to the one behind it.  A circle of the
nodes `l` is a path through `l` back to its first element, and it can be entered at each of them.
-/

namespace OsSemester

/-- The links lead through the list. -/
def Path {α : Type*} (next : α → α) (l : List α) : Prop := l.IsChain fun a b => next a = b

namespace Path

variable {α : Type*} {next next' : α → α} {l l' : List α} {a b c : α}

theorem cons_cons : Path next (a :: b :: l) ↔ next a = b ∧ Path next (b :: l) := List.isChain_cons_cons

theorem singleton (next : α → α) (a : α) : Path next [a] := List.isChain_singleton a

/-- A path goes through each of its elements. -/
theorem split : Path next (l ++ a :: l') ↔ Path next (l ++ [a]) ∧ Path next (a :: l') :=
  List.isChain_split

/-- Only the links of the elements before the last one matter. -/
theorem congr (h : Path next (l ++ [b])) (heq : ∀ a ∈ l, next' a = next a) : Path next' (l ++ [b]) := by
  induction l with
  | nil => exact singleton next' b
  | cons a l ih =>
    have hl : ∀ c ∈ l, next' c = next c := fun c hc => heq c (List.mem_cons_of_mem _ hc)
    have ha : next' a = next a := heq a (List.mem_cons_self ..)
    cases l with
    | nil =>
      obtain ⟨h1, -⟩ := cons_cons.mp h
      exact cons_cons.mpr ⟨ha.trans h1, singleton next' b⟩
    | cons c l =>
      obtain ⟨h1, h2⟩ := cons_cons.mp h
      exact cons_cons.mpr ⟨ha.trans h1, ih h2 hl⟩

/-- Another first element, with the link of the old one. -/
theorem replace_head (h : Path next (a :: (l ++ [c]))) (hb : next' b = next a)
    (heq : ∀ x ∈ l, next' x = next x) : Path next' (b :: (l ++ [c])) := by
  cases l with
  | nil =>
    obtain ⟨h1, -⟩ := cons_cons.mp h
    exact cons_cons.mpr ⟨hb.trans h1, singleton next' c⟩
  | cons x l =>
    obtain ⟨h1, h2⟩ := cons_cons.mp h
    exact cons_cons.mpr ⟨hb.trans h1, congr (l := x :: l) h2 heq⟩

/-- A circle, entered at `a`. -/
theorem rotate (h : Path next (l ++ a :: l' ++ [b])) (hb : (l ++ a :: l').head? = some b) :
    Path next (a :: l' ++ l ++ [a]) := by
  cases l with
  | nil =>
    obtain rfl : a = b := Option.some.inj hb
    rwa [List.append_nil]
  | cons c l =>
    obtain rfl : c = b := Option.some.inj hb
    have h' : Path next ((c :: l) ++ a :: (l' ++ [c])) := by simpa using h
    obtain ⟨h1, h2⟩ := split.mp h'
    have h3 : Path next ((a :: l') ++ c :: (l ++ [a])) := split.mpr ⟨by simpa using h2, by simpa using h1⟩
    simpa using h3

end Path

end OsSemester
