import Mathlib

/-!
# Circular doubly linked lists

The nodes `α` and a head, written `none`, are linked in both directions.  `Linked L l` says that the
links lead from the head through the nodes of `l`, in this order and each of them once, back to the
head, and that the links backwards lead through them in the opposite order.  The operations take a
node out of the list and put one in front; `walk` follows the links, of `L.rev` those backwards.
-/

namespace OsSemester

/-- The links between nodes; `none` is the head. -/
structure Links (α : Type*) where
  next : Option α → Option α
  prev : Option α → Option α

namespace Links

variable {α : Type*} {L L' : Links α} {l l₁ l₂ : List α} {b : α} {x y : Option α}

section Operations

variable [DecidableEq α]

/-- A list with only the head. -/
def empty : Links α := ⟨fun _ => none, fun _ => none⟩

/-- `b->next->prev = b->prev; b->prev->next = b->next;` -/
def unlink (L : Links α) (b : α) : Links α :=
  let L := { L with prev := Function.update L.prev (L.next b) (L.prev b) }
  { L with next := Function.update L.next (L.prev b) (L.next b) }

/-- `b->next = head.next; b->prev = &head; head.next->prev = b; head.next = b;` -/
def pushFront (L : Links α) (b : α) : Links α :=
  let L := { L with next := Function.update L.next b (L.next none) }
  let L := { L with prev := Function.update L.prev b none }
  let L := { L with prev := Function.update L.prev (L.next none) (some b) }
  { L with next := Function.update L.next none (some b) }

/-- The nodes behind `x`, `fuel` of them at most. -/
def walk (L : Links α) : ℕ → Option α → List α
  | 0, _ => []
  | fuel + 1, x =>
    match L.next x with
    | none => []
    | some b => b :: L.walk fuel (some b)

/-- The links in the other direction. -/
def rev (L : Links α) : Links α := ⟨L.prev, L.next⟩

end Operations

/-- The links lead from `x` through `l` to `y`. -/
def Path (L : Links α) : Option α → List α → Option α → Prop
  | x, [], y => L.next x = y ∧ L.prev y = x
  | x, b :: l, y => L.next x = some b ∧ L.prev (some b) = x ∧ L.Path (some b) l y

/-- The links represent the list `l`. -/
structure Linked (L : Links α) (l : List α) : Prop where
  path : L.Path none l none
  nodup : l.Nodup

theorem linked_empty : (empty : Links α).Linked [] := ⟨⟨rfl, rfl⟩, List.nodup_nil⟩

namespace Path

theorem congr (h : L.Path x l y) (hx : L'.next x = L.next x)
    (hn : ∀ c ∈ l, L'.next (some c) = L.next (some c)) (hy : L'.prev y = L.prev y)
    (hp : ∀ c ∈ l, L'.prev (some c) = L.prev (some c)) : L'.Path x l y := by
  induction l generalizing x with
  | nil => exact ⟨hx.trans h.1, hy.trans h.2⟩
  | cons c l ih =>
    obtain ⟨h1, h2, h3⟩ := h
    exact ⟨hx.trans h1, (hp c (List.mem_cons_self ..)).trans h2,
      ih h3 (hn c (List.mem_cons_self ..)) (fun d hd => hn d (.tail _ hd))
        fun d hd => hp d (.tail _ hd)⟩

theorem append_iff : L.Path x (l₁ ++ b :: l₂) y ↔ L.Path x l₁ (some b) ∧ L.Path (some b) l₂ y := by
  induction l₁ generalizing x with
  | nil => exact and_assoc.symm
  | cons c l ih =>
    simp only [List.cons_append, Path, ih, and_assoc]

/-- The same links, read backwards. -/
theorem reverse (h : L.Path x l y) : L.rev.Path y l.reverse x := by
  induction l generalizing x with
  | nil => exact ⟨h.2, h.1⟩
  | cons c l ih =>
    obtain ⟨h1, h2, h3⟩ := h
    rw [List.reverse_cons]
    exact append_iff.mpr ⟨ih h3, h2, h1⟩

theorem walk (h : L.Path x l none) {fuel : ℕ} (hf : l.length < fuel) : L.walk fuel x = l := by
  induction l generalizing x fuel with
  | nil =>
    obtain ⟨k, rfl⟩ := Nat.exists_eq_succ_of_ne_zero (Nat.ne_of_gt hf)
    rw [Links.walk, h.1]
  | cons c l ih =>
    obtain ⟨k, rfl⟩ := Nat.exists_eq_succ_of_ne_zero (Nat.ne_of_gt (Nat.zero_lt_of_lt hf))
    obtain ⟨h1, -, h3⟩ := h
    rw [Links.walk, h1]
    exact congrArg (c :: ·) (ih h3 (Nat.lt_of_succ_lt_succ hf))

/-- Behind `x` comes the first node of the path. -/
theorem next_eq (h : L.Path x l y) : L.next x = y ∨ ∃ c ∈ l, L.next x = some c := by
  cases l with
  | nil => exact Or.inl h.1
  | cons c l => exact Or.inr ⟨c, List.mem_cons_self .., h.1⟩

/-- Before `y` comes the last node of the path. -/
theorem prev_eq (h : L.Path x l y) : L.prev y = x ∨ ∃ c ∈ l, L.prev y = some c := by
  rcases h.reverse.next_eq with h | ⟨c, hc, h⟩
  · exact Or.inl h
  · exact Or.inr ⟨c, List.mem_reverse.mp hc, h⟩

/-- Two paths become one when the node between them is passed over. -/
theorem splice (h₁ : L.Path x l₁ (some b)) (h₂ : L.Path (some b) l₂ y)
    (hn : (l₁ ++ l₂).Nodup) (hx : ∀ c ∈ l₁ ++ l₂, x ≠ some c) (hy : ∀ c ∈ l₁ ++ l₂, y ≠ some c)
    (hnext : L'.next (L.prev (some b)) = L.next (some b))
    (hnext' : ∀ z, z ≠ L.prev (some b) → L'.next z = L.next z)
    (hprev : L'.prev (L.next (some b)) = L.prev (some b))
    (hprev' : ∀ z, z ≠ L.next (some b) → L'.prev z = L.prev z) : L'.Path x (l₁ ++ l₂) y := by
  induction l₁ generalizing x with
  | nil =>
    have hpb : L.prev (some b) = x := h₁.2
    rw [hpb] at hnext hnext' hprev
    cases l₂ with
    | nil =>
      have hnb : L.next (some b) = y := h₂.1
      rw [hnb] at hnext hprev
      exact ⟨hnext, hprev⟩
    | cons d l =>
      obtain ⟨hnb, -, h₃⟩ := h₂
      rw [hnb] at hnext hprev hprev'
      have hd : d ∉ l := (List.nodup_cons.mp hn).1
      refine ⟨hnext, hprev, h₃.congr (hnext' _ (hx d (List.mem_cons_self ..)).symm)
        (fun c hc => hnext' _ (hx c (.tail _ hc)).symm) (hprev' _ (hy d (List.mem_cons_self ..)))
        fun c hc => hprev' _ ?_⟩
      rintro he
      obtain rfl := Option.some.inj he
      exact hd hc
  | cons a l ih =>
    obtain ⟨h1, h2, h3⟩ := h₁
    have ha : a ∉ l ++ l₂ := (List.nodup_cons.mp hn).1
    have hxp : x ≠ L.prev (some b) := by
      rcases h3.prev_eq with he | ⟨c, hc, he⟩
      · rw [he]
        exact hx a (List.mem_cons_self ..)
      · rw [he]
        exact hx c (.tail _ (List.mem_append_left _ hc))
    have han : some a ≠ L.next (some b) := by
      rcases h₂.next_eq with he | ⟨c, hc, he⟩
      · rw [he]
        exact (hy a (List.mem_cons_self ..)).symm
      · rw [he]
        rintro hac
        obtain rfl := Option.some.inj hac
        exact ha (List.mem_append_right _ hc)
    refine ⟨(hnext' _ hxp).trans h1, (hprev' _ han).trans h2, ih h3 hn.of_cons ?_ ?_⟩
    · intro c hc hac
      obtain rfl := Option.some.inj hac
      exact ha hc
    · exact fun c hc => hy c (.tail _ hc)

end Path

namespace Linked

/-- Following the links of the list in the two directions. -/
theorem walk (h : L.Linked l) {fuel : ℕ} (hf : l.length < fuel) :
    L.walk fuel none = l ∧ L.rev.walk fuel none = l.reverse :=
  ⟨h.path.walk hf, h.path.reverse.walk (by rwa [List.length_reverse])⟩

variable [DecidableEq α]

/-- Taking a node out of the list. -/
theorem unlink (h : L.Linked (l₁ ++ b :: l₂)) : (L.unlink b).Linked (l₁ ++ l₂) := by
  obtain ⟨hp, hn⟩ := h
  have hb : b ∉ l₁ ++ l₂ := (List.nodup_middle.mp hn).notMem
  have hsub : (l₁ ++ l₂).Nodup := (List.nodup_middle.mp hn).of_cons
  obtain ⟨h1, h2⟩ := Path.append_iff.mp hp
  -- `b` is not its own successor, so the first assignment leaves `b->prev` alone
  have hself : some b ≠ L.next (some b) := by
    rcases h2.next_eq with he | ⟨c, hc, he⟩
    · rw [he]
      nofun
    · rw [he]
      rintro hbc
      obtain rfl := Option.some.inj hbc
      exact hb (List.mem_append_right _ hc)
  refine ⟨h1.splice h2 hsub nofun nofun ?_ ?_ ?_ ?_, hsub⟩
  · simp only [Links.unlink, Function.update_of_ne hself, Function.update_self]
  · intro z hz
    simp only [Links.unlink, Function.update_of_ne hself, Function.update_of_ne hz]
  · simp only [Links.unlink, Function.update_self]
  · intro z hz
    simp only [Links.unlink, Function.update_of_ne hz]

/-- Putting a node in front. -/
theorem pushFront (h : L.Linked l) (hb : b ∉ l) : (L.pushFront b).Linked (b :: l) := by
  obtain ⟨hp, hn⟩ := h
  have hne : ∀ c ∈ l, some c ≠ some b := by
    rintro c hc hcb
    obtain rfl := Option.some.inj hcb
    exact hb hc
  refine ⟨⟨?_, ?_, ?_⟩, List.nodup_cons.mpr ⟨hb, hn⟩⟩
  · simp [Links.pushFront]
  · have hfirst : some b ≠ L.next none := by
      rcases hp.next_eq with he | ⟨c, hc, he⟩
      · rw [he]
        nofun
      · rw [he]
        exact (hne c hc).symm
    simp [Links.pushFront, hfirst]
  · cases l with
    | nil =>
      have h1 : L.next none = none := hp.1
      simp [Links.pushFront, Path, h1]
    | cons c l =>
      obtain ⟨h1, -, h3⟩ := hp
      have hc : c ∉ l := (List.nodup_cons.mp hn).1
      refine ⟨?_, ?_, h3.congr ?_ (fun d hd => ?_) ?_ fun d hd => ?_⟩
      · simp [Links.pushFront, h1]
      · simp [Links.pushFront, h1]
      · have := hne c (List.mem_cons_self ..)
        simp [Links.pushFront, this]
      · have := hne d (.tail _ hd)
        simp [Links.pushFront, this]
      · simp [Links.pushFront, h1]
      · have h4 := hne d (.tail _ hd)
        have h5 : some d ≠ some c := by
          rintro hdc
          obtain rfl := Option.some.inj hdc
          exact hc hd
        simp [Links.pushFront, h1, h4, h5]

/-- Putting nodes in front, one after the other. -/
theorem foldl (h : L.Linked l) (hn : l₁.Nodup) (hd : ∀ b ∈ l₁, b ∉ l) :
    (l₁.foldl Links.pushFront L).Linked (l₁.reverse ++ l) := by
  induction l₁ generalizing L l with
  | nil => exact h
  | cons b l₁ ih =>
    rw [List.reverse_cons, List.append_assoc]
    refine ih (h.pushFront (hd b (List.mem_cons_self ..))) hn.of_cons fun c hc => ?_
    refine List.not_mem_cons_of_ne_of_not_mem ?_ (hd c (.tail _ hc))
    rintro rfl
    exact (List.nodup_cons.mp hn).1 hc

end Linked

end Links

end OsSemester
