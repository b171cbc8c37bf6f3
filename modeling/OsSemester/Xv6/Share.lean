import OsSemester.Lib.Pairing
import OsSemester.Xv6.Proc

/-!
# The share arrays (`clone` in `proc.c`, `exit` in `proc.c`, `exec` in `exec.c`)

`clone` records a new sharing relation by a fill loop on each side, `exit` and `exec` take a
process out of its relations by an erase loop.  Both work the same way on `ofileshare` and on
`cwdshare`, so they are stated for a family `g` of arrays, one for each slot.

The fill loop writes every free entry, so an array that had no entry holds 64 copies of one
pointer afterwards.  `Represents g π` says that the family `g` is the coupling `π` stored this way:
the array of a slot with partner `p` is constantly `p`, the array of a free slot is empty.  On such
families the loops are the operations of `Pairing`: `represents_fill`, `represents_unshare`.
-/

namespace OsSemester.Xv6

/-- One share array for each slot. -/
abbrev ShareGraph := Slot → ShareArray

/-- `for(i = 0; i < NPROC; i++) if(a[i] == 0) a[i] = q;` -/
def ShareArray.fill (a : ShareArray) (q : Slot) : ShareArray :=
  fun i => if a i = none then some q else a i

/-- `for(j = 0; j < NPROC; j++) if(a[j] == q) { a[j] = 0; break; }` -/
def ShareArray.eraseFirst (a : ShareArray) (q : Slot) : ShareArray :=
  match (List.finRange NPROC).find? (fun j => a j = some q) with
  | some j => Function.update a j none
  | none => a

/-- Some entry of the array is not null. -/
def ShareArray.nonempty (a : ShareArray) : Bool :=
  (List.finRange NPROC).any fun i => (a i).isSome

/-- The two fill loops of `clone`: `np` and `cur` enter each other in their arrays. -/
def ShareGraph.fill (g : ShareGraph) (cur np : Slot) : ShareGraph :=
  let g' := Function.update g np ((g np).fill cur)
  Function.update g' cur ((g' cur).fill np)

/-- One iteration of the outer erase loop: the partner in entry `i` forgets `cur` once, then the
entry itself is cleared. -/
def unshareEntry (cur : Slot) (g : ShareGraph) (i : Fin NPROC) : ShareGraph :=
  match g cur i with
  | none => g
  | some p =>
    let g' := Function.update g p ((g p).eraseFirst cur)
    Function.update g' cur (Function.update (g' cur) i none)

/-- The erase loop of `exit` and `exec`. -/
def unshare (g : ShareGraph) (cur : Slot) : ShareGraph :=
  (List.finRange NPROC).foldl (unshareEntry cur) g

/-! ### What the erase loop can do to any family of arrays -/

theorem ShareArray.eraseFirst_apply (a : ShareArray) (q : Slot) (i : Fin NPROC) :
    a.eraseFirst q i = none ∨ a.eraseFirst q i = a i := by
  unfold eraseFirst
  cases (List.finRange NPROC).find? (fun j => decide (a j = some q)) with
  | none => exact Or.inr rfl
  | some j =>
    by_cases hi : i = j
    · exact Or.inl (by simp [hi])
    · exact Or.inr (Function.update_of_ne hi _ _)

theorem unshareEntry_apply (cur : Slot) (g : ShareGraph) (i : Fin NPROC) (s : Slot)
    (j : Fin NPROC) : unshareEntry cur g i s j = none ∨ unshareEntry cur g i s j = g s j := by
  unfold unshareEntry
  cases hc : g cur i with
  | none => exact Or.inr rfl
  | some p =>
    have hp := ShareArray.eraseFirst_apply (g p) cur j
    by_cases hs : s = cur <;> by_cases hsp : s = p <;> by_cases hj : j = i <;>
      by_cases hcp : cur = p <;> simp_all

theorem unshareEntry_self (cur : Slot) (g : ShareGraph) (i : Fin NPROC) :
    unshareEntry cur g i cur i = none := by
  unfold unshareEntry
  cases hc : g cur i with
  | none => exact hc
  | some p => simp

theorem foldl_unshareEntry_apply (cur : Slot) (l : List (Fin NPROC)) (g : ShareGraph) (s : Slot)
    (j : Fin NPROC) :
    l.foldl (unshareEntry cur) g s j = none ∨ l.foldl (unshareEntry cur) g s j = g s j := by
  induction l generalizing g with
  | nil => exact Or.inr rfl
  | cons i l ih =>
    rcases ih (unshareEntry cur g i) with h | h
    · exact Or.inl h
    · rw [List.foldl_cons, h]
      exact unshareEntry_apply cur g i s j

/-- The erase loop writes nothing but null pointers. -/
theorem unshare_apply (g : ShareGraph) (cur s : Slot) (j : Fin NPROC) :
    unshare g cur s j = none ∨ unshare g cur s j = g s j :=
  foldl_unshareEntry_apply cur _ g s j

theorem foldl_unshareEntry_self (cur : Slot) (l : List (Fin NPROC)) (g : ShareGraph)
    (j : Fin NPROC) (hj : j ∈ l) : l.foldl (unshareEntry cur) g cur j = none := by
  induction l generalizing g with
  | nil => cases hj
  | cons i l ih =>
    rw [List.foldl_cons]
    rcases List.mem_cons.mp hj with rfl | hj
    · rcases foldl_unshareEntry_apply cur l (unshareEntry cur g j) cur j with h | h
      · exact h
      · rw [h, unshareEntry_self]
    · exact ih _ hj

/-- Whatever the arrays held, the erase loop empties the caller's own. -/
theorem unshare_self (g : ShareGraph) (cur : Slot) : unshare g cur cur = fun _ => none :=
  funext fun j => foldl_unshareEntry_self cur _ g j (List.mem_finRange j)

/-! ### Couplings stored in the arrays -/

/-- The family `g` stores the coupling `π`: every entry of a slot's array is its partner. -/
def Represents (g : ShareGraph) (π : Pairing Slot) : Prop := ∀ s i, g s i = π.partner s

namespace Represents

variable {g : ShareGraph} {π : Pairing Slot} {cur np p : Slot}

theorem eq_const (h : Represents g π) (s : Slot) : g s = fun _ => π.partner s :=
  funext (h s)

theorem nonempty_iff (h : Represents g π) (s : Slot) :
    (g s).nonempty = true ↔ ∃ p, π.partner s = some p := by
  unfold ShareArray.nonempty
  rw [List.any_eq_true, ← Option.isSome_iff_exists]
  constructor
  · rintro ⟨i, -, hi⟩
    rwa [h s i] at hi
  · intro hp
    exact ⟨0, List.mem_finRange _, by rwa [h s 0]⟩

/-- `clone` between two free slots stores the joined coupling. -/
theorem fill (h : Represents g π) (hne : cur ≠ np) (hc : π.partner cur = none)
    (hn : π.partner np = none) : Represents (g.fill cur np) (π.join cur np hne hc hn) := by
  intro s i
  have hcur := h cur i
  have hnp := h np i
  rw [hc] at hcur
  rw [hn] at hnp
  unfold ShareGraph.fill ShareArray.fill Pairing.join
  by_cases hs : s = cur
  · subst hs
    simp [hne, hcur]
  · by_cases hsn : s = np
    · subst hsn
      simp [hs, hnp]
    · simp [hs, hsn, h s i]

end Represents

/-- A slot that no entry of the caller's array names keeps its array. -/
theorem unshare_empty (g : ShareGraph) (cur : Slot) (h : g cur = fun _ => none) :
    unshare g cur = g := by
  have hstep : ∀ i, unshareEntry cur g i = g := fun i => by
    unfold unshareEntry
    rw [h]
  unfold unshare
  induction List.finRange NPROC with
  | nil => rfl
  | cons i l ih => rw [List.foldl_cons, hstep i, ih]

/-- The arrays of two partners `cur` and `p` once the loop has passed the entries in `l`. -/
private def halfErased (g : ShareGraph) (cur p : Slot) (l : List (Fin NPROC)) : ShareGraph :=
  Function.update (Function.update g p fun i => if i ∈ l then none else some cur) cur
    fun i => if i ∈ l then none else some p

private theorem eraseFirst_halfErased (cur : Slot) (l l' : List (Fin NPROC)) (i : Fin NPROC)
    (hl : List.finRange NPROC = l ++ i :: l') (hi : i ∉ l) :
    ShareArray.eraseFirst (fun j => if j ∈ l then none else some cur) cur =
      fun j => if j ∈ l ++ [i] then none else some cur := by
  have hfind : (List.finRange NPROC).find?
      (fun j => decide ((if j ∈ l then none else some cur) = some cur)) = some i := by
    have hnone : l.find? (fun j => decide ((if j ∈ l then none else some cur) = some cur)) = none := by
      rw [List.find?_eq_none]
      intro j hj
      simp [hj]
    rw [hl, List.find?_append, hnone, Option.none_or, List.find?_cons_of_pos]
    simp [hi]
  funext j
  unfold ShareArray.eraseFirst
  rw [hfind]
  simp only [Function.update_apply, List.mem_append, List.mem_singleton]
  grind

private theorem foldl_halfErased (g : ShareGraph) {cur p : Slot} (hne : cur ≠ p)
    (l' l : List (Fin NPROC)) (hl : List.finRange NPROC = l ++ l') :
    l'.foldl (unshareEntry cur) (halfErased g cur p l) = halfErased g cur p (l ++ l') := by
  induction l' generalizing l with
  | nil => simp
  | cons i l' ih =>
    have hnodup := List.nodup_finRange NPROC
    rw [hl] at hnodup
    have hi : i ∉ l := fun hil => (List.disjoint_of_nodup_append hnodup) hil (List.mem_cons_self ..)
    have hstep : unshareEntry cur (halfErased g cur p l) i = halfErased g cur p (l ++ [i]) := by
      have hcur : halfErased g cur p l cur i = some p := by simp [halfErased, hi]
      have hp : halfErased g cur p l p = fun j => if j ∈ l then none else some cur := by
        simp [halfErased, hne.symm]
      unfold unshareEntry
      rw [hcur]
      simp only [hp, eraseFirst_halfErased cur l l' i hl hi]
      funext s j
      simp only [halfErased, Function.update_apply, List.mem_append, List.mem_singleton]
      grind
    rw [List.foldl_cons, hstep, ih (l ++ [i]) (by simp [hl])]
    simp

/-- On partners the erase loop empties both arrays. -/
theorem unshare_pair (g : ShareGraph) {cur p : Slot} (hne : cur ≠ p)
    (hc : g cur = fun _ => some p) (hp : g p = fun _ => some cur) :
    unshare g cur = Function.update (Function.update g p fun _ => none) cur fun _ => none := by
  have h0 : halfErased g cur p [] = g := by
    funext s j
    simp only [halfErased, Function.update_apply, List.not_mem_nil, if_false]
    grind
  have h := foldl_halfErased g hne (List.finRange NPROC) [] rfl
  rw [h0] at h
  unfold unshare
  rw [h]
  simp [halfErased, List.mem_finRange]

/-- **The erase loop leaves the coupling**: `cur` and its partner are free afterwards, all others
keep their partners. -/
theorem Represents.unshare {g : ShareGraph} {π : Pairing Slot} (h : Represents g π) (cur : Slot) :
    Represents (unshare g cur) (π.leave cur) := by
  have hsymm := fun b => π.symm (a := cur) (b := b)
  intro s i
  cases hc : π.partner cur with
  | none =>
    have hcur : g cur = fun _ => none := by rw [h.eq_const, hc]
    have hs : π.partner s ≠ some cur := fun hs => by rw [π.symm hs] at hc; cases hc
    rw [unshare_empty g cur hcur, h s i]
    unfold Pairing.leave
    grind
  | some p =>
    have hp := π.symm hc
    rw [unshare_pair g (π.ne_of_partner hc) (by rw [h.eq_const, hc]) (by rw [h.eq_const, hp])]
    have hs := h s i
    have hsc : π.partner s = some cur → s = p := fun hs => by
      have := π.symm hs
      rw [hc] at this
      exact (Option.some.inj this).symm
    unfold Pairing.leave
    simp only [Function.update_apply]
    grind

end OsSemester.Xv6
