import OsSemester.Xv6.Calls
import OsSemester.Xv6.Propagation

/-!
# The stack of the sharing recursions

`ofileshareopen`, `ofileshareclose` and `cwdshare` call themselves for the processes in a share array,
and nothing marks the ones they have been to.  `shareCall` is the recursion on a stack of a given
height, with the processes whose field it writes.  Each call but the first comes after a write that
gives the value to a process that did not have it, so `NPROC + 1` frames are enough whatever the arrays
hold: `sharing_terminates`.
-/

namespace OsSemester.Xv6

section Recursion

variable {β : Type}

/-- The field of all processes, and the processes for which it has been written, in order. -/
structure Painting (β : Type) where
  col : Slot → β
  written : List Slot

/-- `(curproc->share[i])->field = v;` -/
def Painting.paint (P : Painting β) (q : Slot) (v : β) : Painting β :=
  ⟨Function.update P.col q v, P.written ++ [q]⟩

variable {g : ShareGraph} {v : β} {cur q : Slot} {P P' Q : Painting β} {new : List Slot}

/-- A call from `cur` has written these processes: each had another value, is named in the arrays on
some way from `cur`, and has been written once. -/
structure Paints (g : ShareGraph) (v : β) (cur : Slot) (new : List Slot) (P P' : Painting β) :
    Prop where
  written : P'.written = P.written ++ new
  nodup : new.Nodup
  old : ∀ q ∈ new, P.col q ≠ v
  reach : ∀ q ∈ new, Relation.TransGen (fun p q => ∃ i, g p i = some q) cur q
  col : ∀ t, P'.col t = if t ∈ new then v else P.col t

namespace Paints

variable {new' : List Slot}

theorem refl (g : ShareGraph) (v : β) (cur : Slot) (P : Painting β) : Paints g v cur [] P P where
  written := (List.append_nil _).symm
  nodup := List.nodup_nil
  old := nofun
  reach := nofun
  col := fun _ => rfl

/-- A process that has been written has the value and is not written again. -/
theorem trans (h : Paints g v cur new P Q) (h' : Paints g v cur new' Q P') :
    Paints g v cur (new ++ new') P P' where
  written := by rw [h'.written, h.written, List.append_assoc]
  nodup := by
    refine List.nodup_append.mpr ⟨h.nodup, h'.nodup, ?_⟩
    rintro a ha b hb rfl
    exact h'.old a hb (by rw [h.col, if_pos ha])
  old := by
    intro q hq
    rcases List.mem_append.mp hq with hq | hq
    · exact h.old q hq
    · intro hv
      refine h'.old q hq ?_
      rw [h.col, hv, ite_self]
  reach := by
    intro q hq
    rcases List.mem_append.mp hq with hq | hq
    · exact h.reach q hq
    · exact h'.reach q hq
  col := by
    intro t
    rw [h'.col, h.col]
    by_cases h1 : t ∈ new'
    · rw [if_pos h1, if_pos (List.mem_append_right _ h1)]
    · rw [if_neg h1]
      by_cases h2 : t ∈ new
      · rw [if_pos h2, if_pos (List.mem_append_left _ h2)]
      · rw [if_neg h2, if_neg (by simp [h1, h2])]

/-- The write before a nested call, and what the nested call writes. -/
theorem call {i : Fin NPROC} (hi : g cur i = some q) (hq : P.col q ≠ v)
    (h : Paints g v q new (P.paint q v) P') : Paints g v cur (q :: new) P P' where
  written := by
    rw [h.written]
    exact List.append_assoc _ _ _
  nodup := by
    refine List.nodup_cons.mpr ⟨fun hmem => ?_, h.nodup⟩
    exact h.old q hmem (Function.update_self ..)
  old := by
    intro t ht
    rcases List.mem_cons.mp ht with rfl | hmem
    · exact hq
    · have hne : t ≠ q := by
        rintro rfl
        exact h.old t hmem (Function.update_self ..)
      have hold : Function.update P.col q v t ≠ v := h.old t hmem
      rwa [Function.update_of_ne hne] at hold
  reach := by
    intro t ht
    rcases List.mem_cons.mp ht with rfl | ht
    · exact .single ⟨i, hi⟩
    · exact .head ⟨i, hi⟩ (h.reach t ht)
  col := by
    intro t
    rw [h.col]
    show (if t ∈ new then v else Function.update P.col q v t) = _
    by_cases htq : t = q
    · rw [htq, if_pos (List.mem_cons_self ..), Function.update_self, ite_self]
    · simp only [List.mem_cons, htq, false_or, Function.update_of_ne htq]

end Paints

variable [DecidableEq β] (g : ShareGraph) (v : β)

/-- The loop of the three functions for the entries in the list; `rec` is the recursive call. -/
def shareLoop (rec : Slot → Painting β → Option (Painting β)) (cur : Slot) :
    List (Fin NPROC) → Painting β → Option (Painting β)
  | [], P => some P
  | i :: is, P =>
    match g cur i with
    | none => shareLoop rec cur is P
    | some q =>
      if q = cur then shareLoop rec cur is P
      else if P.col q = v then some P
      else (rec q (P.paint q v)).bind (shareLoop rec cur is)

/-- A call with room for `n` frames; `none` when it needs more. -/
def shareCall : ℕ → Slot → Painting β → Option (Painting β)
  | 0, _, _ => none
  | n + 1, cur, P => shareLoop g v (shareCall n) cur (List.finRange NPROC) P

variable {g v} {n : ℕ} {l : List (Fin NPROC)}

/-- How many processes have the value. -/
def Painting.having (P : Painting β) (v : β) : ℕ :=
  (Finset.univ.filter fun t => P.col t = v).card

theorem Painting.having_le (P : Painting β) (v : β) : P.having v ≤ NPROC := by
  have h := Finset.card_le_univ (Finset.univ.filter fun t => P.col t = v)
  rwa [Fintype.card_fin] at h

/-- The value is not taken away. -/
theorem Paints.having_le (h : Paints g v cur new P P') : P.having v ≤ P'.having v := by
  refine Finset.card_le_card fun t ht => ?_
  rw [Finset.mem_filter] at ht ⊢
  refine ⟨ht.1, ?_⟩
  rw [h.col, ht.2, ite_self]

/-- The write before a nested call gives the value to one more process. -/
theorem Painting.having_paint (hq : P.col q ≠ v) : P.having v < (P.paint q v).having v := by
  refine Finset.card_lt_card ⟨fun t ht => ?_, fun hsub => ?_⟩
  · rw [Finset.mem_filter] at ht ⊢
    have hne : t ≠ q := by
      rintro rfl
      exact hq ht.2
    refine ⟨ht.1, ?_⟩
    show Function.update P.col q v t = v
    rw [Function.update_of_ne hne, ht.2]
  · have hmem := hsub (Finset.mem_filter.mpr ⟨Finset.mem_univ q, Function.update_self ..⟩)
    exact hq (Finset.mem_filter.mp hmem).2

/-- The loop returns when its nested calls do. -/
theorem shareLoop_returns {rec : Slot → Painting β → Option (Painting β)}
    (hrec : ∀ q Q, NPROC < n + Q.having v → ∃ P' new, rec q Q = some P' ∧ Paints g v q new Q P')
    (hn : NPROC < n + 1 + P.having v) :
    ∃ P' new, shareLoop g v rec cur l P = some P' ∧ Paints g v cur new P P' := by
  induction l generalizing P with
  | nil => exact ⟨P, [], rfl, .refl g v cur P⟩
  | cons i l ih =>
    unfold shareLoop
    cases hi : g cur i with
    | none => exact ih hn
    | some q =>
      dsimp only
      by_cases hq : q = cur
      · rw [if_pos hq]
        exact ih hn
      · rw [if_neg hq]
        by_cases hv : P.col q = v
        · rw [if_pos hv]
          exact ⟨P, [], rfl, .refl g v cur P⟩
        · rw [if_neg hv]
          have hpaint := Painting.having_paint hv
          obtain ⟨Q, new, hQ, hnew⟩ := hrec q (P.paint q v) (by omega)
          have hcall := Paints.call hi hv hnew
          have hle := hcall.having_le
          obtain ⟨P', new', hP', hnew'⟩ := ih (P := Q) (by omega)
          exact ⟨P', _, by rw [hQ, Option.bind_some, hP'], hcall.trans hnew'⟩

/-- **The bound on the depth.** -/
theorem shareCall_returns (hn : NPROC < n + P.having v) :
    ∃ P' new, shareCall g v n cur P = some P' ∧ Paints g v cur new P P' := by
  induction n generalizing cur P with
  | zero =>
    have hle := P.having_le v
    omega
  | succ n ih => exact shareLoop_returns (fun q Q hQ => ih hQ) hn

theorem shareLoop_col {rec : Slot → Painting β → Option (Painting β)}
    {rec' : Slot → (Slot → β) → Slot → β}
    (hrec : ∀ q Q Q', rec q Q = some Q' → rec' q Q.col = Q'.col)
    (h : shareLoop g v rec cur l P = some P') : spreadLoop g v rec' cur l P.col = P'.col := by
  induction l generalizing P with
  | nil => rw [← Option.some.inj h, spreadLoop]
  | cons i l ih =>
    unfold shareLoop at h
    unfold spreadLoop
    cases hi : g cur i with
    | none =>
      rw [hi] at h
      exact ih h
    | some q =>
      rw [hi] at h
      dsimp only at h ⊢
      by_cases hq : q = cur
      · rw [if_pos hq] at h ⊢
        exact ih h
      · rw [if_neg hq] at h ⊢
        by_cases hv : P.col q = v
        · rw [if_pos hv] at h ⊢
          rw [← Option.some.inj h]
        · rw [if_neg hv] at h ⊢
          obtain ⟨Q, hQ, hloop⟩ := Option.bind_eq_some_iff.mp h
          have hcol := hrec q _ Q hQ
          rw [Painting.paint] at hcol
          rw [hcol]
          exact ih hloop

/-- A call that returns writes what the recursions of the kernel write. -/
theorem shareCall_col (h : shareCall g v n cur P = some P') : spread g v n cur P.col = P'.col := by
  induction n generalizing cur P P' with
  | zero => cases h
  | succ n ih => exact shareLoop_col (fun q Q Q' hQ => ih hQ) h

end Recursion

/-- A call of one of the three functions returns with at most `NPROC + 1` frames, and its writes are
in order `written`: to processes that are named in the arrays on some way from the caller, to each
once, and only to those that have another value. -/
structure Returns {β : Type} [DecidableEq β] (g : ShareGraph) (v : β) (p : Slot) (col : Slot → β)
    (written : List Slot) : Prop where
  call : ∃ col', shareCall g v (NPROC + 1) p ⟨col, []⟩ = some ⟨col', written⟩
  once : written.Nodup
  changed : ∀ q ∈ written, col q ≠ v
  reachable : ∀ q ∈ written, Relation.TransGen (fun p q => ∃ i, g p i = some q) p q

theorem exists_returns {β : Type} [DecidableEq β] (g : ShareGraph) (v : β) (p : Slot)
    (col : Slot → β) : ∃ written, Returns g v p col written ∧
      ∀ t, spread g v Kernel.spreadDepth p col t = if t ∈ written then v else col t := by
  have hn : NPROC < NPROC + 1 + (⟨col, []⟩ : Painting β).having v := by omega
  obtain ⟨P', new, hP', hnew⟩ : ∃ P' new, shareCall g v (NPROC + 1) p ⟨col, []⟩ = some P' ∧
    Paints g v p new ⟨col, []⟩ P' := shareCall_returns hn
  have hw := hnew.written
  rw [List.nil_append] at hw
  refine ⟨new, ⟨⟨P'.col, ?_⟩, hnew.nodup, hnew.old, hnew.reach⟩, fun t => ?_⟩
  · rw [hP', ← hw]
  · have hcol := shareCall_col hP'
    show spread g v (NPROC + 1) p col t = _
    rw [hcol]
    exact hnew.col t

variable {k : Kernel} {p : Slot} {written : List Slot}

theorem setOfileAt_written {col : Slot → Option FileId} {v : Option FileId} {fd : Fd}
    (h : ∀ t, col t = if t ∈ written then v else k.ofileAt fd t) :
    k.setOfileAt fd col = { k with proc := fun t => if t ∈ written then
      { k.proc t with ofile := Function.update (k.proc t).ofile fd v } else k.proc t } := by
  unfold Kernel.setOfileAt Kernel.mapProc
  congr 1
  funext t
  show ({ k.proc t with ofile := Function.update (k.proc t).ofile fd (col t) } : Proc) = _
  rw [h t]
  split_ifs
  · rfl
  · rw [Kernel.ofileAt, Function.update_eq_self]

theorem setCwdAt_written {col : Slot → Option Inode} {v : Option Inode}
    (h : ∀ t, col t = if t ∈ written then v else k.cwdAt t) :
    k.setCwdAt col = { k with proc := fun t => if t ∈ written then
      { k.proc t with cwd := v } else k.proc t } := by
  unfold Kernel.setCwdAt Kernel.mapProc
  congr 1
  funext t
  show ({ k.proc t with cwd := col t } : Proc) = _
  rw [h t]
  split_ifs
  · rfl
  · rfl

/-- `cwdshare(p, ip)`, where `ip` may be null. -/
def Kernel.cwdshareTo (k : Kernel) (p : Slot) (ip : Option Inode) : Kernel :=
  k.setCwdAt (spread k.cwdshare ip Kernel.spreadDepth p k.cwdAt)

/-- **The sharing recursions return**, on every share graph: with at most `NPROC + 1` frames, and with
the processes in `written` changed in the one field, to the new value, and nothing else. -/
theorem sharing_terminates (k : Kernel) (p : Slot) :
    (∀ f fd, ∃ written, Returns k.ofileshare (some f) p (k.ofileAt fd) written ∧
      k.ofileshareopen p f fd = { k with proc := fun t => if t ∈ written then
        { k.proc t with ofile := Function.update (k.proc t).ofile fd (some f) } else k.proc t }) ∧
    (∀ fd, ∃ written, Returns k.ofileshare none p (k.ofileAt fd) written ∧
      k.ofileshareclose p fd = { k with proc := fun t => if t ∈ written then
        { k.proc t with ofile := Function.update (k.proc t).ofile fd none } else k.proc t }) ∧
    ∀ ip, ∃ written, Returns k.cwdshare ip p k.cwdAt written ∧
      k.cwdshareTo p ip = { k with proc := fun t => if t ∈ written then
        { k.proc t with cwd := ip } else k.proc t } := by
  refine ⟨fun f fd => ?_, fun fd => ?_, fun ip => ?_⟩
  · obtain ⟨written, hret, hval⟩ := exists_returns k.ofileshare (some f) p (k.ofileAt fd)
    exact ⟨written, hret, setOfileAt_written hval⟩
  · obtain ⟨written, hret, hval⟩ := exists_returns k.ofileshare none p (k.ofileAt fd)
    exact ⟨written, hret, setOfileAt_written hval⟩
  · obtain ⟨written, hret, hval⟩ := exists_returns k.cwdshare ip p k.cwdAt
    exact ⟨written, hret, setCwdAt_written hval⟩

end OsSemester.Xv6
