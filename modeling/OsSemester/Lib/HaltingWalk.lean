import Mathlib

/-!
# Depth-first walks that halt at a visited neighbour

A node looks at its neighbours in their order, marks each and walks on from it; the first neighbour
that is marked already ends the loop of the node.  `visit adj n cur V` are the marked nodes when such
a walk of depth at most `n` from `cur` has begun with the nodes in `V` marked.  A bound greater than
the number of unmarked nodes is none (`visit_stable`).  In a tree the loop of a node ends at the
neighbour the walk came from, so whether all nodes are marked can be seen from the order of the
neighbours (`visit_complete`).
-/

namespace OsSemester

variable {α : Type} [DecidableEq α]

/-- The loop of the node `cur` over its neighbours in the list. -/
def visitLoop (rec : α → Finset α → Finset α) (cur : α) : List α → Finset α → Finset α
  | [], V => V
  | q :: qs, V =>
    if q = cur then visitLoop rec cur qs V
    else if q ∈ V then V
    else visitLoop rec cur qs (rec q (insert q V))

def visit (adj : α → List α) : ℕ → α → Finset α → Finset α
  | 0, _, V => V
  | n + 1, cur, V => visitLoop (visit adj n) cur (adj cur) V

variable {adj : α → List α} {rec rec' : α → Finset α → Finset α} {cur q t : α} {V : Finset α}
variable {l : List α} {n : ℕ}

theorem subset_visitLoop (hrec : ∀ q V, V ⊆ rec q V) : V ⊆ visitLoop rec cur l V := by
  induction l generalizing V with
  | nil => exact Finset.Subset.refl _
  | cons q l ih =>
    unfold visitLoop
    split_ifs
    · exact ih
    · exact Finset.Subset.refl _
    · exact (Finset.subset_insert q V).trans ((hrec q _).trans ih)

/-- The marks stay. -/
theorem subset_visit : V ⊆ visit adj n cur V := by
  induction n generalizing cur V with
  | zero => exact Finset.Subset.refl _
  | succ n ih => exact subset_visitLoop fun q V => ih

/-- `t` can be reached along neighbours. -/
def Linkable (adj : α → List α) : α → α → Prop := Relation.ReflTransGen fun p q => q ∈ adj p

/-- A way from `q` to `t` along neighbours on which no node of `V` comes behind `q`. -/
def Around (adj : α → List α) (V : Finset α) : α → α → Prop :=
  Relation.ReflTransGen fun p q => q ∈ adj p ∧ q ∉ V

omit [DecidableEq α] in
theorem Around.linkable (h : Around adj V q t) : Linkable adj q t :=
  Relation.ReflTransGen.mono (fun _ _ h => h.1) _ _ h

theorem mem_visitLoop {W : Finset α} (hsub : ∀ q V, V ⊆ rec q V)
    (hrec : ∀ q V, W ⊆ V → t ∈ rec q V → t ∈ V ∨ Around adj W q t)
    (hl : ∀ q ∈ l, q ∈ adj cur) (hW : W ⊆ V) (h : t ∈ visitLoop rec cur l V) :
    t ∈ V ∨ Around adj W cur t := by
  induction l generalizing V with
  | nil => exact Or.inl h
  | cons q l ih =>
    have hq : q ∈ adj cur := hl q (List.mem_cons_self ..)
    have hl' : ∀ q ∈ l, q ∈ adj cur := fun q hq => hl q (List.mem_cons_of_mem _ hq)
    unfold visitLoop at h
    split_ifs at h with hself hV
    · exact ih hl' hW h
    · exact Or.inl h
    · have hW' : W ⊆ insert q V := hW.trans (Finset.subset_insert q V)
      have hqW : q ∉ W := fun hmem => hV (hW hmem)
      rcases ih hl' (hW'.trans (hsub q _)) h with h | h
      · rcases hrec _ _ hW' h with h | h
        · rcases Finset.mem_insert.mp h with rfl | h
          · exact Or.inr (.single ⟨hq, hqW⟩)
          · exact Or.inl h
        · exact Or.inr (.head ⟨hq, hqW⟩ h)
      · exact Or.inr h

/-- Only nodes that can be reached past the marked ones are marked. -/
theorem mem_visit_around {W : Finset α} (hW : W ⊆ V) (h : t ∈ visit adj n cur V) :
    t ∈ V ∨ Around adj W cur t := by
  induction n generalizing cur V with
  | zero => exact Or.inl h
  | succ n ih =>
    exact mem_visitLoop (fun q V => subset_visit) (fun q V hW => ih hW) (fun q hq => hq) hW h

theorem mem_visit (h : t ∈ visit adj n cur V) : t ∈ V ∨ Linkable adj cur t :=
  (mem_visit_around (Finset.Subset.refl V) h).imp id Around.linkable

theorem visitLoop_congr (hsub : ∀ q V, V ⊆ rec q V)
    (h : ∀ q W, V ⊆ W → q ∉ W → rec q (insert q W) = rec' q (insert q W)) :
    visitLoop rec cur l V = visitLoop rec' cur l V := by
  induction l generalizing V with
  | nil => rfl
  | cons q l ih =>
    unfold visitLoop
    split_ifs with hq hV
    · exact ih h
    · rfl
    · rw [← h q V (Finset.Subset.refl _) hV]
      have hV' : V ⊆ rec q (insert q V) := (Finset.subset_insert q V).trans (hsub q _)
      exact ih fun q' W hW => h q' W (hV'.trans hW)

/-- **The bound on the depth.** Every nested walk is from a node that was unmarked before, so a bound
greater than the number of unmarked nodes is never reached. -/
theorem visit_stable [Fintype α] (h : Fintype.card α < n + V.card) :
    visit adj (n + 1) cur V = visit adj n cur V := by
  induction n generalizing cur V with
  | zero =>
    have := Finset.card_le_univ V
    omega
  | succ n ih =>
    refine visitLoop_congr (fun q V => subset_visit) fun q W hW hq => ih ?_
    have := Finset.card_le_card hW
    rw [Finset.card_insert_of_notMem hq]
    omega

/-- The first neighbour is marked in any case. -/
theorem mem_visit_of_find? (h : (adj cur).find? (fun q => q ≠ cur) = some t) :
    t ∈ visit adj (n + 1) cur V := by
  rw [visit]
  generalize adj cur = l at h
  induction l with
  | nil => cases h
  | cons q l ih =>
    unfold visitLoop
    split_ifs with hq hV
    · rw [List.find?_cons_of_neg (by simpa using hq)] at h
      exact ih h
    · rw [List.find?_cons_of_pos (by simpa using hq)] at h
      rwa [← Option.some.inj h]
    · rw [List.find?_cons_of_pos (by simpa using hq)] at h
      obtain rfl := Option.some.inj h
      exact subset_visitLoop (fun _ _ => subset_visit)
        (subset_visit (Finset.mem_insert_self ..))

/-- A walk marks nothing exactly when the first neighbour, if there is one, is marked. -/
theorem visit_eq_self_iff : visit adj (n + 1) cur V = V ↔
    ∀ q, (adj cur).find? (fun q => q ≠ cur) = some q → q ∈ V := by
  constructor
  · intro he q hq
    rw [← he]
    exact mem_visit_of_find? hq
  · rw [visit]
    generalize adj cur = l
    intro h
    induction l with
    | nil => rfl
    | cons q l ih =>
      unfold visitLoop
      split_ifs with hq hV
      · rw [List.find?_cons_of_neg (by simpa using hq)] at h
        exact ih h
      · rfl
      · rw [List.find?_cons_of_pos (by simpa using hq)] at h
        exact absurd (h q rfl) hV

section Congr

variable {S : α → Prop} {V' : Finset α}

theorem visitLoop_congr_on
    (hrec : ∀ q V V', S q → (∀ t, S t → (t ∈ V ↔ t ∈ V')) →
      ∀ t, S t → (t ∈ rec q V ↔ t ∈ rec q V'))
    (hl : ∀ q ∈ l, S q) (hV : ∀ t, S t → (t ∈ V ↔ t ∈ V')) :
    ∀ t, S t → (t ∈ visitLoop rec cur l V ↔ t ∈ visitLoop rec cur l V') := by
  induction l generalizing V V' with
  | nil => exact hV
  | cons q l ih =>
    have hq : S q := hl q (List.mem_cons_self ..)
    have hl' : ∀ q ∈ l, S q := fun q hq => hl q (List.mem_cons_of_mem _ hq)
    unfold visitLoop
    simp only [hV q hq]
    split_ifs
    · exact ih hl' hV
    · exact hV
    · refine ih hl' (hrec q _ _ hq fun t ht => ?_)
      rw [Finset.mem_insert, Finset.mem_insert, hV t ht]

/-- A walk in a part of the graph does not depend on the marks outside of it. -/
theorem visit_congr_on (hS : ∀ p, S p → ∀ q ∈ adj p, S q) (hcur : S cur)
    (hV : ∀ t, S t → (t ∈ V ↔ t ∈ V')) :
    ∀ t, S t → (t ∈ visit adj n cur V ↔ t ∈ visit adj n cur V') := by
  induction n generalizing cur V V' with
  | zero => exact hV
  | succ n ih => exact visitLoop_congr_on (fun q V V' hq => ih hq) (hS cur hcur) hV

end Congr

/-! ### Trees -/

section Forest

variable {S : α → Prop} {p r x y : α}

/-- A graph without cycles on the nodes in `S`: no way leads from a neighbour of a node to another one
past the node. -/
structure Forest (adj : α → List α) (S : α → Prop) : Prop where
  closed : ∀ {p q}, S p → q ∈ adj p → S q
  symm : ∀ {p q}, S p → q ∈ adj p → p ∈ adj q
  irrefl : ∀ {p}, S p → p ∉ adj p
  nodup : ∀ {p}, S p → (adj p).Nodup
  unique : ∀ {p q r}, S p → q ∈ adj p → r ∈ adj p → Around adj {p} q r → q = r

/-- The last neighbour of `x` is the one on the way to `cur`. -/
def LeadsLast (adj : α → List α) (cur x : α) : Prop :=
  ∃ y, (adj x).getLast? = some y ∧ Around adj {x} y cur

namespace Around

omit [DecidableEq α]

theorem step (h : Around adj {p} q x) (hy : y ∈ adj x) (hne : y ≠ p) : Around adj {p} q y :=
  h.tail ⟨hy, by rwa [Finset.mem_singleton]⟩

theorem start (hr : r ∈ adj q) (hne : r ≠ p) (h : Around adj {p} r x) : Around adj {p} q x :=
  .head ⟨hr, by rwa [Finset.mem_singleton]⟩ h

theorem ne (h : Around adj {p} q x) (hne : q ≠ p) : x ≠ p := by
  cases h with
  | refl => exact hne
  | tail _ hx => exact fun h => hx.2 (Finset.mem_singleton.mpr h)

theorem closed (hF : Forest adj S) (h : Around adj {p} q x) (hq : S q) : S x := by
  induction h with
  | refl => exact hq
  | tail _ hx ih => exact hF.closed ih hx.1

theorem symm (hF : Forest adj S) (hq : S q) (hne : q ≠ p) (h : Around adj {p} q x) :
    Around adj {p} x q := by
  induction h with
  | refl => exact .refl
  | @tail x y hx hy ih =>
    have hx : Around adj {p} q x := hx
    exact start (hF.symm (hx.closed hF hq) hy.1) (hx.ne hne) ih

/-- A way that does not come to `r` is one past `r`. -/
theorem past (h : Around adj {p} q x) (hr : ¬ Around adj {p} q r) : Around adj {r} q x := by
  induction h with
  | refl => exact .refl
  | @tail x y hx hy ih =>
    refine ih.step hy.1 ?_
    rintro rfl
    exact hr (hx.tail hy)

/-- The first step of a way, which does not come back. -/
theorem cases_start (h : Around adj V q x) :
    x = q ∨ ∃ r, r ∈ adj q ∧ r ∉ V ∧ Around adj {q} r x := by
  induction h with
  | refl => exact Or.inl rfl
  | @tail x y _ hy ih =>
    by_cases hyq : y = q
    · exact Or.inl hyq
    · right
      rcases ih with rfl | ⟨r, hr, hrV, hrx⟩
      · exact ⟨y, hy.1, hy.2, .refl⟩
      · exact ⟨r, hr, hrV, hrx.step hy.1 hyq⟩

end Around

namespace Forest

variable (hF : Forest adj S)

include hF

omit [DecidableEq α] in
/-- What lies behind another neighbour of `q` than `p` lies behind `q`, seen from `p`. -/
theorem around_child (hq : S q) (hp : p ∈ adj q) (hr : r ∈ adj q) (hrp : r ≠ p)
    (h : Around adj {q} r x) : Around adj {p} q x :=
  .start hr hrp (h.past fun hrp' => hrp (hF.unique hq hr hp hrp'))

omit [DecidableEq α] in
/-- The way back from a neighbour of `q` goes through `q`. -/
theorem around_back (hq : S q) (hp : p ∈ adj q) (hr : r ∈ adj q) (hrp : r ≠ p)
    (h : Around adj {q} p cur) : Around adj {r} q cur :=
  .start hp hrp.symm (h.past fun hpr => hrp (hF.unique hq hp hr hpr).symm)

omit [DecidableEq α] in
theorem ne_of_mem (hq : S q) (hr : r ∈ adj q) : r ≠ q := by
  rintro rfl
  exact hF.irrefl hq hr

omit [DecidableEq α] in
/-- A node lies behind one neighbour only. -/
theorem child_unique (hq : S q) (hp : p ∈ adj q) (hr : r ∈ adj q) (hpx : Around adj {q} p x)
    (hrx : Around adj {q} r x) : p = r :=
  hF.unique hq hp hr (.trans hpx (hrx.symm hF (hF.closed hq hr) (hF.ne_of_mem hq hr)))

/-- The loop of the node `q` over some of its neighbours, with nothing behind them marked. -/
theorem visitLoop_children (cur : α) (hq : S q) {l : List α} (l' : List α) (hl : ∀ r ∈ l, r ∈ adj q)
    (hnd : l.Nodup) (hqV : q ∈ V) (hfree : ∀ r ∈ l, ∀ x ∈ V, ¬ Around adj {q} r x)
    (hrec : ∀ r ∈ l, ∀ W, V ⊆ W → r ∉ W → (∀ x ∈ W, ¬ Around adj {q} r x) →
      ((∀ x, Around adj {q} r x → x ∈ visit adj n r (insert r W)) ↔
        ∀ x, Around adj {q} r x → LeadsLast adj cur x)) :
    ∃ W, V ⊆ W ∧ visitLoop (visit adj n) q (l ++ l') V = visitLoop (visit adj n) q l' W ∧
      (∀ x ∈ W, x ∈ V ∨ ∃ r ∈ l, Around adj {q} r x) ∧
      ((∀ r ∈ l, ∀ x, Around adj {q} r x → x ∈ W) ↔
        ∀ r ∈ l, ∀ x, Around adj {q} r x → LeadsLast adj cur x) := by
  induction l generalizing V with
  | nil => exact ⟨V, Finset.Subset.refl V, rfl, fun x hx => Or.inl hx, by simp⟩
  | cons r l ih =>
    obtain ⟨hr, hl⟩ := List.forall_mem_cons.mp hl
    obtain ⟨hrl, hnd⟩ := List.nodup_cons.mp hnd
    obtain ⟨hfr, hfl⟩ := List.forall_mem_cons.mp hfree
    obtain ⟨hrr, hrecl⟩ := List.forall_mem_cons.mp hrec
    have hrq : r ≠ q := hF.ne_of_mem hq hr
    have hrV : r ∉ V := fun hmem => hfr r hmem .refl
    set V' := visit adj n r (insert r V) with hV'
    have hsub : V ⊆ V' := (Finset.subset_insert r V).trans subset_visit
    -- the nested walk stays behind `r`
    have hnew : ∀ x ∈ V', x ∈ V ∨ Around adj {q} r x := by
      intro x hx
      have hqsub : ({q} : Finset α) ⊆ insert r V :=
        Finset.singleton_subset_iff.mpr (Finset.mem_insert_of_mem hqV)
      rcases mem_visit_around hqsub hx with hx | hx
      · rcases Finset.mem_insert.mp hx with rfl | hx
        · exact Or.inr .refl
        · exact Or.inl hx
      · exact Or.inr hx
    have hfree' : ∀ r' ∈ l, ∀ x ∈ V', ¬ Around adj {q} r' x := by
      intro r' hr' x hx hrx'
      rcases hnew x hx with hx | hrx
      · exact hfl r' hr' x hx hrx'
      · exact hrl (hF.child_unique hq hr (hl r' hr') hrx hrx' ▸ hr')
    obtain ⟨W, hVW, hloop, hW, hiff⟩ := ih hl hnd (hsub hqV) hfree'
      fun r' hr' W hVW => hrecl r' hr' W (hsub.trans hVW)
    have hbehind := hrr V (Finset.Subset.refl V) hrV hfr
    refine ⟨W, hsub.trans hVW, ?_, fun x hx => ?_, ?_⟩
    · rw [List.cons_append, visitLoop, if_neg hrq, if_neg hrV]
      exact hloop
    · rcases hW x hx with hx | ⟨r', hr', hx⟩
      · exact (hnew x hx).imp id fun hx => ⟨r, List.mem_cons_self .., hx⟩
      · exact Or.inr ⟨r', List.mem_cons_of_mem _ hr', hx⟩
    · rw [List.forall_mem_cons, List.forall_mem_cons, ← hiff, ← hbehind]
      refine and_congr_left fun _ => forall₂_congr fun x hx => ⟨fun hxW => ?_, fun hxV => hVW hxV⟩
      rcases hW x hxW with hxV | ⟨r', hr', hrx'⟩
      · exact hxV
      · exact absurd (hF.child_unique hq hr (hl r' hr') hx hrx' ▸ hr') hrl

/-- **A walk covers what lies behind `q`**, seen from the marked neighbour `p` on the way to `cur`,
exactly when the way to `cur` is the last neighbour of every node there: the loop of a node ends at the
neighbour it came from. -/
theorem visit_branch [Fintype α] (hq : S q) (hp : p ∈ adj q) (hback : Around adj {q} p cur)
    (hfuel : Fintype.card α < n + V.card) (hpV : p ∈ V) (hqV : q ∈ V)
    (hV : ∀ x ∈ V, Around adj {p} q x → x = q) :
    (∀ x, Around adj {p} q x → x ∈ visit adj n q V) ↔
      ∀ x, Around adj {p} q x → LeadsLast adj cur x := by
  induction n generalizing p q V with
  | zero =>
    have := Finset.card_le_univ V
    omega
  | succ n ih =>
    obtain ⟨l, l', hadj⟩ := List.append_of_mem hp
    have hnd := hF.nodup hq
    rw [hadj, List.nodup_append] at hnd
    obtain ⟨hndl, hndp, hdisj⟩ := hnd
    have hpl' : p ∉ l' := (List.nodup_cons.mp hndp).1
    have hpq : p ≠ q := hF.ne_of_mem hq hp
    have hmem : ∀ r, r ∈ adj q ↔ r ∈ l ∨ r = p ∨ r ∈ l' := by simp [hadj]
    have hlp : ∀ r ∈ l, r ≠ p := fun r hr => hdisj r hr p (List.mem_cons_self ..)
    have hl : ∀ r ∈ l, r ∈ adj q := fun r hr => (hmem r).mpr (Or.inl hr)
    have hfree : ∀ r ∈ l, ∀ x ∈ V, ¬ Around adj {q} r x := by
      intro r hr x hx hrx
      refine hrx.ne (hF.ne_of_mem hq (hl r hr)) (hV x hx ?_)
      exact hF.around_child hq hp (hl r hr) (hlp r hr) hrx
    obtain ⟨W, hVW, hloop, hW, hiff⟩ := hF.visitLoop_children cur hq (p :: l') hl hndl hqV hfree
      fun r hr W hVW hrW hbare => by
        refine ih (hF.closed hq (hl r hr)) (hF.symm hq (hl r hr))
          (hF.around_back hq hp (hl r hr) (hlp r hr) hback) ?_ (Finset.mem_insert_of_mem (hVW hqV))
          (Finset.mem_insert_self ..) fun x hx hrx => ?_
        · have := Finset.card_le_card hVW
          rw [Finset.card_insert_of_notMem hrW]
          omega
        · exact (Finset.mem_insert.mp hx).resolve_right fun hx => hbare x hx hrx
    have hvisit : visit adj (n + 1) q V = W := by
      rw [visit, hadj, hloop, visitLoop, if_neg hpq, if_pos (hVW hpV)]
    -- the loop reaches the end of the list exactly when `p` is its last entry
    have hlast : LeadsLast adj cur q ↔ l' = [] := by
      constructor
      · rintro ⟨y, hy, hycur⟩
        have hyq : y ∈ adj q := List.mem_of_getLast? hy
        obtain rfl : y = p := hF.child_unique hq hyq hp hycur hback
        by_contra hne
        rw [hadj, List.getLast?_append_of_ne_nil _ (List.cons_ne_nil _ _),
          List.getLast?_cons_of_ne_nil hne] at hy
        exact hpl' (List.mem_of_getLast? hy)
      · rintro rfl
        exact ⟨p, by rw [hadj, List.getLast?_concat], hback⟩
    have hchild : ∀ {r x}, r ∈ l → Around adj {q} r x → Around adj {p} q x := fun hr =>
      hF.around_child hq hp (hl _ hr) (hlp _ hr)
    rw [hvisit]
    constructor
    · intro hall
      have hnil : l' = [] := by
        by_contra hne
        obtain ⟨r, hr⟩ := List.exists_mem_of_ne_nil l' hne
        have hrq : r ∈ adj q := (hmem r).mpr (Or.inr (Or.inr hr))
        have hrp : r ≠ p := fun h => hpl' (h ▸ hr)
        rcases hW r (hall r (.start hrq hrp .refl)) with hrV | ⟨r', hr', hrr'⟩
        · exact hF.ne_of_mem hq hrq (hV r hrV (.start hrq hrp .refl))
        · obtain rfl := hF.child_unique hq (hl r' hr') hrq hrr' .refl
          exact hdisj r' hr' r' (List.mem_cons_of_mem _ hr) rfl
      intro x hx
      rcases hx.cases_start with rfl | ⟨r, hr, hrp, hrx⟩
      · exact hlast.mpr hnil
      · have hrl : r ∈ l := by
          have hrp : r ≠ p := fun h => hrp (Finset.mem_singleton.mpr h)
          simpa [hmem, hrp, hnil] using hr
        exact hiff.mp (fun r hr x hx => hall x (hchild hr hx)) r hrl x hrx
    · intro hall x hx
      have hnil : l' = [] := hlast.mp (hall q .refl)
      rcases hx.cases_start with rfl | ⟨r, hr, hrp, hrx⟩
      · exact hVW hqV
      · have hrl : r ∈ l := by
          have hrp : r ≠ p := fun h => hrp (Finset.mem_singleton.mpr h)
          simpa [hmem, hrp, hnil] using hr
        exact hiff.mpr (fun r hr x hx => hall x (hchild hr hx)) r hrl x hrx

/-- **A walk over a tree is complete** exactly when every node but the first has the way back to it as
its last neighbour. -/
theorem visit_complete [Fintype α] (hcur : S cur) (hfuel : Fintype.card α ≤ n) :
    (∀ x, Linkable adj cur x → x ∈ visit adj (n + 1) cur {cur}) ↔
      ∀ x, Linkable adj cur x → x ≠ cur → LeadsLast adj cur x := by
  have hne : ∀ r ∈ adj cur, r ≠ cur := fun r hr => hF.ne_of_mem hcur hr
  have hfree : ∀ r ∈ adj cur, ∀ x ∈ ({cur} : Finset α), ¬ Around adj {cur} r x := by
    intro r hr x hx hrx
    exact hrx.ne (hne r hr) (Finset.mem_singleton.mp hx)
  obtain ⟨W, hVW, hloop, -, hiff⟩ := hF.visitLoop_children (n := n) cur hcur []
    (fun r hr => hr) (hF.nodup hcur) (Finset.mem_singleton_self cur) hfree
    fun r hr W hVW hrW hbare => by
      refine hF.visit_branch (hF.closed hcur hr) (hF.symm hcur hr) .refl ?_
        (Finset.mem_insert_of_mem (hVW (Finset.mem_singleton_self cur))) (Finset.mem_insert_self ..)
        fun x hx hrx => ?_
      · have := Finset.card_pos.mpr (Finset.insert_nonempty r W)
        omega
      · exact (Finset.mem_insert.mp hx).resolve_right fun hx => hbare x hx hrx
  have hvisit : visit adj (n + 1) cur {cur} = W := by
    rw [visit, ← List.append_nil (adj cur), hloop, visitLoop]
  have hcases : ∀ {x}, Linkable adj cur x → x = cur ∨ ∃ r ∈ adj cur, Around adj {cur} r x := by
    intro x hx
    have hx : Around adj ∅ cur x := Relation.ReflTransGen.mono
      (fun _ _ h => ⟨h, Finset.notMem_empty _⟩) _ _ hx
    exact hx.cases_start.imp id fun ⟨r, hr, _, hrx⟩ => ⟨r, hr, hrx⟩
  rw [hvisit]
  constructor
  · intro hall x hx hxc
    obtain ⟨r, hr, hrx⟩ := (hcases hx).resolve_left hxc
    exact hiff.mp (fun r hr x hrx => hall x (.head hr hrx.linkable)) r hr x hrx
  · intro hall x hx
    rcases hcases hx with rfl | ⟨r, hr, hrx⟩
    · exact hVW (Finset.mem_singleton_self x)
    · exact hiff.mpr (fun r hr x hrx => hall x (.head hr hrx.linkable) (hrx.ne (hne r hr))) r hr x hrx

end Forest

end Forest

end OsSemester
