import OsSemester.Lib.Pairing
import OsSemester.Lib.RefCount

/-!
# Shared tables kept in copies

Members of a set own tables that name objects.  Two members may share one table; each then keeps a
copy of it, and a reference to an object is counted once for the table, not once for each copy.

`Shared π P col cls next ref tab` is the state of such a scheme: `π` couples the members that share,
`P` says who is present, `col` holds the copies, `cls` numbers the tables (`next` is the first number
not used yet), `ref` counts references, and `tab` is the table behind the copies.  Each lemma is one
operation: `Shared.enter` and `Shared.retire` for members without entries, `Shared.fill` for a member
that receives a table of its own, `Shared.couple` for one that joins another's, `Shared.write` for an
assignment to all copies, `Shared.separate` for a member that takes its copy along, and
`Shared.leave_shared` and `Shared.leave_alone` for one that goes.
-/

namespace OsSemester

variable {α κ φ : Type*}

/-- A table without entries. -/
def noEntry : κ → Option φ := fun _ => none

/-- The copies `col` belong to tables `tab` whose entries `ref` counts. -/
structure Shared (π : Pairing α) (P : α → Prop) (col : α → κ → Option φ) (cls : α → ℕ) (next : ℕ)
    (ref : φ → ℤ) (tab : ℕ → κ → Option φ) : Prop where
  present : ∀ {s t}, π.partner s = some t → P s
  table : ∀ {t}, P t → col t = tab (cls t)
  absent : ∀ {t}, ¬ P t → col t = noEntry
  dead : ∀ {l}, (∀ t, P t → cls t ≠ l) → tab l = noEntry
  same : ∀ {s t}, P s → P t → s ≠ t → (cls s = cls t ↔ π.partner s = some t)
  fresh : ∀ t, cls t < next
  counts : Counts (fun p : ℕ × κ => tab p.1 p.2) ref

namespace Shared

variable {π : Pairing α} {P : α → Prop} {col : α → κ → Option φ} {cls : α → ℕ} {next : ℕ}
variable {ref ref' : φ → ℤ} {tab : ℕ → κ → Option φ} {s t np q : α} {k : κ} {f : φ}

/-! ### What the counts say -/

/-- A member's entry is an entry of its table. -/
theorem entry (h : Shared π P col cls next ref tab) (ht : P t) (k : κ) :
    tab (cls t) k = col t k := by
  rw [h.table ht]

/-- What a member names is referenced. -/
theorem pos (h : Shared π P col cls next ref tab) (ht : P t) (hk : col t k = some f) :
    0 < ref f := by
  rw [← h.entry ht k] at hk
  exact h.counts.pos (k := (cls t, k)) hk

/-- An entry of a table is one of a member. -/
theorem exists_member (h : Shared π P col cls next ref tab) {l : ℕ} (hk : tab l k = some f) :
    ∃ t, P t ∧ cls t = l ∧ col t k = some f := by
  by_contra hn
  push Not at hn
  have hl : ∀ t, P t → cls t ≠ l := by
    rintro t ht rfl
    refine hn t ht rfl ?_
    rw [← h.entry ht k, hk]
  rw [h.dead hl] at hk
  cases hk

/-- What nobody names is not referenced. -/
theorem eq_zero (h : Shared π P col cls next ref tab) (hf : ∀ t k, P t → col t k ≠ some f) :
    ref f = 0 := by
  refine h.counts.eq_zero ?_
  rintro ⟨l, k⟩ hk
  obtain ⟨t, ht, -, htk⟩ := h.exists_member hk
  exact hf t k ht htk

/-- A reference is counted once for each table and key that names the object. -/
theorem card (h : Shared π P col cls next ref tab) (f : φ) :
    ref f = {p : ℕ × κ | ∃ t, P t ∧ cls t = p.1 ∧ col t p.2 = some f}.ncard := by
  have hset : {p : ℕ × κ | ∃ t, P t ∧ cls t = p.1 ∧ col t p.2 = some f} =
      {p | tab p.1 p.2 = some f} := by
    ext ⟨l, k⟩
    constructor
    · rintro ⟨t, ht, rfl, hk⟩
      rwa [← h.entry ht k] at hk
    · exact h.exists_member
  rw [hset]
  exact h.counts.card f

/-- The number that has not been used yet belongs to no table. -/
theorem tab_next (h : Shared π P col cls next ref tab) : tab next = noEntry :=
  h.dead fun t _ => (h.fresh t).ne

/-- The class of a member without a partner is its own. -/
theorem cls_ne (h : Shared π P col cls next ref tab) (hs : P s) (hp : π.partner s = none)
    (ht : P t) (hts : t ≠ s) : cls t ≠ cls s := by
  intro he
  rw [h.same ht hs hts] at he
  rw [π.symm he] at hp
  cases hp

/-- Members of one class are equal or partners. -/
theorem cls_eq_iff (h : Shared π P col cls next ref tab) (hs : P s) (ht : P t) :
    cls t = cls s ↔ t = s ∨ π.partner s = some t := by
  by_cases hts : t = s
  · simp [hts]
  · rw [eq_comm, h.same hs ht (Ne.symm hts)]
    simp [hts]

/-! ### Operations -/

theorem entries_update (l : ℕ) (src : κ → Option φ) :
    (fun p : ℕ × κ => Function.update tab l src p.1 p.2) =
      fun p => if p.1 = l then src p.2 else tab p.1 p.2 := by
  funext p
  rw [Function.update_apply]
  split_ifs <;> rfl

variable [DecidableEq α]

/-- A member without entries comes, as a class of its own. -/
theorem enter (h : Shared π P col cls next ref tab) (hnp : ¬ P np) :
    Shared π (fun t => t = np ∨ P t) col (Function.update cls np next) (next + 1) ref tab := by
  have hcls : ∀ {t}, P t → Function.update cls np next t = cls t := by
    intro t ht
    refine Function.update_of_ne ?_ _ _
    rintro rfl
    exact hnp ht
  refine ⟨fun hp => Or.inr (h.present hp), fun {t} ht => ?_, fun {t} ht => ?_, fun {l} hl => ?_,
    fun {s t} hs ht hne => ?_, fun t => ?_, h.counts⟩
  · rcases ht with rfl | ht
    · rw [Function.update_self, h.absent hnp, h.tab_next]
    · rw [hcls ht, h.table ht]
  · exact h.absent fun hP => ht (Or.inr hP)
  · refine h.dead fun t ht => ?_
    have := hl t (Or.inr ht)
    rwa [hcls ht] at this
  · have hno : ∀ {a b}, P a → π.partner a ≠ some np ∧ π.partner np ≠ some b := fun _ =>
      ⟨fun hp => hnp (h.present (π.symm hp)), fun hp => hnp (h.present hp)⟩
    rcases hs with rfl | hs <;> rcases ht with rfl | ht
    · exact absurd rfl hne
    · rw [Function.update_self, hcls ht]
      exact iff_of_false (h.fresh t).ne' (hno ht).2
    · rw [Function.update_self, hcls hs]
      exact iff_of_false (h.fresh s).ne (hno hs (b := s)).1
    · rw [hcls hs, hcls ht]
      exact h.same hs ht hne
  · have := h.fresh t
    rw [Function.update_apply]
    split_ifs <;> omega

/-- A member without entries and without a partner goes. -/
theorem retire (h : Shared π P col cls next ref tab) (hp : π.partner np = none)
    (hcol : col np = noEntry) : Shared π (fun t => P t ∧ t ≠ np) col cls next ref tab := by
  refine ⟨fun {s t} hst => ⟨h.present hst, ?_⟩, fun ht => h.table ht.1, fun {t} ht => ?_,
    fun {l} hl => ?_, fun hs ht hne => h.same hs.1 ht.1 hne, h.fresh, h.counts⟩
  · rintro rfl
    rw [hp] at hst
    cases hst
  · by_cases hP : P t
    · have htn : t = np := by
        by_contra hne
        exact ht ⟨hP, hne⟩
      rw [htn, hcol]
    · exact h.absent hP
  · by_cases hl' : ∀ t, P t → cls t ≠ l
    · exact h.dead hl'
    · push Not at hl'
      obtain ⟨t, ht, rfl⟩ := hl'
      have htn : t = np := by
        by_contra hne
        exact hl t ⟨ht, hne⟩ rfl
      rw [← h.table ht, htn, hcol]

/-- A member without a partner receives a table of its own. -/
theorem fill (h : Shared π P col cls next ref tab) (hnp : P np) (hp : π.partner np = none)
    (src : κ → Option φ)
    (hC : Counts (fun p : ℕ × κ => if p.1 = cls np then src p.2 else tab p.1 p.2) ref') :
    Shared π P (Function.update col np src) cls next ref' (Function.update tab (cls np) src) := by
  rw [← entries_update] at hC
  refine ⟨h.present, fun {t} ht => ?_, fun {t} ht => ?_, fun {l} hl => ?_, h.same, h.fresh, hC⟩
  · by_cases htn : t = np
    · rw [htn, Function.update_self, Function.update_self]
    · rw [Function.update_of_ne htn, Function.update_of_ne (h.cls_ne hnp hp ht htn), h.table ht]
  · have htn : t ≠ np := by
      rintro rfl
      exact ht hnp
    rw [Function.update_of_ne htn, h.absent ht]
  · rw [Function.update_of_ne (hl np hnp).symm]
    exact h.dead hl

/-- A member without entries and without a partner joins another such member's table. -/
theorem couple (h : Shared π P col cls next ref tab) (hs : P s) (hnp : P np) (hne : s ≠ np)
    (hps : π.partner s = none) (hpn : π.partner np = none) (hcol : col np = noEntry) :
    Shared (π.join s np hne hps hpn) P (Function.update col np (col s))
      (Function.update cls np (cls s)) next ref tab := by
  -- the other pairs stay
  have hjoin : ∀ {a b}, a ≠ s → a ≠ np → ((π.join s np hne hps hpn).partner a = some b ↔
      π.partner a = some b) := by
    intro a b ha hb
    rw [π.partner_join_of_ne hne hps hpn ha hb]
  refine ⟨fun {a b} hab => ?_, fun {t} ht => ?_, fun {t} ht => ?_, fun {l} hl => ?_,
    fun {a b} ha hb hab => ?_, fun t => ?_, h.counts⟩
  · by_cases has : a = s
    · rwa [has]
    · by_cases han : a = np
      · rwa [han]
      · exact h.present ((hjoin has han).mp hab)
  · by_cases htn : t = np
    · rw [htn, Function.update_self, Function.update_self, h.table hs]
    · rw [Function.update_of_ne htn, Function.update_of_ne htn, h.table ht]
  · have htn : t ≠ np := by
      rintro rfl
      exact ht hnp
    rw [Function.update_of_ne htn, h.absent ht]
  · by_cases hl' : ∀ t, P t → cls t ≠ l
    · exact h.dead hl'
    · push Not at hl'
      obtain ⟨t, ht, rfl⟩ := hl'
      have htn : t = np := by
        by_contra htn
        refine hl t ht ?_
        rw [Function.update_of_ne htn]
      rw [← h.table ht, htn, hcol]
  · by_cases han : a = np
    · rw [han, Function.update_self, Function.update_of_ne (fun hbn => hab (han.trans hbn.symm)),
        π.partner_join_right hne hps hpn]
      by_cases hbs : b = s
      · rw [hbs]
        exact iff_of_true rfl rfl
      · refine iff_of_false (h.cls_ne hs hps hb hbs).symm ?_
        exact fun he => hbs (Option.some.inj he).symm
    · rw [Function.update_of_ne han]
      by_cases hbn : b = np
      · rw [hbn, Function.update_self]
        by_cases has : a = s
        · rw [has, π.partner_join_left hne hps hpn]
          exact iff_of_true rfl rfl
        · rw [hjoin has han]
          refine iff_of_false (h.cls_ne hs hps ha has) fun he => ?_
          rw [π.symm he] at hpn
          cases hpn
      · rw [Function.update_of_ne hbn]
        by_cases has : a = s
        · rw [has, π.partner_join_left hne hps hpn]
          refine iff_of_false (h.cls_ne hs hps hb ?_).symm ?_
          · rintro rfl
            exact hab has
          · exact fun he => hbn (Option.some.inj he).symm
        · rw [hjoin has han]
          exact h.same ha hb hab
  · rw [Function.update_apply]
    split_ifs
    · exact h.fresh s
    · exact h.fresh t

/-- A member and its partner assign to one key. -/
theorem write [DecidableEq κ] (h : Shared π P col cls next ref tab) (hs : P s) (k : κ)
    (v : Option φ)
    (hC : Counts (Function.update (fun p : ℕ × κ => tab p.1 p.2) (cls s, k) v) ref') :
    Shared π P (fun t => if t = s ∨ π.partner s = some t then Function.update (col t) k v else col t)
      cls next ref' (Function.update tab (cls s) (Function.update (tab (cls s)) k v)) := by
  have hent : Function.update (fun p : ℕ × κ => tab p.1 p.2) (cls s, k) v = fun p =>
      Function.update tab (cls s) (Function.update (tab (cls s)) k v) p.1 p.2 := by
    funext ⟨l, j⟩
    by_cases hl : l = cls s
    · subst hl
      by_cases hj : j = k
      · simp [hj]
      · simp [hj, Function.update_of_ne]
    · simp [hl]
  rw [hent] at hC
  refine ⟨h.present, fun {t} ht => ?_, fun {t} ht => ?_, fun {l} hl => ?_, h.same, h.fresh, hC⟩
  · have hiff := h.cls_eq_iff hs ht
    split_ifs with hts
    · rw [hiff.mpr hts, Function.update_self, h.table ht, hiff.mpr hts]
    · rw [Function.update_of_ne fun he => hts (hiff.mp he), h.table ht]
  · rw [if_neg, h.absent ht]
    rintro (rfl | hp)
    · exact ht hs
    · exact ht (h.present (π.symm hp))
  · rw [Function.update_of_ne (hl s hs).symm]
    exact h.dead hl

/-- A member assigns an object to a free key of its table. -/
theorem write_add [DecidableEq κ] [DecidableEq φ] (h : Shared π P col cls next ref tab) (hs : P s)
    (hk : col s k = none) : Shared π P
      (fun t => if t = s ∨ π.partner s = some t then Function.update (col t) k (some f) else col t)
      cls next (Function.update ref f (ref f + 1))
      (Function.update tab (cls s) (Function.update (tab (cls s)) k (some f))) :=
  h.write hs k (some f) (h.counts.add ((h.entry hs k).trans hk))

/-- A member clears a key of its table. -/
theorem write_drop [DecidableEq κ] [DecidableEq φ] (h : Shared π P col cls next ref tab) (hs : P s)
    (hk : col s k = some f) : Shared π P
      (fun t => if t = s ∨ π.partner s = some t then Function.update (col t) k none else col t)
      cls next (Function.update ref f (ref f - 1))
      (Function.update tab (cls s) (Function.update (tab (cls s)) k none)) :=
  h.write hs k none (h.counts.drop ((h.entry hs k).trans hk))

/-- The class of `s` gets a new number: a member that shares with nobody, or has no entries. -/
theorem separate (h : Shared π P col cls next ref tab) (hs : P s)
    (hok : π.partner s = none ∨ col s = noEntry) :
    Shared (π.leave s) P col (Function.update cls s next) (next + 1) ref
      (tab ∘ Equiv.swap (cls s) next) := by
  have hself : tab (Equiv.swap (cls s) next next) = col s := by
    rw [Equiv.swap_apply_right, h.table hs]
  have hother : ∀ {t}, P t → t ≠ s → tab (Equiv.swap (cls s) next (cls t)) = col t := by
    intro t ht hts
    have htn : cls t ≠ next := (h.fresh t).ne
    by_cases he : cls t = cls s
    · -- the partner keeps the old number, and the table has no entries
      rcases hok with hok | hok
      · exact absurd he (h.cls_ne hs hok ht hts)
      · rw [he, Equiv.swap_apply_left, h.tab_next, h.table ht, he, ← h.table hs, hok]
    · rw [Equiv.swap_apply_of_ne_of_ne he htn, h.table ht]
  refine ⟨fun {a b} hab => h.present (π.partner_of_leave hab).1, fun {t} ht => ?_, h.absent,
    fun {l} hl => ?_, fun {a b} ha hb hab => ?_, fun t => ?_, ?_⟩
  · by_cases hts : t = s
    · rw [hts, Function.update_self, Function.comp_apply, hself]
    · rw [Function.update_of_ne hts, Function.comp_apply, hother ht hts]
  · rw [Function.comp_apply]
    have hln : l ≠ next := fun he => hl s hs (by rw [he, Function.update_self])
    by_cases hls : l = cls s
    · rw [hls, Equiv.swap_apply_left, h.tab_next]
    · rw [Equiv.swap_apply_of_ne_of_ne hls hln]
      refine h.dead fun t ht => ?_
      by_cases hts : t = s
      · rw [hts]
        exact Ne.symm hls
      · have := hl t ht
        rwa [Function.update_of_ne hts] at this
  · have hleave : ∀ {c d}, c ≠ s → d ≠ s → ((π.leave s).partner c = some d ↔
        π.partner c = some d) := fun hc hd =>
      ⟨fun he => (π.partner_of_leave he).1, fun he => π.partner_leave_of_ne he hc hd⟩
    by_cases has : a = s
    · have hbs : b ≠ s := fun hbs => hab (has.trans hbs.symm)
      rw [has, Function.update_self, Function.update_of_ne hbs]
      exact iff_of_false (h.fresh b).ne' (by simp)
    · rw [Function.update_of_ne has]
      by_cases hbs : b = s
      · rw [hbs, Function.update_self]
        refine iff_of_false (h.fresh a).ne fun he => ?_
        exact (π.partner_of_leave he).2.2 rfl
      · rw [Function.update_of_ne hbs, hleave has hbs]
        exact h.same ha hb hab
  · have := h.fresh t
    rw [Function.update_apply]
    split_ifs <;> omega
  · exact h.counts.rename (Equiv.prodCongr (Equiv.swap (cls s) next) (Equiv.refl κ))

/-- A member goes and leaves its table to its partner. -/
theorem leave_shared (h : Shared π P col cls next ref tab) (hp : π.partner s = some q) :
    Shared (π.leave s) (fun t => P t ∧ t ≠ s) (Function.update col s noEntry) cls next ref tab := by
  have hq : P q := h.present (π.symm hp)
  have hne : q ≠ s := (π.ne_of_partner hp).symm
  refine ⟨fun {a b} hab => ?_, fun {t} ht => ?_, fun {t} ht => ?_, fun {l} hl => ?_,
    fun {a b} ha hb hab => ?_, h.fresh, h.counts⟩
  · obtain ⟨h1, h2, -⟩ := π.partner_of_leave hab
    exact ⟨h.present h1, h2⟩
  · rw [Function.update_of_ne ht.2, h.table ht.1]
  · by_cases hts : t = s
    · rw [hts, Function.update_self]
    · rw [Function.update_of_ne hts]
      exact h.absent fun hP => ht ⟨hP, hts⟩
  · refine h.dead fun t ht => ?_
    by_cases hts : t = s
    · rw [hts, (h.same (h.present hp) hq hne.symm).mpr hp]
      exact hl q ⟨hq, hne⟩
    · exact hl t ⟨ht, hts⟩
  · rw [h.same ha.1 hb.1 hab]
    exact ⟨fun he => π.partner_leave_of_ne he ha.2 hb.2, fun he => (π.partner_of_leave he).1⟩

/-- A member that shares with nobody goes, and its table with it. -/
theorem leave_alone (h : Shared π P col cls next ref tab) (hs : P s) (hp : π.partner s = none)
    (hC : Counts (fun p : ℕ × κ => if p.1 = cls s then none else tab p.1 p.2) ref') :
    Shared (π.leave s) (fun t => P t ∧ t ≠ s) (Function.update col s noEntry) cls next ref'
      (Function.update tab (cls s) noEntry) := by
  have hent : (fun p : ℕ × κ => Function.update tab (cls s) noEntry p.1 p.2) = _ :=
    entries_update (cls s) noEntry
  rw [show (fun p : ℕ × κ => if p.1 = cls s then none else tab p.1 p.2) = _ from hent.symm] at hC
  refine ⟨fun {a b} hab => ?_, fun {t} ht => ?_, fun {t} ht => ?_, fun {l} hl => ?_,
    fun {a b} ha hb hab => ?_, h.fresh, hC⟩
  · obtain ⟨h1, h2, -⟩ := π.partner_of_leave hab
    exact ⟨h.present h1, h2⟩
  · rw [Function.update_of_ne ht.2, Function.update_of_ne (h.cls_ne hs hp ht.1 ht.2), h.table ht.1]
  · by_cases hts : t = s
    · rw [hts, Function.update_self]
    · rw [Function.update_of_ne hts]
      exact h.absent fun hP => ht ⟨hP, hts⟩
  · by_cases hls : l = cls s
    · rw [hls, Function.update_self]
    · rw [Function.update_of_ne hls]
      refine h.dead fun t ht => ?_
      by_cases hts : t = s
      · rw [hts]
        exact Ne.symm hls
      · exact hl t ⟨ht, hts⟩
  · rw [h.same ha.1 hb.1 hab]
    exact ⟨fun he => π.partner_leave_of_ne he ha.2 hb.2, fun he => (π.partner_of_leave he).1⟩

end Shared

end OsSemester
