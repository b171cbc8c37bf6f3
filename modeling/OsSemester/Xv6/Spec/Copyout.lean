import OsSemester.Xv6.UserSpace

/-!
# What `copyout` does

Byte `i` of the buffer goes to the address `(va + i) % 2 ^ 32`.  The first of these addresses that the
user has no access to decides how the call ends: with -1 if it has a page table, and with a read
through a null pointer if it has none.
-/

namespace OsSemester.Xv6

variable {d : PageDir} {m m' m'' : PhysMem} {va k n : ℕ} {buf : List UInt8}

/-- A page at the address is present and accessible to the user. -/
def PageDir.User (d : PageDir) (b : ℕ) : Prop := ∃ p, d.pte b = some p ∧ p.perm.user = true

theorem PageDir.user_congr {a b : ℕ} (h : SameEntry a b) : d.User a ↔ d.User b := by
  unfold PageDir.User
  rw [PageDir.pte_congr h]

instance (d : PageDir) (b : ℕ) : Decidable (d.User b) :=
  match h : d.pte b with
  | none => isFalse fun ⟨p, hp, _⟩ => by
      rw [h] at hp
      cases hp
  | some p =>
    decidable_of_iff (p.perm.user = true)
      ⟨fun hu => ⟨p, h, hu⟩, fun ⟨q, hq, hu⟩ => by
        rw [h] at hq
        rwa [Option.some.inj hq]⟩

theorem PageDir.User.table {b : ℕ} (h : d.User b) : d.table (PDX b) ≠ none := by
  obtain ⟨p, hp, -⟩ := h
  intro ht
  rw [PageDir.pte_of_table_none ht] at hp
  cases hp

/-- `uva2ka` reads the entry of its address, which must have a table. -/
theorem uva2ka_eq {b : ℕ} (h : d.table (PDX b) ≠ none) :
    uva2ka d b = .ok ((d.pte b).bind fun p => if p.perm.user then some p.page else none) := by
  obtain ⟨t, ht⟩ := Option.ne_none_iff_exists'.mp h
  unfold uva2ka
  simp only [ht]
  cases d.pte b <;> rfl

theorem uva2ka_null {b : ℕ} (h : d.table (PDX b) = none) : uva2ka d b = .error .null := by
  unfold uva2ka
  simp only [h]

/-! ### One page -/

theorem write_data (m : PhysMem) (pg : Page) (off : ℕ) (buf : List UInt8) (f : Page)
    (j : Fin PGSIZE) : (m.write pg off buf).data f j =
      if f = pg ∧ off ≤ j ∧ (j : ℕ) < off + buf.length then buf.getD (j - off) 0
      else m.data f j := by
  simp only [PhysMem.write, PhysMem.setData, Function.update_apply]
  by_cases hf : f = pg
  · subst hf
    simp only [if_true, true_and]
  · simp only [hf, if_false, false_and]

/-! ### The whole buffer -/

/-- The buffer has been copied to the user pages from `va` on: nothing but its bytes has changed, and
where the pages are different ones it can be read back. -/
structure Wrote (d : PageDir) (va : ℕ) (buf : List UInt8) (m m' : PhysMem) : Prop
    extends NoPanic m m' where
  free : m'.free = m.free
  changed : ∀ f j, m'.data f j ≠ m.data f j → ∃ i p, i < buf.length ∧
    d.pte ((va + i) % 2 ^ 32) = some p ∧ p.perm.user = true ∧ p.page = f ∧
    (va + i) % 2 ^ 32 % PGSIZE = j
  bytes : buf.length ≤ 2 ^ 32 →
    (∀ i j, i < buf.length → j < buf.length → ∀ p q, d.pte ((va + i) % 2 ^ 32) = some p →
      d.pte ((va + j) % 2 ^ 32) = some q → p.page = q.page →
      SameEntry ((va + i) % 2 ^ 32) ((va + j) % 2 ^ 32)) →
    ∀ i, i < buf.length → d.byte m' ((va + i) % 2 ^ 32) = buf[i]?

theorem Wrote.nil (d : PageDir) (va : ℕ) (m : PhysMem) : Wrote d va [] m m :=
  ⟨⟨rfl, rfl⟩, rfl, fun _ _ h => absurd rfl h, fun _ _ _ hi => absurd hi (Nat.not_lt_zero _)⟩

/-- The addresses up to the end of a page share its entry. -/
theorem sameEntry_within (hva : va < 2 ^ 32) {i : ℕ} (hi : va % PGSIZE + i < PGSIZE) :
    (va + i) % 2 ^ 32 = va + i ∧ SameEntry (va + i) va ∧ (va + i) % PGSIZE = va % PGSIZE + i := by
  simp only [PGSIZE] at *
  have hlt : va + i < 2 ^ 32 := by omega
  refine ⟨Nat.mod_eq_of_lt hlt, ?_, by omega⟩
  rw [sameEntry_iff hlt hva]
  simp only [PGSIZE]
  omega

/-- One iteration, then the rest of the buffer. -/
theorem Wrote.cons {p : Pte} (hva : va < 2 ^ 32) (hp : d.pte va = some p)
    (hu : p.perm.user = true) (hn : n = min (PGSIZE - va % PGSIZE) buf.length)
    (h : Wrote d ((PGROUNDDOWN va + PGSIZE) % 2 ^ 32) (buf.drop n)
      (m.write p.page (va % PGSIZE) (buf.take n)) m') : Wrote d va buf m m' := by
  have hmod : va % PGSIZE < PGSIZE := Nat.mod_lt _ (by decide)
  have hnl : n ≤ buf.length := by omega
  have hpage : va % PGSIZE + n ≤ PGSIZE := by omega
  -- the addresses of this page, and those of the rest
  have hin : ∀ i, i < n → (va + i) % 2 ^ 32 = va + i ∧ SameEntry (va + i) va ∧
      (va + i) % PGSIZE = va % PGSIZE + i := fun i hi => sameEntry_within hva (by omega)
  have hrest : ∀ i, i < (buf.drop n).length →
      ((PGROUNDDOWN va + PGSIZE) % 2 ^ 32 + i) % 2 ^ 32 = (va + (n + i)) % 2 ^ 32 := by
    intro i hi
    rw [List.length_drop] at hi
    have hfull : n = PGSIZE - va % PGSIZE := by omega
    have hround : PGROUNDDOWN va + va % PGSIZE = va := by
      unfold PGROUNDDOWN
      exact Nat.div_add_mod' va PGSIZE
    have hsum : PGROUNDDOWN va + PGSIZE + i = va + (n + i) := by omega
    rw [Nat.mod_add_mod, hsum]
  refine ⟨⟨h.kend, h.panicked⟩, h.free, fun f j hne => ?_, fun hlen hap i hi => ?_⟩
  · by_cases hd : m'.data f j = (m.write p.page (va % PGSIZE) (buf.take n)).data f j
    · rw [hd, write_data] at hne
      split_ifs at hne with hc
      · obtain ⟨rfl, h1, h2⟩ := hc
        rw [List.length_take, min_eq_left hnl] at h2
        obtain ⟨e1, e2, e3⟩ := hin (j - va % PGSIZE) (by omega)
        refine ⟨j - va % PGSIZE, p, by omega, ?_, hu, rfl, by rw [e1, e3]; omega⟩
        rw [e1, PageDir.pte_congr e2, hp]
      · exact absurd rfl hne
    · obtain ⟨i, q, hi, hq, huq, hqf, hj⟩ := h.changed f j hd
      rw [hrest i hi] at hq hj
      rw [List.length_drop] at hi
      exact ⟨n + i, q, by omega, hq, huq, hqf, hj⟩
  · by_cases hlt : i < n
    · obtain ⟨e1, e2, e3⟩ := hin i hlt
      have hoff : va % PGSIZE + i < PGSIZE := by omega
      -- the later iterations do not come back to this byte
      have hkeep : m'.data p.page ⟨va % PGSIZE + i, hoff⟩ =
          (m.write p.page (va % PGSIZE) (buf.take n)).data p.page ⟨va % PGSIZE + i, hoff⟩ := by
        by_contra hne
        obtain ⟨j, q, hj, hq, -, hqp, hqj⟩ := h.changed _ _ hne
        rw [hrest j hj] at hq hqj
        rw [List.length_drop] at hj
        have hs := hap i (n + j) (by omega) (by omega) p q (by rw [e1, PageDir.pte_congr e2, hp]) hq
          hqp.symm
        rw [e1, sameEntry_iff (by simp only [PGSIZE] at *; omega) (Nat.mod_lt _ (by decide))] at hs
        simp only [PGSIZE] at *
        omega
      have hval : (m.write p.page (va % PGSIZE) (buf.take n)).data p.page ⟨va % PGSIZE + i, hoff⟩ =
          buf.getD i 0 := by
        rw [write_data, if_pos ⟨rfl, Nat.le_add_right _ _, by
          rw [List.length_take, min_eq_left hnl]
          show va % PGSIZE + i < va % PGSIZE + n
          omega⟩]
        show (buf.take n).getD (va % PGSIZE + i - va % PGSIZE) 0 = _
        rw [Nat.add_sub_cancel_left, List.getD_eq_getElem?_getD, List.getElem?_take_of_lt hlt,
          List.getD_eq_getElem?_getD]
      unfold PageDir.byte
      rw [e1, PageDir.pte_congr e2, hp, Option.map_some, e3, Bytes.get, dif_pos hoff, hkeep, hval,
        List.getD_eq_getElem?_getD, List.getElem?_eq_getElem hi, Option.getD_some]
    · obtain ⟨j, rfl⟩ := Nat.exists_eq_add_of_le (Nat.le_of_not_lt hlt)
      have hj : j < (buf.drop n).length := by
        rw [List.length_drop]
        omega
      have hb := h.bytes (by rw [List.length_drop]; omega) (fun i₁ i₂ h1 h2 q₁ q₂ hq1 hq2 hqq => by
        rw [hrest i₁ h1] at hq1 ⊢
        rw [hrest i₂ h2] at hq2 ⊢
        rw [List.length_drop] at h1 h2
        exact hap (n + i₁) (n + i₂) (by omega) (by omega) q₁ q₂ hq1 hq2 hqq) j hj
      rw [hrest j hj, List.getElem?_drop] at hb
      exact hb

theorem copyoutLoop_succ (hb : buf ≠ []) :
    copyoutLoop d (k + 1) va buf m =
      match uva2ka d (PGROUNDDOWN va) with
      | .error e => .error e
      | .ok none => .ok (m, false)
      | .ok (some pg) =>
        copyoutLoop d k ((PGROUNDDOWN va + PGSIZE) % 2 ^ 32)
          (buf.drop (min (PGSIZE - (va - PGROUNDDOWN va)) buf.length))
          (m.write pg (va - PGROUNDDOWN va)
            (buf.take (min (PGSIZE - (va - PGROUNDDOWN va)) buf.length))) := by
  rw [copyoutLoop]
  exact if_neg hb

/-- **The loop of `copyout`.** -/
theorem copyoutLoop_spec (hva : va < 2 ^ 32) (hk : buf.length ≤ k) :
    (∃ m', copyoutLoop d k va buf m = .ok (m', true) ∧
      (∀ i, i < buf.length → d.User ((va + i) % 2 ^ 32)) ∧ Wrote d va buf m m') ∨
    ∃ i, i < buf.length ∧ (∀ j, j < i → d.User ((va + j) % 2 ^ 32)) ∧
      ¬ d.User ((va + i) % 2 ^ 32) ∧
      if d.table (PDX ((va + i) % 2 ^ 32)) = none then copyoutLoop d k va buf m = .error .null
      else ∃ m', copyoutLoop d k va buf m = .ok (m', false) ∧ Wrote d va (buf.take i) m m' := by
  induction k generalizing va buf m with
  | zero =>
    obtain rfl := List.length_eq_zero_iff.mp (Nat.le_zero.mp hk)
    exact Or.inl ⟨m, rfl, fun i hi => absurd hi (Nat.not_lt_zero _), Wrote.nil d va m⟩
  | succ k ih =>
    by_cases hb : buf = []
    · subst hb
      exact Or.inl ⟨m, rfl, fun i hi => absurd hi (Nat.not_lt_zero _), Wrote.nil d va m⟩
    rw [copyoutLoop_succ hb]
    have hlen : 0 < buf.length := List.length_pos_iff.mpr hb
    have hmod : va % PGSIZE < PGSIZE := Nat.mod_lt _ (by decide)
    have hround : PGROUNDDOWN va + va % PGSIZE = va := by
      unfold PGROUNDDOWN
      exact Nat.div_add_mod' va PGSIZE
    have hsame : SameEntry (PGROUNDDOWN va) va := by
      rw [sameEntry_iff (by omega) hva]
      unfold PGROUNDDOWN
      simp only [PGSIZE]
      omega
    have hzero : (va + 0) % 2 ^ 32 = va := Nat.mod_eq_of_lt hva
    have hoff : va - PGROUNDDOWN va = va % PGSIZE := by omega
    by_cases ht : d.table (PDX va) = none
    · -- no table: the pointer that `walkpgdir` returns is null
      refine Or.inr ⟨0, hlen, fun j hj => absurd hj (Nat.not_lt_zero _), ?_, ?_⟩
      · rw [hzero]
        exact fun hu => hu.table ht
      · rw [hzero, if_pos ht, uva2ka_null (by rw [hsame.1]; exact ht)]
    rw [uva2ka_eq (by rw [hsame.1]; exact ht), PageDir.pte_congr hsame]
    by_cases hu : d.User va
    · obtain ⟨p, hp, hpu⟩ := hu
      rw [hp, Option.bind_some, if_pos hpu, hoff]
      obtain ⟨n, hn⟩ : ∃ n, n = min (PGSIZE - va % PGSIZE) buf.length := ⟨_, rfl⟩
      simp only
      rw [← hn]
      have hnpos : 0 < n := by omega
      -- the part of the buffer that lies in this page
      have hin : ∀ i, i < n → d.User ((va + i) % 2 ^ 32) := by
        intro i hi
        obtain ⟨e1, e2, -⟩ := sameEntry_within hva (i := i) (by omega)
        rw [e1, PageDir.user_congr e2]
        exact ⟨p, hp, hpu⟩
      -- the rest starts at the next page, modulo 2 ^ 32
      have hrest : ∀ i, n + i < buf.length →
          ((PGROUNDDOWN va + PGSIZE) % 2 ^ 32 + i) % 2 ^ 32 = (va + (n + i)) % 2 ^ 32 := by
        intro i hi
        have hsum : PGROUNDDOWN va + PGSIZE + i = va + (n + i) := by omega
        rw [Nat.mod_add_mod, hsum]
      have hdrop : (buf.drop n).length = buf.length - n := List.length_drop
      rcases @ih (m.write p.page (va % PGSIZE) (buf.take n)) ((PGROUNDDOWN va + PGSIZE) % 2 ^ 32)
          (buf.drop n) (Nat.mod_lt _ (by decide)) (by omega) with ⟨m', hok, hall, hW⟩ | ⟨i, hi, hbefore, hnot, hres⟩
      · refine Or.inl ⟨m', hok, fun i hi => ?_, hW.cons hva hp hpu hn⟩
        by_cases hlt : i < n
        · exact hin i hlt
        · obtain ⟨j, rfl⟩ := Nat.exists_eq_add_of_le (Nat.le_of_not_lt hlt)
          rw [← hrest j hi]
          exact hall j (by omega)
      · rw [hrest i (by omega)] at hnot hres
        refine Or.inr ⟨n + i, by omega, fun j hj => ?_, hnot, ?_⟩
        · by_cases hlt : j < n
          · exact hin j hlt
          · obtain ⟨j, rfl⟩ := Nat.exists_eq_add_of_le (Nat.le_of_not_lt hlt)
            rw [← hrest j (by omega)]
            exact hbefore j (by omega)
        · split_ifs at hres ⊢ with hnone
          · exact hres
          · obtain ⟨m', hok, hW⟩ := hres
            refine ⟨m', hok, Wrote.cons (n := n) hva hp hpu ?_ ?_⟩
            · rw [List.length_take]
              omega
            · rw [List.drop_take, List.take_take, min_eq_left (Nat.le_add_right n i),
                Nat.add_sub_cancel_left]
              exact hW
    -- a page that is not of the user: `uva2ka` returns 0
    · have hnone : ((d.pte va).bind fun p => if p.perm.user then some p.page else none) = none := by
        cases hp : d.pte va with
        | none => rfl
        | some p =>
          rw [Option.bind_some, if_neg]
          exact fun hpu => hu ⟨p, hp, hpu⟩
      rw [hnone]
      refine Or.inr ⟨0, hlen, fun j hj => absurd hj (Nat.not_lt_zero _), by rw [hzero]; exact hu, ?_⟩
      rw [hzero, if_neg ht]
      exact ⟨m, rfl, Wrote.nil d va m⟩

/-- The whole buffer is written when the user has access to all of it. -/
theorem copyout_true_iff (hva : va < 2 ^ 32) :
    (∃ m', copyout d va buf m = .ok (m', true)) ↔
      ∀ i, i < buf.length → d.User ((va + i) % 2 ^ 32) := by
  rcases copyoutLoop_spec (d := d) (m := m) hva (le_refl buf.length) with
    ⟨m', hok, hall, -⟩ | ⟨i, hi, -, hnot, hres⟩
  · exact iff_of_true ⟨m', hok⟩ hall
  · refine iff_of_false (fun ⟨m', hok⟩ => ?_) fun h => hnot (h i hi)
    unfold copyout at hok
    split_ifs at hres
    · rw [hres] at hok
      cases hok
    · obtain ⟨m1, hok1, -⟩ := hres
      rw [hok1] at hok
      cases hok

end OsSemester.Xv6
