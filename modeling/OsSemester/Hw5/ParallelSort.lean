import OsSemester.Hw5.SharedSort

/-!
# The children of `Q3.c` do not get in each other's way

* `merge_run`, `sort_run`: `merge` merges two sorted ranges and `sort` sorts its range.
* `merge_within`, `sort_within`: they access no cell outside of their range, whatever they read.
* `parallel_sort`: so all interleavings of the processes' accesses come to an end, and the numbers
  printed there are those that one process would have printed.
-/

namespace OsSemester.Hw5

/-! ### Ranges of an array -/

/-- The `n` elements from `lo` on. -/
def block (f : ℤ → CInt) (lo : ℤ) : ℕ → List CInt
  | 0 => []
  | n + 1 => f lo :: block f (lo + 1) n

/-- The elements from `lo` to `hi`. -/
def range (f : ℤ → CInt) (lo hi : ℤ) : List CInt := block f lo (hi + 1 - lo).toNat

section Range

variable {f g : ℤ → CInt} {lo mid hi : ℤ}

theorem length_block (f : ℤ → CInt) (lo : ℤ) (n : ℕ) : (block f lo n).length = n := by
  induction n generalizing lo with
  | zero => rfl
  | succ n ih => simp [block, ih]

theorem block_add (f : ℤ → CInt) (lo : ℤ) (a b : ℕ) :
    block f lo (a + b) = block f lo a ++ block f (lo + a) b := by
  induction a generalizing lo with
  | zero => simp [block]
  | succ a ih =>
    have hlo : lo + 1 + a = lo + (a + 1 : ℕ) := by omega
    rw [Nat.succ_add, block, block, ih, List.cons_append, hlo]

theorem block_congr {n : ℕ} (h : ∀ k, lo ≤ k → k < lo + n → f k = g k) :
    block f lo n = block g lo n := by
  induction n generalizing lo with
  | zero => rfl
  | succ n ih =>
    have htail : block f (lo + 1) n = block g (lo + 1) n :=
      ih fun k hk hkn => h k (by omega) (by omega)
    rw [block, block, htail, h lo le_rfl (by omega)]

theorem length_range (f : ℤ → CInt) (lo hi : ℤ) : (range f lo hi).length = (hi + 1 - lo).toNat :=
  length_block f lo _

theorem range_nil (h : hi < lo) : range f lo hi = [] := by
  rw [range, Int.toNat_of_nonpos (by omega), block]

theorem range_cons (h : lo ≤ hi) : range f lo hi = f lo :: range f (lo + 1) hi := by
  obtain ⟨n, hn⟩ : ∃ n, (hi + 1 - lo).toNat = n + 1 := ⟨(hi - lo).toNat, by omega⟩
  have hn' : (hi + 1 - (lo + 1)).toNat = n := by omega
  rw [range, range, hn, hn', block]

theorem range_append (h1 : lo ≤ mid + 1) (h2 : mid ≤ hi) :
    range f lo hi = range f lo mid ++ range f (mid + 1) hi := by
  have hsum : (hi + 1 - lo).toNat = (mid + 1 - lo).toNat + (hi + 1 - (mid + 1)).toNat := by omega
  have hstart : lo + ((mid + 1 - lo).toNat : ℤ) = mid + 1 := by omega
  rw [range, range, range, hsum, block_add, hstart]

theorem range_congr (h : ∀ k, lo ≤ k → k ≤ hi → f k = g k) : range f lo hi = range g lo hi :=
  block_congr fun k hk hkn => h k hk (by omega)

end Range

/-- The elements of `in`. -/
abbrev inputs (m : Cell → CInt) (k : ℤ) : CInt := m (.input k)

/-- The memory after `xs` has been written to the array `c` from `k` on. -/
def fill (c : ℤ → Cell) (k : ℤ) : List CInt → (Cell → CInt) → Cell → CInt
  | [], m => m
  | x :: xs, m => fill c (k + 1) xs (Function.update m (c k) x)

section Fill

variable {c : ℤ → Cell} {k : ℤ} {xs ys : List CInt} {m : Cell → CInt}

theorem fill_append : fill c k (xs ++ ys) m = fill c (k + xs.length) ys (fill c k xs m) := by
  induction xs generalizing k m with
  | nil => simp [fill]
  | cons x xs ih =>
    have hk : k + 1 + (xs.length : ℤ) = k + ((x :: xs).length : ℤ) := by
      rw [List.length_cons]
      omega
    rw [List.cons_append, fill, ih, hk, fill]

theorem fill_of_ne {a : Cell} (h : ∀ j, k ≤ j → j < k + xs.length → a ≠ c j) :
    fill c k xs m a = m a := by
  induction xs generalizing k m with
  | nil => rfl
  | cons x xs ih =>
    have hlen : ((x :: xs).length : ℤ) = xs.length + 1 := by simp
    rw [fill, ih fun j hj hjn => h j (by omega) (by omega)]
    exact Function.update_of_ne (h k le_rfl (by omega)) _ _

/-- What has been written is what is in the array. -/
theorem block_fill (hc : Function.Injective c) :
    block (fun j => fill c k xs m (c j)) k xs.length = xs := by
  induction xs generalizing k m with
  | nil => rfl
  | cons x xs ih =>
    have hhead : fill c (k + 1) xs (Function.update m (c k) x) (c k) = x := by
      rw [fill_of_ne fun j hj _ => fun he => ?_, Function.update_self]
      have hkj : k = j := hc he
      omega
    rw [List.length_cons, block]
    simp only [fill]
    rw [hhead, ih]

theorem range_fill (hc : Function.Injective c) {hi : ℤ} (h : hi + 1 = k + xs.length) :
    range (fun j => fill c k xs m (c j)) k hi = xs := by
  have hlen : (hi + 1 - k).toNat = xs.length := by omega
  rw [range, hlen, block_fill hc]

end Fill

theorem input_injective : Function.Injective Cell.input := fun _ _ h => Cell.input.inj h

theorem out_injective (w : Worker) : Function.Injective (Cell.out w) := fun _ _ h =>
  (Cell.out.inj h).2

@[simp] theorem inputs_fill_out (w : Worker) (k : ℤ) (xs : List CInt) (m : Cell → CInt) :
    inputs (fill (.out w) k xs m) = inputs m := by
  funext j
  exact fill_of_ne fun _ _ _ => by simp

/-! ### What the functions compute -/

theorem copyOut_run (w : Worker) (hi k insert : ℤ) (m : Cell → CInt) :
    (copyOut w hi k insert).run m =
      (insert + (range (inputs m) k hi).length,
        fill (.out w) insert (range (inputs m) k hi) m) := by
  induction k, insert using copyOut.induct hi generalizing m with
  | case1 k insert h ih =>
    have hin : inputs (Function.update m (.out w insert) (m (.input k))) = inputs m :=
      inputs_fill_out w insert [m (.input k)] m
    rw [copyOut, dif_pos h, range_cons h]
    simp only [Prog.get_bind, Prog.set_bind, Prog.run_load, Prog.run_store, ih, hin, fill,
      List.length_cons]
    congr 1
    push_cast
    omega
  | case2 k insert h =>
    rw [copyOut, dif_neg h, range_nil (by omega)]
    simp [fill]

/-- The order in which the numbers are printed. -/
def le (a b : CInt) : Bool := a.toInt ≤ b.toInt

/-- The three loops that fill `out`: the invariant of the first one is that what is written and the
merge of what is left is the merge of the two ranges. -/
theorem fillOut_run (w : Worker) (loc2 loc4 i j insert : ℤ) (m : Cell → CInt) :
    ((do
      let x ← mergeLoop w loc2 loc4 i j insert
      let insert ← copyOut w loc2 x.1 x.2.2
      copyOut w loc4 x.2.1 insert : Program ℤ).run m).2 =
      fill (.out w) insert
        ((range (inputs m) i loc2).merge (range (inputs m) j loc4) le) m := by
  induction i, j, insert using mergeLoop.induct loc2 loc4 generalizing m with
  | case1 i j insert h ih1 ih2 =>
    have hin : ∀ v, inputs (Function.update m (.out w insert) v) = inputs m := fun v =>
      inputs_fill_out w insert [v] m
    have hleft : range (inputs m) i loc2 = m (.input i) :: range (inputs m) (i + 1) loc2 :=
      range_cons h.1
    have hright : range (inputs m) j loc4 = m (.input j) :: range (inputs m) (j + 1) loc4 :=
      range_cons h.2
    rw [mergeLoop, dif_pos h, hleft, hright]
    simp only [Prog.get_bind, Prog.load_bind, Prog.run_load]
    by_cases hgt : (m (.input i)).toInt > (m (.input j)).toInt
    · have hle : ¬ le (m (.input i)) (m (.input j)) = true := by
        simpa [le] using hgt
      rw [if_pos hgt, List.cons_merge_cons_neg _ _ _ hle, fill, ← hleft]
      simp only [Prog.set_bind, Prog.load_bind, Prog.store_bind, Prog.run_load, Prog.run_store]
      rw [ih1, hin]
    · have hle : le (m (.input i)) (m (.input j)) = true := by
        simpa [le] using hgt
      rw [if_neg hgt, List.cons_merge_cons_pos _ _ _ hle, fill, ← hright]
      simp only [Prog.set_bind, Prog.load_bind, Prog.store_bind, Prog.run_load, Prog.run_store]
      rw [ih2, hin]
  | case2 i j insert h =>
    rw [mergeLoop, dif_neg h, Prog.pure_bind', Prog.run_bind, copyOut_run, copyOut_run,
      inputs_fill_out, ← fill_append]
    -- One of the ranges is used up, so the rest of the other one follows as it is.
    by_cases hi : i ≤ loc2
    · have hj : loc4 < j := by omega
      rw [range_nil hj, List.append_nil, List.merge_right]
    · have hi' : loc2 < i := by omega
      rw [range_nil hi', List.nil_append, List.nil_merge]

theorem copyBack_run (w : Worker) (hi i : ℤ) (m : Cell → CInt) :
    (copyBack w hi i).run m = ((), fill .input i (range (fun k => m (.out w k)) i hi) m) := by
  induction i using copyBack.induct hi generalizing m with
  | case1 i h ih =>
    have hout : (fun k => Function.update m (.input i) (m (.out w i)) (.out w k)) =
        fun k => m (.out w k) := by
      funext k
      exact Function.update_of_ne (by simp) _ _
    rw [copyBack, dif_pos h, range_cons h]
    simp only [Prog.get_bind, Prog.set_bind, Prog.run_load, Prog.run_store, ih, hout, fill]
  | case2 i h =>
    rw [copyBack, dif_neg h, range_nil (by omega)]
    rfl

/-- **`merge` merges two adjacent ranges of `in`.** -/
theorem merge_run (w : Worker) {loc1 loc2 loc4 : ℤ} (h1 : loc1 ≤ loc2 + 1) (h2 : loc2 ≤ loc4)
    (m : Cell → CInt) :
    range (inputs ((merge w loc1 loc2 (loc2 + 1) loc4).run m).2) loc1 loc4 =
      (range (inputs m) loc1 loc2).merge (range (inputs m) (loc2 + 1) loc4) le := by
  have hfill := fillOut_run w loc2 loc4 loc1 (loc2 + 1) loc1 m
  set xs := (range (inputs m) loc1 loc2).merge (range (inputs m) (loc2 + 1) loc4) le with hxs
  have hlen : loc4 + 1 = loc1 + (xs.length : ℤ) := by
    rw [hxs, List.length_merge, length_range, length_range]
    omega
  have hrun : ((merge w loc1 loc2 (loc2 + 1) loc4).run m).2 =
      fill .input loc1 xs (fill (.out w) loc1 xs m) := by
    have hsplit : merge w loc1 loc2 (loc2 + 1) loc4 = (do
        let x ← mergeLoop w loc2 loc4 loc1 (loc2 + 1) loc1
        let insert ← copyOut w loc2 x.1 x.2.2
        copyOut w loc4 x.2.1 insert : Program ℤ) >>= fun _ => copyBack w loc4 loc1 := by
      simp only [merge, Prog.bind_bind]
    rw [hsplit, Prog.run_bind, hfill, copyBack_run, range_fill (out_injective w) hlen]
  rw [hrun]
  exact range_fill input_injective hlen

theorem le_transitive (a b c : CInt) : le a b = true → le b c = true → le a c = true := by
  simp only [le, decide_eq_true_eq]
  exact Int.le_trans

theorem le_totally (a b : CInt) : (le a b || le b a) = true := by
  simp only [le, Bool.or_eq_true, decide_eq_true_eq]
  exact Int.le_total _ _

/-- There is one ascending list of given numbers. -/
theorem eq_mergeSort {xs ys : List CInt} (h : xs.Perm ys) (hxs : xs.Pairwise fun a b => le a b) :
    xs = ys.mergeSort le := by
  refine (h.trans (List.mergeSort_perm ys le).symm).eq_of_pairwise (fun a b _ _ hab hba => ?_) hxs
    (List.pairwise_mergeSort le_transitive le_totally ys)
  simp only [le, decide_eq_true_eq] at hab hba
  exact BitVec.eq_of_toInt_eq (by omega)

theorem merge_mergeSort (xs ys : List CInt) :
    (xs.mergeSort le).merge (ys.mergeSort le) le = (xs ++ ys).mergeSort le := by
  refine eq_mergeSort ?_ ?_
  · exact (List.merge_perm_append le).trans
      ((List.mergeSort_perm xs le).append (List.mergeSort_perm ys le))
  · exact List.pairwise_merge le_transitive le_totally _ _
      (List.pairwise_mergeSort le_transitive le_totally xs)
      (List.pairwise_mergeSort le_transitive le_totally ys)

/-! ### What the functions access -/

/-- The cells of `in` and of the process's own array with an index in a range. -/
def cells (w : Worker) (lo hi : ℤ) : Set Cell :=
  {c | lo ≤ c.index ∧ c.index ≤ hi ∧ ∀ v k, c = .out v k → v = w}

section Cells

variable {w : Worker} {lo hi k : ℤ}

@[simp] theorem input_mem_cells : Cell.input k ∈ cells w lo hi ↔ lo ≤ k ∧ k ≤ hi := by
  simp [cells, Cell.index]

@[simp] theorem out_mem_cells {v : Worker} :
    Cell.out v k ∈ cells w lo hi ↔ lo ≤ k ∧ k ≤ hi ∧ v = w := by
  simp [cells, Cell.index]

theorem cells_mono {lo' hi' : ℤ} (hlo : lo' ≤ lo) (hhi : hi ≤ hi') :
    cells w lo hi ⊆ cells w lo' hi' := fun _ hc => ⟨hlo.trans hc.1, hc.2.1.trans hhi, hc.2.2⟩

/-- Two processes that work on different ranges have no cell in common. -/
theorem not_mem_cells {v : Worker} {lo' hi' : ℤ} (hw : w ≠ v) (h : hi < lo' ∨ hi' < lo) {c : Cell}
    (hc : c ∈ cells w lo hi) : c ∉ cells v lo' hi' := by
  intro hc'
  cases c with
  | input k =>
    rw [input_mem_cells] at hc hc'
    omega
  | out u k =>
    rw [out_mem_cells] at hc hc'
    exact hw (hc.2.2.symm.trans hc'.2.2)

end Cells

theorem copyOut_within (w : Worker) {lo hi top k insert : ℤ} (hk : lo ≤ k) (hi' : hi ≤ top)
    (hins : lo ≤ insert) (htop : k ≤ hi → insert + (hi - k) ≤ top) :
    (copyOut w hi k insert).Within (cells w lo top)
      fun r => lo ≤ r ∧ (k ≤ hi → r = insert + (hi + 1 - k)) ∧ (hi < k → r = insert) := by
  induction k, insert using copyOut.induct hi with
  | case1 k insert h ih =>
    have hroom := htop h
    rw [copyOut, dif_pos h]
    refine ⟨input_mem_cells.2 ⟨hk, by omega⟩, fun v =>
      ⟨out_mem_cells.2 ⟨hins, by omega, rfl⟩, ?_⟩⟩
    exact (ih (by omega) (by omega) (by omega)).mono subset_rfl fun r hr =>
      ⟨hr.1, fun _ => by omega, fun _ => by omega⟩
  | case2 k insert h =>
    rw [copyOut, dif_neg h]
    exact ⟨hins, fun hle => absurd hle h, fun _ => rfl⟩

theorem copyBack_within (w : Worker) {lo hi i : ℤ} (h : lo ≤ i) :
    (copyBack w hi i).Within (cells w lo hi) fun _ => True := by
  induction i using copyBack.induct hi with
  | case1 i hle ih =>
    rw [copyBack, dif_pos hle]
    exact ⟨out_mem_cells.2 ⟨h, hle, rfl⟩, fun v => ⟨input_mem_cells.2 ⟨h, hle⟩, ih (by omega)⟩⟩
  | case2 i hle =>
    rw [copyBack, dif_neg hle]
    trivial

/-- The place in `out` is where the elements taken from the two ranges have led it. -/
theorem mergeLoop_within (w : Worker) {loc1 loc2 loc4 i j insert : ℤ} (h12 : loc1 ≤ loc2 + 1)
    (h24 : loc2 ≤ loc4) (hi : loc1 ≤ i ∧ i ≤ loc2 + 1) (hj : loc2 + 1 ≤ j ∧ j ≤ loc4 + 1)
    (hins : insert + (loc2 + 1) = i + j) :
    (mergeLoop w loc2 loc4 i j insert).Within (cells w loc1 loc4) fun r =>
      (loc1 ≤ r.1 ∧ r.1 ≤ loc2 + 1) ∧ (loc2 + 1 ≤ r.2.1 ∧ r.2.1 ≤ loc4 + 1) ∧
        r.2.2 + (loc2 + 1) = r.1 + r.2.1 := by
  induction i, j, insert using mergeLoop.induct loc2 loc4 with
  | case1 i j insert h ih1 ih2 =>
    rw [mergeLoop, dif_pos h]
    refine ⟨input_mem_cells.2 (by omega), fun a => ⟨input_mem_cells.2 (by omega), fun b => ?_⟩⟩
    have hout : Cell.out w insert ∈ cells w loc1 loc4 :=
      out_mem_cells.2 ⟨by omega, by omega, rfl⟩
    show Prog.Within _ _ (if a.toInt > b.toInt then _ else _)
    split_ifs
    · exact ⟨input_mem_cells.2 (by omega), fun v => ⟨hout, ih1 hi (by omega) (by omega)⟩⟩
    · exact ⟨input_mem_cells.2 (by omega), fun v => ⟨hout, ih2 (by omega) hj (by omega)⟩⟩
  | case2 i j insert h =>
    rw [mergeLoop, dif_neg h]
    exact ⟨hi, hj, hins⟩

theorem merge_within (w : Worker) {loc1 loc2 loc4 : ℤ} (h12 : loc1 ≤ loc2 + 1)
    (h24 : loc2 ≤ loc4) :
    (merge w loc1 loc2 (loc2 + 1) loc4).Within (cells w loc1 loc4) fun _ => True := by
  refine (mergeLoop_within w h12 h24 (by omega) (by omega) (by omega)).bind ?_
  rintro ⟨i, j, insert⟩ ⟨hi, hj, hins⟩
  simp only at hi hj hins
  refine (copyOut_within w hi.1 h24 (by omega) (by omega)).bind fun r hr => ?_
  refine (copyOut_within w (by omega) le_rfl hr.1 (by omega)).bind fun _ _ => ?_
  exact copyBack_within w le_rfl

theorem sort_within (w : Worker) (loc1 loc2 : ℤ) :
    (sort w loc1 loc2).Within (cells w loc1 loc2) fun _ => True := by
  induction loc1, loc2 using sort.induct with
  | case1 loc1 loc2 h =>
    rw [sort, dif_pos h]
    trivial
  | case2 loc1 loc2 h mid ih1 ih2 =>
    rw [sort, dif_neg h]
    refine (ih1.mono (cells_mono le_rfl (by omega)) fun _ _ => trivial).bind fun _ _ => ?_
    refine (ih2.mono (cells_mono (by omega) le_rfl) fun _ _ => trivial).bind fun _ _ => ?_
    exact merge_within w (by omega) (by omega)

/-- **`sort` sorts a range of `in`.** -/
theorem sort_run (w : Worker) (loc1 loc2 : ℤ) (m : Cell → CInt) :
    range (inputs ((sort w loc1 loc2).run m).2) loc1 loc2 =
      (range (inputs m) loc1 loc2).mergeSort le := by
  induction loc1, loc2 using sort.induct generalizing m with
  | case1 loc1 loc2 h =>
    rw [sort, dif_pos h]
    rcases eq_or_lt_of_le h with rfl | hlt
    · rw [range_cons le_rfl, range_nil (by omega), range_cons le_rfl, range_nil (by omega),
        List.mergeSort_singleton]
      rfl
    · rw [range_nil hlt, range_nil hlt, List.mergeSort_nil]
  | case2 loc1 loc2 h mid ih1 ih2 =>
    have hmid : loc1 ≤ mid ∧ mid < loc2 := by omega
    -- Each half is left as it is while the other one is sorted.
    have hleft := ih1 m
    set m₁ := ((sort w loc1 mid).run m).2 with hm₁
    have hright := ih2 m₁
    set m₂ := ((sort w (mid + 1) loc2).run m₁).2 with hm₂
    have hkept₁ : range (inputs m₁) (mid + 1) loc2 = range (inputs m) (mid + 1) loc2 :=
      range_congr fun k hk _ => (sort_within w loc1 mid).run_frame m (by simp; omega)
    have hkept₂ : range (inputs m₂) loc1 mid = range (inputs m₁) loc1 mid :=
      range_congr fun k _ hk => (sort_within w (mid + 1) loc2).run_frame m₁ (by simp; omega)
    have hrun : ((sort w loc1 loc2).run m).2 = ((merge w loc1 mid (mid + 1) loc2).run m₂).2 := by
      rw [sort, dif_neg h]
      simp only [Prog.run_bind]
      rfl
    rw [hrun, merge_run w (by omega) (by omega), hkept₂, hleft, hright, hkept₁, merge_mergeSort,
      ← range_append (by omega) (by omega)]

theorem printLoop_run (NUM i : ℤ) (m : Cell → CInt) :
    (printLoop NUM i).run m = (range (inputs m) i NUM, m) := by
  induction i using printLoop.induct NUM with
  | case1 i h ih =>
    rw [printLoop, dif_pos h, range_cons h]
    simp only [Prog.get_bind, Prog.run_load, Prog.run_bind, ih, Prog.run_pure]
  | case2 i h =>
    rw [printLoop, dif_neg h, range_nil (by omega), Prog.run_pure]

theorem printLoop_within (w : Worker) {NUM i lo : ℤ} (h : lo ≤ i) :
    (printLoop NUM i).Within (cells w lo NUM) fun _ => True := by
  induction i using printLoop.induct NUM with
  | case1 i hle ih =>
    rw [printLoop, dif_pos hle]
    exact ⟨input_mem_cells.2 ⟨h, hle⟩, fun v => (ih (by omega)).bind fun _ _ => trivial⟩
  | case2 i hle =>
    rw [printLoop, dif_neg hle]
    trivial

theorem scanLoop_run {js : List CInt} (hne : ∀ j ∈ js, j ≠ 0) (i : ℤ) (m : Cell → CInt) :
    (scanLoop (js ++ [0]) i).run m = (i + js.length, fill .input (i + 1) js m) := by
  induction js generalizing i m with
  | nil => simp [scanLoop, fill]
  | cons j js ih =>
    obtain ⟨hj, hjs⟩ := List.forall_mem_cons.1 hne
    have hlen : i + 1 + (js.length : ℤ) = i + ((j :: js).length : ℤ) := by
      rw [List.length_cons]
      omega
    rw [List.cons_append, scanLoop, if_neg hj, Prog.set_bind, Prog.run_store, ih hjs, hlen, fill]

theorem scanLoop_within {js : List CInt} (hne : ∀ j ∈ js, j ≠ 0) {i : ℤ} (hi : -1 ≤ i) :
    (scanLoop (js ++ [0]) i).Within (cells .parent 0 (i + js.length))
      fun r => r = i + js.length := by
  induction js generalizing i with
  | nil => simp [scanLoop, Prog.Within, pure]
  | cons j js ih =>
    obtain ⟨hj, hjs⟩ := List.forall_mem_cons.1 hne
    have hlen : i + 1 + (js.length : ℤ) = i + ((j :: js).length : ℤ) := by
      rw [List.length_cons]
      omega
    rw [List.cons_append, scanLoop, if_neg hj, ← hlen]
    exact ⟨input_mem_cells.2 (by omega), ih hjs (by omega)⟩

/-! ### What holds while the processes run -/

/-- A program that sorts a range is under way. -/
structure Sorting (w : Worker) (p : Program Unit) (mem : Cell → CInt) (lo hi : ℤ)
    (xs : List CInt) : Prop where
  within : p.Within (cells w lo hi) fun _ => True
  sorts : range (inputs (p.run mem).2) lo hi = xs.mergeSort le

namespace Sorting

variable {w : Worker} {p p' : Program Unit} {mem mem' : Cell → CInt} {lo hi : ℤ} {xs : List CInt}

theorem start (w : Worker) (mem : Cell → CInt) (lo hi : ℤ) :
    Sorting w (sort w lo hi) mem lo hi (range (inputs mem) lo hi) :=
  ⟨sort_within w lo hi, sort_run w lo hi mem⟩

/-- Its own steps bring it closer to its end. -/
theorem step (h : Sorting w p mem lo hi xs) (hp : p.step mem = some (p', mem')) :
    Sorting w p' mem' lo hi xs :=
  ⟨h.within.step hp, by rw [Prog.run_step hp]; exact h.sorts⟩

/-- It does not notice what happens elsewhere. -/
theorem congr (h : Sorting w p mem lo hi xs) (hm : ∀ c ∈ cells w lo hi, mem' c = mem c) :
    Sorting w p mem' lo hi xs := by
  refine ⟨h.within, ?_⟩
  rw [← h.sorts]
  exact range_congr fun k hlo hhi => (h.within.run_congr hm).2 _ (input_mem_cells.2 ⟨hlo, hhi⟩)

theorem done {r : Unit} (h : Sorting w (.ret r) mem lo hi xs) :
    range (inputs mem) lo hi = xs.mergeSort le := h.sorts

end Sorting

/-- The index of the last number. -/
def last (js : List CInt) : ℤ := js.length - 1

/-- A child that has nothing left to do, or has never been. -/
def Idle (c : Option (Program Unit)) : Prop := ∀ p, c = some p → ∃ r, p = .ret r

/-- Where the processes can be, and what the arrays contain then. -/
inductive SortStage (js : List CInt) :
    Main → (Cell → CInt) → Option (Program Unit) → Option (Program Unit) → Prop
  | reading {p mem} : p.Within (cells .parent 0 (last js)) (fun i => i = last js) →
      range (inputs (p.run mem).2) 0 (last js) = js → SortStage js (.reading p) mem none none
  | direct {p mem} : p.Within (cells .parent 0 (last js)) (fun _ => True) →
      (p.run mem).1 = js.mergeSort le → SortStage js (.direct p) mem none none
  | fork1 {mem} : 8 < last js → range (inputs mem) 0 (last js) = js →
      SortStage js (.fork1 (last js)) mem none none
  | fork2 {mem xs ys p} : 8 < last js → xs ++ ys = js →
      Sorting .child1 p mem 0 (last js / 2) xs →
      range (inputs mem) (last js / 2 + 1) (last js) = ys →
      SortStage js (.fork2 (last js)) mem (some p) none
  | wait1 {mem xs ys p q} : 8 < last js → xs ++ ys = js →
      Sorting .child1 p mem 0 (last js / 2) xs →
      Sorting .child2 q mem (last js / 2 + 1) (last js) ys →
      SortStage js (.wait1 (last js)) mem (some p) (some q)
  | wait2 {mem xs ys r q} : 8 < last js → xs ++ ys = js →
      Sorting .child1 (.ret r) mem 0 (last js / 2) xs →
      Sorting .child2 q mem (last js / 2 + 1) (last js) ys →
      SortStage js (.wait2 (last js)) mem (some (.ret r)) (some q)
  | merging {p mem r r'} : p.Within (cells .parent 0 (last js)) (fun _ => True) →
      (p.run mem).1 = js.mergeSort le →
      SortStage js (.merging p) mem (some (.ret r)) (some (.ret r'))
  | done {mem c c'} : Idle c → Idle c' → SortStage js (.done (js.mergeSort le)) mem c c'

section Steps

variable {js : List CInt} {s t : Session}

theorem mainStep_reading {p : Program ℤ} (h : s.main = .reading p) :
    mainStep s = (p.step s.mem).map (fun x => { s with main := .reading x.1, mem := x.2 }) ∨
      ∃ i, p = .ret i := by
  cases p with
  | ret i => exact .inr ⟨i, rfl⟩
  | load a k => exact .inl (by rw [mainStep, h])
  | store a v k => exact .inl (by rw [mainStep, h])

theorem mainStep_direct {p : Program (List CInt)} (h : s.main = .direct p) :
    mainStep s = (p.step s.mem).map (fun x => { s with main := .direct x.1, mem := x.2 }) ∨
      ∃ l, p = .ret l := by
  cases p with
  | ret l => exact .inr ⟨l, rfl⟩
  | load a k => exact .inl (by rw [mainStep, h])
  | store a v k => exact .inl (by rw [mainStep, h])

theorem mainStep_merging {p : Program (List CInt)} (h : s.main = .merging p) :
    mainStep s = (p.step s.mem).map (fun x => { s with main := .merging x.1, mem := x.2 }) ∨
      ∃ l, p = .ret l := by
  cases p with
  | ret l => exact .inr ⟨l, rfl⟩
  | load a k => exact .inl (by rw [mainStep, h])
  | store a v k => exact .inl (by rw [mainStep, h])

/-- A new process takes nothing away from the others. -/
theorem forkMem_congr {w v : Worker} (hw : v ≠ w) (mem : Cell → CInt) (lo hi : ℤ) :
    ∀ c ∈ cells v lo hi, forkMem w mem c = mem c := by
  intro c hc
  cases c with
  | input k => rfl
  | out u k =>
    have hu : u ≠ w := fun h => hw ((out_mem_cells.1 hc).2.2.symm.trans h)
    exact if_neg hu

/-- Sorting all of them, and printing them. -/
theorem direct_run {mem : Cell → CInt} (h : range (inputs mem) 0 (last js) = js) :
    ((do sort .parent 0 (last js); printar (last js) : Program (List CInt)).run mem).1 =
      js.mergeSort le := by
  rw [Prog.run_bind, printar, printLoop_run, sort_run, h]

theorem mainStep_stage (h : SortStage js s.main s.mem s.child1 s.child2) (hst : mainStep s = some t) :
    SortStage js t.main t.mem t.child1 t.child2 := by
  obtain ⟨mem, main, child1, child2⟩ := s
  simp only at h
  cases h with
  | @reading p _ hin hrun =>
    rcases mainStep_reading (s := ⟨mem, .reading p, none, none⟩) rfl with hmain | ⟨i, rfl⟩
    · rw [hmain] at hst
      obtain ⟨⟨p', mem'⟩, hp, rfl⟩ := Option.map_eq_some_iff.1 hst
      exact .reading (hin.step hp) (by rw [Prog.run_step hp]; exact hrun)
    -- `main` has read the numbers, and forks when there are more than eight
    · obtain rfl : i = last js := hin
      by_cases hsmall : last js ≤ 8
      · obtain rfl := Option.some.inj ((if_pos hsmall).symm.trans hst)
        refine .direct ?_ (direct_run hrun)
        exact (sort_within _ _ _).bind fun _ _ => printLoop_within _ le_rfl
      · obtain rfl := Option.some.inj ((if_neg hsmall).symm.trans hst)
        exact .fork1 (by omega) hrun
  | @direct p _ hin hrun =>
    rcases mainStep_direct (s := ⟨mem, .direct p, none, none⟩) rfl with hmain | ⟨l, rfl⟩
    · rw [hmain] at hst
      obtain ⟨⟨p', mem'⟩, hp, rfl⟩ := Option.map_eq_some_iff.1 hst
      exact .direct (hin.step hp) (by rw [Prog.run_step hp]; exact hrun)
    · obtain rfl := Option.some.inj hst
      obtain rfl : l = js.mergeSort le := hrun
      exact .done (by simp [Idle]) (by simp [Idle])
  | fork1 hi hjs =>
    obtain rfl := Option.some.inj hst
    -- the two children get the halves of the array
    have hsplit : range (inputs mem) 0 (last js) =
        range (inputs mem) 0 (last js / 2) ++ range (inputs mem) (last js / 2 + 1) (last js) :=
      range_append (by omega) (by omega)
    exact .fork2 hi (hsplit.symm.trans hjs) (Sorting.start .child1 (forkMem .child1 mem) 0 _) rfl
  | fork2 hi hjs hp hys =>
    obtain rfl := Option.some.inj hst
    refine .wait1 hi hjs (hp.congr (forkMem_congr (by decide) mem _ _)) ?_
    rw [← hys]
    exact Sorting.start .child2 (forkMem .child2 mem) _ _
  | @wait1 _ xs ys p q hi hjs hp hq =>
    cases p with
    | ret r =>
      obtain rfl := Option.some.inj hst
      exact .wait2 hi hjs hp hq
    | load a k => cases hst
    | store a v k => cases hst
  | @wait2 _ xs ys r q hi hjs hp hq =>
    cases q with
    | ret r' =>
      obtain rfl := Option.some.inj hst
      -- both halves are sorted and lie in the shared array
      refine .merging ?_ ?_
      · exact (merge_within _ (by omega) (by omega)).bind fun _ _ => printLoop_within _ le_rfl
      · rw [Prog.run_bind, printar, printLoop_run, merge_run _ (by omega) (by omega), hp.done,
          hq.done, merge_mergeSort, hjs]
    | load a k => cases hst
    | store a v k => cases hst
  | @merging p _ r r' hin hrun =>
    rcases mainStep_merging (s := ⟨mem, .merging p, some (.ret r), some (.ret r')⟩) rfl with
      hmain | ⟨l, rfl⟩
    · rw [hmain] at hst
      obtain ⟨⟨p', mem'⟩, hp, rfl⟩ := Option.map_eq_some_iff.1 hst
      exact .merging (hin.step hp) (by rw [Prog.run_step hp]; exact hrun)
    · obtain rfl := Option.some.inj hst
      obtain rfl : l = js.mergeSort le := hrun
      exact .done (by simp [Idle]) (by simp [Idle])
  | done h1 h2 => cases hst

theorem Idle.not_step {c : Option (Program Unit)} (h : Idle c) {mem : Cell → CInt}
    {x : Program Unit × (Cell → CInt)} : c.bind (fun p => p.step mem) ≠ some x := by
  intro hx
  obtain ⟨p, rfl, hp⟩ := Option.bind_eq_some_iff.1 hx
  obtain ⟨r, rfl⟩ := h p rfl
  cases hp

theorem child1_stage {mem mem' : Cell → CInt} {main : Main} {c c' : Option (Program Unit)}
    {p' : Program Unit} (h : SortStage js main mem c c')
    (hst : c.bind (fun p => p.step mem) = some (p', mem')) : SortStage js main mem' (some p') c' := by
  cases h with
  | reading | direct | fork1 => cases hst
  | @fork2 _ xs ys p hi hjs hp hys =>
    refine .fork2 hi hjs (hp.step hst) ?_
    rw [← hys]
    exact range_congr fun k hk _ => hp.within.step_frame hst (by simp; omega)
  | @wait1 _ xs ys p q hi hjs hp hq =>
    refine .wait1 hi hjs (hp.step hst) (hq.congr fun c hc => hp.within.step_frame hst ?_)
    exact not_mem_cells (by decide) (.inr (by omega)) hc
  | wait2 | merging => cases hst
  | done h1 h2 => exact absurd hst h1.not_step

theorem child2_stage {mem mem' : Cell → CInt} {main : Main} {c c' : Option (Program Unit)}
    {p' : Program Unit} (h : SortStage js main mem c c')
    (hst : c'.bind (fun p => p.step mem) = some (p', mem')) : SortStage js main mem' c (some p') := by
  cases h with
  | reading | direct | fork1 | fork2 => cases hst
  | @wait1 _ xs ys p q hi hjs hp hq =>
    refine .wait1 hi hjs (hp.congr fun c hc => hq.within.step_frame hst ?_) (hq.step hst)
    exact not_mem_cells (by decide) (.inl (by omega)) hc
  | @wait2 _ xs ys r q hi hjs hp hq =>
    refine .wait2 hi hjs (hp.congr fun c hc => hq.within.step_frame hst ?_) (hq.step hst)
    exact not_mem_cells (by decide) (.inl (by omega)) hc
  | merging => cases hst
  | done h1 h2 => exact absurd hst h2.not_step

theorem SortStage.step (h : SortStage js s.main s.mem s.child1 s.child2) {w : Worker}
    (hst : workerStep s w = some t) : SortStage js t.main t.mem t.child1 t.child2 := by
  cases w with
  | parent => exact mainStep_stage h hst
  | child1 =>
    obtain ⟨⟨p', mem'⟩, hp, rfl⟩ := Option.map_eq_some_iff.1 hst
    exact child1_stage h hp
  | child2 =>
    obtain ⟨⟨p', mem'⟩, hp, rfl⟩ := Option.map_eq_some_iff.1 hst
    exact child2_stage h hp

theorem step_ok_iff {stdin : List CInt} {w : Worker} :
    (q3 stdin).step s w = .ok t ↔ workerStep s w = some t := by
  show (workerStep s w).elim (Except.error ()) Except.ok = Except.ok t ↔ _
  cases workerStep s w <;> simp

theorem stage_init (hne : ∀ j ∈ js, j ≠ 0) (h : (q3 (js ++ [0])).init s) :
    SortStage js s.main s.mem s.child1 s.child2 := by
  obtain rfl := h
  have hlast : (-1 : ℤ) + js.length = last js := by
    rw [last]
    omega
  refine .reading ?_ ?_
  · have hscan := scanLoop_within hne (i := -1) (by omega)
    rw [hlast] at hscan
    refine hscan.bind ?_
    rintro i rfl
    exact (printLoop_within _ le_rfl).bind fun _ _ => rfl
  · have hlen : last js + 1 = (-1 : ℤ) + 1 + js.length := by omega
    rw [Prog.run_bind, scanLoop_run hne, Prog.run_bind, printar, printLoop_run]
    exact range_fill input_injective hlen

theorem Reach.stage (hne : ∀ j ∈ js, j ≠ 0) (hs : (q3 (js ++ [0])).Reachable s) :
    SortStage js s.main s.mem s.child1 s.child2 :=
  hs.invariant (I := fun s => SortStage js s.main s.mem s.child1 s.child2)
    (fun _ h => stage_init hne h) fun _ _ _ h _ hst => h.step (step_ok_iff.1 hst)

theorem child1_moves {p : Program Unit} (h : s.child1 = some p) :
    (∃ r, p = .ret r) ∨ ∃ t, workerStep s .child1 = some t := by
  rcases hp : p.step s.mem with _ | x
  · exact .inl (Prog.step_eq_none hp)
  · exact .inr ⟨_, by rw [workerStep, h, Option.bind_some, hp, Option.map_some]⟩

theorem child2_moves {p : Program Unit} (h : s.child2 = some p) :
    (∃ r, p = .ret r) ∨ ∃ t, workerStep s .child2 = some t := by
  rcases hp : p.step s.mem with _ | x
  · exact .inl (Prog.step_eq_none hp)
  · exact .inr ⟨_, by rw [workerStep, h, Option.bind_some, hp, Option.map_some]⟩

/-- Until the parent is done some process can take a step. -/
theorem SortStage.progress (h : SortStage js s.main s.mem s.child1 s.child2) :
    (∃ l, s.main = .done l) ∨ ∃ w t, workerStep s w = some t := by
  obtain ⟨mem, main, child1, child2⟩ := s
  simp only at h
  cases h with
  | @reading p _ hin hrun =>
    refine .inr ⟨.parent, ?_⟩
    cases p with
    | ret i =>
      by_cases hi : i ≤ 8
      · exact ⟨_, if_pos hi⟩
      · exact ⟨_, if_neg hi⟩
    | load a k => exact ⟨_, rfl⟩
    | store a v k => exact ⟨_, rfl⟩
  | @direct p _ hin hrun =>
    refine .inr ⟨.parent, ?_⟩
    cases p with
    | ret l => exact ⟨_, rfl⟩
    | load a k => exact ⟨_, rfl⟩
    | store a v k => exact ⟨_, rfl⟩
  | fork1 => exact .inr ⟨.parent, _, rfl⟩
  | fork2 => exact .inr ⟨.parent, _, rfl⟩
  | @wait1 _ xs ys p q hi hjs hp hq =>
    rcases child1_moves (s := ⟨mem, .wait1 (last js), some p, some q⟩) rfl with ⟨r, rfl⟩ | ht
    · exact .inr ⟨.parent, _, rfl⟩
    · exact .inr ⟨.child1, ht⟩
  | @wait2 _ xs ys r q hi hjs hp hq =>
    rcases child2_moves (s := ⟨mem, .wait2 (last js), some (.ret r), some q⟩) rfl with
      ⟨r, rfl⟩ | ht
    · exact .inr ⟨.parent, _, rfl⟩
    · exact .inr ⟨.child2, ht⟩
  | @merging p _ r r' hin hrun =>
    refine .inr ⟨.parent, ?_⟩
    cases p with
    | ret l => exact ⟨_, rfl⟩
    | load a k => exact ⟨_, rfl⟩
    | store a v k => exact ⟨_, rfl⟩
  | done => exact .inl ⟨_, rfl⟩

/-- What a process accesses belongs to the numbers read. -/
theorem SortStage.access (h : SortStage js s.main s.mem s.child1 s.child2) {w : Worker} {c : Cell}
    (hc : s.access w = some c) : c ∈ cells w 0 (last js) := by
  obtain ⟨mem, main, child1, child2⟩ := s
  simp only at h
  have hchild : ∀ {v : Worker} {p : Program Unit} {lo hi : ℤ} {xs : List CInt},
      Sorting v p mem lo hi xs → 0 ≤ lo → hi ≤ last js → p.next = some c →
      c ∈ cells v 0 (last js) := fun hp hlo hhi hn => cells_mono hlo hhi (hp.within.next hn)
  have hidle : ∀ {p : Option (Program Unit)}, Idle p → p.bind Prog.next ≠ some c := by
    intro p hp hn
    obtain ⟨q, rfl, hq⟩ := Option.bind_eq_some_iff.1 hn
    obtain ⟨r, rfl⟩ := hp q rfl
    cases hq
  cases w with
  | parent =>
    cases h with
    | reading hin => exact hin.next hc
    | direct hin => exact hin.next hc
    | merging hin => exact hin.next hc
    | fork1 | fork2 | wait1 | wait2 | done => cases hc
  | child1 =>
    cases h with
    | reading | direct | fork1 | wait2 | merging => cases hc
    | fork2 hi hjs hp => exact hchild hp le_rfl (by omega) hc
    | wait1 hi hjs hp => exact hchild hp le_rfl (by omega) hc
    | done h1 h2 => exact absurd hc (hidle h1)
  | child2 =>
    cases h with
    | reading | direct | fork1 | fork2 | merging => cases hc
    | wait1 hi hjs hp hq => exact hchild hq (by omega) le_rfl hc
    | wait2 hi hjs hp hq => exact hchild hq (by omega) le_rfl hc
    | done h1 h2 => exact absurd hc (hidle h2)

end Steps

/-! ### Every run comes to an end -/

/-- How many phases of `main` are still to come. -/
def Main.rank : Main → ℕ
  | reading _ => 6
  | direct _ | fork1 _ => 5
  | fork2 _ => 4
  | wait1 _ => 3
  | wait2 _ => 2
  | merging _ => 1
  | done _ => 0

section Termination

local instance : Fintype CInt :=
  Fintype.ofEquiv (Fin (2 ^ 32)) ⟨BitVec.ofFin, BitVec.toFin, fun _ => rfl, fun _ => rfl⟩

/-- How many accesses there can be in this phase. -/
def Session.depth (s : Session) : ℕ :=
  (match s.main with
    | .reading p => p.depth
    | .direct p | .merging p => p.depth
    | _ => 0) + (s.child1.elim 0 Prog.depth + s.child2.elim 0 Prog.depth)

variable {s t : Session}

theorem mainStep_decreases (h : mainStep s = some t) :
    t.main.rank < s.main.rank ∨ t.main.rank = s.main.rank ∧ t.depth < s.depth := by
  obtain ⟨mem, main, child1, child2⟩ := s
  cases main with
  | reading p =>
    rcases mainStep_reading (s := ⟨mem, .reading p, child1, child2⟩) rfl with hmain | ⟨i, rfl⟩
    · rw [hmain] at h
      obtain ⟨x, hp, rfl⟩ := Option.map_eq_some_iff.1 h
      exact .inr ⟨rfl, Nat.add_lt_add_right (Prog.depth_step hp) _⟩
    · by_cases hi : i ≤ 8
      · obtain rfl := Option.some.inj ((if_pos hi).symm.trans h)
        exact .inl (by simp [Main.rank])
      · obtain rfl := Option.some.inj ((if_neg hi).symm.trans h)
        exact .inl (by simp [Main.rank])
  | direct p =>
    rcases mainStep_direct (s := ⟨mem, .direct p, child1, child2⟩) rfl with hmain | ⟨l, rfl⟩
    · rw [hmain] at h
      obtain ⟨x, hp, rfl⟩ := Option.map_eq_some_iff.1 h
      exact .inr ⟨rfl, Nat.add_lt_add_right (Prog.depth_step hp) _⟩
    · obtain rfl := Option.some.inj h
      exact .inl (by simp [Main.rank])
  | fork1 i | fork2 i =>
    obtain rfl := Option.some.inj h
    exact .inl (by simp [Main.rank])
  | wait1 i =>
    rcases child1 with _ | _ | _ | _
    · cases h
    · obtain rfl := Option.some.inj h
      exact .inl (by simp [Main.rank])
    · cases h
    · cases h
  | wait2 i =>
    rcases child2 with _ | _ | _ | _
    · cases h
    · obtain rfl := Option.some.inj h
      exact .inl (by simp [Main.rank])
    · cases h
    · cases h
  | merging p =>
    rcases mainStep_merging (s := ⟨mem, .merging p, child1, child2⟩) rfl with hmain | ⟨l, rfl⟩
    · rw [hmain] at h
      obtain ⟨x, hp, rfl⟩ := Option.map_eq_some_iff.1 h
      exact .inr ⟨rfl, Nat.add_lt_add_right (Prog.depth_step hp) _⟩
    · obtain rfl := Option.some.inj h
      exact .inl (by simp [Main.rank])
  | done l => cases h

theorem workerStep_decreases {w : Worker} (h : workerStep s w = some t) :
    t.main.rank < s.main.rank ∨ t.main.rank = s.main.rank ∧ t.depth < s.depth := by
  obtain ⟨mem, main, child1, child2⟩ := s
  cases w with
  | parent => exact mainStep_decreases h
  | child1 =>
    obtain ⟨x, hx, rfl⟩ := Option.map_eq_some_iff.1 h
    obtain ⟨p, rfl, hp⟩ := Option.bind_eq_some_iff.1 hx
    have hlt : x.1.depth < p.depth := Prog.depth_step hp
    exact .inr ⟨rfl, Nat.add_lt_add_left (Nat.add_lt_add_right hlt _) _⟩
  | child2 =>
    obtain ⟨x, hx, rfl⟩ := Option.map_eq_some_iff.1 h
    obtain ⟨p, rfl, hp⟩ := Option.bind_eq_some_iff.1 hx
    have hlt : x.1.depth < p.depth := Prog.depth_step hp
    exact .inr ⟨rfl, Nat.add_lt_add_left (Nat.add_lt_add_left hlt _) _⟩

/-- There is no run without end. -/
theorem steps_wellFounded : WellFounded fun t s => ∃ w, workerStep s w = some t := by
  refine Subrelation.wf (r := InvImage (Prod.Lex (· < ·) (· < ·)) fun s : Session =>
    (s.main.rank, s.depth)) ?_ (InvImage.wf _ (Prod.lex ⟨_, Nat.lt_wfRel.wf⟩ ⟨_, Nat.lt_wfRel.wf⟩).wf)
  rintro t s ⟨w, hw⟩
  rcases workerStep_decreases hw with hlt | ⟨heq, hlt⟩
  · exact Prod.Lex.left _ _ hlt
  · show Prod.Lex _ _ (t.main.rank, t.depth) (s.main.rank, s.depth)
    rw [heq]
    exact Prod.Lex.right _ hlt

end Termination

/-- From every state the parent can get to its end. -/
theorem Reach.finishes {js : List CInt} (hne : ∀ j ∈ js, j ≠ 0) {s : Session}
    (hs : (q3 (js ++ [0])).Reachable s) :
    ∃ t l, (q3 (js ++ [0])).Reachable t ∧ t.main = .done l := by
  induction s using steps_wellFounded.induction with
  | _ s ih =>
    rcases (Reach.stage hne hs).progress with ⟨l, hl⟩ | ⟨w, t, ht⟩
    · exact ⟨s, l, hs, hl⟩
    · exact ih t ⟨w, ht⟩ (hs.step trivial (step_ok_iff.mpr ht))

/-- The numbers that one process prints are the numbers in order. -/
theorem sortAlone_eq {js : List CInt} (hne : ∀ j ∈ js, j ≠ 0) :
    sortAlone (js ++ [0]) = js.mergeSort le := by
  have hlast : (-1 : ℤ) + js.length = last js := by
    rw [last]
    omega
  have hlen : last js + 1 = (-1 : ℤ) + 1 + js.length := by omega
  rw [sortAlone, Prog.run_bind, scanLoop_run hne, hlast]
  exact direct_run (range_fill input_injective hlen)

/-- **The children's work is not disturbed.**  Every process only accesses elements that have been
read; until the parent is done some process can go on, and not for ever; and then the numbers printed
are the numbers read, in ascending order, as one process would have printed them. -/
theorem parallel_sort {js : List CInt} (hne : ∀ j ∈ js, j ≠ 0) (hlen : js.length ≤ MAXNUM)
    {s : Session} (hs : (q3 (js ++ [0])).Reachable s) :
    (∀ w c, s.access w = some c → 0 ≤ c.index ∧ c.index < js.length ∧ c.index < MAXNUM) ∧
      ((∃ l, s.main = .done l) ∨ ∃ w t, (q3 (js ++ [0])).step s w = .ok t) ∧
      Acc (fun t s => ∃ w, (q3 (js ++ [0])).step s w = .ok t) s ∧
      ∀ l, s.main = .done l → l.Perm js ∧ (l.Pairwise fun a b => a.toInt ≤ b.toInt) ∧
        l = sortAlone (js ++ [0]) := by
  have hstage := Reach.stage hne hs
  refine ⟨fun w c hc => ?_, ?_, ?_, fun l hl => ?_⟩
  · obtain ⟨hlo, hhi, -⟩ := hstage.access hc
    have hlast : last js = js.length - 1 := rfl
    omega
  · simpa only [step_ok_iff] using hstage.progress
  · simpa only [step_ok_iff] using steps_wellFounded.apply s
  · rw [hl] at hstage
    cases hstage with
    | done =>
      refine ⟨List.mergeSort_perm js le, ?_, (sortAlone_eq hne).symm⟩
      have hsorted := List.pairwise_mergeSort le_transitive le_totally js
      simpa [le] using hsorted

/-- Ten numbers, half of them for each child, when they have been printed. -/
theorem parallel_sort_ten : ∃ s, (q3 [10, 9, 8, 7, 6, 5, 4, 3, 2, 1, 0]).Reachable s ∧
    s.main = .done [1, 2, 3, 4, 5, 6, 7, 8, 9, 10] := by
  have hne : ∀ j ∈ ([10, 9, 8, 7, 6, 5, 4, 3, 2, 1] : List CInt), j ≠ 0 := by simp
  obtain ⟨s, l, hs, hl⟩ := Reach.finishes hne (.init rfl)
  obtain ⟨-, -, -, hdone⟩ := parallel_sort hne (by norm_num [MAXNUM]) hs
  obtain ⟨hperm, hsorted, -⟩ := hdone l hl
  refine ⟨s, hs, ?_⟩
  rw [hl]
  congr 1
  have hten : l.Perm [1, 2, 3, 4, 5, 6, 7, 8, 9, 10] := hperm.trans (List.reverse_perm _).symm
  exact hten.eq_of_pairwise (fun a b _ _ hab hba => BitVec.toInt_inj.mp (le_antisymm hab hba))
    hsorted (by decide)

end OsSemester.Hw5
