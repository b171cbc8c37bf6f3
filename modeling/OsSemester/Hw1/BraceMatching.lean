import OsSemester.Hw1.BraceSums

/-!
# The lines printed for groups in braces (`3/main.c`)

`findNum_eq` says which number `findNum` returns for a piece of text: the rows are the pieces between
commas, and only digits are in them.  `matching` follows a derivation: when the closing braces of a text
have been dealt with, its opening braces have all been used, and the lines are those of the derivation.
-/

namespace OsSemester.Hw1.BraceSums

open MaxSubarray (IsInt addInt)

variable {ds p q r : List Char} {c d : Char}

/-! ### The value of digits -/

theorem value_concat (p : List Char) (d : Char) :
    value (p ++ [d]) = 10 * value p + (d.toNat - '0'.toNat) := by
  rw [value, List.foldl_append]
  rfl

theorem value_le_append (p q : List Char) : value p ≤ value (p ++ q) := by
  induction q generalizing p with
  | nil => rw [List.append_nil]
  | cons d q ih =>
    have h1 := ih (p ++ [d])
    rw [value_concat, List.append_assoc, List.singleton_append] at h1
    omega

theorem mul_value_le (p q : List Char) (hq : q ≠ []) : 10 * value p ≤ value (p ++ q) := by
  cases q with
  | nil => exact absurd rfl hq
  | cons d q =>
    have h1 := value_le_append (p ++ [d]) q
    rw [value_concat, List.append_assoc, List.singleton_append] at h1
    omega

/-- What is used about digits. -/
theorem digit_ge (hd : d.isDigit) : '0'.toNat ≤ d.toNat := by
  simp only [Char.isDigit, Bool.and_eq_true, decide_eq_true_eq] at hd
  exact hd.1

theorem digit_ne (hc : c.isDigit = false) (hd : d.isDigit) : d ≠ c := by
  rintro rfl
  rw [hc] at hd
  exact Bool.noConfusion hd

theorem isInt_natCast {n : ℕ} (hn : n < 2 ^ 31) : IsInt n := by
  constructor <;> omega

/-- The inner loop has read the digits `p` of a row, and goes on with `q`. -/
theorem rowValue_eq {row : ℕ → Char} {n : ℕ} (hrow : ∀ j, row j = (p ++ q).getD j nul)
    (hd : ∀ d ∈ p ++ q, d.isDigit) (hlt : value (p ++ q) < 2 ^ 31) (hn : q.length < n) :
    rowValue row n p.length (if q = [] then value p else 10 * value p : ℕ) = some (value (p ++ q) : ℤ) := by
  -- on the digits that are left
  induction q generalizing p n with
  | nil =>
    obtain ⟨n, rfl⟩ := Nat.exists_eq_succ_of_ne_zero (Nat.ne_zero_of_lt hn)
    have hend : row p.length = nul := by
      rw [hrow, List.append_nil, List.getD_eq_default _ _ le_rfl]
    rw [rowValue, if_pos hend, if_pos rfl, List.append_nil]
  | cons d q ih =>
    obtain ⟨n, rfl⟩ := Nat.exists_eq_succ_of_ne_zero (Nat.ne_zero_of_lt hn)
    have happ : p ++ d :: q = (p ++ [d]) ++ q := by rw [List.append_assoc, List.singleton_append]
    have hdig := hd d (by simp)
    have hat : row p.length = d := by
      rw [hrow, List.getD_append_right _ _ _ _ le_rfl, Nat.sub_self]
      rfl
    have hnul : d ≠ nul := digit_ne rfl hdig
    have hn0 : n ≠ 0 := by
      rw [List.length_cons] at hn
      omega
    have hge := digit_ge hdig
    have hsum : (10 * value p : ℕ) + ((d.toNat : ℤ) - '0'.toNat) = (value (p ++ [d]) : ℕ) := by
      rw [value_concat]
      omega
    have hle := value_le_append (p ++ [d]) q
    rw [← happ] at hle
    -- neither the sum nor the product behind it overflows
    have hadd : addInt (10 * value p : ℕ) (d.toNat - '0'.toNat) = some ((value (p ++ [d]) : ℕ) : ℤ) := by
      rw [addInt, hsum]
      exact if_pos (isInt_natCast (hle.trans_lt hlt))
    have hlen : (p ++ [d]).length = p.length + 1 := by simp
    have ih := ih (p := p ++ [d]) (n := n) (happ ▸ hrow) (happ ▸ hd) (happ ▸ hlt)
      (Nat.lt_of_succ_lt_succ hn)
    rw [hlen] at ih
    rw [rowValue, hat, if_neg hnul, if_neg hn0, if_neg (List.cons_ne_nil d q), hadd, happ, ← ih]
    cases q with
    | nil =>
      have hend : row (p.length + 1) = nul := by
        rw [hrow, List.getD_eq_default _ _ (by simp)]
      show (if row (p.length + 1) = nul then _ else _) = _
      rw [if_pos hend, if_pos rfl]
    | cons e q =>
      have hnext : row (p.length + 1) ≠ nul := by
        rw [hrow, List.getD_append_right _ _ _ _ (Nat.le_add_right _ 1),
          Nat.add_sub_cancel_left]
        exact digit_ne rfl (hd e (by simp))
      have hmul := mul_value_le (p ++ [d]) (e :: q) (List.cons_ne_nil e q)
      rw [← happ] at hmul
      have hten : mulInt (value (p ++ [d]) : ℕ) 10 = some ((10 * value (p ++ [d]) : ℕ) : ℤ) := by
        have hcomm : ((value (p ++ [d]) : ℕ) : ℤ) * 10 = (10 * value (p ++ [d]) : ℕ) := by
          omega
        rw [mulInt, hcomm]
        exact if_pos (isInt_natCast (hmul.trans_lt hlt))
      show (if row (p.length + 1) = nul then _ else
        (mulInt (value (p ++ [d]) : ℕ) 10).bind fun x => rowValue row n (p.length + 1) x) = _
      rw [if_neg hnext, hten, if_neg (List.cons_ne_nil e q)]
      rfl

/-! ### The rows -/

/-- The rows that are complete, and the row that is being filled. -/
structure Rows where
  complete : List (List Char)
  cur : List Char

namespace Rows

/-- A character of the text. -/
def char (r : Rows) (c : Char) : Rows :=
  if c = ',' then ⟨r.complete ++ [r.cur], []⟩
  else if c = ' ' ∨ c = '{' ∨ c = '}' then r
  else ⟨r.complete, r.cur ++ [c]⟩

/-- All rows. -/
def all (r : Rows) : List (List Char) := r.complete ++ [r.cur]

end Rows

/-- The array holds these rows. -/
structure Hold.Holds (h : Hold) (r : Rows) : Prop where
  cell : ∀ i j, h.cell i j = (r.all.getD i []).getD j nul
  count : h.count = r.complete.length
  tmp : h.tmp = r.cur.length

theorem holds_init : Hold.init.Holds ⟨[], []⟩ where
  cell i j := by cases i <;> rfl
  count := rfl
  tmp := rfl

/-- One more character of a row. -/
theorem getD_concat (l : List Char) (j : ℕ) :
    (l ++ [c]).getD j nul = if j = l.length then c else l.getD j nul := by
  obtain hj | rfl | hj := Nat.lt_trichotomy j l.length
  · rw [if_neg (Nat.ne_of_lt hj), List.getD_append _ _ _ _ hj]
  · rw [if_pos rfl, List.getD_append_right _ _ _ _ le_rfl, Nat.sub_self]
    rfl
  · rw [if_neg (Nat.ne_of_gt hj), List.getD_eq_default _ _ (by simp; omega),
      List.getD_eq_default _ _ hj.le]

/-- The row behind the complete ones. -/
theorem getD_all (rs : List (List Char)) (l : List Char) (i : ℕ) :
    (rs ++ [l]).getD i [] = if i = rs.length then l else rs.getD i [] := by
  obtain hi | rfl | hi := Nat.lt_trichotomy i rs.length
  · rw [if_neg (Nat.ne_of_lt hi), List.getD_append _ _ _ _ hi]
  · rw [if_pos rfl, List.getD_append_right _ _ _ _ le_rfl, Nat.sub_self]
    rfl
  · rw [if_neg (Nat.ne_of_gt hi), List.getD_eq_default _ _ (by simp; omega),
      List.getD_eq_default _ _ hi.le]

theorem Hold.Holds.char {h : Hold} {r : Rows} (hh : h.Holds r) (c : Char)
    (hlt : r.complete.length + r.cur.length < 100) : ∃ h', h.char c = some h' ∧ h'.Holds (r.char c) := by
  by_cases hcomma : c = ','
  · subst hcomma
    refine ⟨{ h with tmp := 0, count := h.count + 1 }, rfl, ⟨fun i j => ?_, ?_, rfl⟩⟩
    · show h.cell i j = ((r.complete ++ [r.cur] ++ [[]]).getD i []).getD j nul
      rw [hh.cell, Rows.all, getD_all (r.complete ++ [r.cur])]
      split_ifs with hi
      · rw [List.getD_eq_default _ _ hi.ge]
      · rfl
    · show h.count + 1 = (r.complete ++ [r.cur]).length
      rw [hh.count, List.length_append, List.length_singleton]
  · by_cases hskip : c = ' ' ∨ c = '{' ∨ c = '}'
    · refine ⟨h, ?_, ?_⟩
      · have hno : ¬ (c ≠ ' ' ∧ c ≠ ',' ∧ c ≠ '{' ∧ c ≠ '}') := by tauto
        rw [Hold.char, if_neg hno]
        exact congrArg some (if_neg hcomma)
      · rwa [Rows.char, if_neg hcomma, if_pos hskip]
    · have hyes : c ≠ ' ' ∧ c ≠ ',' ∧ c ≠ '{' ∧ c ≠ '}' := by tauto
      have hroom : h.count < 100 ∧ h.tmp < 100 := by
        have h1 := hh.count
        have h2 := hh.tmp
        omega
      refine ⟨{ h with
        cell := Function.update h.cell h.count (Function.update (h.cell h.count) h.tmp c)
        tmp := h.tmp + 1 }, ?_, ?_⟩
      · rw [Hold.char, if_pos hyes, Hold.put, if_pos hroom]
        exact congrArg some (if_neg hcomma)
      · rw [Rows.char, if_neg hcomma, if_neg hskip]
        refine ⟨fun i j => ?_, hh.count, ?_⟩
        · show Function.update h.cell h.count _ i j = ((r.complete ++ [r.cur ++ [c]]).getD i []).getD j nul
          have hcell := hh.cell i
          rw [Rows.all, getD_all] at hcell
          rw [getD_all]
          by_cases hi : i = r.complete.length
          · rw [if_pos hi] at hcell ⊢
            rw [hi, ← hh.count, Function.update_self, getD_concat]
            by_cases hj : j = r.cur.length
            · rw [if_pos hj, hj, ← hh.tmp, Function.update_self]
            · rw [if_neg hj, Function.update_of_ne (by rwa [hh.tmp]), hh.count, ← hi, hcell]
          · rw [if_neg hi] at hcell ⊢
            rw [Function.update_of_ne (by rwa [hh.count]), hcell]
        · show h.tmp + 1 = (r.cur ++ [c]).length
          rw [hh.tmp, List.length_append, List.length_singleton]

/-- The first loop of `findNum`. -/
theorem holds_foldlM {h : Hold} {r : Rows} (text : List Char) (hh : h.Holds r)
    (hlt : r.complete.length + r.cur.length + text.length ≤ 100) :
    ∃ h', text.foldlM Hold.char h = some h' ∧ h'.Holds (text.foldl Rows.char r) := by
  induction text generalizing h r with
  | nil => exact ⟨h, rfl, hh⟩
  | cons c text ih =>
    rw [List.length_cons] at hlt
    obtain ⟨h1, hc, hh1⟩ := hh.char c (by omega)
    have hlen : (r.char c).complete.length + (r.char c).cur.length ≤ r.complete.length + r.cur.length + 1 := by
      unfold Rows.char
      split_ifs
      · simp
      · omega
      · simp
        omega
    obtain ⟨h2, hrun, hh2⟩ := ih hh1 (by omega)
    refine ⟨h2, ?_, hh2⟩
    rw [List.foldlM_cons, hc]
    exact hrun

/-- The characters of all rows, and the commas between them. -/
def Rows.size (r : Rows) : ℕ := r.complete.length + (r.all.map List.length).sum

theorem Rows.size_char_le (r : Rows) (c : Char) : (r.char c).size ≤ r.size + 1 := by
  unfold Rows.char Rows.size Rows.all
  split_ifs
  · simp
    omega
  · omega
  · simp
    omega

theorem Rows.size_foldl_le (text : List Char) (r : Rows) :
    (text.foldl Rows.char r).size ≤ r.size + text.length := by
  induction text generalizing r with
  | nil => exact le_rfl
  | cons c text ih =>
    have h1 := ih (r.char c)
    have h2 := r.size_char_le c
    rw [List.foldl_cons, List.length_cons]
    omega

/-! ### `findNum` -/

/-- The sum of the numbers in the rows. -/
def total (rs : List (List Char)) : ℕ := (rs.map value).sum

theorem total_append (rs ts : List (List Char)) : total (rs ++ ts) = total rs + total ts := by
  rw [total, List.map_append, List.sum_append]
  rfl

/-- The outer loop has added the rows `done`, and goes on with `rs`. -/
theorem sumRows_eq {cell : ℕ → ℕ → Char} {done rs : List (List Char)} {res : ℕ}
    (hcell : ∀ i j, cell i j = ((done ++ rs).getD i []).getD j nul)
    (hd : ∀ r ∈ rs, (∀ d ∈ r, d.isDigit) ∧ r.length < 100) (hlen : (done ++ rs).length ≤ 100)
    (hlt : res + total rs < 2 ^ 31) :
    sumRows cell rs.length done.length res = some ((res + total rs : ℕ) : ℤ) := by
  induction rs generalizing done res with
  | nil => rfl
  | cons r rs ih =>
    have happ : done ++ r :: rs = (done ++ [r]) ++ rs := by rw [List.append_assoc, List.singleton_append]
    have htotal : total (r :: rs) = value r + total rs := rfl
    rw [htotal] at hlt ⊢
    obtain ⟨hdig, hrlen⟩ := hd r (List.mem_cons_self ..)
    have hrow : ∀ j, cell done.length j = ([] ++ r).getD j nul := by
      intro j
      rw [hcell, List.getD_append_right _ _ _ _ le_rfl, Nat.sub_self]
      rfl
    have hval := rowValue_eq (p := []) (q := r) hrow hdig
      (show value ([] ++ r) < 2 ^ 31 by rw [List.nil_append]; omega) hrlen
    have h0 : (if r = [] then value [] else 10 * value [] : ℕ) = 0 := by split_ifs <;> rfl
    rw [h0, List.nil_append] at hval
    have hlt100 : done.length < 100 := by
      rw [List.length_append, List.length_cons] at hlen
      omega
    have hadd : addInt (res : ℤ) (value r : ℕ) = some ((res + value r : ℕ) : ℤ) := by
      rw [addInt, ← Int.natCast_add]
      exact if_pos (isInt_natCast (by omega))
    have ih := @ih (done ++ [r]) (res + value r) (happ ▸ hcell)
      (fun t ht => hd t (List.mem_cons_of_mem _ ht)) (happ ▸ hlen) (by omega)
    rw [List.length_append, List.length_singleton, Nat.add_assoc] at ih
    rw [List.length_cons, sumRows, if_pos hlt100]
    show ((rowValue (cell done.length) 100 0 0).bind fun tmp =>
      (addInt res tmp).bind fun res => sumRows cell rs.length (done.length + 1) res) = _
    rw [show rowValue (cell done.length) 100 0 0 = some (value r : ℤ) from hval, Option.bind_some, hadd]
    exact ih

/-- `findNum` adds the numbers in the rows of a piece of text. -/
theorem findNum_eq {arr text : List Char} {min max : ℕ} {rs : List (List Char)}
    (htext : (arr.take max).drop min = text) (hlen : text.length < 100)
    (hrs : (text.foldl Rows.char ⟨[], []⟩).all = rs) (hd : ∀ r ∈ rs, ∀ d ∈ r, d.isDigit)
    (hlt : total rs < 2 ^ 31) : findNum arr min max = some (total rs : ℤ) := by
  obtain ⟨h, hrun, hh⟩ := holds_foldlM text holds_init (by
    show 0 + 0 + text.length ≤ 100
    omega)
  have hsize := Rows.size_foldl_le text ⟨[], []⟩
  rw [Rows.size, hrs] at hsize
  have h0 : (⟨[], []⟩ : Rows).size = 0 := rfl
  have hcount : rs.length = h.count + 1 := by
    rw [← hrs, hh.count, Rows.all, List.length_append]
    rfl
  have hrow : ∀ r ∈ rs, r.length ≤ (rs.map List.length).sum := fun r hr =>
    List.single_le_sum (fun _ _ => Nat.zero_le _) _ (List.mem_map_of_mem hr)
  have hsum := @sumRows_eq h.cell [] rs 0
    (fun i j => by rw [hh.cell, hrs]; rfl) (fun r hr => ⟨hd r hr, by have := hrow r hr; omega⟩)
    (by
      rw [List.nil_append, hcount]
      have := hh.count
      omega)
    (by omega)
  rw [findNum, htext, hrun]
  show sumRows h.cell (h.count + 1) 0 0 = _
  rw [← hcount]
  rw [Nat.zero_add] at hsum
  exact hsum

/-! ### The rows of a derivation -/

variable {x : Symbol} {t : List Char} {s : ℕ} {ls : List ℕ}

theorem blank_nil : Blank [] := fun _ hc => absurd hc List.not_mem_nil

theorem blank_space : Blank [' '] := fun _ hc => List.mem_singleton.mp hc

theorem foldl_blank {sp : List Char} (hsp : Blank sp) (r : Rows) : sp.foldl Rows.char r = r := by
  induction sp with
  | nil => rfl
  | cons c sp ih =>
    obtain rfl : c = ' ' := hsp c (List.mem_cons_self ..)
    exact ih fun c hc => hsp c (List.mem_cons_of_mem _ hc)

theorem foldl_digits (hd : ∀ d ∈ ds, d.isDigit) (rs : List (List Char)) (cur : List Char) :
    ds.foldl Rows.char ⟨rs, cur⟩ = ⟨rs, cur ++ ds⟩ := by
  induction ds generalizing cur with
  | nil => rw [List.append_nil]; rfl
  | cons d ds ih =>
    have hdig := hd d (List.mem_cons_self ..)
    have hskip : ¬ (d = ' ' ∨ d = '{' ∨ d = '}') := by
      rintro (h1 | h1 | h1)
      · exact digit_ne rfl hdig h1
      · exact digit_ne rfl hdig h1
      · exact digit_ne rfl hdig h1
    have hchar : Rows.char ⟨rs, cur⟩ d = ⟨rs, cur ++ [d]⟩ := by
      rw [Rows.char, if_neg (digit_ne rfl hdig), if_neg hskip]
    rw [List.foldl_cons, hchar, ih fun d hd' => hd d (List.mem_cons_of_mem _ hd'), List.append_assoc,
      List.singleton_append]

/-- What `findNum` makes of the text of a derivation. -/
def RowsOf (t : List Char) (s : ℕ) : Prop :=
  ∀ rs, ∃ ts, (t.foldl Rows.char ⟨rs, []⟩).all = rs ++ ts ∧ (∀ r ∈ ts, ∀ d ∈ r, d.isDigit) ∧ total ts = s

/-- The text between two braces. -/
theorem RowsOf.braces {sp sp' : List Char} (h : RowsOf t s) (hsp : Blank sp) (hsp' : Blank sp') :
    RowsOf ('{' :: (sp ++ (t ++ sp'))) s := by
  intro rs
  obtain ⟨ts, h1, h2⟩ := h rs
  refine ⟨ts, ?_, h2⟩
  show ((sp ++ (t ++ sp')).foldl Rows.char ⟨rs, []⟩).all = _
  rw [List.foldl_append, List.foldl_append, foldl_blank hsp, foldl_blank hsp', h1]

theorem rowsOf_nil : RowsOf [] 0 := by
  intro rs
  refine ⟨[[]], rfl, ?_, rfl⟩
  simp

theorem RowsOf.concat_brace (h : RowsOf t s) : RowsOf (t ++ ['}']) s := by
  intro rs
  obtain ⟨ts, h1, h2⟩ := h rs
  exact ⟨ts, by rw [List.foldl_append]; exact h1, h2⟩

/-- The rows of an element, or of several of them, add up to its sum. -/
theorem Derives.rowsOf (h : Derives x t s ls) (hx : x ≠ .groups) : RowsOf t s := by
  induction h with
  | @number ds _ hd =>
    intro rs
    refine ⟨[ds], ?_, ?_, ?_⟩
    · rw [foldl_digits hd, List.nil_append]
      rfl
    · intro r hr
      rw [List.mem_singleton.mp hr]
      exact hd
    · exact Nat.add_zero _
  | inner _ ih => exact ih nofun
  | one _ ih => exact ih nofun
  | more _ hsp hsp' _ ih ih' =>
    intro rs
    obtain ⟨ts, h1, h2, h3⟩ := ih nofun rs
    obtain ⟨us, h4, h5, h6⟩ := ih' nofun (rs ++ ts)
    refine ⟨ts ++ us, ?_, fun r hr => ?_, ?_⟩
    · rw [List.foldl_append, List.foldl_append, foldl_blank hsp, List.foldl_cons, List.foldl_append]
      -- the comma completes the row
      show (List.foldl Rows.char (List.foldl Rows.char ⟨Rows.all _, []⟩ _) _).all = _
      rw [h1, foldl_blank hsp', h4, List.append_assoc]
    · obtain hr | hr := List.mem_append.mp hr
      · exact h2 r hr
      · exact h5 r hr
    · rw [total_append, h3, h6]
  | empty hsp =>
    have h1 := (rowsOf_nil.braces hsp blank_nil).concat_brace
    simpa using h1
  | group hsp _ hsp' ih =>
    have h1 := ((ih nofun).braces hsp hsp').concat_brace
    simpa using h1
  | none => exact absurd rfl hx
  | next => exact absurd rfl hx

/-! ### Matching the braces -/

variable {arr : List Char} {b : Char} {k : ℕ}

theorem positions_append (b : Char) (k : ℕ) (t u : List Char) :
    positions b k (t ++ u) = positions b k t ++ positions b (k + t.length) u := by
  rw [positions, List.zipIdx_append, List.filter_append, List.map_append]
  rfl

theorem positions_cons (b : Char) (k : ℕ) (c : Char) (t : List Char) :
    positions b k (c :: t) = if c = b then k :: positions b (k + 1) t else positions b (k + 1) t := by
  rw [positions, List.zipIdx_cons, List.filter_cons]
  by_cases hc : c = b
  · simp [hc, positions]
  · simp [hc, positions]

theorem positions_eq_nil (h : ∀ c ∈ t, c ≠ b) : positions b k t = [] := by
  induction t generalizing k with
  | nil => rfl
  | cons c t ih =>
    rw [positions_cons, if_neg (h c (List.mem_cons_self ..))]
    exact ih fun c hc => h c (List.mem_cons_of_mem _ hc)

/-- The positions of a character are as many as there are of it. -/
theorem length_positions (b : Char) (k : ℕ) (t : List Char) : (positions b k t).length = t.count b := by
  induction t generalizing k with
  | nil => rfl
  | cons c t ih =>
    rw [positions_cons]
    by_cases hc : c = b
    · rw [if_pos hc, List.length_cons, ih, hc, List.count_cons_self]
    · rw [if_neg hc, ih, List.count_cons_of_ne hc]

theorem le_of_mem_positions {i : ℕ} (h : i ∈ positions b k t) : k ≤ i := by
  induction t generalizing k with
  | nil => exact absurd h List.not_mem_nil
  | cons c t ih =>
    rw [positions_cons] at h
    by_cases hc : c = b
    · rw [if_pos hc] at h
      obtain rfl | h := List.mem_cons.mp h
      · exact le_rfl
      · exact Nat.le_of_succ_le (ih h)
    · rw [if_neg hc] at h
      exact Nat.le_of_succ_le (ih h)

theorem matchLoop_used {c j : ℕ} {st : List ℕ × List ℤ} : matchLoop arr c j false st = some st := by
  induction j with
  | zero => rfl
  | succ j ih =>
    rw [matchLoop, if_neg fun h => Bool.noConfusion h.2]
    exact ih

/-- The loop over `j` takes the last opening brace in front of the closing one that has not been used. -/
theorem matchLoop_eq {c o m : ℕ} {l l' : List ℕ} {res : List ℤ} {v : ℤ} (ho : o < c)
    (hl' : ∀ o' ∈ l', c ≤ o') (hv : findNum arr o c = some v) (hm : m ≤ l'.length) :
    matchLoop arr c (l.length + 1 + m) true (l ++ o :: l', res) = some (l ++ INT_MAX :: l', res ++ [v]) := by
  induction m with
  | zero =>
    have hat : (l ++ o :: l').getD l.length 0 = o := by
      rw [List.getD_append_right _ _ _ _ le_rfl, Nat.sub_self]
      rfl
    have hset : (l ++ o :: l').set l.length INT_MAX = l ++ INT_MAX :: l' := by simp
    rw [Nat.add_zero, matchLoop]
    show (if (l ++ o :: l').getD l.length 0 < c ∧ true = true then _ else _) = _
    rw [hat, if_pos ⟨ho, rfl⟩, hv]
    show matchLoop arr c l.length false ((l ++ o :: l').set l.length INT_MAX, res ++ [v]) = _
    rw [matchLoop_used, hset]
  | succ m ih =>
    have hat : (l ++ o :: l').getD (l.length + 1 + m) 0 = l'[m] := by
      rw [List.getD_append_right _ _ _ _ (by omega), show l.length + 1 + m - l.length = m + 1 by omega]
      exact List.getD_eq_getElem _ _ hm
    have hge : c ≤ (l ++ o :: l').getD (l.length + 1 + m) 0 := hat ▸ hl' _ (List.getElem_mem hm)
    rw [← Nat.add_assoc, matchLoop, if_neg fun h => absurd h.1 (Nat.not_lt.mpr hge)]
    exact ih (Nat.le_of_succ_le hm)

/-- The closing braces of the text are dealt with: they use its opening braces, whatever is in front of
the text and behind it, and print these lines. -/
def Matches (arr : List Char) (k : ℕ) (t : List Char) (ls : List ℕ) : Prop :=
  ∀ (l l' : List ℕ) (res : List ℤ) (n : ℕ), (∀ o ∈ l', k + t.length ≤ o) →
    n = (l ++ (positions '{' k t ++ l')).length →
      (positions '}' k t).foldlM (fun st c => matchLoop arr c n true st)
        (l ++ (positions '{' k t ++ l'), res) =
      some (l ++ (List.replicate (t.count '{') INT_MAX ++ l'), res ++ ls.map Nat.cast)

theorem matches_of_no_braces (h : ∀ c ∈ t, c ≠ '{' ∧ c ≠ '}') : Matches arr k t [] := by
  intro l l' res n _ _
  have hcount : t.count '{' = 0 := List.count_eq_zero.mpr fun hmem => (h _ hmem).1 rfl
  rw [positions_eq_nil fun c hc => (h c hc).1, positions_eq_nil fun c hc => (h c hc).2, hcount,
    List.map_nil, List.append_nil]
  rfl

theorem Matches.append {u : List Char} {ls' : List ℕ} (h : Matches arr k t ls)
    (h' : Matches arr (k + t.length) u ls') : Matches arr k (t ++ u) (ls ++ ls') := by
  intro l l' res n hl' hn
  rw [positions_append, List.append_assoc] at hn ⊢
  rw [positions_append, List.foldlM_append]
  have hbehind : ∀ o ∈ positions '{' (k + t.length) u ++ l', k + t.length ≤ o := by
    intro o ho
    obtain ho | ho := List.mem_append.mp ho
    · exact le_of_mem_positions ho
    · have := hl' o ho
      rw [List.length_append] at this
      omega
  have hbehind' : ∀ o ∈ l', k + t.length + u.length ≤ o := by
    intro o ho
    have := hl' o ho
    rwa [List.length_append, ← Nat.add_assoc] at this
  rw [h l _ res n hbehind hn]
  have hlen : n = ((l ++ List.replicate (t.count '{') INT_MAX) ++
      (positions '{' (k + t.length) u ++ l')).length := by
    rw [hn]
    simp only [List.length_append, length_positions, List.length_replicate]
    omega
  have h2 := h' (l ++ List.replicate (t.count '{') INT_MAX) l' (res ++ ls.map Nat.cast) n hbehind' hlen
  rw [List.append_assoc] at h2
  show List.foldlM _ _ _ = _
  rw [h2, List.count_append, List.replicate_add, List.map_append]
  simp only [List.append_assoc]

/-- The braces around a text. -/
theorem Matches.braces {v : ℕ} (h : Matches arr (k + 1) t ls)
    (hv : findNum arr k (k + 1 + t.length) = some (v : ℤ)) (hk : k + 1 + t.length ≤ INT_MAX) :
    Matches arr k ('{' :: (t ++ ['}'])) (ls ++ [v]) := by
  intro l l' res n hl' hn
  have hopen : positions '{' k ('{' :: (t ++ ['}'])) = k :: positions '{' (k + 1) t := by
    rw [positions_cons, if_pos rfl, positions_append, positions_cons, if_neg (by decide)]
    exact congrArg (k :: ·) (List.append_nil _)
  have hclose : positions '}' k ('{' :: (t ++ ['}'])) = positions '}' (k + 1) t ++ [k + 1 + t.length] := by
    rw [positions_cons, if_neg (by decide), positions_append, positions_cons, if_pos rfl]
    rfl
  have hlen : ('{' :: (t ++ ['}'])).length = t.length + 2 := by simp
  rw [hlen] at hl'
  rw [hopen] at hn ⊢
  rw [hclose, List.foldlM_append]
  have h1 := h (l ++ [k]) l' res n (fun o ho => by have := hl' o ho; omega) (by rw [hn]; simp)
  have hl1 : l ++ (k :: positions '{' (k + 1) t ++ l') = l ++ [k] ++ (positions '{' (k + 1) t ++ l') := by simp
  rw [hl1, h1]
  -- all braces behind the opening one have been used, or belong to what is behind the text
  have hbehind : ∀ o ∈ List.replicate (t.count '{') INT_MAX ++ l', k + 1 + t.length ≤ o := by
    intro o ho
    obtain ho | ho := List.mem_append.mp ho
    · rw [List.eq_of_mem_replicate ho]
      exact hk
    · have := hl' o ho
      omega
  have h2 := @matchLoop_eq arr (k + 1 + t.length) k (List.replicate (t.count '{') INT_MAX ++ l').length l _
    (res ++ ls.map Nat.cast) v (by omega) hbehind hv le_rfl
  have hn' : n = l.length + 1 + (List.replicate (t.count '{') INT_MAX ++ l').length := by
    rw [hn]
    simp only [List.length_append, List.length_cons, length_positions, List.length_replicate]
    omega
  rw [← hn'] at h2
  have hcount : ('{' :: (t ++ ['}'])).count '{' = t.count '{' + 1 := by
    rw [List.count_cons_self, List.count_append]
    rfl
  have hl2 : l ++ [k] ++ (List.replicate (t.count '{') INT_MAX ++ l') =
      l ++ k :: (List.replicate (t.count '{') INT_MAX ++ l') := by simp
  show List.foldlM _ _ _ = _
  rw [hl2, List.foldlM_cons, h2, hcount, List.replicate_succ, List.map_append]
  simp

theorem Blank.no_braces {sp : List Char} (hsp : Blank sp) : ∀ c ∈ sp, c ≠ '{' ∧ c ≠ '}' := by
  intro c hc
  rw [hsp c hc]
  decide

/-- The characters from the beginning of a piece of text to its end. -/
theorem slice_eq (pre text post : List Char) :
    ((pre ++ (text ++ post)).take (pre.length + text.length)).drop pre.length = text := by
  simp [List.take_append]

/-- The text of a derivation has as many opening braces as closing ones. -/
theorem Derives.balanced (h : Derives x t s ls) : t.count '{' = t.count '}' := by
  have hopen : ∀ {sp : List Char}, Blank sp → sp.count '{' = 0 := fun hsp =>
    List.count_eq_zero.mpr fun hmem => (hsp.no_braces _ hmem).1 rfl
  have hclose : ∀ {sp : List Char}, Blank sp → sp.count '}' = 0 := fun hsp =>
    List.count_eq_zero.mpr fun hmem => (hsp.no_braces _ hmem).2 rfl
  induction h with
  | @number ds _ hd =>
    have hno : ∀ {b : Char}, b.isDigit = false → ds.count b = 0 := fun hb =>
      List.count_eq_zero.mpr fun hmem => digit_ne hb (hd _ hmem) rfl
    rw [hno rfl, hno rfl]
  | inner _ ih => exact ih
  | one _ ih => exact ih
  | more _ hsp hsp' _ ih ih' =>
    simp [hopen hsp, hopen hsp', hclose hsp, hclose hsp', ih, ih']
  | empty hsp => simp [hopen hsp, hclose hsp]
  | group hsp _ hsp' ih => simp [hopen hsp, hopen hsp', hclose hsp, hclose hsp', ih]
  | none hsp => rw [hopen hsp, hclose hsp]
  | next hsp _ _ ih ih' => simp [hopen hsp, hclose hsp, ih, ih']

/-- A group, given what is between its braces. -/
theorem matches_group {a z : List Char} (hrows : RowsOf ('{' :: t) s) (hk : k = a.length)
    (harr : arr = a ++ (('{' :: (t ++ ['}'])) ++ z)) (hlen : k + (t.length + 2) ≤ 100) (hs : s < 2 ^ 31)
    (h : Matches arr (k + 1) t ls) : Matches arr k ('{' :: (t ++ ['}'])) (ls ++ [s]) := by
  obtain ⟨ts, h1, h2, rfl⟩ := hrows []
  have harr' : arr = a ++ (('{' :: t) ++ ('}' :: z)) := by
    rw [harr]
    simp
  have hslice : (arr.take (k + 1 + t.length)).drop k = '{' :: t := by
    have h3 := slice_eq a ('{' :: t) ('}' :: z)
    rwa [← harr', ← hk, List.length_cons, Nat.add_comm t.length, ← Nat.add_assoc] at h3
  have hmax : 100 ≤ INT_MAX := by decide
  have hv := findNum_eq hslice (by rw [List.length_cons]; omega) h1 h2 hs
  exact h.braces hv (by omega)

/-- **Matching**: what a derivation says about its text is what the loop does with its braces. -/
theorem Derives.matches (h : Derives x t s ls) {a z : List Char} (hk : k = a.length)
    (harr : arr = a ++ (t ++ z)) (hlen : k + t.length ≤ 100) (hls : ∀ v ∈ ls, v < 2 ^ 31) :
    Matches arr k t ls := by
  induction h generalizing a z k with
  | @number ds _ hd => exact matches_of_no_braces fun c hc => ⟨digit_ne rfl (hd c hc), digit_ne rfl (hd c hc)⟩
  | inner _ ih => exact ih hk harr hlen hls
  | one _ ih => exact ih hk harr hlen hls
  | @more t _ ls sp sp' u _ ls' _ hsp hsp' _ ih ih' =>
    have hcomma : Matches arr (k + t.length) (sp ++ ',' :: sp') [] := by
      apply matches_of_no_braces
      intro c hc
      rw [List.mem_append, List.mem_cons] at hc
      obtain hc | rfl | hc := hc
      · exact hsp.no_braces c hc
      · decide
      · exact hsp'.no_braces c hc
    simp only [List.length_append, List.length_cons] at hlen
    have h1 := ih hk (z := sp ++ ',' :: (sp' ++ u) ++ z) (by rw [harr]; simp) (by omega)
      fun v hv => hls v (List.mem_append_left _ hv)
    have h2 := ih' (a := a ++ (t ++ (sp ++ ',' :: sp'))) (z := z)
      (k := k + t.length + (sp ++ ',' :: sp').length) (by rw [hk]; simp; omega) (by rw [harr]; simp)
      (by simp; omega) fun v hv => hls v (List.mem_append_right _ hv)
    have h3 := h1.append (hcomma.append h2)
    rw [List.nil_append] at h3
    simpa using h3
  | @empty sp hsp =>
    have hrows : RowsOf ('{' :: sp) 0 := by
      have h1 := rowsOf_nil.braces hsp blank_nil
      rwa [List.append_nil, List.append_nil] at h1
    simp only [List.length_cons, List.length_append, List.length_nil] at hlen
    exact matches_group hrows hk harr (by omega) (by decide) (matches_of_no_braces hsp.no_braces)
  | @group t s ls sp sp' hsp h hsp' ih =>
    have hrows := (h.rowsOf nofun).braces hsp hsp'
    simp only [List.length_cons, List.length_append, List.length_nil] at hlen
    have h1 := ih (a := a ++ '{' :: sp) (z := sp' ++ '}' :: z) (k := k + 1 + sp.length)
      (by rw [hk]; simp; omega) (by rw [harr]; simp) (by omega)
      fun v hv => hls v (List.mem_append_left _ hv)
    have hfront : Matches arr (k + 1) sp [] := matches_of_no_braces hsp.no_braces
    have h2 := hfront.append (h1.append (matches_of_no_braces hsp'.no_braces))
    rw [List.nil_append, List.append_nil] at h2
    have h3 := matches_group hrows hk (z := z) (by rw [harr]; simp) (by simp; omega)
      (hls s (by simp)) h2
    simpa using h3
  | none hsp => exact matches_of_no_braces hsp.no_braces
  | @next t _ ls sp u _ ls' hsp _ _ ih ih' =>
    simp only [List.length_append] at hlen
    have h1 := ih (a := a ++ sp) (z := u ++ z) (k := k + sp.length) (by rw [hk]; simp)
      (by rw [harr]; simp) (by omega) fun v hv => hls v (List.mem_append_left _ hv)
    have h2 := ih' (a := a ++ (sp ++ t)) (z := z) (k := k + sp.length + t.length)
      (by rw [hk]; simp; omega) (by rw [harr]; simp) (by omega)
      fun v hv => hls v (List.mem_append_right _ hv)
    exact (matches_of_no_braces (k := k) hsp.no_braces).append (h1.append h2)

/-- The loop over `i` goes through the closing braces. -/
theorem foldlM_range {β : Type} (f : β → ℕ → Option β) (l : List ℕ) (st : β) :
    (List.range l.length).foldlM (fun st i => f st (l.getD i 0)) st = l.foldlM f st := by
  have hmap : (List.range l.length).map (fun i => l.getD i 0) = l := by
    apply List.ext_getElem
    · simp
    · intro i h1 h2
      rw [List.getElem_map, List.getElem_range, List.getD_eq_getElem _ _ h2]
  conv_rhs => rw [← hmap, List.foldlM_map]

/-- **The sums of groups in braces**: one line for each closing brace, with the sum of its group. -/
theorem brace_sums {line : List Char} (h : Derives .groups line s ls) (hlen : line.length ≤ 99)
    (hls : ∀ v ∈ ls, v < 2 ^ 31) : main line = some (ls.map Nat.cast) := by
  set arr := line ++ List.replicate (100 - line.length) nul with harr
  have hnul : ∀ {b : Char}, b ≠ nul → positions b 0 arr = positions b 0 line := by
    intro b hb
    have hrest : positions b (0 + line.length) (List.replicate (100 - line.length) nul) = [] :=
      positions_eq_nil fun c hc => by rw [List.eq_of_mem_replicate hc]; exact hb.symm
    rw [harr, positions_append, hrest, List.append_nil]
  have hmatch : Matches arr 0 line ls := h.matches (a := []) rfl harr (by omega) hls
  have hloop := hmatch [] [] [] (positions '{' 0 line).length nofun (by simp)
  rw [List.nil_append, List.append_nil] at hloop
  have hbal : (positions '{' 0 line).length = (positions '}' 0 line).length := by
    rw [length_positions, length_positions, h.balanced]
  have hrange := foldlM_range (fun st c => matchLoop arr c (positions '{' 0 line).length true st)
    (positions '}' 0 line) (positions '{' 0 line, [])
  rw [← hbal, hloop] at hrange
  rw [main, if_pos (Nat.lt_succ_of_le hlen)]
  show ((List.range (positions '{' 0 arr).length).foldlM
    (fun st i => matchLoop arr ((positions '}' 0 arr).getD i 0) (positions '{' 0 arr).length true st)
      (positions '{' 0 arr, [])).map Prod.snd = _
  rw [hnul (by decide), hnul (by decide), hrange]
  rfl

theorem brace_sums_nested : main ['{', '1', ',', ' ', '{', '2', '0', '}', '}'] = some [20, 21] :=
  have h20 : Derives .element ['2', '0'] 20 [] := .number (List.cons_ne_nil _ _) (by simp)
  have hinner : Derives .group ['{', '2', '0', '}'] 20 [20] :=
    @Derives.group _ _ _ [] [] blank_nil (.one h20) blank_nil
  have h1 : Derives .element ['1'] 1 [] := .number (List.cons_ne_nil _ _) (by simp)
  have houter : Derives .group ['{', '1', ',', ' ', '{', '2', '0', '}', '}'] 21 [20, 21] :=
    @Derives.group _ _ _ [] [] blank_nil
      (@Derives.more _ _ _ [] [' '] _ _ _ h1 blank_nil blank_space (.one (.inner hinner)))
      blank_nil
  brace_sums (@Derives.next _ _ _ [] _ _ _ blank_nil houter (.none blank_nil)) (by decide) (by simp)

end OsSemester.Hw1.BraceSums
