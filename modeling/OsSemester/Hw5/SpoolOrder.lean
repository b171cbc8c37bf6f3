import OsSemester.Hw5.Spool
import OsSemester.Lib.Tally

/-!
# The server prints what the clients write, in order

Three counts carry the argument (`Counts`): the free slots are in `buffer_count_sem`, with the
clients that are about to write and with the server that has just printed; the messages that are not
printed are in `server_signal_sem`, with the clients that have not signalled yet and with the server
that prints; and one process at most is inside the mutex.  A client that signals late only delays the
server: whenever the server may print, the next message in the order of the mutex has been written.
The main result is `spool_order`.
-/

namespace OsSemester.Hw5

variable {C : Type} {pid : C → Pid} {σ σ' τ : Spool C} {c d : C}
variable {buf : List Byte} {i j k : ℕ} {p : ClientPc}

/-! ### The length of a message -/

theorem length_decimal (hk : k < 10 ^ 10) : (decimal k).length ≤ 10 := by
  unfold decimal
  split_ifs with h
  · simp
  · rw [List.length_map, List.length_reverse]
    exact (Nat.digits_length_le_iff (by omega) k).mpr hk

theorem length_formatInt (n : Pid) : (formatInt n).length ≤ 11 := by
  have hlt : n.toInt.natAbs < 10 ^ 10 := by
    have h1 := BitVec.toInt_lt (x := n)
    have h2 := BitVec.le_toInt n
    omega
  have := length_decimal hlt
  unfold formatInt
  split_ifs
  · rw [List.length_cons]
    omega
  · omega

/-- **Every message fits its slot**, with the final NUL. -/
theorem length_formatted (n : Pid) (h : buf.length ≤ 197) : (formatted n buf).length < 256 := by
  have := length_formatInt n
  simp only [formatted, List.length_append, List.length_cons, List.length_nil]
  omega

theorem decimal_ne_zero (k : ℕ) : (0 : Byte) ∉ decimal k := by
  unfold decimal
  split_ifs with h
  · decide
  · intro hm
    obtain ⟨d, hd, he⟩ := List.mem_map.mp hm
    have hlt := Nat.digits_lt_base (by omega : 1 < 10) (List.mem_reverse.mp hd)
    have h0 := congrArg UInt8.toNat he
    rw [UInt8.toNat_ofNat'] at h0
    simp at h0
    omega

theorem formatted_ne_zero (n : Pid) (h : (0 : Byte) ∉ buf) : (0 : Byte) ∉ formatted n buf := by
  have hint : (0 : Byte) ∉ formatInt n := by
    unfold formatInt
    split_ifs
    · rw [List.mem_cons, not_or]
      exact ⟨by decide, decimal_ne_zero _⟩
    · exact decimal_ne_zero _
  simp only [formatted, List.mem_append, not_or]
  exact ⟨⟨⟨⟨by decide, hint⟩, by decide⟩, h⟩, by decide⟩

/-- A message that a client can have in its `buf`. -/
def Message (buf : List Byte) : Prop := buf.length ≤ 197 ∧ (0 : Byte) ∉ buf

theorem message_of_fgets {stdin line rest : List Byte} (h : fgets 198 stdin = some (line, rest)) :
    Message (chomp (cString line)) := by
  have hlen : line.length ≤ 197 := by
    unfold fgets at h
    split_ifs at h with h0
    obtain ⟨rfl, -⟩ := Prod.mk.inj (Option.some.inj h)
    have h1 := congrArg List.length
      (List.takeWhile_append_dropWhile (p := (· ≠ 10)) (l := stdin.take (198 - 1)))
    have h2 := List.length_take_le (198 - 1) stdin
    have h3 := List.length_take_le' 1 ((stdin.take (198 - 1)).dropWhile (· ≠ 10))
    rw [List.length_append] at h1 ⊢
    omega
  have hsub : (chomp (cString line)).Sublist (cString line) := by
    unfold chomp
    split_ifs
    · exact List.dropLast_sublist _
    · exact List.Sublist.refl _
  refine ⟨hsub.length_le.trans ((List.takeWhile_sublist _).length_le.trans hlen), fun h0 => ?_⟩
  have := List.mem_takeWhile_imp (hsub.subset h0)
  simp at this

theorem fgets_ne_nil {stdin line rest : List Byte} {n : ℕ} (hn : 1 < n)
    (h : fgets n stdin = some (line, rest)) : line ≠ [] := by
  intro hnil
  unfold fgets at h
  split_ifs at h with h0
  obtain ⟨hline, -⟩ := Prod.mk.inj (Option.some.inj h)
  rw [hnil, List.append_eq_nil_iff] at hline
  obtain ⟨h1, h2⟩ := hline
  have hcut := List.takeWhile_append_dropWhile (p := (· ≠ 10)) (l := stdin.take (n - 1))
  rw [h1, List.nil_append] at hcut
  rw [hcut, List.take_take, List.take_eq_nil_iff] at h2
  rcases h2 with h2 | h2
  · omega
  · exact h0 h2

/-- The test for the newline looks at a byte of the string, unless the line begins with a NUL. -/
theorem strlen_pos_iff {stdin line rest : List Byte} (h : fgets 198 stdin = some (line, rest)) :
    0 < (cString line).length ↔ line.head? ≠ some 0 := by
  obtain ⟨b, line, rfl⟩ := List.exists_cons_of_ne_nil (fgets_ne_nil (by decide) h)
  rw [cString, List.takeWhile_cons, List.head?_cons]
  by_cases hb : b = 0
  · simp [hb]
  · simp [hb]

/-! ### The counts -/

namespace ClientPc

/-- The client has taken a free slot and not filled it yet. -/
def reserves : ClientPc → ℕ
  | mutex _ | sprintf _ _ => 1
  | _ => 0

/-- The client has filled a slot and not signalled it yet. -/
def owes : ClientPc → ℕ
  | incr | wrap | unlock | serverSignal => 1
  | _ => 0

/-- The client is inside the mutex. -/
def critical : ClientPc → ℕ
  | sprintf _ _ | incr | wrap | unlock => 1
  | _ => 0

end ClientPc

namespace ServerPc

/-- The server prints. -/
def prints : ServerPc → ℕ
  | printf _ => 1
  | _ => 0

/-- The server has printed and not given the slot back yet. -/
def owes : ServerPc → ℕ
  | incr | wrap | bufferCount => 1
  | _ => 0

end ServerPc

/-- The counts of the semaphores and of who has taken what. -/
structure Counts [Fintype C] (σ : Spool C) : Prop where
  slots : σ.bufferCount + tally ClientPc.reserves σ.client + σ.written.length + σ.server.owes =
    10 + σ.printed
  signals : σ.serverSignal + tally ClientPc.owes σ.client + σ.server.prints + σ.printed =
    σ.written.length
  mutex : σ.mutex + tally ClientPc.critical σ.client = 1

theorem store_ok {b : Byte} (h : σ.store i j b = .ok σ') :
    ∃ hi hj, σ' = σ.setByte ⟨i, hi⟩ ⟨j, hj⟩ b := by
  unfold Spool.store at h
  split_ifs at h with hij
  exact ⟨hij.1, hij.2, (Except.ok.inj h).symm⟩

section Steps

variable [Fintype C]

section Client

variable [DecidableEq C]

/-- A step of a client that moves it to `p`. -/
theorem Counts.move (h : Counts σ) (hc : σ'.client = Function.update σ.client c p)
    (hs : σ'.server = σ.server) (hp : σ'.printed = σ.printed)
    (h1 : σ'.bufferCount + p.reserves + σ'.written.length =
      σ.bufferCount + (σ.client c).reserves + σ.written.length)
    (h2 : σ'.serverSignal + p.owes + σ.written.length =
      σ.serverSignal + (σ.client c).owes + σ'.written.length)
    (h3 : σ'.mutex + p.critical = σ.mutex + (σ.client c).critical) : Counts σ' := by
  have e1 := tally_update ClientPc.reserves σ.client c p
  have e2 := tally_update ClientPc.owes σ.client c p
  have e3 := tally_update ClientPc.critical σ.client c p
  obtain ⟨g1, g2, g3⟩ := h
  constructor <;> rw [hc] <;> (try rw [hs, hp]) <;> omega

theorem Counts.client (h : Counts σ) (hs : σ.clientStep pid c = .ok σ') : Counts σ' := by
  unfold Spool.clientStep at hs
  cases hc : σ.client c with
  | fgets =>
    simp only [hc] at hs
    cases hf : fgets 198 (σ.stdin c) with
    | none =>
      simp only [hf] at hs
      obtain rfl := Except.ok.inj hs
      exact h.move rfl rfl rfl (by rw [hc]; rfl) (by rw [hc]; rfl) (by rw [hc]; rfl)
    | some x =>
      simp only [hf] at hs
      obtain rfl := Except.ok.inj hs
      exact h.move rfl rfl rfl (by rw [hc]; rfl) (by rw [hc]; rfl) (by rw [hc]; rfl)
  | bufferCount buf =>
    simp only [hc] at hs
    split_ifs at hs with h0
    obtain rfl := Except.ok.inj hs
    refine h.move rfl rfl rfl ?_ (by rw [hc]; rfl) (by rw [hc]; rfl)
    simp only [hc, ClientPc.reserves, Spool.setClient]
    omega
  | mutex buf =>
    simp only [hc] at hs
    split_ifs at hs with h0
    obtain rfl := Except.ok.inj hs
    refine h.move rfl rfl rfl (by rw [hc]; rfl) (by rw [hc]; rfl) ?_
    simp only [hc, ClientPc.critical]
    omega
  | sprintf buf j =>
    simp only [hc] at hs
    cases hb : (formatted (pid c) buf)[j]? with
    | some b =>
      simp only [hb] at hs
      obtain ⟨_, _, rfl⟩ := store_ok hs
      exact h.move rfl rfl rfl (by rw [hc]; rfl) (by rw [hc]; rfl) (by rw [hc]; rfl)
    | none =>
      simp only [hb] at hs
      obtain ⟨_, _, rfl⟩ := store_ok hs
      -- with the final zero the message counts as written
      refine h.move rfl rfl rfl ?_ ?_ (by rw [hc]; rfl)
      all_goals
        simp only [Spool.setByte, Spool.setClient, List.length_append, List.length_singleton, hc,
          ClientPc.reserves, ClientPc.owes]
        omega
  | incr | wrap =>
    simp only [hc] at hs
    obtain rfl := Except.ok.inj hs
    exact h.move rfl rfl rfl (by rw [hc]; rfl) (by rw [hc]; rfl) (by rw [hc]; rfl)
  | unlock =>
    simp only [hc] at hs
    obtain rfl := Except.ok.inj hs
    exact h.move rfl rfl rfl (by rw [hc]; rfl) (by rw [hc]; rfl) (by rw [hc]; rfl)
  | serverSignal =>
    simp only [hc] at hs
    obtain rfl := Except.ok.inj hs
    refine h.move rfl rfl rfl (by rw [hc]; rfl) ?_ (by rw [hc]; rfl)
    simp only [hc, ClientPc.owes, Spool.setClient]
  | exit =>
    simp only [hc] at hs
    cases hs

end Client

theorem Counts.server (h : Counts σ) (hs : σ.serverStep = .ok σ') : Counts σ' := by
  obtain ⟨h1, h2, h3⟩ := h
  unfold Spool.serverStep at hs
  cases hc : σ.server with
  | serverSignal =>
    simp only [hc, ServerPc.owes, ServerPc.prints] at hs h1 h2
    split_ifs at hs with h0
    obtain rfl := Except.ok.inj hs
    constructor <;> simp only [ServerPc.owes, ServerPc.prints] <;> omega
  | printf j =>
    simp only [hc, ServerPc.owes, ServerPc.prints] at hs h1 h2
    cases hl : σ.load σ.mem.buffer_print_index j with
    | error e =>
      simp only [hl] at hs
      cases hs
    | ok b =>
      simp only [hl] at hs
      split_ifs at hs <;> obtain rfl := Except.ok.inj hs <;>
        constructor <;> simp only [ServerPc.owes, ServerPc.prints] <;> omega
  | incr | wrap =>
    simp only [hc, ServerPc.owes, ServerPc.prints] at hs h1 h2
    obtain rfl := Except.ok.inj hs
    constructor <;> simp only [ServerPc.owes, ServerPc.prints] <;> omega
  | bufferCount =>
    simp only [hc, ServerPc.owes, ServerPc.prints] at hs h1 h2
    obtain rfl := Except.ok.inj hs
    constructor <;> simp only [ServerPc.owes, ServerPc.prints] <;> omega

/-- Whoever is in the mutex is there alone. -/
theorem Counts.alone [DecidableEq C] (h : Counts σ) (hc : (σ.client c).critical = 1) (hd : d ≠ c) :
    (σ.client d).critical = 0 := by
  have h3 := h.mutex
  exact tally_le_one (w := ClientPc.critical) (i := c) (by omega) hc hd

end Steps

/-! ### The contents of the slots -/

/-- The slot `i` begins with the bytes `f`. -/
def Spool.Holds (σ : Spool C) (i : ℕ) (f : List Byte) : Prop :=
  ∀ j b, f[j]? = some b → σ.load i j = .ok b

/-- The index of a slot from which the process that has used it `k - 1` times moves on. -/
def Leaving (index k : ℕ) : Prop := index < 10 ∧ (index + 1) % 10 = k % 10

/-- The same, before the test for 10. -/
def Wrapping (index k : ℕ) : Prop := index ≤ 10 ∧ index % 10 = k % 10

theorem Leaving.wrapping (h : Leaving i k) : Wrapping (i + 1) k := ⟨h.1, h.2⟩

theorem Wrapping.wrap (h : Wrapping i k) : (if i = 10 then 0 else i) = k % 10 := by
  obtain ⟨h1, h2⟩ := h
  split_ifs <;> omega

theorem leaving_of_eq (h : i = k % 10) : Leaving i (k + 1) := by
  constructor <;> omega

theorem load_setByte {i : Fin 10} {j : Fin 256} {b : Byte} {i' j' : ℕ} (h : i' ≠ i ∨ j' ≠ j) :
    (σ.setByte i j b).load i' j' = σ.load i' j' := by
  unfold Spool.load
  split_ifs with hij
  · congr 1
    simp only [Spool.setByte, Function.update_apply]
    split_ifs with hi
    · have hj : (⟨j', hij.2⟩ : Fin 256) ≠ j := by
        rintro rfl
        rcases h with h | h
        · exact h (congrArg Fin.val hi)
        · exact h rfl
      rw [Function.update_of_ne hj, ← hi]
    · rfl
  · rfl

theorem load_setByte_self {i : Fin 10} {j : Fin 256} {b : Byte} :
    (σ.setByte i j b).load i j = .ok b := by
  unfold Spool.load
  rw [dif_pos ⟨i.isLt, j.isLt⟩]
  simp [Spool.setByte]

theorem Spool.Holds.congr {f : List Byte} (h : σ.Holds i f) (hm : τ.mem.buf = σ.mem.buf) :
    τ.Holds i f := by
  intro j b hb
  have hl := h j b hb
  unfold Spool.load at hl ⊢
  rwa [hm]

/-- Writing to another slot. -/
theorem Spool.Holds.other {b : Byte} {f : List Byte} {i' : ℕ} (h : σ.Holds i' f)
    (hs : τ.store i j b = .ok σ') (hm : τ.mem = σ.mem) (hi : i' ≠ i) : σ'.Holds i' f := by
  have h : τ.Holds i' f := h.congr (by rw [hm])
  obtain ⟨_, _, rfl⟩ := store_ok hs
  intro k a hk
  rw [load_setByte (Or.inl hi)]
  exact h k a hk

/-- Writing the next byte. -/
theorem Spool.Holds.snoc {b : Byte} {f : List Byte} (h : σ.Holds i f)
    (hs : τ.store i j b = .ok σ') (hm : τ.mem = σ.mem) (hj : f.length = j) : σ'.Holds i (f ++ [b]) := by
  have h : τ.Holds i f := h.congr (by rw [hm])
  subst hj
  obtain ⟨hi, hj, rfl⟩ := store_ok hs
  intro k a hk
  by_cases hlt : k < f.length
  · rw [List.getElem?_append_left hlt] at hk
    rw [load_setByte (Or.inr hlt.ne)]
    exact h k a hk
  · rw [List.getElem?_append_right (by omega)] at hk
    have hk0 : k = f.length := by
      by_contra hne
      rw [List.getElem?_eq_none (by simp; omega)] at hk
      cases hk
    subst hk0
    obtain rfl : b = a := by simpa using hk
    exact load_setByte_self (i := ⟨i, hi⟩) (j := ⟨f.length, hj⟩)

/-! ### The invariant -/

/-- The message a client carries. -/
def ClientPc.message : ClientPc → Option (List Byte)
  | bufferCount buf | mutex buf | sprintf buf _ => some buf
  | _ => none

/-- All messages fit their slots and contain no NUL. -/
structure Texts (σ : Spool C) : Prop where
  bufs : ∀ {c buf}, (σ.client c).message = some buf → Message buf
  written : ∀ {f}, f ∈ σ.written → f.length < 256 ∧ (0 : Byte) ∉ f

/-- The clients write the messages to the slots in turn. -/
structure Ring (pid : C → Pid) (σ : Spool C) : Prop where
  incr : ∀ {c}, σ.client c = .incr → Leaving σ.mem.buffer_index σ.written.length
  wrap : ∀ {c}, σ.client c = .wrap → Wrapping σ.mem.buffer_index σ.written.length
  rest : (∀ c, σ.client c ≠ .incr ∧ σ.client c ≠ .wrap) →
    σ.mem.buffer_index = σ.written.length % 10
  sprintf : ∀ {c buf j}, σ.client c = .sprintf buf j → j ≤ (formatted (pid c) buf).length ∧
    σ.Holds σ.mem.buffer_index ((formatted (pid c) buf).take j)
  slots : ∀ {k f}, σ.printed ≤ k → σ.written[k]? = some f → σ.Holds (k % 10) (f ++ [0])

/-- The server prints the messages in turn. -/
structure Printed (σ : Spool C) : Prop where
  incr : σ.server = .incr → Leaving σ.mem.buffer_print_index σ.printed
  wrap : σ.server = .wrap → Wrapping σ.mem.buffer_print_index σ.printed
  rest : σ.server ≠ .incr → σ.server ≠ .wrap → σ.mem.buffer_print_index = σ.printed % 10
  printf : ∀ {j}, σ.server = .printf j → ∃ f, σ.written[σ.printed]? = some f ∧ j ≤ f.length ∧
    σ.out = (σ.written.take σ.printed).flatten ++ f.take j
  out : (∀ j, σ.server ≠ .printf j) → σ.out = (σ.written.take σ.printed).flatten

structure Spooled [Fintype C] (pid : C → Pid) (σ : Spool C) : Prop where
  counts : Counts σ
  texts : Texts σ
  ring : Ring pid σ
  printed : Printed σ

/-! ### Steps of a client -/

section Client

variable [DecidableEq C]

theorem Texts.client (h : Texts σ) (hs : σ.clientStep pid c = .ok σ') : Texts σ' := by
  -- the client goes on with its message or reads a new one
  have hmove : ∀ {p : ClientPc}, σ'.client = Function.update σ.client c p →
      (∀ buf, p.message = some buf → Message buf) →
      ∀ {d buf}, (σ'.client d).message = some buf → Message buf := by
    intro p hc hp d buf hd
    rw [hc, Function.update_apply] at hd
    split_ifs at hd with hdc
    · exact hp buf hd
    · exact h.bufs hd
  unfold Spool.clientStep at hs
  cases hc : σ.client c with
  | fgets =>
    simp only [hc] at hs
    cases hf : fgets 198 (σ.stdin c) with
    | none =>
      simp only [hf] at hs
      obtain rfl := Except.ok.inj hs
      exact ⟨hmove rfl nofun, h.written⟩
    | some x =>
      simp only [hf] at hs
      obtain rfl := Except.ok.inj hs
      refine ⟨hmove rfl fun buf hb => ?_, h.written⟩
      obtain rfl := Option.some.inj hb
      exact message_of_fgets hf
  | bufferCount buf | mutex buf =>
    simp only [hc] at hs
    split_ifs at hs
    obtain rfl := Except.ok.inj hs
    exact ⟨hmove rfl fun buf' hb => h.bufs (c := c) (by rw [hc]; exact hb), h.written⟩
  | sprintf buf j =>
    have hbuf : Message buf := h.bufs (c := c) (by rw [hc]; rfl)
    simp only [hc] at hs
    cases hb : (formatted (pid c) buf)[j]? with
    | some b =>
      simp only [hb] at hs
      obtain ⟨_, _, rfl⟩ := store_ok hs
      exact ⟨hmove rfl fun buf' hb => h.bufs (c := c) (by rw [hc]; exact hb), h.written⟩
    | none =>
      simp only [hb] at hs
      obtain ⟨_, _, rfl⟩ := store_ok hs
      refine ⟨hmove rfl nofun, fun {f} hf => ?_⟩
      rcases List.mem_append.mp hf with hf | hf
      · exact h.written hf
      · obtain rfl := List.mem_singleton.mp hf
        exact ⟨length_formatted _ hbuf.1, formatted_ne_zero _ hbuf.2⟩
  | incr | wrap | unlock | serverSignal =>
    simp only [hc] at hs
    obtain rfl := Except.ok.inj hs
    exact ⟨hmove rfl nofun, h.written⟩
  | exit =>
    simp only [hc] at hs
    cases hs

/-- A step of a client outside the mutex, or into it. -/
theorem Ring.move (h : Ring pid σ) (hc : σ'.client = Function.update σ.client c p)
    (hm : σ'.mem = σ.mem) (hw : σ'.written = σ.written) (hp : σ'.printed = σ.printed)
    (hold : σ.client c ≠ .incr ∧ σ.client c ≠ .wrap) (hnew : p ≠ .incr ∧ p ≠ .wrap)
    (hpr : ∀ buf j, p = .sprintf buf j → j = 0) : Ring pid σ' := by
  have hload : ∀ i f, σ.Holds i f → σ'.Holds i f := fun i f hH => hH.congr (by rw [hm])
  have hcl : ∀ {d q}, σ'.client d = q → d = c ∧ q = p ∨ σ.client d = q := by
    intro d q hd
    rw [hc, Function.update_apply] at hd
    split_ifs at hd with hdc
    · exact Or.inl ⟨hdc, hd.symm⟩
    · exact Or.inr hd
  refine ⟨fun {d} hd => ?_, fun {d} hd => ?_, fun hno => ?_, fun {d buf j} hd => ?_,
    fun {k f} hk hf => ?_⟩
  · rw [hm, hw]
    rcases hcl hd with ⟨-, he⟩ | hd
    · exact absurd he.symm hnew.1
    · exact h.incr hd
  · rw [hm, hw]
    rcases hcl hd with ⟨-, he⟩ | hd
    · exact absurd he.symm hnew.2
    · exact h.wrap hd
  · rw [hm, hw]
    refine h.rest fun d => ?_
    by_cases hdc : d = c
    · rw [hdc]
      exact hold
    · have := hno d
      rwa [hc, Function.update_of_ne hdc] at this
  · rw [hm]
    rcases hcl hd with ⟨-, he⟩ | hd
    · rw [hpr buf j he.symm]
      exact ⟨Nat.zero_le _, fun k b hk => by simp at hk⟩
    · obtain ⟨h1, h2⟩ := h.sprintf hd
      exact ⟨h1, hload _ _ h2⟩
  · rw [hw] at hf
    rw [hp] at hk
    exact hload _ _ (h.slots hk hf)

/-- A client in `sprintf` is alone, and its slot contains no message that is still to be printed. -/
theorem Spooled.writing [Fintype C] (h : Spooled pid σ) (hc : σ.client c = .sprintf buf j) :
    (∀ d, d ≠ c → (σ.client d).critical = 0) ∧ σ.mem.buffer_index = σ.written.length % 10 ∧
    ∀ k, σ.printed ≤ k → k < σ.written.length → k % 10 ≠ σ.mem.buffer_index := by
  have halone : ∀ d, d ≠ c → (σ.client d).critical = 0 := fun d hd =>
    h.counts.alone (by rw [hc]; rfl) hd
  have hindex := h.ring.rest fun d => by
    by_cases hdc : d = c
    · rw [hdc, hc]
      exact ⟨nofun, nofun⟩
    · have := halone d hdc
      constructor <;> intro he <;> rw [he] at this <;> cases this
  refine ⟨halone, hindex, fun k hk hlt => ?_⟩
  have h1 := h.counts.slots
  have h2 := le_tally (w := ClientPc.reserves) (f := σ.client) c
  rw [hc, ClientPc.reserves] at h2
  omega

/-- A client that is in the mutex leaves the others outside. -/
theorem Counts.only [Fintype C] (h : Counts σ) (hc : (σ.client c).critical = 1) {q : ClientPc}
    (hd : Function.update σ.client c p d = q) (hq : q.critical = 1) : d = c ∧ q = p := by
  rw [Function.update_apply] at hd
  split_ifs at hd with hdc
  · exact ⟨hdc, hd.symm⟩
  · have := h.alone hc hdc
    rw [hd, hq] at this
    cases this

/-- A client writes the byte `j` of its message. -/
theorem Spooled.ring_byte [Fintype C] (h : Spooled pid σ) (hc : σ.client c = .sprintf buf j) {b : Byte}
    (hb : (formatted (pid c) buf)[j]? = some b)
    (hs : (σ.setClient c (.sprintf buf (j + 1))).store σ.mem.buffer_index j b = .ok σ') :
    Ring pid σ' := by
  have hR := h.ring
  have hcrit : (σ.client c).critical = 1 := by rw [hc]; rfl
  obtain ⟨-, hindex, hfree⟩ := h.writing hc
  obtain ⟨hle, hholds⟩ := hR.sprintf hc
  have hlen : ((formatted (pid c) buf).take j).length = j := List.length_take_of_le hle
  have hcl : σ'.client = Function.update σ.client c (.sprintf buf (j + 1)) ∧
      σ'.mem.buffer_index = σ.mem.buffer_index ∧ σ'.written = σ.written ∧
      σ'.printed = σ.printed := by
    obtain ⟨_, _, rfl⟩ := store_ok hs
    exact ⟨rfl, rfl, rfl, rfl⟩
  obtain ⟨hcl, hidx, hw, hp⟩ := hcl
  refine ⟨fun {d} hd => ?_, fun {d} hd => ?_, fun _ => ?_, fun {d buf' j'} hd => ?_,
    fun {k f} hk hf => ?_⟩
  · rw [hcl] at hd
    cases (h.counts.only hcrit hd rfl).2
  · rw [hcl] at hd
    cases (h.counts.only hcrit hd rfl).2
  · rw [hidx, hw, hindex]
  · rw [hcl] at hd
    obtain ⟨rfl, he⟩ := h.counts.only hcrit hd rfl
    obtain ⟨rfl, rfl⟩ := ClientPc.sprintf.inj he
    have hj : j < (formatted (pid d) buf').length := (List.getElem?_eq_some_iff.mp hb).1
    refine ⟨hj, ?_⟩
    rw [hidx, List.take_add_one, hb, Option.toList_some]
    exact hholds.snoc hs rfl hlen
  · rw [hw] at hf
    rw [hp] at hk
    have hlt := (List.getElem?_eq_some_iff.mp hf).1
    exact (hR.slots hk hf).other hs rfl (hfree k hk hlt)

/-- A client writes the NUL behind its message. -/
theorem Spooled.ring_end [Fintype C] (h : Spooled pid σ) (hc : σ.client c = .sprintf buf j)
    (hb : (formatted (pid c) buf)[j]? = none)
    (hs : ({ σ.setClient c .incr with
      written := σ.written ++ [formatted (pid c) buf] } : Spool C).store σ.mem.buffer_index j 0 =
        .ok σ') : Ring pid σ' := by
  have hR := h.ring
  have hcrit : (σ.client c).critical = 1 := by rw [hc]; rfl
  obtain ⟨-, hindex, hfree⟩ := h.writing hc
  obtain ⟨hle, hholds⟩ := hR.sprintf hc
  have hlen : ((formatted (pid c) buf).take j).length = j := List.length_take_of_le hle
  have hj : j = (formatted (pid c) buf).length := by
    have := List.getElem?_eq_none_iff.mp hb
    omega
  have hcl : σ'.client = Function.update σ.client c .incr ∧
      σ'.mem.buffer_index = σ.mem.buffer_index ∧
      σ'.written = σ.written ++ [formatted (pid c) buf] ∧ σ'.printed = σ.printed := by
    obtain ⟨_, _, rfl⟩ := store_ok hs
    exact ⟨rfl, rfl, rfl, rfl⟩
  obtain ⟨hcl, hidx, hw, hp⟩ := hcl
  refine ⟨fun {d} hd => ?_, fun {d} hd => ?_, fun hno => ?_, fun {d buf' j'} hd => ?_,
    fun {k f} hk hf => ?_⟩
  · rw [hidx, hw, List.length_append, List.length_singleton]
    exact leaving_of_eq hindex
  · rw [hcl] at hd
    cases (h.counts.only hcrit hd rfl).2
  · refine absurd ?_ (hno c).1
    rw [hcl, Function.update_self]
  · rw [hcl] at hd
    cases (h.counts.only hcrit hd rfl).2
  · rw [hw] at hf
    rw [hp] at hk
    by_cases hlt : k < σ.written.length
    · rw [List.getElem?_append_left hlt] at hf
      exact (hR.slots hk hf).other hs rfl (hfree k hk hlt)
    · -- the message that has just been finished
      rw [List.getElem?_append_right (by omega)] at hf
      have hk0 : k = σ.written.length := by
        by_contra hne
        rw [List.getElem?_eq_none (by simp; omega)] at hf
        cases hf
      subst hk0
      obtain rfl : formatted (pid c) buf = f := by simpa using hf
      rw [← hindex]
      rw [hj, List.take_length] at hholds
      exact hholds.snoc hs rfl hj.symm

theorem Spooled.ring_client [Fintype C] (h : Spooled pid σ) (hs : σ.clientStep pid c = .ok σ') :
    Ring pid σ' := by
  have hR := h.ring
  unfold Spool.clientStep at hs
  cases hc : σ.client c with
  | fgets =>
    have hold : σ.client c ≠ .incr ∧ σ.client c ≠ .wrap := by simp [hc]
    simp only [hc] at hs
    cases hf : fgets 198 (σ.stdin c) with
    | none =>
      simp only [hf] at hs
      obtain rfl := Except.ok.inj hs
      exact hR.move rfl rfl rfl rfl hold (by simp) nofun
    | some x =>
      simp only [hf] at hs
      obtain rfl := Except.ok.inj hs
      exact hR.move rfl rfl rfl rfl hold (by simp) nofun
  | bufferCount buf =>
    have hold : σ.client c ≠ .incr ∧ σ.client c ≠ .wrap := by simp [hc]
    simp only [hc] at hs
    split_ifs at hs
    obtain rfl := Except.ok.inj hs
    exact hR.move rfl rfl rfl rfl hold (by simp) nofun
  | mutex buf =>
    have hold : σ.client c ≠ .incr ∧ σ.client c ≠ .wrap := by simp [hc]
    simp only [hc] at hs
    split_ifs at hs
    obtain rfl := Except.ok.inj hs
    refine hR.move rfl rfl rfl rfl hold (by simp) fun buf' j hj => ?_
    exact (ClientPc.sprintf.inj hj).2.symm
  | unlock =>
    have hold : σ.client c ≠ .incr ∧ σ.client c ≠ .wrap := by simp [hc]
    simp only [hc] at hs
    obtain rfl := Except.ok.inj hs
    exact hR.move rfl rfl rfl rfl hold (by simp) nofun
  | serverSignal =>
    have hold : σ.client c ≠ .incr ∧ σ.client c ≠ .wrap := by simp [hc]
    simp only [hc] at hs
    obtain rfl := Except.ok.inj hs
    exact hR.move rfl rfl rfl rfl hold (by simp) nofun
  | exit =>
    simp only [hc] at hs
    cases hs
  | sprintf buf j =>
    simp only [hc] at hs
    cases hb : (formatted (pid c) buf)[j]? with
    | some b =>
      simp only [hb] at hs
      exact h.ring_byte hc hb hs
    | none =>
      simp only [hb] at hs
      exact h.ring_end hc hb hs
  | incr =>
    have hcrit : (σ.client c).critical = 1 := by rw [hc]; rfl
    simp only [hc] at hs
    obtain rfl := Except.ok.inj hs
    refine ⟨fun {d} hd => ?_, fun {d} hd => ?_, fun hno => ?_, fun {d buf' j'} hd => ?_, hR.slots⟩
    · cases (h.counts.only hcrit hd rfl).2
    · exact (hR.incr hc).wrapping
    · exact absurd (Function.update_self ..) (hno c).2
    · cases (h.counts.only hcrit hd rfl).2
  | wrap =>
    have hcrit : (σ.client c).critical = 1 := by rw [hc]; rfl
    simp only [hc] at hs
    obtain rfl := Except.ok.inj hs
    refine ⟨fun {d} hd => ?_, fun {d} hd => ?_, fun hno => ?_, fun {d buf' j'} hd => ?_, hR.slots⟩
    · cases (h.counts.only hcrit hd rfl).2
    · cases (h.counts.only hcrit hd rfl).2
    · exact (hR.wrap hc).wrap
    · cases (h.counts.only hcrit hd rfl).2

/-- The clients leave the server alone and add their messages behind those it prints. -/
theorem Printed.client (h : Printed σ) (hle : σ.printed ≤ σ.written.length)
    (hs : σ.clientStep pid c = .ok σ') : Printed σ' := by
  have hframe : σ'.server = σ.server ∧ σ'.mem.buffer_print_index = σ.mem.buffer_print_index ∧
      σ'.printed = σ.printed ∧ σ'.out = σ.out ∧ σ.written <+: σ'.written := by
    unfold Spool.clientStep at hs
    cases hc : σ.client c with
    | fgets =>
      simp only [hc] at hs
      cases hf : fgets 198 (σ.stdin c) <;> simp only [hf] at hs <;> obtain rfl := Except.ok.inj hs
      · exact ⟨rfl, rfl, rfl, rfl, List.prefix_rfl⟩
      · exact ⟨rfl, rfl, rfl, rfl, List.prefix_rfl⟩
    | bufferCount buf | mutex buf =>
      simp only [hc] at hs
      split_ifs at hs
      obtain rfl := Except.ok.inj hs
      exact ⟨rfl, rfl, rfl, rfl, List.prefix_rfl⟩
    | sprintf buf j =>
      simp only [hc] at hs
      cases hb : (formatted (pid c) buf)[j]? <;> simp only [hb] at hs <;>
        obtain ⟨_, _, rfl⟩ := store_ok hs
      · exact ⟨rfl, rfl, rfl, rfl, List.prefix_append _ _⟩
      · exact ⟨rfl, rfl, rfl, rfl, List.prefix_rfl⟩
    | incr | wrap | unlock | serverSignal =>
      simp only [hc] at hs
      obtain rfl := Except.ok.inj hs
      exact ⟨rfl, rfl, rfl, rfl, List.prefix_rfl⟩
    | exit =>
      simp only [hc] at hs
      cases hs
  obtain ⟨h1, h2, h3, h4, l, h5⟩ := hframe
  have htake : σ'.written.take σ.printed = σ.written.take σ.printed := by
    rw [← h5, List.take_append_of_le_length hle]
  refine ⟨fun he => ?_, fun he => ?_, fun he hw => ?_, fun {j} he => ?_, fun hno => ?_⟩
  · rw [h1] at he
    rw [h2, h3]
    exact h.incr he
  · rw [h1] at he
    rw [h2, h3]
    exact h.wrap he
  · rw [h1] at he hw
    rw [h2, h3]
    exact h.rest he hw
  · rw [h1] at he
    obtain ⟨f, hf, hj, hout⟩ := h.printf he
    have hlt := (List.getElem?_eq_some_iff.mp hf).1
    refine ⟨f, ?_, hj, ?_⟩
    · rw [h3, ← h5, List.getElem?_append_left hlt, hf]
    · rw [h4, h3, htake, hout]
  · rw [h1] at hno
    rw [h4, h3, htake, h.out hno]

end Client

/-! ### Steps of the server -/

theorem Counts.printed_le [Fintype C] (h : Counts σ) : σ.printed ≤ σ.written.length := by
  have := h.signals
  omega

/-- A server that is in `printf` has a message to print. -/
theorem Counts.printed_lt [Fintype C] (h : Counts σ) (hs : σ.server = .printf j) :
    σ.printed < σ.written.length := by
  have := h.signals
  rw [hs, ServerPc.prints] at this
  omega

/-- What the server leaves alone. -/
theorem serverStep_frame (hs : σ.serverStep = .ok σ') : σ'.client = σ.client ∧
    σ'.written = σ.written ∧ σ'.mem.buf = σ.mem.buf ∧
    σ'.mem.buffer_index = σ.mem.buffer_index ∧ σ.printed ≤ σ'.printed := by
  unfold Spool.serverStep at hs
  cases hc : σ.server with
  | serverSignal =>
    simp only [hc] at hs
    split_ifs at hs
    obtain rfl := Except.ok.inj hs
    exact ⟨rfl, rfl, rfl, rfl, Nat.le_refl _⟩
  | printf j =>
    simp only [hc] at hs
    cases hl : σ.load σ.mem.buffer_print_index j with
    | error e =>
      simp only [hl] at hs
      cases hs
    | ok b =>
      simp only [hl] at hs
      split_ifs at hs <;> obtain rfl := Except.ok.inj hs
      · exact ⟨rfl, rfl, rfl, rfl, Nat.le_succ _⟩
      · exact ⟨rfl, rfl, rfl, rfl, Nat.le_refl _⟩
  | incr | wrap | bufferCount =>
    simp only [hc] at hs
    obtain rfl := Except.ok.inj hs
    exact ⟨rfl, rfl, rfl, rfl, Nat.le_refl _⟩

theorem Ring.server (h : Ring pid σ) (hs : σ.serverStep = .ok σ') : Ring pid σ' := by
  obtain ⟨h1, h2, h3, h4, h5⟩ := serverStep_frame hs
  have hload : ∀ i f, σ.Holds i f → σ'.Holds i f := fun i f hH => hH.congr h3
  refine ⟨fun {d} hd => ?_, fun {d} hd => ?_, fun hno => ?_, fun {d buf j} hd => ?_,
    fun {k f} hk hf => ?_⟩
  · rw [h1] at hd
    rw [h2, h4]
    exact h.incr hd
  · rw [h1] at hd
    rw [h2, h4]
    exact h.wrap hd
  · rw [h1] at hno
    rw [h2, h4]
    exact h.rest hno
  · rw [h1] at hd
    rw [h4]
    exact ⟨(h.sprintf hd).1, hload _ _ (h.sprintf hd).2⟩
  · rw [h2] at hf
    exact hload _ _ (h.slots (h5.trans hk) hf)

theorem Texts.server (h : Texts σ) (hs : σ.serverStep = .ok σ') : Texts σ' := by
  obtain ⟨h1, h2, -⟩ := serverStep_frame hs
  refine ⟨fun {c buf} hc => ?_, fun {f} hf => ?_⟩
  · rw [h1] at hc
    exact h.bufs hc
  · rw [h2] at hf
    exact h.written hf

/-- The byte the server reads next belongs to the next message. -/
theorem Spooled.reading [Fintype C] (h : Spooled pid σ) (hs : σ.server = .printf j) :
    ∃ f b, σ.written[σ.printed]? = some f ∧ (f ++ [0])[j]? = some b ∧ j ≤ f.length ∧
      σ.out = (σ.written.take σ.printed).flatten ++ f.take j ∧
      σ.load σ.mem.buffer_print_index j = .ok b := by
  obtain ⟨f, hf, hj, hout⟩ := h.printed.printf hs
  obtain ⟨b, hb⟩ : ∃ b, (f ++ [0])[j]? = some b :=
    ⟨_, List.getElem?_eq_getElem (by rw [List.length_append, List.length_singleton]; omega)⟩
  refine ⟨f, b, hf, hb, hj, hout, ?_⟩
  rw [h.printed.rest (by rw [hs]; nofun) (by rw [hs]; nofun)]
  exact h.ring.slots (Nat.le_refl _) hf j b hb

theorem Spooled.printed_server [Fintype C] (h : Spooled pid σ) (hs : σ.serverStep = .ok σ') :
    Printed σ' := by
  have hP := h.printed
  have hsig := h.counts.signals
  unfold Spool.serverStep at hs
  cases hc : σ.server with
  | serverSignal =>
    simp only [hc] at hs
    split_ifs at hs with h0
    obtain rfl := Except.ok.inj hs
    have hlt : σ.printed < σ.written.length := by omega
    refine ⟨nofun, nofun, fun _ _ => hP.rest (by rw [hc]; nofun) (by rw [hc]; nofun),
      fun {j} hj => ?_, fun hno => absurd rfl (hno 0)⟩
    obtain rfl := ServerPc.printf.inj hj
    refine ⟨_, List.getElem?_eq_getElem hlt, Nat.zero_le _, ?_⟩
    rw [List.take_zero, List.append_nil]
    exact hP.out fun j => by rw [hc]; nofun
  | printf j =>
    obtain ⟨f, b, hf, hb, hj, hout, hload⟩ := h.reading hc
    have hidx := hP.rest (by rw [hc]; nofun) (by rw [hc]; nofun)
    have hzero := (h.texts.written (List.mem_of_getElem? hf)).2
    simp only [hc, hload] at hs
    split_ifs at hs with h0 <;> obtain rfl := Except.ok.inj hs
    · -- the final NUL
      have hjf : j = f.length := by
        by_contra hne
        rw [List.getElem?_append_left (by omega)] at hb
        exact hzero (h0 ▸ List.mem_of_getElem? hb)
      refine ⟨fun _ => leaving_of_eq hidx, nofun, fun he => absurd rfl he, nofun, fun _ => ?_⟩
      rw [List.take_add_one, hf, List.flatten_append, Option.toList_some, List.flatten_singleton, hout,
        hjf, List.take_length]
    · have hjf : j < f.length := by
        by_contra hne
        have hjf : j = f.length := by omega
        rw [hjf, List.getElem?_concat_length] at hb
        exact h0 (Option.some.inj hb).symm
      rw [List.getElem?_append_left hjf] at hb
      refine ⟨nofun, nofun, fun _ _ => hidx, fun {j'} hj' => ?_, fun hno => absurd rfl (hno (j + 1))⟩
      obtain rfl := ServerPc.printf.inj hj'
      refine ⟨f, hf, hjf, ?_⟩
      rw [List.take_add_one, hb, hout, Option.toList_some, List.append_assoc]
  | incr =>
    simp only [hc] at hs
    obtain rfl := Except.ok.inj hs
    exact ⟨nofun, fun _ => (hP.incr hc).wrapping, fun _ hw => absurd rfl hw, nofun,
      fun _ => hP.out fun j => by rw [hc]; nofun⟩
  | wrap =>
    simp only [hc] at hs
    obtain rfl := Except.ok.inj hs
    exact ⟨nofun, nofun, fun _ _ => (hP.wrap hc).wrap, nofun,
      fun _ => hP.out fun j => by rw [hc]; nofun⟩
  | bufferCount =>
    simp only [hc] at hs
    obtain rfl := Except.ok.inj hs
    exact ⟨nofun, nofun, fun _ _ => hP.rest (by rw [hc]; nofun) (by rw [hc]; nofun), nofun,
      fun _ => hP.out fun j => by rw [hc]; nofun⟩

/-! ### The main result -/

variable [Fintype C]

/-- The index of the slot to write is a subscript of the ring, except before the test for 10. -/
theorem Spooled.index_lt (h : Spooled pid σ) (hno : ∀ c, σ.client c ≠ .wrap) :
    σ.mem.buffer_index < 10 := by
  by_cases hi : ∃ c, σ.client c = .incr
  · obtain ⟨c, hc⟩ := hi
    exact (h.ring.incr hc).1
  · rw [h.ring.rest fun c => ⟨fun hc => hi ⟨c, hc⟩, hno c⟩]
    exact Nat.mod_lt _ (by omega)

theorem Spooled.print_index_lt (h : Spooled pid σ) (hno : σ.server ≠ .wrap) :
    σ.mem.buffer_print_index < 10 := by
  by_cases hi : σ.server = .incr
  · exact (h.printed.incr hi).1
  · rw [h.printed.rest hi hno]
    exact Nat.mod_lt _ (by omega)

section Runs

variable [DecidableEq C] {a : Actor C}

theorem spooled_init (h : (spool pid).init σ) : Spooled pid σ := by
  obtain ⟨buf, stdin, rfl⟩ := h
  have hzero : ∀ w : ClientPc → ℕ, w .fgets = 0 → tally w (spoolInit buf stdin).client = 0 :=
    fun w hw => Finset.sum_eq_zero fun _ _ => hw
  refine ⟨⟨?_, ?_, ?_⟩, ⟨nofun, nofun⟩, ⟨nofun, nofun, fun _ => rfl, nofun, nofun⟩,
    ⟨nofun, nofun, fun _ _ => rfl, nofun, fun _ => rfl⟩⟩
  · rw [hzero _ rfl]
    rfl
  · rw [hzero _ rfl]
    rfl
  · rw [hzero _ rfl]
    rfl

theorem Spooled.step (h : Spooled pid σ) (hs : (spool pid).step σ a = .ok σ') :
    Spooled pid σ' := by
  cases a with
  | client c =>
    have hs : σ.clientStep pid c = .ok σ' := hs
    exact ⟨h.counts.client hs, h.texts.client hs, h.ring_client hs,
      h.printed.client h.counts.printed_le hs⟩
  | server =>
    have hs : σ.serverStep = .ok σ' := hs
    exact ⟨h.counts.server hs, h.texts.server hs, h.ring.server hs, h.printed_server hs⟩

theorem Reach.spooled (h : (spool pid).Reachable σ) : Spooled pid σ :=
  h.invariant (fun _ => spooled_init) fun _ _ _ hI _ hs => hI.step hs

/-- No subscript of the ring or of a slot is out of bounds. -/
theorem Spooled.inBounds (h : Spooled pid σ) : (spool pid).step σ a ≠ .error .outOfBounds := by
  cases a with
  | client c =>
    show σ.clientStep pid c ≠ _
    unfold Spool.clientStep
    cases hc : σ.client c with
    | sprintf buf j =>
      obtain ⟨halone, hindex, -⟩ := h.writing hc
      have hbuf : Message buf := h.texts.bufs (c := c) (by rw [hc]; rfl)
      have hj := (h.ring.sprintf hc).1
      have hlen := length_formatted (pid c) hbuf.1
      have hi : σ.mem.buffer_index < 10 := by omega
      simp only
      split
      · rw [Spool.store, dif_pos ⟨hi, by omega⟩]
        nofun
      · rw [Spool.store, dif_pos ⟨hi, by omega⟩]
        nofun
    | fgets =>
      simp only
      split <;> nofun
    | bufferCount buf | mutex buf =>
      simp only
      split_ifs <;> nofun
    | _ => nofun
  | server =>
    show σ.serverStep ≠ _
    unfold Spool.serverStep
    cases hc : σ.server with
    | serverSignal =>
      simp only
      split_ifs <;> nofun
    | printf j =>
      obtain ⟨f, b, -, -, -, -, hload⟩ := h.reading hc
      simp only [hload]
      split_ifs <;> nofun
    | _ => nofun

/-- **The spool.** In every reachable state

* the server has printed a prefix of the messages, in the order in which the clients wrote them;
* a client that writes to a slot does not write over a message that is still to be printed, and the
  slots of these messages contain them;
* the server prints a slot that has been written;
* at most ten messages are written and not printed;
* both indices are subscripts of the ring, except that an index is 10 at most between its increment
  and the test for 10;
* every message fits its slot, and no subscript of the ring or of a slot is out of bounds;
* the subscript `strlen (buf) - 1` of a client is one of its line, unless the line begins with a NUL. -/
theorem spool_order (h : (spool pid).Reachable σ) :
    (∃ cur, σ.out = (σ.written.take σ.printed).flatten ++ cur ∧
      (cur = [] ∨ ∃ f, σ.written[σ.printed]? = some f ∧ cur <+: f)) ∧
    (∀ c buf j, σ.client c = .sprintf buf j →
      ∀ k, σ.printed ≤ k → k < σ.written.length → k % 10 ≠ σ.mem.buffer_index) ∧
    (∀ k f, σ.printed ≤ k → σ.written[k]? = some f → σ.Holds (k % 10) (f ++ [0])) ∧
    (∀ j, σ.server = .printf j →
      σ.printed < σ.written.length ∧ σ.mem.buffer_print_index = σ.printed % 10) ∧
    σ.written.length ≤ σ.printed + 10 ∧
    (σ.mem.buffer_index ≤ 10 ∧ ((∀ c, σ.client c ≠ .wrap) → σ.mem.buffer_index < 10)) ∧
    (σ.mem.buffer_print_index ≤ 10 ∧ (σ.server ≠ .wrap → σ.mem.buffer_print_index < 10)) ∧
    (∀ f ∈ σ.written, f.length < 256) ∧
    (∀ a, (spool pid).step σ a ≠ .error .outOfBounds) ∧
    ∀ c line rest, fgets 198 (σ.stdin c) = some (line, rest) →
      (0 < (cString line).length ↔ line.head? ≠ some 0) := by
  have hS := Reach.spooled h
  refine ⟨?_, fun c buf j hc => (hS.writing hc).2.2, fun k f => hS.ring.slots, fun j hs => ?_, ?_,
    ⟨?_, hS.index_lt⟩, ⟨?_, hS.print_index_lt⟩, fun f hf => (hS.texts.written hf).1,
    fun a => hS.inBounds, fun c line rest => strlen_pos_iff⟩
  · by_cases hp : ∃ j, σ.server = .printf j
    · obtain ⟨j, hj⟩ := hp
      obtain ⟨f, hf, -, hout⟩ := hS.printed.printf hj
      exact ⟨f.take j, hout, Or.inr ⟨f, hf, List.take_prefix j f⟩⟩
    · refine ⟨[], ?_, Or.inl rfl⟩
      rw [List.append_nil]
      exact hS.printed.out fun j hj => hp ⟨j, hj⟩
  · exact ⟨hS.counts.printed_lt hs, hS.printed.rest (by rw [hs]; nofun) (by rw [hs]; nofun)⟩
  · have := hS.counts.slots
    omega
  · by_cases hw : ∃ c, σ.client c = .wrap
    · obtain ⟨c, hc⟩ := hw
      exact (hS.ring.wrap hc).1
    · exact (hS.index_lt fun c hc => hw ⟨c, hc⟩).le
  · by_cases hw : σ.server = .wrap
    · exact (hS.printed.wrap hw).1
    · exact (hS.print_index_lt hw).le

/-- A client writes `a`, and the server prints half of it. -/
theorem spool_order_half : ∃ σ : Spool (Fin 2), (spool fun _ => 7).Reachable σ ∧
    σ.out = [40, 55, 41] ∧ σ.written = [[40, 55, 41, 58, 32, 97, 10]] ∧
    σ.mem.buffer_print_index = σ.printed % 10 := by
  let as : List (Actor (Fin 2)) := List.replicate 11 (.client 0) ++
    List.replicate 4 (.client 0) ++ List.replicate 4 .server
  have hrun : (spool fun _ => 7).Ends (fun σ => σ.out = [40, 55, 41] ∧
      σ.written = [[40, 55, 41, 58, 32, 97, 10]] ∧ σ.server = .printf 3)
      (spoolInit (fun _ _ => 0) fun _ => [97, 10]) as := by
    decide +kernel
  obtain ⟨σ, hσ, ho, hw, hs⟩ := System.Reachable.of_ends (S := spool _) as ⟨_, _, rfl⟩ hrun
  exact ⟨σ, hσ, ho, hw, ((spool_order hσ).2.2.2.1 3 hs).2⟩

/-- Before the test for 10 in the tenth round, the index is 10. -/
theorem spool_order_counterexample : ∃ σ : Spool (Fin 1), (spool fun _ => 7).Reachable σ ∧
    σ.mem.buffer_index = 10 := by
  let round : List (Actor (Fin 1)) := List.replicate 14 (.client 0)
  let as : List (Actor (Fin 1)) := (List.replicate 9 round).flatten ++ List.replicate 11 (.client 0)
  have hrun : (spool fun _ => 7).Ends (fun σ => σ.mem.buffer_index = 10)
      (spoolInit (fun _ _ => 0) fun _ => List.replicate 10 10) as := by
    decide +kernel
  exact System.Reachable.of_ends (S := spool _) as ⟨_, _, rfl⟩ hrun

end Runs

end OsSemester.Hw5
