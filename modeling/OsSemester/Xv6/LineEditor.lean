import OsSemester.Xv6.Console

/-!
# The console is a line editor

`Editor` is what the console is for: a line that is being typed and can still be changed, and a
queue of committed characters.  `inputTerminal_refines` relates it to the buffer `input`, so whatever
calls interleave, readers get from the console what they would get from the editor
(`console_simulates`); and there every committed character is taken out once and in order
(`EditorInv`).
-/

namespace OsSemester.Xv6

/-! ### The editor -/

/-- The queue holds what has been committed and not yet been read; `committed` is all of it. -/
structure Editor where
  committed : List UInt8
  queue : List UInt8
  line : List UInt8

/-- A character is typed. -/
def Editor.char (ed : Editor) (c : UInt8) : Editor × Bool :=
  if c = ctrl 'P' then (ed, false)
  else if c = ctrl 'U' then ({ ed with line := [] }, false)
  else if c = ctrl 'H' ∨ c = 0x7f then ({ ed with line := ed.line.dropLast }, false)
  else if c ≠ 0 ∧ ed.queue.length + ed.line.length < INPUT_BUF then
    let c := if c = 13 then newline else c
    let line := ed.line ++ [c]
    if c = newline ∨ c = ctrl 'D' ∨ ed.queue.length + line.length = INPUT_BUF then
      (⟨ed.committed ++ line, ed.queue ++ line, []⟩, true)
    else ({ ed with line := line }, false)
  else (ed, false)

/-- The editor as a terminal. -/
def lineEditor : Terminal Editor where
  char := Editor.char
  empty ed := ed.queue = []
  take ed := (ed.queue.headD 0, { ed with queue := ed.queue.tail })
  untake ed c := { ed with queue := c :: ed.queue }

/-! ### Terminals that behave alike -/

/-- Every operation has the same result on related inputs, and relates what it leaves. -/
structure Terminal.Refines {D D' : Type} (T : Terminal D) (T' : Terminal D') (R : D → D' → Prop) :
    Prop where
  char : ∀ d d' c, R d d' → (T.char d c).2 = (T'.char d' c).2 ∧ R (T.char d c).1 (T'.char d' c).1
  empty : ∀ d d', R d d' → T.empty d = T'.empty d'
  take : ∀ d d', R d d' → T.empty d = false →
    (T.take d).1 = (T'.take d').1 ∧ R (T.take d).2 (T'.take d').2
  untake : ∀ d d', R d d' → T.empty d = false →
    R (T.untake (T.take d).2 (T.take d).1) (T'.untake (T'.take d').2 (T'.take d').1)

variable {D D' P : Type} {T : Terminal D} {T' : Terminal D'} {R : D → D' → Prop}

/-- The same calls on another input. -/
def ConsoleState.withDev (s : ConsoleState D P) (d : D') : ConsoleState D' P :=
  ⟨d, s.lock, s.call, s.killed, s.calls, s.taken, s.log⟩

variable [DecidableEq P] {s s' : ConsoleState D P} {d : D'} {p : P} {c : ConsoleCall}

/-- A turn of `consoleread` has the same effect on related inputs. -/
theorem consoleread_refines (hT : T.Refines T' R) (hR : R s.dev d) (target : ℕ)
    (dst : List UInt8) :
    ∃ d', R (s.consoleread T p c target dst).dev d' ∧
      (s.withDev d).consoleread T' p c target dst =
        (s.consoleread T p c target dst).withDev d' := by
  have hempty : T.empty s.dev = T'.empty (s.withDev d).dev := hT.empty _ _ hR
  simp only [ConsoleState.consoleread, ← hempty]
  by_cases hlt : dst.length < target
  · simp only [if_pos hlt]
    cases he : T.empty s.dev with
    | true =>
      simp only [if_true]
      by_cases hk : s.killed p = true
      · exact ⟨d, by rw [if_pos hk]; exact hR, by rw [if_pos hk]; exact if_pos hk⟩
      · exact ⟨d, by rw [if_neg hk]; exact hR, by rw [if_neg hk]; exact if_neg hk⟩
    | false =>
      obtain ⟨hc, htake⟩ := hT.take _ _ hR he
      have huntake := hT.untake _ _ hR he
      have hc' : (T'.take (s.withDev d).dev).1 = (T.take s.dev).1 := hc.symm
      simp only [Bool.false_eq_true, if_false, hc']
      split_ifs
      · exact ⟨_, htake, rfl⟩
      · refine ⟨_, huntake, ?_⟩
        rw [hc]
        rfl
      · exact ⟨_, htake, rfl⟩
      · exact ⟨_, htake, rfl⟩
  · exact ⟨d, by rw [if_neg hlt]; exact hR, by rw [if_neg hlt, if_neg hlt]; rfl⟩

/-- So has a turn of `consoleintr`. -/
theorem consoleintr_refines (hT : T.Refines T' R) (hR : R s.dev d) (cs : List UInt8) :
    ∃ d', R (s.consoleintr T p c cs).dev d' ∧
      (s.withDev d).consoleintr T' p c cs = (s.consoleintr T p c cs).withDev d' := by
  cases cs with
  | nil => exact ⟨d, hR, rfl⟩
  | cons b cs =>
    obtain ⟨hwake, hchar⟩ := hT.char _ _ b hR
    have hwake' : (T'.char (s.withDev d).dev b).2 = (T.char s.dev b).2 := hwake.symm
    simp only [ConsoleState.consoleintr, hwake']
    cases (T.char s.dev b).2
    · exact ⟨_, hchar, rfl⟩
    · exact ⟨_, hchar, rfl⟩

theorem turn_refines (hT : T.Refines T' R) (hR : R s.dev d) (h : s.turn T p c = some s') :
    ∃ d', R s'.dev d' ∧ (s.withDev d).turn T' p c = some (s'.withDev d') := by
  obtain ⟨id, op, pc⟩ := c
  cases pc with
  | acquire =>
    by_cases hl : s.lock = none
    · obtain rfl := Option.some.inj ((if_pos hl).symm.trans h)
      exact ⟨d, hR, if_pos hl⟩
    · cases (if_neg hl).symm.trans h
  | asleep => cases h
  | loop =>
    cases op with
    | intr cs =>
      obtain rfl := Option.some.inj h
      obtain ⟨d', hR', heq⟩ := consoleintr_refines (p := p) (c := ⟨id, .intr cs, .loop⟩) hT hR cs
      exact ⟨d', hR', congrArg some heq⟩
    | read target dst =>
      obtain rfl := Option.some.inj h
      obtain ⟨d', hR', heq⟩ :=
        consoleread_refines (p := p) (c := ⟨id, .read target dst, .loop⟩) hT hR target dst
      exact ⟨d', hR', congrArg some heq⟩

theorem start_refines (hR : R s.dev d) {op : ConsoleOp} (h : s.start p op = some s') :
    ∃ d', R s'.dev d' ∧ (s.withDev d).start p op = some (s'.withDev d') := by
  by_cases hc : s.call p = none
  · obtain rfl := Option.some.inj ((if_pos hc).symm.trans h)
    exact ⟨d, hR, if_pos hc⟩
  · cases (if_neg hc).symm.trans h

theorem act_refines (hT : T.Refines T' R) (hR : R s.dev d) {a : ConsoleAction P}
    (h : s.act T a = some s') :
    ∃ d', R s'.dev d' ∧ (s.withDev d).act T' a = some (s'.withDev d') := by
  cases a with
  | intr p cs => exact start_refines hR h
  | read p n => exact start_refines hR h
  | turn p =>
    obtain ⟨c, hc, hturn⟩ := Option.bind_eq_some_iff.1 h
    obtain ⟨d', hR', heq⟩ := turn_refines hT hR hturn
    exact ⟨d', hR', Option.bind_eq_some_iff.2 ⟨c, hc, heq⟩⟩
  | kill p =>
    obtain rfl := Option.some.inj h
    exact ⟨d, hR, rfl⟩

theorem console_step {dev : D} {a : ConsoleAction P} :
    (console T dev P).step s a = .ok s' ↔ s.act T a = some s' := by
  show (s.act T a).elim (Except.error ()) Except.ok = Except.ok s' ↔ _
  cases s.act T a <;> simp

/-- **The calls cannot tell the inputs apart.** -/
theorem console_simulates (hT : T.Refines T' R) {dev : D} {dev' : D'} (hR : R dev dev')
    (as : List (ConsoleAction P)) (hrun : (console T dev P).run (.fresh P dev) as = .ok s) :
    ∃ d, R s.dev d ∧
      (console T' dev' P).run (.fresh P dev') as = .ok (s.withDev d) := by
  obtain ⟨t, ht, d, hd, rfl⟩ := System.run_simulates (T := console T' dev' P)
    (R := fun (s : ConsoleState D P) t => ∃ d, R s.dev d ∧ t = s.withDev d)
    (fun s t a s' hst hstep => by
      obtain ⟨d, hd, rfl⟩ := hst
      obtain ⟨d', hd', hact⟩ := act_refines hT hd (console_step.1 hstep)
      exact ⟨_, console_step.2 hact, d', hd', rfl⟩)
    ⟨dev', hR, rfl⟩ as hrun
  exact ⟨d, hd, ht⟩

/-! ### The buffer is an editor -/

theorem INPUT_BUF_dvd : INPUT_BUF ∣ 2 ^ 32 := by decide

theorem INPUT_BUF_lt : INPUT_BUF < 2 ^ 32 := by decide

/-- The queue lies between `r` and `w` and the line between `w` and `e`. -/
structure Edits (i : Input) (ed : Editor) : Prop where
  ring : Ring.Queued i.buf INPUT_BUF i.r i.e (ed.queue ++ ed.line)
  commit : i.w = i.r + BitVec.ofNat 32 ed.queue.length
  line : newline ∉ ed.line

namespace Edits

variable {i : Input} {ed : Editor}

theorem queue (h : Edits i ed) : Ring.Queued i.buf INPUT_BUF i.r i.w ed.queue :=
  h.commit ▸ h.ring.take

theorem eq_iff (h : Edits i ed) : i.e = i.w ↔ ed.line = [] := by
  have hroom := h.ring.room
  rw [List.length_append] at hroom
  rw [h.commit, h.ring.eq_add_iff INPUT_BUF_lt (by omega), List.length_append]
  constructor
  · intro hlen
    exact List.length_eq_zero_iff.1 (by omega)
  · intro hnil
    rw [hnil, List.length_nil, Nat.add_zero]

/-- The loop of control-U stops at the start of the line: there is no newline in it. -/
theorem killLine_eq {buf : ℕ → UInt8} {r w e : BitVec 32} {queue line : List UInt8}
    (hring : Ring.Queued buf INPUT_BUF r e (queue ++ line))
    (hw : w = r + BitVec.ofNat 32 queue.length) (hline : newline ∉ line) :
    Input.killLine buf w e = w := by
  induction line using List.reverseRecOn generalizing e with
  | nil =>
    have hed : Edits ⟨buf, r, w, e⟩ ⟨[], queue, []⟩ := ⟨hring, hw, hline⟩
    have he : e = w := hed.eq_iff.2 rfl
    rw [Input.killLine, dif_neg fun hne => hne.1 he, he]
  | append_singleton line x ih =>
    have hne : e ≠ w := fun he => by
      have hed : Edits ⟨buf, r, w, e⟩ ⟨[], queue, line ++ [x]⟩ := ⟨hring, hw, hline⟩
      have hnil := hed.eq_iff.1 he
      simp at hnil
    rw [← List.append_assoc] at hring
    have hx : buf ((e - 1).toNat % INPUT_BUF) ≠ newline := by
      rw [hring.last INPUT_BUF_dvd]
      rintro rfl
      exact hline (by simp)
    rw [Input.killLine, dif_pos ⟨hne, hx⟩]
    exact ih hring.dropLast fun hmem => hline (List.mem_append_left _ hmem)

theorem killed (h : Edits i ed) :
    Edits { i with e := Input.killLine i.buf i.w i.e } { ed with line := [] } := by
  refine ⟨?_, h.commit, by simp⟩
  rw [killLine_eq h.ring h.commit h.line, List.append_nil]
  exact h.queue

theorem backspace (h : Edits i ed) :
    Edits (if i.e ≠ i.w then { i with e := i.e - 1 } else i)
      { ed with line := ed.line.dropLast } := by
  rcases List.eq_nil_or_concat' ed.line with hnil | ⟨line, x, hline⟩
  · rw [if_neg (not_not.2 (h.eq_iff.2 hnil))]
    obtain ⟨committed, queue, _⟩ := ed
    subst hnil
    exact h
  · have hne : i.e ≠ i.w := fun he => by simp [h.eq_iff.1 he] at hline
    obtain ⟨hring, hcommit, hno⟩ := h
    rw [hline] at hring hno ⊢
    rw [if_pos hne, List.dropLast_concat]
    rw [← List.append_assoc] at hring
    exact ⟨hring.dropLast, hcommit, fun hmem => hno (List.mem_append_left _ hmem)⟩

theorem room_iff (h : Edits i ed) : i.e - i.r < BitVec.ofNat 32 INPUT_BUF ↔
    ed.queue.length + ed.line.length < INPUT_BUF := by
  rw [BitVec.lt_def, h.ring.toNat_sub INPUT_BUF_lt, List.length_append]
  rfl

/-- A character that is neither a newline nor the last one there is room for stays editable. -/
theorem typed (h : Edits i ed) (hroom : ed.queue.length + ed.line.length < INPUT_BUF)
    {c : UInt8} (hc : c ≠ newline) :
    Edits { i with buf := Function.update i.buf (i.e.toNat % INPUT_BUF) c, e := i.e + 1 }
      { ed with line := ed.line ++ [c] } := by
  refine ⟨?_, h.commit, ?_⟩
  · have hpush := h.ring.push INPUT_BUF_dvd (by rw [List.length_append]; exact hroom) c
    rwa [List.append_assoc] at hpush
  · rw [List.mem_append, List.mem_singleton]
    exact fun hmem => hmem.elim h.line fun he => hc he.symm

/-- Otherwise the line is committed. -/
theorem committed (h : Edits i ed) (hroom : ed.queue.length + ed.line.length < INPUT_BUF)
    (c : UInt8) (history : List UInt8) :
    Edits ⟨Function.update i.buf (i.e.toNat % INPUT_BUF) c, i.r, i.e + 1, i.e + 1⟩
      ⟨history, ed.queue ++ (ed.line ++ [c]), []⟩ := by
  have hpush := h.ring.push INPUT_BUF_dvd (by rw [List.length_append]; exact hroom) c
  rw [List.append_assoc] at hpush
  exact ⟨by rw [List.append_nil]; exact hpush, hpush.next, by simp⟩

/-- The buffer is full just when the editor is. -/
theorem full_iff (h : Edits i ed) (hroom : ed.queue.length + ed.line.length < INPUT_BUF)
    (c : UInt8) : i.e + 1 = i.r + BitVec.ofNat 32 INPUT_BUF ↔
      ed.queue.length + (ed.line ++ [c]).length = INPUT_BUF := by
  have hpush := h.ring.push INPUT_BUF_dvd (by rw [List.length_append]; exact hroom) c
  rw [hpush.eq_add_iff INPUT_BUF_lt le_rfl]
  simp only [List.length_append]
  omega

theorem char (h : Edits i ed) (c : UInt8) :
    (i.char c).2 = (ed.char c).2 ∧ Edits (i.char c).1 (ed.char c).1 := by
  simp only [Input.char, Editor.char]
  by_cases hP : c = ctrl 'P'
  · rw [if_pos hP, if_pos hP]
    exact ⟨rfl, h⟩
  rw [if_neg hP, if_neg hP]
  by_cases hU : c = ctrl 'U'
  · rw [if_pos hU, if_pos hU]
    exact ⟨rfl, h.killed⟩
  rw [if_neg hU, if_neg hU]
  by_cases hH : c = ctrl 'H' ∨ c = 0x7f
  · rw [if_pos hH, if_pos hH]
    exact ⟨rfl, h.backspace⟩
  rw [if_neg hH, if_neg hH]
  by_cases hgo : c ≠ 0 ∧ ed.queue.length + ed.line.length < INPUT_BUF
  · have hgo' : c ≠ 0 ∧ i.e - i.r < BitVec.ofNat 32 INPUT_BUF := ⟨hgo.1, h.room_iff.2 hgo.2⟩
    rw [if_pos hgo, if_pos hgo']
    generalize (if c = 13 then newline else c) = b
    have hfull := h.full_iff hgo.2 b
    by_cases hend : b = newline ∨ b = ctrl 'D' ∨
        ed.queue.length + (ed.line ++ [b]).length = INPUT_BUF
    · have hend' : b = newline ∨ b = ctrl 'D' ∨ i.e + 1 = i.r + BitVec.ofNat 32 INPUT_BUF := by
        rwa [hfull]
      rw [if_pos hend, if_pos hend']
      exact ⟨rfl, h.committed hgo.2 b _⟩
    · have hend' : ¬ (b = newline ∨ b = ctrl 'D' ∨
          i.e + 1 = i.r + BitVec.ofNat 32 INPUT_BUF) := by
        rwa [hfull]
      rw [if_neg hend, if_neg hend']
      exact ⟨rfl, h.typed hgo.2 fun hb => hend (.inl hb)⟩
  · have hgo' : ¬ (c ≠ 0 ∧ i.e - i.r < BitVec.ofNat 32 INPUT_BUF) := fun hc =>
      hgo ⟨hc.1, h.room_iff.1 hc.2⟩
    rw [if_neg hgo, if_neg hgo']
    exact ⟨rfl, h⟩

theorem empty_iff (h : Edits i ed) : i.r = i.w ↔ ed.queue = [] := h.queue.eq_iff INPUT_BUF_lt

theorem taken {x : UInt8} {queue : List UInt8} (h : Edits i ed) (hq : ed.queue = x :: queue) :
    i.buf (i.r.toNat % INPUT_BUF) = x ∧
      Edits { i with r := i.r + 1 } { ed with queue := queue } := by
  obtain ⟨hring, hcommit, hno⟩ := h
  rw [hq] at hring hcommit
  obtain ⟨hx, hpop⟩ := Ring.Queued.pop INPUT_BUF_dvd hring
  refine ⟨hx, hpop, ?_, hno⟩
  rw [hcommit, List.length_cons, Nat.add_comm, BitVec.ofNat_add, ← BitVec.add_assoc]
  rfl

end Edits

/-- **The buffer `input` is a line editor.** -/
theorem inputTerminal_refines : inputTerminal.Refines lineEditor Edits where
  char d d' c h := h.char c
  empty d d' h := decide_eq_decide.2 h.empty_iff
  take d d' h he := by
    have hne : ¬ d'.queue = [] := fun hq => of_decide_eq_false he (h.empty_iff.2 hq)
    obtain ⟨x, queue, hq⟩ := List.exists_cons_of_ne_nil hne
    obtain ⟨hx, htaken⟩ := h.taken hq
    simp only [inputTerminal, lineEditor, hq, List.headD_cons, List.tail_cons]
    exact ⟨hx, htaken⟩
  untake d d' h he := by
    have hne : ¬ d'.queue = [] := fun hq => of_decide_eq_false he (h.empty_iff.2 hq)
    obtain ⟨x, queue, hq⟩ := List.exists_cons_of_ne_nil hne
    simp only [inputTerminal, lineEditor, hq, List.headD_cons, List.tail_cons, BitVec.add_sub_cancel]
    rw [← hq]
    exact h

/-! ### What the editor delivers -/

/-- The bytes of a read in progress, or of one that has returned: there is no control-D among
them, and they are not too many. -/
def Delivers (s : ConsoleState Editor P) (id target : ℕ) (bytes : List UInt8) : Prop :=
  s.takenBy id = bytes ∧ ctrl 'D' ∉ bytes ∧ bytes.length ≤ target

/-- A read that has returned has delivered what it has taken, which may also be a control-D
alone. -/
def ConsoleRead.Ok (s : ConsoleState Editor P) (r : ConsoleRead) : Prop :=
  r.result = r.bytes.length ∧
    (Delivers s r.id r.target r.bytes ∨ r.bytes = [] ∧ s.takenBy r.id = [ctrl 'D'])

structure EditorInv (s : ConsoleState Editor P) : Prop where
  kept : s.dev.committed = s.taken.map Prod.snd ++ s.dev.queue
  ids : ∀ p q c d, s.call p = some c → s.call q = some d → c.id = d.id → p = q
  id_lt : ∀ p c, s.call p = some c → c.id < s.calls
  taken_lt : ∀ x ∈ s.taken, x.1 < s.calls
  reading : ∀ p c target dst, s.call p = some c → c.op = .read target dst →
    Delivers s c.id target dst
  returned : ∀ r ∈ s.log, r.Ok s ∧ r.id < s.calls ∧ ∀ p c, s.call p = some c → c.id ≠ r.id
  alive : ∀ p, s.killed p = false

namespace EditorInv

variable {s t : ConsoleState Editor P}

omit [DecidableEq P] in
theorem wakeup (h : EditorInv s) : EditorInv s.wakeup := by
  have hcall : ∀ {p d}, s.wakeup.call p = some d → ∃ c, s.call p = some c ∧ d.id = c.id ∧
      d.op = c.op := by
    intro p d hd
    obtain ⟨c, hc, rfl⟩ := Option.map_eq_some_iff.1 hd
    refine ⟨c, hc, ?_, ?_⟩ <;> split_ifs <;> rfl
  refine ⟨h.kept, fun p q d d' hd hd' hid => ?_, fun p d hd => ?_, h.taken_lt,
    fun p d target dst hd hop => ?_, fun r hr => ?_, h.alive⟩
  · obtain ⟨c, hc, he, -⟩ := hcall hd
    obtain ⟨c', hc', he', -⟩ := hcall hd'
    exact h.ids p q c c' hc hc' (he.symm.trans (hid.trans he'))
  · obtain ⟨c, hc, he, -⟩ := hcall hd
    rw [he]
    exact h.id_lt p c hc
  · obtain ⟨c, hc, he, ho⟩ := hcall hd
    rw [he]
    exact h.reading p c target dst hc (ho.symm.trans hop)
  · obtain ⟨hok, hlt, hne⟩ := h.returned r hr
    refine ⟨hok, hlt, fun p d hd => ?_⟩
    obtain ⟨c, hc, he, -⟩ := hcall hd
    rw [he]
    exact hne p c hc

/-- A step of one call: it may take characters, change and return, and nothing else happens. -/
theorem step (h : EditorInv s) (hc : s.call p = some c) (x : Option ConsoleCall)
    (more : List (ℕ × UInt8)) (new : List ConsoleRead)
    (hcall : t.call = Function.update s.call p x) (hcalls : t.calls = s.calls)
    (hkilled : t.killed = s.killed) (htaken : t.taken = s.taken ++ more)
    (hlog : t.log = s.log ++ new) (hkept : t.dev.committed = t.taken.map Prod.snd ++ t.dev.queue)
    (hmore : ∀ y ∈ more, y.1 = c.id) (hid : ∀ d, x = some d → d.id = c.id)
    (hread : ∀ d target dst, x = some d → d.op = .read target dst →
      Delivers t c.id target dst)
    (hnew : ∀ r ∈ new, x = none ∧ r.id = c.id ∧ r.Ok t) : EditorInv t := by
  have hother : ∀ {id}, id ≠ c.id → t.takenBy id = s.takenBy id := fun hne => by
    rw [ConsoleState.takenBy, htaken]
    exact byTag_append_of_ne hmore hne
  have hupd : ∀ {q d}, t.call q = some d → q = p ∧ x = some d ∨ q ≠ p ∧ s.call q = some d := by
    intro q d hd
    rw [hcall] at hd
    by_cases hq : q = p
    · subst hq
      exact .inl ⟨rfl, by simpa using hd⟩
    · exact .inr ⟨hq, by rwa [Function.update_of_ne hq] at hd⟩
  -- Every call has the number of a call before the step.
  have hold : ∀ {q d}, t.call q = some d → ∃ d', s.call q = some d' ∧ d.id = d'.id := by
    intro q d hd
    rcases hupd hd with ⟨rfl, hx⟩ | ⟨-, hx⟩
    · exact ⟨c, hc, hid d hx⟩
    · exact ⟨d, hx, rfl⟩
  refine ⟨hkept, fun q q' d d' hd hd' he => ?_, fun q d hd => ?_, fun y hy => ?_,
    fun q d target dst hd hop => ?_, fun r hr => ?_, by rw [hkilled]; exact h.alive⟩
  · obtain ⟨b, hb, hdb⟩ := hold hd
    obtain ⟨b', hb', hdb'⟩ := hold hd'
    exact h.ids q q' b b' hb hb' (hdb.symm.trans (he.trans hdb'))
  · obtain ⟨b, hb, hdb⟩ := hold hd
    rw [hdb, hcalls]
    exact h.id_lt q b hb
  · rw [htaken] at hy
    rw [hcalls]
    rcases List.mem_append.1 hy with hy | hy
    · exact h.taken_lt y hy
    · rw [hmore y hy]
      exact h.id_lt p c hc
  · rcases hupd hd with ⟨rfl, hx⟩ | ⟨hq, hx⟩
    · rw [hid d hx]
      exact hread d target dst hx hop
    · obtain ⟨hby, hno⟩ := h.reading q d target dst hx hop
      exact ⟨(hother fun he => hq (h.ids q p d c hx hc he)).trans hby, hno⟩
  · rw [hlog] at hr
    rw [hcalls]
    rcases List.mem_append.1 hr with hr | hr
    · obtain ⟨⟨hres, hok⟩, hlt, hne⟩ := h.returned r hr
      have hby : t.takenBy r.id = s.takenBy r.id := hother (hne p c hc).symm
      refine ⟨⟨hres, ?_⟩, hlt, fun q d hd => ?_⟩
      · rw [Delivers, hby]
        exact hok
      · obtain ⟨b, hb, hdb⟩ := hold hd
        rw [hdb]
        exact hne q b hb
    · obtain ⟨rfl, hrid, hok⟩ := hnew r hr
      rw [hrid]
      refine ⟨hok, h.id_lt p c hc, fun q d hd he => ?_⟩
      rcases hupd hd with ⟨-, hx⟩ | ⟨hq, hx⟩
      · cases hx
      · exact hq (h.ids q p d c hx hc he)

/-- What is typed is committed at the end of the queue. -/
theorem char_kept (ed : Editor) (c : UInt8) :
    ∃ l, (ed.char c).1.committed = ed.committed ++ l ∧ (ed.char c).1.queue = ed.queue ++ l := by
  simp only [Editor.char]
  generalize (if c = 13 then newline else c) = b
  split_ifs
  · exact ⟨[], by simp⟩
  · exact ⟨[], by simp⟩
  · exact ⟨[], by simp⟩
  · exact ⟨_, rfl, rfl⟩
  · exact ⟨[], by simp⟩
  · exact ⟨[], by simp⟩

theorem consoleintr (h : EditorInv s) (hc : s.call p = some c) (cs : List UInt8) :
    EditorInv (s.consoleintr lineEditor p c cs) := by
  cases cs with
  | nil =>
    exact h.step hc none [] [] rfl rfl rfl
      (by simp [ConsoleState.consoleintr, ConsoleState.leave]) rfl h.kept (by simp) (by simp)
      (by simp) (by simp)
  | cons b cs =>
    have hkept : (s.dev.char b).1.committed = s.taken.map Prod.snd ++ (s.dev.char b).1.queue := by
      obtain ⟨l, hcom, hq⟩ := char_kept s.dev b
      rw [hcom, hq, h.kept, List.append_assoc]
    have hnext : EditorInv { s.setCall p { c with op := .intr cs } with dev := (s.dev.char b).1 } :=
      h.step hc (some { c with op := .intr cs }) [] [] rfl rfl rfl
        (by simp [ConsoleState.setCall]) (by simp [ConsoleState.setCall]) hkept (by simp)
        (fun d hd => by rw [← Option.some.inj hd])
        (fun d target dst hd hop => by rw [← Option.some.inj hd] at hop; cases hop) (by simp)
    simp only [ConsoleState.consoleintr]
    by_cases hwake : (lineEditor.char s.dev b).2 = true
    · rw [if_pos hwake]
      exact hnext.wakeup
    · rw [if_neg hwake]
      exact hnext

omit [DecidableEq P] in
/-- The next character is taken out of the queue. -/
theorem kept_taken (h : EditorInv s) {b : UInt8} {queue : List UInt8}
    (hq : s.dev.queue = b :: queue) (id : ℕ) :
    s.dev.committed = (s.taken ++ [(id, b)]).map Prod.snd ++ queue := by
  rw [h.kept, hq, List.map_append, List.append_assoc]
  rfl

omit [DecidableEq P] in
theorem delivers_taken {dst : List UInt8} {id target : ℕ} (hd : Delivers s id target dst)
    {b : UInt8} (hb : b ≠ ctrl 'D') (hlt : dst.length < target) :
    byTag (s.taken ++ [(id, b)]) id = dst ++ [b] ∧ ctrl 'D' ∉ dst ++ [b] ∧
      (dst ++ [b]).length ≤ target := by
  refine ⟨?_, ?_, ?_⟩
  · rw [byTag_append, byTag_singleton_self]
    exact congrArg (· ++ [b]) hd.1
  · rw [List.mem_append, List.mem_singleton]
    exact fun hmem => hmem.elim hd.2.1 fun he => hb he.symm
  · rw [List.length_append]
    exact hlt

theorem consoleread (h : EditorInv s) (hc : s.call p = some c) {target : ℕ} {dst : List UInt8}
    (hop : c.op = .read target dst) : EditorInv (s.consoleread lineEditor p c target dst) := by
  have hdel := h.reading p c target dst hc hop
  have hdone : EditorInv (s.leave p [⟨c.id, target, dst.length, dst⟩]) :=
    h.step hc none [] _ rfl rfl rfl (by simp [ConsoleState.leave]) rfl h.kept
      (by simp) (by simp) (by simp) (by
        intro r hr
        obtain rfl := List.mem_singleton.1 hr
        exact ⟨rfl, rfl, rfl, .inl hdel⟩)
  simp only [ConsoleState.consoleread]
  by_cases hlt : dst.length < target
  · rw [if_pos hlt]
    rcases hq : s.dev.queue with _ | ⟨b, queue⟩
    · -- Nothing to read: it sleeps.
      have hempty : lineEditor.empty s.dev = true := decide_eq_true hq
      have hk : ¬ s.killed p = true := by simp [h.alive p]
      rw [if_pos hempty, if_neg hk]
      exact h.step hc (some { c with pc := .asleep }) [] [] rfl rfl rfl
        (by simp [ConsoleState.sleep, ConsoleState.setCall])
        (by simp [ConsoleState.sleep, ConsoleState.setCall]) h.kept (by simp)
        (fun d hd => by rw [← Option.some.inj hd])
        (fun d target' dst' hd hop' => by
          rw [← Option.some.inj hd, hop] at hop'
          obtain ⟨rfl, rfl⟩ := ConsoleOp.read.inj hop'
          exact hdel) (by simp)
    · have hempty : ¬ lineEditor.empty s.dev = true := by simp [lineEditor, hq]
      have htake : lineEditor.take s.dev = (b, { s.dev with queue := queue }) := by
        simp [lineEditor, hq]
      simp only [if_neg hempty, htake]
      by_cases hD : b = ctrl 'D'
      · rw [if_pos hD]
        by_cases h0 : dst.length = 0
        · rw [if_pos h0]
          have hnil := List.length_eq_zero_iff.1 h0
          refine h.step hc none [(c.id, b)] _ rfl rfl rfl rfl rfl
            (h.kept_taken hq c.id) (by simp) (by simp) (by simp) fun r hr => ?_
          obtain rfl := List.mem_singleton.1 hr
          refine ⟨rfl, rfl, rfl, .inr ⟨rfl, ?_⟩⟩
          have hby : byTag s.taken c.id = [] := hdel.1.trans hnil
          show byTag (s.taken ++ [(c.id, b)]) c.id = [ctrl 'D']
          rw [byTag_append, hby, byTag_singleton_self, hD]
          rfl
        · rw [if_neg h0]
          -- The control-D is back in its place.
          have hback : lineEditor.untake { s.dev with queue := queue } b = s.dev := by
            simp only [lineEditor, ← hq]
          rw [hback]
          exact hdone
      · rw [if_neg hD]
        have hmore := delivers_taken hdel hD hlt
        by_cases hnl : b = newline
        · rw [if_pos hnl]
          refine h.step hc none [(c.id, b)] _ rfl rfl rfl rfl rfl
            (h.kept_taken hq c.id) (by simp) (by simp) (by simp) fun r hr => ?_
          obtain rfl := List.mem_singleton.1 hr
          exact ⟨rfl, rfl, rfl, .inl hmore⟩
        · rw [if_neg hnl]
          refine h.step hc (some { c with op := .read target (dst ++ [b]) }) [(c.id, b)] []
            rfl rfl rfl rfl (by simp [ConsoleState.setCall]) (h.kept_taken hq c.id) (by simp)
            (fun d hd => by rw [← Option.some.inj hd]) (fun d target' dst' hd hop' => ?_) (by simp)
          rw [← Option.some.inj hd] at hop'
          obtain ⟨rfl, rfl⟩ := ConsoleOp.read.inj hop'
          exact hmore
  · rw [if_neg hlt]
    exact hdone

theorem turn (h : EditorInv s) (hc : s.call p = some c) (hst : s.turn lineEditor p c = some t) :
    EditorInv t := by
  obtain ⟨id, op, pc⟩ := c
  cases pc with
  | acquire =>
    by_cases hl : s.lock = none
    · obtain rfl := Option.some.inj ((if_pos hl).symm.trans hst)
      refine h.step hc (some ⟨id, op, .loop⟩) [] [] rfl rfl rfl
        (by simp [ConsoleState.setCall]) (by simp [ConsoleState.setCall]) h.kept (by simp)
        (fun d hd => by rw [← Option.some.inj hd]) (fun d target dst hd hop => ?_) (by simp)
      rw [← Option.some.inj hd] at hop
      exact h.reading p _ target dst hc hop
    · cases (if_neg hl).symm.trans hst
  | asleep => cases hst
  | loop =>
    cases op with
    | intr cs =>
      obtain rfl := Option.some.inj hst
      exact h.consoleintr hc cs
    | read target dst =>
      obtain rfl := Option.some.inj hst
      exact h.consoleread hc rfl

/-- A new call has taken nothing yet. -/
theorem start (h : EditorInv s) {op : ConsoleOp} (hst : s.start p op = some t)
    (hop : ∀ target dst, op = .read target dst → dst = []) : EditorInv t := by
  rw [ConsoleState.start] at hst
  split_ifs at hst with hc
  obtain rfl := Option.some.inj hst
  have hupd : ∀ {q d}, Function.update s.call p (some ⟨s.calls, op, .acquire⟩) q = some d →
      q = p ∧ d = ⟨s.calls, op, .acquire⟩ ∨ s.call q = some d ∧ d.id < s.calls := by
    intro q d hd
    by_cases hq : q = p
    · subst hq
      exact .inl ⟨rfl, by simpa using hd.symm⟩
    · rw [Function.update_of_ne hq] at hd
      exact .inr ⟨hd, h.id_lt q d hd⟩
  refine ⟨h.kept, fun q q' d d' hd hd' he => ?_, fun q d hd => ?_,
    fun y hy => (h.taken_lt y hy).trans (Nat.lt_succ_self _), fun q d target dst hd hread => ?_,
    fun r hr => ?_, h.alive⟩
  · rcases hupd hd with ⟨rfl, rfl⟩ | ⟨hx, hlt⟩ <;> rcases hupd hd' with ⟨rfl, rfl⟩ | ⟨hx', hlt'⟩
    · rfl
    · exact absurd he hlt'.ne'
    · exact absurd he hlt.ne
    · exact h.ids q q' d d' hx hx' he
  · rcases hupd hd with ⟨rfl, rfl⟩ | ⟨-, hlt⟩
    · exact Nat.lt_succ_self _
    · exact hlt.trans (Nat.lt_succ_self _)
  · rcases hupd hd with ⟨rfl, rfl⟩ | ⟨hx, -⟩
    · obtain rfl := hop target dst hread
      exact ⟨byTag_of_notMem fun y hy => (h.taken_lt y hy).ne, by simp, Nat.zero_le _⟩
    · exact h.reading q d target dst hx hread
  · obtain ⟨hok, hlt, hne⟩ := h.returned r hr
    refine ⟨hok, hlt.trans (Nat.lt_succ_self _), fun q d hd => ?_⟩
    rcases hupd hd with ⟨rfl, rfl⟩ | ⟨hx, -⟩
    · exact hlt.ne'
    · exact hne q d hx

/-- **What every step keeps.** -/
theorem act (h : EditorInv s) {a : ConsoleAction P} (hok : NoKill s a)
    (hst : s.act lineEditor a = some t) : EditorInv t := by
  cases a with
  | intr p cs => exact h.start hst fun target dst ho => by cases ho
  | read p n => exact h.start hst fun target dst ho => (ConsoleOp.read.inj ho).2.symm
  | turn p =>
    obtain ⟨c, hc, hturn⟩ := Option.bind_eq_some_iff.1 hst
    exact h.turn hc hturn
  | kill p => exact absurd rfl (hok p)

end EditorInv

/-- An editor with nothing in it. -/
def Editor.empty : Editor := ⟨[], [], []⟩

omit [DecidableEq P] in
theorem editorInv_fresh : EditorInv (.fresh P Editor.empty) where
  kept := rfl
  ids p q c d hc := by cases hc
  id_lt p c hc := by cases hc
  taken_lt x hx := by cases hx
  reading p c target dst hc := by cases hc
  returned r hr := by cases hr
  alive p := rfl

theorem Reach.editorInv {s : ConsoleState Editor P}
    (h : (console lineEditor Editor.empty P).Reach NoKill s) : EditorInv s :=
  h.invariant (fun s hs => by obtain rfl := hs; exact editorInv_fresh)
    fun _ _ _ hi hok hst => hi.act hok (console_step.1 hst)

/-- How a read ends: with all it has asked for, with a newline, or before a control-D, which then
waits for the next read unless this one has nothing else. -/
def EndsWell (queue queue' : List UInt8) (r : ConsoleRead) : Prop :=
  r.bytes.length = r.target ∨ r.bytes.getLast? = some newline ∨
    queue.head? = some (ctrl 'D') ∧ queue' = if r.bytes = [] then queue.tail else queue

theorem consoleread_ends {s : ConsoleState Editor P} (h : EditorInv s) (hc : s.call p = some c)
    {target : ℕ} {dst : List UInt8} (hop : c.op = .read target dst) {r : ConsoleRead}
    (hr : (s.consoleread lineEditor p c target dst).log = s.log ++ [r]) :
    EndsWell s.dev.queue (s.consoleread lineEditor p c target dst).dev.queue r := by
  obtain ⟨-, -, hle⟩ := h.reading p c target dst hc hop
  have hkept : (s.consoleread lineEditor p c target dst).log ≠ s.log := by simp [hr]
  simp only [ConsoleState.consoleread] at hr hkept ⊢
  by_cases hlt : dst.length < target
  · rw [if_pos hlt] at hr hkept ⊢
    rcases hq : s.dev.queue with _ | ⟨b, queue⟩
    · have hempty : lineEditor.empty s.dev = true := decide_eq_true hq
      have hk : ¬ s.killed p = true := by simp [h.alive p]
      rw [if_pos hempty, if_neg hk] at hkept
      exact absurd rfl hkept
    · have hempty : ¬ lineEditor.empty s.dev = true := by simp [lineEditor, hq]
      have htake : lineEditor.take s.dev = (b, { s.dev with queue := queue }) := by
        simp [lineEditor, hq]
      simp only [if_neg hempty, htake] at hr hkept ⊢
      by_cases hD : b = ctrl 'D'
      · rw [if_pos hD] at hr hkept ⊢
        by_cases h0 : dst.length = 0
        · rw [if_pos h0] at hr ⊢
          have hret : ⟨c.id, target, 0, []⟩ = r := by simpa [ConsoleState.leave] using hr
          subst hret
          exact .inr (.inr ⟨congrArg some hD, rfl⟩)
        · rw [if_neg h0] at hr ⊢
          have hret : ⟨c.id, target, dst.length, dst⟩ = r := by simpa [ConsoleState.leave] using hr
          subst hret
          have hne : dst ≠ [] := fun hnil => h0 (List.length_eq_zero_iff.2 hnil)
          exact .inr (.inr ⟨congrArg some hD, (if_neg hne).symm⟩)
      · rw [if_neg hD] at hr hkept ⊢
        by_cases hnl : b = newline
        · rw [if_pos hnl] at hr ⊢
          have hret : ⟨c.id, target, (dst ++ [b]).length, dst ++ [b]⟩ = r := by
            simpa [ConsoleState.leave] using hr
          subst hret
          exact .inr (.inl (by simp [hnl]))
        · rw [if_neg hnl] at hkept
          exact absurd rfl hkept
  · rw [if_neg hlt] at hr ⊢
    have hret : ⟨c.id, target, dst.length, dst⟩ = r := by simpa [ConsoleState.leave] using hr
    subst hret
    exact .inl (le_antisymm hle (Nat.le_of_not_lt hlt))

theorem ConsoleState.log_start {s t : ConsoleState D P} {op : ConsoleOp}
    (hst : s.start p op = some t) : t.log = s.log := by
  rw [ConsoleState.start] at hst
  split_ifs at hst
  obtain rfl := Option.some.inj hst
  rfl

theorem ConsoleState.log_consoleintr (s : ConsoleState D P) (cs : List UInt8) :
    (s.consoleintr T p c cs).log = s.log := by
  cases cs with
  | nil => simp [ConsoleState.consoleintr, ConsoleState.leave]
  | cons b cs =>
    simp only [ConsoleState.consoleintr]
    split_ifs <;> rfl

theorem ends_well {s t : ConsoleState Editor P} (h : EditorInv s) {a : ConsoleAction P}
    (hst : s.act lineEditor a = some t) {r : ConsoleRead} (hr : t.log = s.log ++ [r]) :
    EndsWell s.dev.queue t.dev.queue r := by
  have hkept : t.log ≠ s.log := by simp [hr]
  cases a with
  | intr p cs => exact absurd (ConsoleState.log_start hst) hkept
  | read p n => exact absurd (ConsoleState.log_start hst) hkept
  | kill p =>
    obtain rfl := Option.some.inj hst
    exact absurd rfl hkept
  | turn p =>
    obtain ⟨c, hc, hturn⟩ := Option.bind_eq_some_iff.1 hst
    obtain ⟨id, op, pc⟩ := c
    cases pc with
    | acquire =>
      by_cases hl : s.lock = none
      · obtain rfl := Option.some.inj ((if_pos hl).symm.trans hturn)
        exact absurd rfl hkept
      · cases (if_neg hl).symm.trans hturn
    | asleep => cases hturn
    | loop =>
      cases op with
      | intr cs =>
        obtain rfl := Option.some.inj hturn
        exact absurd (ConsoleState.log_consoleintr s cs) hkept
      | read target dst =>
        obtain rfl := Option.some.inj hturn
        exact consoleread_ends h hc rfl hr

theorem edits_boot : Edits Input.boot Editor.empty :=
  ⟨Ring.Queued.empty _ _ _, rfl, by simp [Editor.empty]⟩

/-- **The console is a line editor.**  Whatever calls interleave, the indices of `input` are in
order, and readers get what the editor gives them for the same calls.  There every character that
is committed is taken out once and in order, a read returns what it has taken without a control-D,
and it ends as `EndsWell` says. -/
theorem console_discipline {as : List (ConsoleAction P)} (hkill : ∀ a ∈ as, ∀ p, a ≠ .kill p)
    {s : ConsoleState Input P}
    (hrun : (console inputTerminal .boot P).run (.fresh P .boot) as = .ok s) :
    (s.dev.w - s.dev.r).toNat ≤ (s.dev.e - s.dev.r).toNat ∧
      (s.dev.e - s.dev.r).toNat ≤ INPUT_BUF ∧
      ∃ t, (console lineEditor .empty P).run (.fresh P .empty) as = .ok t ∧
        s.log = t.log ∧ s.taken = t.taken ∧ Edits s.dev t.dev ∧
        t.dev.committed = t.taken.map Prod.snd ++ t.dev.queue ∧
        (∀ r ∈ t.log, r.Ok t) ∧
        ∀ a t' r, (console lineEditor .empty P).step t a = .ok t' → t'.log = t.log ++ [r] →
          EndsWell t.dev.queue t'.dev.queue r := by
  obtain ⟨ed, hed, hrun'⟩ := console_simulates inputTerminal_refines edits_boot as hrun
  have hobey : (console lineEditor .empty P).Obeys NoKill (.fresh P .empty) as :=
    System.obeys_of_forall _ _ fun a ha _ => hkill a ha
  have hinv := Reach.editorInv (.of_run as (.init rfl) hobey hrun')
  have hw := hed.queue.toNat_sub INPUT_BUF_lt
  have he := hed.ring.toNat_sub INPUT_BUF_lt
  have hroom := hed.ring.room
  rw [List.length_append] at he hroom
  refine ⟨by omega, by omega, _, hrun', rfl, rfl, hed, hinv.kept,
    fun r hr => (hinv.returned r hr).1, fun a t' r hst hlog => ?_⟩
  exact ends_well hinv (console_step.1 hst) hlog

/-- Two characters and a control-D are typed; the first read gets the characters and the second one
nothing. -/
theorem console_discipline_eof : ∃ s : ConsoleState Input ℕ,
    s.log = [⟨1, 5, 2, [97, 98]⟩, ⟨2, 5, 0, []⟩] ∧
      (s.dev.w - s.dev.r).toNat ≤ (s.dev.e - s.dev.r).toNat ∧
      (s.dev.e - s.dev.r).toNat ≤ INPUT_BUF := by
  let as : List (ConsoleAction ℕ) := [.intr 0 [97, 98, 4], .turn 0, .turn 0, .turn 0, .turn 0,
    .turn 0, .read 1 5, .turn 1, .turn 1, .turn 1, .turn 1, .read 1 5, .turn 1, .turn 1]
  have hends : (console inputTerminal .boot ℕ).Ends
      (fun s => s.log = [⟨1, 5, 2, [97, 98]⟩, ⟨2, 5, 0, []⟩]) (.fresh ℕ .boot) as := by
    decide +kernel
  have hkill : ∀ a ∈ as, ∀ p, a ≠ .kill p := by
    intro a ha p he
    subst he
    simp [as] at ha
  obtain ⟨s, hrun, hlog⟩ := hends.run
  obtain ⟨hwe, hroom, -⟩ := console_discipline hkill hrun
  exact ⟨s, hlog, hwe, hroom⟩

end OsSemester.Xv6
