import OsSemester.Lib.Transition

/-!
# The threads of `q3/server.c`

The main loop accepts a connection into `new_socket` and starts a thread with the address of this one
variable; the thread takes the socket from there.  Every statement is a step of its own.  A
descriptor stands for the connection it was opened for, and may be given out again once it is closed.
What is read and printed is left out.
-/

namespace OsSemester.Hw2

/-- File descriptors. -/
abbrev Fd := ℕ

/-- Connections, in the order in which they have been accepted. -/
abbrev Conn := ℕ

/-- The next statement of the loop in `main`. -/
inductive MainPc
  | accept
  | create
  deriving DecidableEq

/-- The next statement of `func_thread`. -/
inductive WorkerPc
  /-- `int socketNew = *((int *)args);` -/
  | fetch
  | read
  | printBuffer
  | sleep
  | write
  | printSent
  | close
  | exit
  | done
  deriving DecidableEq

/-- A thread, and the connection that had been accepted last when it was started. -/
structure Worker where
  pc : WorkerPc
  socketNew : Fd
  conn : Conn

/-- The statements that use a socket. -/
inductive Use
  | fetch
  | read
  | write
  | close
  deriving DecidableEq

/-- A thread has used a socket, which stood for the connection, if for any. -/
structure Event where
  worker : ℕ
  use : Use
  conn : Option Conn
  deriving DecidableEq

/-- The process; `fds` are the descriptors of open connections. -/
structure Server where
  main : MainPc
  new_socket : Fd
  fds : Fd → Option Conn
  /-- How many connections have been accepted. -/
  accepted : ℕ
  /-- The threads, in the order in which they have been started. -/
  workers : List Worker
  log : List Event

/-- A step of the process.  `accept` returns a descriptor that is not open, or fails; `created` tells
whether `pthread_create` succeeds. -/
inductive Action
  | accept (fd : Option Fd)
  | create (created : Bool)
  | worker (i : ℕ)

/-- Why there is no next state. -/
inductive Halt
  /-- `exit(EXIT_FAILURE)` -/
  | exit
  /-- The process cannot take the step. -/
  | disabled

/-- A thread has used a descriptor. -/
def Server.logUse (s : Server) (i : ℕ) (use : Use) (fd : Fd) : Server :=
  { s with log := s.log ++ [⟨i, use, s.fds fd⟩] }

def Server.setWorker (s : Server) (i : ℕ) (w : Worker) : Server :=
  { s with workers := s.workers.set i w }

/-- The next statement of `func_thread`. -/
def Server.workerStep (s : Server) (i : ℕ) (w : Worker) : Except Halt Server :=
  match w.pc with
  | .fetch => .ok ((s.logUse i .fetch s.new_socket).setWorker i
      { w with pc := .read, socketNew := s.new_socket })
  | .read => .ok ((s.logUse i .read w.socketNew).setWorker i { w with pc := .printBuffer })
  | .printBuffer => .ok (s.setWorker i { w with pc := .sleep })
  | .sleep => .ok (s.setWorker i { w with pc := .write })
  | .write => .ok ((s.logUse i .write w.socketNew).setWorker i { w with pc := .printSent })
  | .printSent => .ok (s.setWorker i { w with pc := .close })
  | .close =>
    let s' := (s.logUse i .close w.socketNew).setWorker i { w with pc := .exit }
    .ok { s' with fds := Function.update s.fds w.socketNew none }
  | .exit => .ok (s.setWorker i { w with pc := .done })
  | .done => .error .disabled

/-- The steps of the process. -/
def Server.step (s : Server) : Action → Except Halt Server
  | .accept none => if s.main = .accept then .error .exit else .error .disabled
  | .accept (some fd) =>
    if s.main = .accept ∧ s.fds fd = none then
      .ok { s with
        main := .create
        new_socket := fd
        fds := Function.update s.fds fd (some s.accepted)
        accepted := s.accepted + 1 }
    else .error .disabled
  | .create created =>
    if s.main = .create then
      -- the result of `pthread_create` is not looked at
      let w : Worker := ⟨.fetch, 0, s.accepted - 1⟩
      .ok { s with main := .accept, workers := if created then s.workers ++ [w] else s.workers }
    else .error .disabled
  | .worker i =>
    match s.workers[i]? with
    | some w => s.workerStep i w
    | none => .error .disabled

/-- The process when `main` has come to its loop. -/
def server : System Halt Server Action where
  init s := s.main = .accept ∧ s.accepted = 0 ∧ s.workers = [] ∧ s.log = [] ∧ ∀ fd, s.fds fd = none
  step := Server.step

/-- How often a connection has been used in this way. -/
def Server.uses (s : Server) (u : Use) (c : Conn) : ℕ :=
  s.log.countP fun e => decide (e.use = u ∧ e.conn = some c)

/-- Every connection that was accepted is served. -/
def Server.Quiet (s : Server) : Prop := s.main = .accept ∧ ∀ w ∈ s.workers, w.pc = .done

instance (s : Server) : Decidable s.Quiet := inferInstanceAs (Decidable (_ ∧ _))

/-- **Each connection is served exactly once**: no thread uses a socket that is not the one it was
started for, none is used twice in one way, and when all threads have finished, each has been fetched,
answered and closed. -/
structure ServedOnce (s : Server) : Prop where
  own : ∀ e ∈ s.log, ∃ w : Worker, s.workers[e.worker]? = some w ∧ e.conn = some w.conn
  once : ∀ u c, s.uses u c ≤ 1
  served : s.Quiet → ∀ c, c < s.accepted → ∀ u, s.uses u c = 1

/-- `accept` is not called while a thread has yet to take its socket from `new_socket`, and
`pthread_create` does not fail. -/
def Handover (s : Server) : Action → Prop
  | .accept _ => ∀ w ∈ s.workers, w.pc ≠ .fetch
  | .create created => created = true
  | .worker _ => True

instance (s : Server) : ∀ a, Decidable (Handover s a)
  | .accept _ => inferInstanceAs (Decidable (∀ w ∈ s.workers, w.pc ≠ .fetch))
  | .create created => inferInstanceAs (Decidable (created = true))
  | .worker _ => .isTrue trivial

/-! ### The invariant -/

namespace WorkerPc

/-- The statements in their order. -/
def rank : WorkerPc → ℕ
  | fetch => 0
  | read => 1
  | printBuffer => 2
  | sleep => 3
  | write => 4
  | printSent => 5
  | close => 6
  | exit => 7
  | done => 8

end WorkerPc

/-- The statement that uses the socket so. -/
def Use.pc : Use → WorkerPc
  | fetch => .fetch
  | read => .read
  | write => .write
  | close => .close

/-- How often a thread has used its socket in this way when it has come to `pc`. -/
def WorkerPc.uses (pc : WorkerPc) (u : Use) : ℕ := if u.pc.rank < pc.rank then 1 else 0

/-- What a run keeps: the thread `i` serves the connection `i`, and a thread that has yet to fetch its
socket finds it in `new_socket`. -/
structure Serving (s : Server) : Prop where
  accepted : s.accepted = s.workers.length + if s.main = .create then 1 else 0
  conn : ∀ i (w : Worker), s.workers[i]? = some w → w.conn = i
  pending : s.main = .create → s.fds s.new_socket = some s.workers.length
  fetching : ∀ i (w : Worker), s.workers[i]? = some w → w.pc = .fetch →
    s.main = .accept ∧ s.fds s.new_socket = some i
  opened : ∀ i (w : Worker), s.workers[i]? = some w → w.pc ≠ .fetch → w.pc.rank ≤ WorkerPc.close.rank →
    s.fds w.socketNew = some i
  own : ∀ e ∈ s.log, ∃ w : Worker, s.workers[e.worker]? = some w ∧ e.conn = some w.conn
  uses : ∀ u c, s.uses u c = (s.workers[c]?).elim 0 fun w : Worker => w.pc.uses u

variable {s s' : Server} {i : ℕ} {w w' : Worker} {a : Action} {fds' : Fd → Option Conn}
variable {ev : List Event} {u : Use} {c : Conn}

/-- The counts of a longer log. -/
theorem countP_log (log ev : List Event) (hev : ∀ e ∈ ev, e.conn = some i) (u : Use) (c : Conn) :
    (log ++ ev).countP (fun e => decide (e.use = u ∧ e.conn = some c)) =
      log.countP (fun e => decide (e.use = u ∧ e.conn = some c)) +
        if c = i then ev.countP (fun e => decide (e.use = u)) else 0 := by
  rw [List.countP_append]
  congr 1
  split_ifs with hc
  · refine List.countP_congr fun e he => ?_
    rw [hev e he, hc]
    simp
  · rw [List.countP_eq_zero]
    intro e he
    rw [hev e he]
    simp [Ne.symm hc]

/-- A thread goes on, with the uses of its own socket in `ev`. -/
theorem Serving.advance (h : Serving s) (w' : Worker) (ev : List Event)
    (hw : s.workers[i]? = some w) (hconn : w'.conn = w.conn)
    (hev : ∀ e ∈ ev, e.worker = i ∧ e.conn = some i)
    (huses : ∀ u, w'.pc.uses u = w.pc.uses u + ev.countP fun e => decide (e.use = u))
    (hpc : w'.pc ≠ .fetch)
    (hopen : w'.pc.rank ≤ WorkerPc.close.rank → fds' w'.socketNew = some i)
    (hfds : ∀ fd c, c ≠ i → s.fds fd = some c → fds' fd = some c) :
    Serving { s with workers := s.workers.set i w', log := s.log ++ ev, fds := fds' } := by
  have hi : i < s.workers.length := (List.getElem?_eq_some_iff.mp hw).1
  have hself : (s.workers.set i w')[i]? = some w' := List.getElem?_set_self hi
  have hother : ∀ j, j ≠ i → (s.workers.set i w')[j]? = s.workers[j]? := fun j hj =>
    List.getElem?_set_ne hj.symm
  refine ⟨?_, fun j v hv => ?_, fun hm => ?_, fun j v hv hf => ?_, fun j v hv hf hr => ?_,
    fun e he => ?_, fun u c => ?_⟩
  · rw [List.length_set]
    exact h.accepted
  · by_cases hj : j = i
    · rw [hj, hself] at hv
      rw [← Option.some.inj hv, hconn, hj]
      exact h.conn i w hw
    · rw [hother j hj] at hv
      exact h.conn j v hv
  · rw [List.length_set]
    exact hfds _ _ (Nat.ne_of_gt hi) (h.pending hm)
  · by_cases hj : j = i
    · rw [hj, hself] at hv
      rw [← Option.some.inj hv] at hf
      exact absurd hf hpc
    · rw [hother j hj] at hv
      obtain ⟨hm, hs⟩ := h.fetching j v hv hf
      exact ⟨hm, hfds _ _ hj hs⟩
  · by_cases hj : j = i
    · rw [hj, hself] at hv
      rw [← Option.some.inj hv] at hr ⊢
      rw [hj]
      exact hopen hr
    · rw [hother j hj] at hv
      exact hfds _ _ hj (h.opened j v hv hf hr)
  -- each thread keeps its connection
  · have hold : ∀ (j : ℕ) (v : Worker), s.workers[j]? = some v →
        ∃ v' : Worker, (s.workers.set i w')[j]? = some v' ∧ v'.conn = v.conn := by
      intro j v hv
      by_cases hj : j = i
      · rw [hj, hw] at hv
        exact ⟨w', by rw [hj, hself], by rw [hconn, Option.some.inj hv]⟩
      · exact ⟨v, by rw [hother j hj, hv], rfl⟩
    rcases List.mem_append.mp he with he | he
    · obtain ⟨v, hv, hc⟩ := h.own e he
      obtain ⟨v', hv', hc'⟩ := hold _ v hv
      exact ⟨v', hv', by rw [hc, hc']⟩
    · obtain ⟨h1, h2⟩ := hev e he
      exact ⟨w', by rw [h1, hself], by rw [h2, hconn, h.conn i w hw]⟩
  · show (s.log ++ ev).countP _ = _
    rw [countP_log s.log ev (fun e he => (hev e he).2)]
    have hold : s.log.countP (fun e => decide (e.use = u ∧ e.conn = some c)) = _ := h.uses u c
    rw [hold]
    by_cases hc : c = i
    · rw [hc, hself, hw, if_pos rfl]
      exact (huses u).symm
    · rw [hother c hc, if_neg hc, Nat.add_zero]

/-- A thread goes on without using its socket. -/
theorem Serving.advance_silent {pc : WorkerPc} (h : Serving s) (hw : s.workers[i]? = some w)
    (huses : ∀ u, pc.uses u = w.pc.uses u) (hpc : pc ≠ .fetch)
    (hopen : pc.rank ≤ WorkerPc.close.rank → s.fds w.socketNew = some i) :
    Serving (s.setWorker i { w with pc := pc }) := by
  have hstep := h.advance { w with pc := pc } [] hw rfl nofun huses hpc hopen fun _ _ _ h => h
  rwa [List.append_nil] at hstep

/-- A thread uses its own socket. -/
theorem Serving.advance_use {fd : Fd} (h : Serving s) (w' : Worker) (hw : s.workers[i]? = some w)
    (hconn : w'.conn = w.conn) (hfd : s.fds fd = some i)
    (huses : ∀ v, w'.pc.uses v = w.pc.uses v + if u = v then 1 else 0) (hpc : w'.pc ≠ .fetch)
    (hopen : w'.pc.rank ≤ WorkerPc.close.rank → fds' w'.socketNew = some i)
    (hfds : ∀ fd c, c ≠ i → s.fds fd = some c → fds' fd = some c) :
    Serving { (s.logUse i u fd).setWorker i w' with fds := fds' } := by
  refine h.advance w' [⟨i, u, s.fds fd⟩] hw hconn ?_ (fun v => ?_) hpc hopen hfds
  · intro e he
    rw [List.mem_singleton.mp he]
    exact ⟨rfl, hfd⟩
  · rw [huses v, List.countP_singleton]
    simp only [decide_eq_true_eq]

/-- **A thread keeps the invariant.** -/
theorem Serving.workerStep (h : Serving s) (hw : s.workers[i]? = some w)
    (hs : s.workerStep i w = .ok s') : Serving s' := by
  have hkept : ∀ fd c, c ≠ i → s.fds fd = some c → s.fds fd = some c := fun _ _ _ h => h
  -- a thread that has fetched its socket, and has not closed it
  have hown : w.pc ≠ .fetch → w.pc.rank ≤ WorkerPc.close.rank → s.fds w.socketNew = some i :=
    h.opened i w hw
  unfold Server.workerStep at hs
  cases hpc : w.pc <;> rw [hpc] at hs hown
  case fetch =>
    obtain rfl := Except.ok.inj hs
    have hnew := (h.fetching i w hw hpc).2
    refine h.advance_use { w with pc := .read, socketNew := s.new_socket } hw rfl hnew ?_ nofun
      (fun _ => hnew) hkept
    intro v
    rw [hpc]
    cases v <;> rfl
  case read =>
    obtain rfl := Except.ok.inj hs
    have hsock := hown nofun (by decide)
    refine h.advance_use { w with pc := .printBuffer } hw rfl hsock ?_ nofun (fun _ => hsock) hkept
    intro v
    rw [hpc]
    cases v <;> rfl
  case write =>
    obtain rfl := Except.ok.inj hs
    have hsock := hown nofun (by decide)
    refine h.advance_use { w with pc := .printSent } hw rfl hsock ?_ nofun (fun _ => hsock) hkept
    intro v
    rw [hpc]
    cases v <;> rfl
  case close =>
    obtain rfl := Except.ok.inj hs
    have hsock := hown nofun le_rfl
    refine h.advance_use { w with pc := .exit } hw rfl hsock ?_ nofun ?_ fun fd c hc hfd => ?_
    · intro v
      rw [hpc]
      cases v <;> rfl
    · intro hr
      have h76 : ¬ WorkerPc.exit.rank ≤ WorkerPc.close.rank := by decide
      exact absurd hr h76
    · have hne : fd ≠ w.socketNew := by
        rintro rfl
        rw [hsock] at hfd
        exact hc (Option.some.inj hfd).symm
      rw [Function.update_of_ne hne, hfd]
  case printBuffer =>
    obtain rfl := Except.ok.inj hs
    refine h.advance_silent hw (fun v => ?_) nofun fun _ => hown nofun (by decide)
    rw [hpc]
    cases v <;> rfl
  case sleep =>
    obtain rfl := Except.ok.inj hs
    refine h.advance_silent hw (fun v => ?_) nofun fun _ => hown nofun (by decide)
    rw [hpc]
    cases v <;> rfl
  case printSent =>
    obtain rfl := Except.ok.inj hs
    refine h.advance_silent hw (fun v => ?_) nofun fun _ => hown nofun (by decide)
    rw [hpc]
    cases v <;> rfl
  case exit =>
    obtain rfl := Except.ok.inj hs
    refine h.advance_silent hw (fun v => ?_) nofun fun hr => absurd hr (by decide)
    rw [hpc]
    cases v <;> rfl
  case done => cases hs

/-- `accept`, when every thread has its socket. -/
theorem Serving.accept {fd : Fd} (h : Serving s) (hm : s.main = .accept) (hfd : s.fds fd = none)
    (hall : ∀ w ∈ s.workers, w.pc ≠ .fetch) :
    Serving { s with
      main := .create
      new_socket := fd
      fds := Function.update s.fds fd (some s.accepted)
      accepted := s.accepted + 1 } := by
  have hacc : s.accepted = s.workers.length := by
    rw [h.accepted, hm]
    rfl
  refine ⟨?_, h.conn, fun _ => ?_, fun i w hw hf => ?_, fun i w hw hf hr => ?_, h.own, h.uses⟩
  · rw [if_pos rfl, hacc]
  · show Function.update s.fds fd (some s.accepted) fd = some s.workers.length
    rw [Function.update_self, hacc]
  · exact absurd hf (hall w (List.mem_of_getElem? hw))
  · have hopen := h.opened i w hw hf hr
    have hne : w.socketNew ≠ fd := by
      intro he
      rw [he, hfd] at hopen
      cases hopen
    show Function.update s.fds fd (some s.accepted) w.socketNew = some i
    rw [Function.update_of_ne hne, hopen]

/-- `pthread_create`: the new thread finds its socket in `new_socket`. -/
theorem Serving.create (h : Serving s) (hm : s.main = .create) :
    Serving { s with
      main := .accept
      workers := s.workers ++ [⟨.fetch, 0, s.accepted - 1⟩] } := by
  have hacc : s.accepted = s.workers.length + 1 := by
    rw [h.accepted, if_pos hm]
  have hget : ∀ i (w : Worker), (s.workers ++ [⟨.fetch, 0, s.accepted - 1⟩])[i]? = some w →
      s.workers[i]? = some w ∨ i = s.workers.length ∧ w = ⟨.fetch, 0, s.accepted - 1⟩ := by
    intro i w hw
    rcases Nat.lt_trichotomy i s.workers.length with hi | hi | hi
    · rw [List.getElem?_append_left hi] at hw
      exact Or.inl hw
    · rw [hi, List.getElem?_concat_length] at hw
      exact Or.inr ⟨hi, (Option.some.inj hw).symm⟩
    · rw [List.getElem?_eq_none (by simp; omega)] at hw
      cases hw
  refine ⟨?_, fun i w hw => ?_, nofun, fun i w hw hf => ?_, fun i w hw hf hr => ?_, fun e he => ?_,
    fun u c => ?_⟩
  · rw [List.length_append, List.length_singleton]
    exact hacc
  · rcases hget i w hw with hw | ⟨hi, rfl⟩
    · exact h.conn i w hw
    · show s.accepted - 1 = i
      omega
  · refine ⟨rfl, ?_⟩
    rcases hget i w hw with hw | ⟨hi, -⟩
    · have hacc' := (h.fetching i w hw hf).1
      rw [hm] at hacc'
      cases hacc'
    · rw [hi]
      exact h.pending hm
  · rcases hget i w hw with hw | ⟨-, rfl⟩
    · exact h.opened i w hw hf hr
    · exact absurd rfl hf
  · obtain ⟨w, hw, hc⟩ := h.own e he
    refine ⟨w, ?_, hc⟩
    rw [List.getElem?_append_left (List.getElem?_eq_some_iff.mp hw).1, hw]
  · have hold : s.log.countP (fun e => decide (e.use = u ∧ e.conn = some c)) = _ := h.uses u c
    show s.log.countP _ = _
    rw [hold]
    rcases Nat.lt_trichotomy c s.workers.length with hc | hc | hc
    · rw [List.getElem?_append_left hc]
    · rw [hc, List.getElem?_concat_length, List.getElem?_eq_none le_rfl]
      cases u <;> rfl
    · rw [List.getElem?_eq_none (Nat.le_of_lt hc), List.getElem?_eq_none (by simp; omega)]

/-! ### The main result -/

theorem Serving.init (h : server.init s) : Serving s := by
  obtain ⟨hm, hacc, hw, hlog, hfds⟩ := h
  refine ⟨?_, ?_, ?_, ?_, ?_, ?_, ?_⟩
  · rw [hacc, hw, hm]
    rfl
  · rw [hw]
    nofun
  · rw [hm]
    nofun
  · rw [hw]
    nofun
  · rw [hw]
    nofun
  · rw [hlog]
    nofun
  · intro u c
    rw [Server.uses, hlog, hw]
    rfl

theorem Serving.step (h : Serving s) (ha : Handover s a) (hs : server.step s a = .ok s') :
    Serving s' := by
  have hs' : s.step a = .ok s' := hs
  unfold Server.step at hs'
  cases a with
  | accept fd =>
    cases fd with
    | none => split_ifs at hs'
    | some fd =>
      dsimp only at hs'
      split_ifs at hs' with hc
      obtain rfl := Except.ok.inj hs'
      exact h.accept hc.1 hc.2 ha
  | create created =>
    obtain rfl : created = true := ha
    by_cases hc : s.main = .create
    · simp only [if_pos hc, if_true] at hs'
      obtain rfl := Except.ok.inj hs'
      exact h.create hc
    · simp only [if_neg hc] at hs'
      cases hs'
  | worker i =>
    dsimp only at hs'
    split at hs'
    · rename_i w hw
      exact h.workerStep hw hs'
    · cases hs'

theorem WorkerPc.uses_le (pc : WorkerPc) (u : Use) : pc.uses u ≤ 1 := by
  unfold WorkerPc.uses
  split_ifs <;> omega

theorem Serving.servedOnce (h : Serving s) : ServedOnce s where
  own := h.own
  once := by
    intro u c
    rw [h.uses u c]
    cases s.workers[c]? with
    | none => exact Nat.zero_le _
    | some w => exact w.pc.uses_le u
  served := by
    intro hq c hc u
    have hacc : s.accepted = s.workers.length := by
      rw [h.accepted, hq.1]
      rfl
    obtain ⟨w, hw⟩ : ∃ w, s.workers[c]? = some w := ⟨_, List.getElem?_eq_getElem (hacc ▸ hc)⟩
    have hdone := hq.2 w (List.mem_of_getElem? hw)
    rw [h.uses u c, hw]
    show w.pc.uses u = 1
    rw [hdone]
    cases u <;> rfl

/-- **Runs that hand every socket over before the next `accept`.**  In a run in which `accept` is called
only when no thread has yet to take its socket, and in which `pthread_create` succeeds, every connection
is served exactly once. -/
theorem served_once (h : server.Reach Handover s) : ServedOnce s :=
  (h.invariant (fun _ => Serving.init) fun _ _ _ hi ha hs => hi.step ha hs).servedOnce

/-- The process before the first connection. -/
def listening : Server := ⟨.accept, 0, fun _ => none, 0, [], []⟩

theorem listening_init : server.init listening := ⟨rfl, rfl, rfl, rfl, fun _ => rfl⟩

/-- Two connections: the second one is accepted while the first thread is at its `read`, and the
threads go on in turns. -/
theorem served_once_two : ∃ s, server.Reach Handover s ∧ s.Quiet ∧ s.accepted = 2 ∧
    ServedOnce s := by
  let as : List Action := [.accept (some 4), .create true, .worker 0, .accept (some 5), .create true] ++
    (List.replicate 7 [.worker 1, .worker 0]).flatten ++ [.worker 1]
  have hobey : server.Obeys Handover listening as := by decide
  obtain ⟨s, hs, hq, hacc⟩ := System.Reach.of_ends (P := fun s => s.Quiet ∧ s.accepted = 2) as
    listening_init hobey (by decide)
  exact ⟨s, hs, hq, hacc, served_once hs⟩

/-- Two clients connect before the first thread runs: both threads serve the second one. -/
theorem served_once_counterexample : ∃ s, server.Reachable s ∧ s.uses .fetch 0 = 0 ∧
    s.uses .fetch 1 = 2 ∧ ¬ ServedOnce s := by
  obtain ⟨s, hs, h0, h1⟩ := System.Reachable.of_ends
    (P := fun s => s.uses .fetch 0 = 0 ∧ s.uses .fetch 1 = 2)
    [.accept (some 4), .create true, .accept (some 5), .create true, .worker 0, .worker 1]
    listening_init (by decide)
  refine ⟨s, hs, h0, h1, fun h => ?_⟩
  have hle := h.once .fetch 1
  omega

end OsSemester.Hw2
