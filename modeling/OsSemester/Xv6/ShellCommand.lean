import OsSemester.Xv6.Spec.ShellParse

/-!
# The shell accepts its grammar (`sh.c`)

`nulterminate` writes a terminator behind every word of the tree.  There is never a word at that place,
so the strings of the tree are the words of the line.  `parsecmd_spec` is the result for whole lines:
`parsecmd` returns the tree of the line when the grammar has one, and calls `panic` otherwise.
-/

namespace OsSemester.Xv6.Shell

variable {line buf buf' : List Char} {s n i off : ℕ} {nt : Nonterminal} {toks pre rest : List Token} {t : Tree}

/-! ### The words of a tree -/

theorem words_redirs (t : Tree) (rs : List Redir) : (t.redirs rs).words = t.words ++ rs.map Redir.file := by
  induction rs generalizing t with
  | nil => exact (List.append_nil _).symm
  | cons r rs ih =>
    show ((t.redir r).redirs rs).words = _
    rw [ih, Tree.words, List.map_cons, List.append_assoc, List.singleton_append]

theorem words_backs (t : Tree) (k : ℕ) : (t.backs k).words = t.words := by
  induction k generalizing t with
  | zero => rfl
  | succ k ih => exact ih t.back

/-- The number of arguments of all nodes leaves room for the null pointer. -/
def Tree.Fits : Tree → Prop
  | exec ws => ws.length < MAXARGS
  | redir t _ => t.Fits
  | pipe left right => left.Fits ∧ right.Fits
  | list left right => left.Fits ∧ right.Fits
  | back t => t.Fits

theorem fits_redirs {t : Tree} (h : t.Fits) (rs : List Redir) : (t.redirs rs).Fits := by
  induction rs generalizing t with
  | nil => exact h
  | cons r rs ih => exact ih (t := t.redir r) h

theorem fits_backs {t : Tree} (h : t.Fits) (k : ℕ) : (t.backs k).Fits := by
  induction k generalizing t with
  | zero => exact h
  | succ k ih => exact ih (t := t.back) h

theorem Derives.fits (h : Derives nt pre t) : t.Fits := by
  induction h with
  | line k _ ih => exact fits_backs ih k
  | list k _ _ ih ih' => exact ⟨fits_backs ih k, ih'⟩
  | exec _ ih => exact ih
  | pipe _ _ ih ih' => exact ⟨ih, ih'⟩
  | args rs args hcount =>
    have hlen : (args.map Prod.fst).length < MAXARGS := by rwa [List.length_map]
    exact fits_redirs (t := .exec (args.map Prod.fst)) hlen _
  | block rs _ ih => exact fits_redirs ih rs

theorem file_mem_redirTokens {rs : List Redir} {r : Redir} (h : r ∈ rs) : .word r.file ∈ redirTokens rs :=
  List.mem_flatMap.mpr ⟨r, h, List.mem_cons_of_mem _ (List.mem_singleton_self _)⟩

/-- The words of the tree are among the tokens. -/
theorem Derives.word_mem (h : Derives nt pre t) : ∀ w ∈ t.words, .word w ∈ pre := by
  induction h with
  | line k _ ih =>
    intro w hw
    rw [words_backs] at hw
    exact List.mem_append_left _ (ih w hw)
  | list k _ _ ih ih' =>
    intro w hw
    rw [Tree.words, words_backs, List.mem_append] at hw
    obtain hw | hw := hw
    · exact List.mem_append_left _ (List.mem_append_left _ (ih w hw))
    · exact List.mem_append_right _ (List.mem_cons_of_mem _ (ih' w hw))
  | exec _ ih => exact ih
  | pipe _ _ ih ih' =>
    intro w hw
    obtain hw | hw := List.mem_append.mp hw
    · exact List.mem_append_left _ (ih w hw)
    · exact List.mem_append_right _ (List.mem_cons_of_mem _ (ih' w hw))
  | args rs args _ =>
    intro w hw
    rw [words_redirs, Tree.words, List.mem_append, List.map_append, List.mem_append] at hw
    obtain hw | hw | hw := hw
    · obtain ⟨a, ha, rfl⟩ := List.mem_map.mp hw
      exact List.mem_append_right _ (List.mem_flatMap.mpr ⟨a, ha, List.mem_cons_self ..⟩)
    · obtain ⟨r, hr, rfl⟩ := List.mem_map.mp hw
      exact List.mem_append_left _ (file_mem_redirTokens hr)
    · obtain ⟨r, hr, rfl⟩ := List.mem_map.mp hw
      obtain ⟨a, ha, hr⟩ := List.mem_flatMap.mp hr
      exact List.mem_append_right _ (List.mem_flatMap.mpr ⟨a, ha, List.mem_cons_of_mem _ (file_mem_redirTokens hr)⟩)
  | block rs _ ih =>
    intro w hw
    rw [words_redirs, List.mem_append] at hw
    refine List.mem_cons_of_mem _ ?_
    obtain hw | hw := hw
    · exact List.mem_append_left _ (ih w hw)
    · obtain ⟨r, hr, rfl⟩ := List.mem_map.mp hw
      exact List.mem_append_right _ (List.mem_cons_of_mem _ (file_mem_redirTokens hr))

/-! ### The words of a line -/

/-- The word stands in the text `cs`, which begins at the position `off`, and goes on as long as it can. -/
def Occurs (off : ℕ) (cs : List Char) (w : Word) : Prop :=
  ∃ before after, cs = before ++ (w.text ++ after) ∧ w.start = off + before.length ∧
    (∀ c ∈ w.text, wordChar c) ∧ ∀ c ∈ after.head?, wordChar c = false

theorem Occurs.append {cs : List Char} {w : Word} (front : List Char) (h : Occurs (off + front.length) cs w) :
    Occurs off (front ++ cs) w := by
  obtain ⟨before, after, rfl, hstart, hw, hafter⟩ := h
  refine ⟨front ++ before, after, (List.append_assoc ..).symm, ?_, hw, hafter⟩
  rw [hstart, List.length_append, Nat.add_assoc]

theorem Lexes.occurs {cs : List Char} (h : Lexes off cs toks) : ∀ w, .word w ∈ toks → Occurs off cs w := by
  induction h with
  | nil => exact nofun
  | @space off c cs toks _ _ ih => exact fun w hw => (ih w hw).append [c]
  | @symbol off c cs toks _ _ ih =>
    intro w hw
    obtain h | hw := List.mem_cons.mp hw
    · cases h
    · exact (ih w hw).append [c]
  | append _ ih =>
    intro w hw
    obtain h | hw := List.mem_cons.mp hw
    · cases h
    · exact (ih w hw).append ['>', '>']
  | greater _ _ ih =>
    intro w hw
    obtain h | hw := List.mem_cons.mp hw
    · cases h
    · exact (ih w hw).append ['>']
  | @word off w cs toks _ hw hcs _ ih =>
    intro v hv
    obtain h | hv := List.mem_cons.mp hv
    · cases h
      exact ⟨[], cs, rfl, rfl, hw, hcs⟩
    · exact (ih v hv).append w

theorem Lexes.length_le {cs : List Char} (h : Lexes off cs toks) : toks.length ≤ cs.length := by
  induction h with
  | nil => exact le_rfl
  | space _ _ ih => exact Nat.le_succ_of_le ih
  | symbol _ _ ih => exact Nat.succ_le_succ ih
  | append _ ih => exact Nat.le_succ_of_le (Nat.succ_le_succ ih)
  | greater _ _ ih => exact Nat.succ_le_succ ih
  | word hne _ _ _ ih =>
    have hpos := List.length_pos_iff.mpr hne
    rw [List.length_cons, List.length_append]
    omega

/-! ### Writing the terminators -/

/-- The bytes after the terminators of the words `ws` have been written. -/
structure Terminated (buf buf' : List Char) (ws : List Word) : Prop where
  length_eq : buf'.length = buf.length
  stop : ∀ w ∈ ws, buf'.getD w.stop nul = nul
  other : ∀ i, (∀ w ∈ ws, w.stop ≠ i) → buf'.getD i nul = buf.getD i nul

theorem terminated_nil (buf : List Char) : Terminated buf buf [] := ⟨rfl, nofun, fun _ _ => rfl⟩

theorem Terminated.trans {buf1 buf2 buf3 : List Char} {ws ws' : List Word} (h : Terminated buf1 buf2 ws)
    (h' : Terminated buf2 buf3 ws') : Terminated buf1 buf3 (ws ++ ws') where
  length_eq := h'.length_eq.trans h.length_eq
  stop := by
    intro w hw
    by_cases hlater : ∃ v ∈ ws', v.stop = w.stop
    · obtain ⟨v, hv, heq⟩ := hlater
      exact heq ▸ h'.stop v hv
    · have hmem : w ∈ ws := (List.mem_append.mp hw).resolve_right fun hw' => hlater ⟨w, hw', rfl⟩
      rw [h'.other _ fun v hv heq => hlater ⟨v, hv, heq⟩]
      exact h.stop w hmem
  other i hi := by
    rw [h'.other i fun w hw => hi w (List.mem_append_right _ hw),
      h.other i fun w hw => hi w (List.mem_append_left _ hw)]

theorem storeNul_spec (buf : List Char) (w : Word) (hw : w.stop < buf.length) :
    ∃ buf', storeNul buf w.stop = .ok buf' ∧ Terminated buf buf' [w] := by
  refine ⟨buf.set w.stop nul, if_pos hw, List.length_set .., fun v hv => ?_, fun i hi => ?_⟩
  · rw [List.mem_singleton.mp hv, List.getD_eq_getElem?_getD, List.getElem?_set, if_pos rfl, if_pos hw]
    rfl
  · rw [List.getD_eq_getElem?_getD, List.getElem?_set, if_neg (hi w (List.mem_singleton_self _)),
      List.getD_eq_getElem?_getD]

theorem nulterminateArgs_spec (buf : List Char) {ws : List Word} (hlen : ws.length < MAXARGS) (hi : i ≤ ws.length)
    (hstop : ∀ w ∈ ws, w.stop < buf.length) :
    ∃ buf', nulterminateArgs (fun i => ws[(i : ℕ)]?.map Word.start) (fun i => ws[(i : ℕ)]?.map Word.stop) i buf =
      .ok buf' ∧ Terminated buf buf' (ws.drop i) := by
  induction hd : ws.drop i generalizing i buf with
  | nil =>
    have heq : i = ws.length := Nat.le_antisymm hi (List.drop_eq_nil_iff.mp hd)
    subst heq
    refine ⟨buf, ?_, terminated_nil buf⟩
    rw [nulterminateArgs, dif_pos hlen]
    simp only [List.getElem?_eq_none le_rfl, Option.map_none]
  | cons w rest ih =>
    have hlt : i < ws.length := by
      rw [← Nat.not_le, ← List.drop_eq_nil_iff, hd]
      exact List.cons_ne_nil _ _
    rw [List.drop_eq_getElem_cons hlt, List.cons.injEq] at hd
    obtain ⟨buf1, hstore, h1⟩ := storeNul_spec buf w (hstop w (hd.1 ▸ List.getElem_mem hlt))
    obtain ⟨buf2, hrun, h2⟩ := ih buf1 hlt (fun v hv => h1.length_eq.symm ▸ hstop v hv) hd.2
    refine ⟨buf2, ?_, h1.trans h2⟩
    rw [nulterminateArgs, dif_pos (hlt.trans hlen)]
    simp only [List.getElem?_eq_getElem hlt, hd.1, Option.map_some]
    rw [hstore]
    exact hrun

theorem nulterminate_spec (buf : List Char) {t : Tree} (h : t.Fits) (hstop : ∀ w ∈ t.words, w.stop < buf.length) :
    ∃ buf', nulterminate t.cmd buf = .ok buf' ∧ Terminated buf buf' t.words := by
  have both : ∀ {left right : Tree}, (∀ buf : List Char, (∀ w ∈ left.words, w.stop < buf.length) →
        ∃ buf', nulterminate left.cmd buf = .ok buf' ∧ Terminated buf buf' left.words) →
      (∀ buf : List Char, (∀ w ∈ right.words, w.stop < buf.length) →
        ∃ buf', nulterminate right.cmd buf = .ok buf' ∧ Terminated buf buf' right.words) →
      ∀ buf : List Char, (∀ w ∈ left.words ++ right.words, w.stop < buf.length) →
        ∃ buf', (do
          let buf ← nulterminate left.cmd buf
          nulterminate right.cmd buf) = .ok buf' ∧ Terminated buf buf' (left.words ++ right.words) := by
    intro left right hl hr buf hstop
    obtain ⟨buf1, hrun1, h1⟩ := hl buf fun w hw => hstop w (List.mem_append_left _ hw)
    obtain ⟨buf2, hrun2, h2⟩ := hr buf1 fun w hw => h1.length_eq.symm ▸ hstop w (List.mem_append_right _ hw)
    rw [hrun1]
    exact ⟨buf2, hrun2, h1.trans h2⟩
  induction t generalizing buf with
  | exec ws => exact nulterminateArgs_spec buf (i := 0) h (Nat.zero_le _) hstop
  | redir t r ih =>
    obtain ⟨buf1, hrun1, h1⟩ := ih buf h fun w hw => hstop w (List.mem_append_left _ hw)
    obtain ⟨buf2, hstore, h2⟩ := storeNul_spec buf1 r.file
      (h1.length_eq.symm ▸ hstop _ (List.mem_append_right _ (List.mem_singleton_self _)))
    refine ⟨buf2, ?_, h1.trans h2⟩
    rw [Tree.cmd, nulterminate, hrun1]
    exact hstore
  | pipe left right ihl ihr => exact both (fun buf => ihl buf h.1) (fun buf => ihr buf h.2) buf hstop
  | list left right ihl ihr => exact both (fun buf => ihl buf h.1) (fun buf => ihr buf h.2) buf hstop
  | back t ih => exact ih buf h hstop

/-! ### Strings -/

/-- The string at a position. -/
def cstring (buf : List Char) (s : ℕ) : List Char := (buf.drop s).takeWhile (· ≠ nul)

theorem cstring_eq {text : List Char} (htext : ∀ j < text.length, buf.getD (s + j) nul = text.getD j nul)
    (hne : ∀ c ∈ text, c ≠ nul) (hend : buf.getD (s + text.length) nul = nul) : cstring buf s = text := by
  induction text generalizing s with
  | nil =>
    cases hd : buf.drop s with
    | nil => rw [cstring, hd, List.takeWhile_nil]
    | cons c cs =>
      have hc : c = nul := by
        rw [List.length_nil, Nat.add_zero, List.getD_eq_getElem?_getD, ← List.head?_drop, hd] at hend
        exact hend
      rw [cstring, hd, List.takeWhile_cons_of_neg (by simp [hc])]
  | cons c text ih =>
    have hc := htext 0 (Nat.succ_pos _)
    have hc0 := hne c (List.mem_cons_self ..)
    rw [Nat.add_zero, List.getD_cons_zero, List.getD_eq_getElem?_getD, ← List.head?_drop] at hc
    cases hd : buf.drop s with
    | nil =>
      rw [hd] at hc
      exact absurd hc.symm hc0
    | cons d cs =>
      rw [hd] at hc
      have hdc : d = c := hc
      have hrest : buf.drop (s + 1) = cs := by rw [← List.drop_drop, hd, List.drop_one, List.tail_cons]
      have htail := ih (s := s + 1) (fun j hj => by
        rw [Nat.add_assoc, Nat.add_comm 1]
        exact htext (j + 1) (Nat.succ_lt_succ hj)) (fun d hd =>
        hne d (List.mem_cons_of_mem _ hd)) (by rwa [List.length_cons, Nat.add_comm _ 1, ← Nat.add_assoc] at hend)
      rw [cstring, hrest] at htail
      rw [cstring, hd, hdc, List.takeWhile_cons_of_pos (by simp [hc0]), htail]

theorem Occurs.char {w : Word} {j : ℕ} (h : Occurs 0 line w) (hj : j < w.text.length) :
    w.start + j < line.length ∧ line.getD (w.start + j) nul = w.text.getD j nul := by
  obtain ⟨before, after, rfl, hstart, -, -⟩ := h
  rw [Nat.zero_add] at hstart
  rw [hstart, List.getD_append_right _ _ _ _ (Nat.le_add_right _ _), Nat.add_sub_cancel_left,
    List.getD_append _ _ _ _ hj, List.length_append, List.length_append]
  exact ⟨by omega, rfl⟩

/-- Behind a word there is no character of words. -/
theorem Occurs.stop {w : Word} (h : Occurs 0 line w) :
    w.stop ≤ line.length ∧ (w.stop < line.length → wordChar (line.getD w.stop nul) = false) := by
  obtain ⟨before, after, rfl, hstart, -, hafter⟩ := h
  have hstop : w.stop = before.length + w.text.length := by rw [Word.stop, hstart, Nat.zero_add]
  rw [hstop, List.length_append, List.length_append]
  refine ⟨by omega, fun hlt => ?_⟩
  rw [List.getD_append_right _ _ _ _ (Nat.le_add_right _ _), Nat.add_sub_cancel_left,
    List.getD_append_right _ _ _ _ le_rfl, Nat.sub_self]
  cases after with
  | nil =>
    rw [List.length_nil] at hlt
    omega
  | cons c after => exact hafter c rfl

/-- The terminators behind the words leave the words as they are. -/
theorem cstring_word {ws : List Word} (hline : nul ∉ line) (hocc : ∀ w ∈ ws, Occurs 0 line w)
    (hterm : Terminated (line ++ [nul]) buf ws) {w : Word} (hw : w ∈ ws) : cstring buf w.start = w.text := by
  have hw' := hocc w hw
  have hchars : ∀ c ∈ w.text, wordChar c ∧ c ≠ nul := by
    obtain ⟨before, after, rfl, -, htext, -⟩ := hw'
    intro c hc
    refine ⟨htext c hc, ?_⟩
    rintro rfl
    exact hline (List.mem_append_right _ (List.mem_append_left _ hc))
  refine cstring_eq (fun j hj => ?_) (fun c hc => (hchars c hc).2) (hterm.stop w hw)
  obtain ⟨hlt, hget⟩ := hw'.char hj
  rw [hterm.other, List.getD_append _ _ _ _ hlt, hget]
  intro v hv heq
  -- the end of `v` would be a character of the word
  have hv' := (hocc v hv).stop.2 (heq ▸ hlt)
  rw [heq, hget, List.getD_eq_getElem _ _ hj, (hchars _ (List.getElem_mem hj)).1] at hv'
  exact Bool.noConfusion hv'

/-! ### Command lines -/

theorem strlen_eq (hline : nul ∉ line) : strlen (line ++ [nul]) = .ok line.length := by
  induction line with
  | nil => rfl
  | cons c line ih =>
    rw [List.mem_cons, not_or] at hline
    rw [List.cons_append, strlen, if_neg fun h => hline.1 h.symm, ih hline.2]
    rfl

/-- The tokens of the line are derived by the grammar, with the tree `t`. -/
def HasTree (line : List Char) (t : Tree) : Prop := ∃ toks, Lexes 0 line toks ∧ Derives .line toks t

theorem HasTree.occurs (h : HasTree line t) : ∀ w ∈ t.words, Occurs 0 line w := by
  obtain ⟨toks, hlex, hder⟩ := h
  exact fun w hw => hlex.occurs w (hder.word_mem w hw)

/-- The end of `parsecmd`, when the line has been parsed to its end. -/
theorem parsecmd_eq (hline : nul ∉ line) (ht : HasTree line t)
    (hrun : parseline (line ++ [nul]) line.length n 0 = .ok (t.cmd, s)) (hat : At line s []) :
    ∃ buf, parsecmd n (line ++ [nul]) = .ok (t.cmd, buf) ∧ ∀ w ∈ t.words, cstring buf w.start = w.text := by
  have hocc := ht.occurs
  obtain ⟨toks, hlex, hder⟩ := ht
  obtain ⟨s', hpeek, -, hend⟩ := peek_spec [] rfl hat
  have hs' : s' = line.length := hend.mpr rfl
  obtain ⟨buf, hnul, hterm⟩ := nulterminate_spec (line ++ [nul]) hder.fits fun w hw => by
    rw [List.length_append, List.length_singleton]
    exact Nat.lt_succ_of_le (hocc w hw).stop.1
  refine ⟨buf, ?_, fun w hw => cstring_word hline hocc hterm hw⟩
  rw [parsecmd, strlen_eq hline]
  simp only [ok_bind, hrun, hpeek]
  rw [if_neg (not_not.mpr hs'), hnul]
  rfl

theorem parsecmd_of_hasTree (hline : nul ∉ line) (ht : HasTree line t) (hn : 4 * line.length + 4 ≤ n) :
    ∃ buf, parsecmd n (line ++ [nul]) = .ok (t.cmd, buf) ∧ ∀ w ∈ t.words, cstring buf w.start = w.text := by
  obtain ⟨toks, hlex, hder⟩ := ht
  have hlen := hlex.length_le
  have hat : At line 0 (toks ++ []) := ⟨hline, Nat.zero_le _, by rwa [List.append_nil]⟩
  obtain ⟨s, hrun, hat'⟩ := parse_complete hder hat trivial (show 4 * toks.length + 4 ≤ n by omega)
  exact parsecmd_eq hline ⟨toks, hlex, hder⟩ hrun hat'

theorem parsecmd_cases (hline : nul ∉ line) (hn : 4 * line.length + 4 ≤ n) :
    (∃ msg, parsecmd n (line ++ [nul]) = .error (.panic msg)) ∨ ∃ t, HasTree line t := by
  obtain ⟨toks, hlex⟩ := Lexes.total 0 line
  have hlen := hlex.length_le
  have hfuel : fuelFor .line toks.length ≤ n := show 4 * toks.length + 4 ≤ n by omega
  obtain ⟨msg, hmsg⟩ | ⟨t, pre, rest, s, hrun, htoks, hder, hat⟩ := parse_cases ⟨hline, Nat.zero_le _, hlex⟩ hfuel
  · have hmsg' : parseline (line ++ [nul]) line.length n 0 = .error (.panic msg) := hmsg
    refine .inl ⟨msg, ?_⟩
    rw [parsecmd, strlen_eq hline]
    simp only [ok_bind, hmsg']
    rfl
  · have hrun' : parseline (line ++ [nul]) line.length n 0 = .ok (t.cmd, s) := hrun
    obtain ⟨s', hpeek, hat', hend⟩ := peek_spec [] rfl hat
    by_cases hnil : rest = []
    · rw [hnil, List.append_nil] at htoks
      exact .inr ⟨t, toks, hlex, htoks ▸ hder⟩
    · refine .inl ⟨"syntax", ?_⟩
      rw [parsecmd, strlen_eq hline]
      simp only [ok_bind, hrun', hpeek]
      exact if_pos fun h => hnil (hend.mp h)

/-- `parsecmd` returns a tree, or calls `panic`; it returns one when the grammar has one for the line,
which is then the tree returned, and its strings are the words of the line. -/
theorem parsecmd_spec (hline : nul ∉ line) (hn : 4 * line.length + 4 ≤ n) :
    ((∃ r, parsecmd n (line ++ [nul]) = .ok r) ∨ ∃ msg, parsecmd n (line ++ [nul]) = .error (.panic msg)) ∧
    ((∃ r, parsecmd n (line ++ [nul]) = .ok r) ↔ ∃ t, HasTree line t) ∧
    ∀ t, HasTree line t → ∃ buf, parsecmd n (line ++ [nul]) = .ok (t.cmd, buf) ∧
      ∀ w ∈ t.words, cstring buf w.start = w.text ∧ (line.drop w.start).take w.text.length = w.text := by
  have hok : ∀ t, HasTree line t → ∃ r, parsecmd n (line ++ [nul]) = .ok r := by
    intro t ht
    obtain ⟨buf, hrun, -⟩ := parsecmd_of_hasTree hline ht hn
    exact ⟨_, hrun⟩
  refine ⟨?_, ⟨fun hr => ?_, fun ⟨t, ht⟩ => hok t ht⟩, fun t ht => ?_⟩
  · obtain h | ⟨t, ht⟩ := parsecmd_cases hline hn
    · exact .inr h
    · exact .inl (hok t ht)
  · obtain ⟨r, hr⟩ := hr
    refine (parsecmd_cases hline hn).resolve_left ?_
    rintro ⟨msg, hmsg⟩
    rw [hmsg] at hr
    cases hr
  · obtain ⟨buf, hrun, hstrings⟩ := parsecmd_of_hasTree hline ht hn
    refine ⟨buf, hrun, fun w hw => ⟨hstrings w hw, ?_⟩⟩
    obtain ⟨before, after, rfl, hstart, -, -⟩ := ht.occurs w hw
    rw [hstart, Nat.zero_add, List.drop_left, List.take_left]

/-- The line `a>b`. -/
theorem hasTree_redirect :
    HasTree ['a', '>', 'b'] (.redir (.exec [⟨0, ['a']⟩]) ⟨.output, ⟨2, ['b']⟩⟩) := by
  have hb : Lexes 2 (['b'] ++ []) [.word ⟨2, ['b']⟩] :=
    .word (List.cons_ne_nil _ _) (List.forall_mem_singleton.mpr rfl) nofun .nil
  have ha : Lexes 0 (['a'] ++ ['>', 'b']) [.word ⟨0, ['a']⟩, .symbol '>', .word ⟨2, ['b']⟩] :=
    .word (List.cons_ne_nil _ _) (List.forall_mem_singleton.mpr rfl) (by rintro c ⟨⟩; rfl) (.greater (by decide) hb)
  exact ⟨_, ha, .line 0 (.exec (.args [] [(⟨0, ['a']⟩, [⟨.output, ⟨2, ['b']⟩⟩])] (by decide)))⟩

theorem parsecmd_spec_redirect : ∃ buf,
    parsecmd 16 ['a', '>', 'b', nul] = .ok ((Tree.redir (.exec [⟨0, ['a']⟩]) ⟨.output, ⟨2, ['b']⟩⟩).cmd, buf) ∧
      cstring buf 0 = ['a'] ∧ cstring buf 2 = ['b'] := by
  have hline : nul ∉ ['a', '>', 'b'] := by decide
  obtain ⟨-, -, h⟩ := parsecmd_spec (n := 16) hline (by decide)
  obtain ⟨buf, hrun, hstrings⟩ := h _ hasTree_redirect
  exact ⟨buf, hrun, (hstrings ⟨0, ['a']⟩ (by decide)).1, (hstrings ⟨2, ['b']⟩ (by decide)).1⟩

end OsSemester.Xv6.Shell
