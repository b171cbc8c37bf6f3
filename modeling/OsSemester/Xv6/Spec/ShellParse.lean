import OsSemester.Xv6.Spec.ShellGrammar

/-!
# The parser and the grammar (`sh.c`)

`parse_cases` says that the functions of the parser return a tree that the grammar derives or call
`panic`, and `parse_complete` that they return the tree of any derivation; what may follow decides
where a loop stops.
-/

namespace OsSemester.Xv6.Shell

/-- The function for a nonterminal. -/
def parse (buf : List Char) (es : ℕ) : Nonterminal → ℕ → ℕ → Except Fault (Cmd × ℕ)
  | .line => parseline buf es
  | .pipe => parsepipe buf es
  | .exec => parseexec buf es

/-- A depth of the calls that is enough for `k` tokens. -/
def fuelFor : Nonterminal → ℕ → ℕ
  | .line, k => 4 * k + 4
  | .pipe, k => 4 * k + 3
  | .exec, k => 4 * k + 2

variable {line : List Char} {s n : ℕ} {nt : Nonterminal} {toks pre rest : List Token} {t : Tree}

/-! ### What is parsed is derived -/

/-- A call of `panic`, or a tree for the tokens in front of the new cursor. -/
def Outcome (line : List Char) (nt : Nonterminal) (toks : List Token) (r : Except Fault (Cmd × ℕ)) : Prop :=
  (∃ msg, r = .error (.panic msg)) ∨
  ∃ t pre rest s', r = .ok (t.cmd, s') ∧ toks = pre ++ rest ∧ Derives nt pre t ∧ At line s' rest

/-- The outcome of a call in front of others. -/
theorem Outcome.bind {r : Except Fault (Cmd × ℕ)} {f : Cmd × ℕ → Except Fault (Cmd × ℕ)} {nt' : Nonterminal}
    {toks' : List Token} (h : Outcome line nt toks r) (hf : ∀ t pre rest s', toks = pre ++ rest →
      Derives nt pre t → At line s' rest → Outcome line nt' toks' (f (t.cmd, s'))) :
    Outcome line nt' toks' (r >>= f) := by
  obtain ⟨msg, rfl⟩ | ⟨t, pre, rest, s', rfl, htoks, hder, hat⟩ := h
  · exact .inl ⟨msg, rfl⟩
  · exact hf t pre rest s' htoks hder hat

theorem parseline_cases (ih : ∀ {nt s toks}, At line s toks → fuelFor nt toks.length ≤ n →
      Outcome line nt toks (parse (line ++ [nul]) line.length nt n s))
    (hat : At line s toks) (hn : fuelFor .line toks.length ≤ n + 1) :
    Outcome line .line toks (parseline (line ++ [nul]) line.length (n + 1) s) := by
  have hn' : 4 * toks.length + 4 ≤ n + 1 := hn
  have hpipe : fuelFor .pipe toks.length ≤ n := show 4 * toks.length + 3 ≤ n by omega
  rw [parseline]
  refine (ih hat hpipe).bind fun t pre rest s1 htoks hder hat1 => ?_
  have hrest : rest.length ≤ toks.length := by
    rw [htoks, List.length_append]
    omega
  obtain ⟨k, rest2, s2, hrun, hrest2, hat2⟩ := parseback_cases (n := n) hat1 (by omega) t
  obtain ⟨s3, hpeek, hat3, -⟩ := peek_spec [';'] (by decide) hat2
  simp only [hrun, ok_bind, hpeek]
  by_cases hb : startsWith [';'] rest2 = true
  · obtain ⟨rest3, rfl⟩ := startsWith_symbol (by decide) hb
    obtain ⟨_, _, s4, htok, hat4, -⟩ := gettoken_spec hat3
    rw [if_pos hb, htok]
    simp only [ok_bind]
    have hlen : rest3.length + 1 ≤ toks.length := by
      rw [hrest2, List.length_append, List.length_cons] at hrest
      omega
    have hline : fuelFor .line rest3.length ≤ n := show 4 * rest3.length + 4 ≤ n by omega
    refine (ih hat4 hline).bind fun u pre2 rest4 s5 hrest3 hder2 hat5 => ?_
    refine .inr ⟨_, _, rest4, s5, rfl, ?_, .list k hder hder2, hat5⟩
    rw [htoks, hrest2, hrest3]
    simp only [List.append_assoc, List.cons_append]
  · rw [if_neg hb]
    refine .inr ⟨_, _, rest2, s3, rfl, ?_, .line k hder, hat3⟩
    rw [htoks, hrest2, List.append_assoc]

theorem parsepipe_cases (ih : ∀ {nt s toks}, At line s toks → fuelFor nt toks.length ≤ n →
      Outcome line nt toks (parse (line ++ [nul]) line.length nt n s))
    (hat : At line s toks) (hn : fuelFor .pipe toks.length ≤ n + 1) :
    Outcome line .pipe toks (parsepipe (line ++ [nul]) line.length (n + 1) s) := by
  have hn' : 4 * toks.length + 3 ≤ n + 1 := hn
  have hexec : fuelFor .exec toks.length ≤ n := show 4 * toks.length + 2 ≤ n by omega
  rw [parsepipe]
  refine (ih hat hexec).bind fun t pre rest s1 htoks hder hat1 => ?_
  obtain ⟨s2, hpeek, hat2, -⟩ := peek_spec ['|'] (by decide) hat1
  simp only [hpeek, ok_bind]
  by_cases hb : startsWith ['|'] rest = true
  · obtain ⟨rest2, rfl⟩ := startsWith_symbol (by decide) hb
    obtain ⟨_, _, s3, htok, hat3, -⟩ := gettoken_spec hat2
    rw [if_pos hb, htok]
    simp only [ok_bind]
    have hlen : rest2.length + 1 ≤ toks.length := by
      rw [htoks, List.length_append, List.length_cons]
      omega
    have hpipe : fuelFor .pipe rest2.length ≤ n := show 4 * rest2.length + 3 ≤ n by omega
    refine (ih hat3 hpipe).bind fun u pre2 rest3 s4 hrest2 hder2 hat4 => ?_
    refine .inr ⟨_, _, rest3, s4, rfl, ?_, .pipe hder hder2, hat4⟩
    rw [htoks, hrest2]
    simp only [List.append_assoc, List.cons_append]
  · rw [if_neg hb]
    exact .inr ⟨t, pre, rest, s2, rfl, htoks, .exec hder, hat2⟩

theorem parseblock_cases (ih : ∀ {nt s toks}, At line s toks → fuelFor nt toks.length ≤ n →
      Outcome line nt toks (parse (line ++ [nul]) line.length nt n s))
    (hat : At line s (.symbol '(' :: toks)) (hn : 4 * toks.length + 4 ≤ n) :
    Outcome line .exec (.symbol '(' :: toks) (parseblock (line ++ [nul]) line.length (n + 1) s) := by
  obtain ⟨s1, hpeek, hat1, -⟩ := peek_spec ['('] (by decide) hat
  obtain ⟨_, _, s2, htok, hat2, -⟩ := gettoken_spec hat1
  have hb : startsWith ['('] (.symbol '(' :: toks) = true := rfl
  rw [parseblock, hpeek]
  simp only [ok_bind]
  rw [if_neg (not_not.mpr hb), htok]
  simp only [ok_bind]
  have hline : fuelFor .line toks.length ≤ n := hn
  refine (ih hat2 hline).bind fun t pre rest s3 htoks hder hat3 => ?_
  obtain ⟨s4, hpeek', hat4, -⟩ := peek_spec [')'] (by decide) hat3
  simp only [hpeek', ok_bind]
  by_cases hb' : startsWith [')'] rest = true
  · obtain ⟨rest2, rfl⟩ := startsWith_symbol (by decide) hb'
    obtain ⟨_, _, s5, htok', hat5, -⟩ := gettoken_spec hat4
    rw [if_neg (not_not.mpr hb'), htok']
    simp only [ok_bind]
    have hlen : rest2.length < n := by
      rw [htoks, List.length_append, List.length_cons] at hn
      omega
    obtain h | ⟨rs, rest3, s6, hrun, hrest2, hat6⟩ := parseredirs_cases hat5 hlen t
    · exact .inl h
    · rw [hrun]
      refine .inr ⟨_, _, rest3, s6, rfl, ?_, .block rs hder, hat6⟩
      rw [htoks, hrest2]
      simp only [List.append_assoc, List.cons_append]
  · exact .inl ⟨_, if_pos hb'⟩

theorem parseexec_cases (ih : ∀ m < n, ∀ {nt s toks}, At line s toks → fuelFor nt toks.length ≤ m →
      Outcome line nt toks (parse (line ++ [nul]) line.length nt m s))
    (hat : At line s toks) (hn : fuelFor .exec toks.length ≤ n) :
    Outcome line .exec toks (parseexec (line ++ [nul]) line.length n s) := by
  have hn' : 4 * toks.length + 2 ≤ n := hn
  obtain ⟨m, rfl⟩ : ∃ m, n = m + 2 := ⟨n - 2, by omega⟩
  obtain ⟨s1, hpeek, hat1, -⟩ := peek_spec ['('] (by decide) hat
  rw [parseexec, hpeek]
  simp only [ok_bind]
  by_cases hb : startsWith ['('] toks = true
  · obtain ⟨rest, rfl⟩ := startsWith_symbol (by decide) hb
    rw [if_pos hb]
    rw [List.length_cons] at hn'
    exact parseblock_cases (ih m (by omega)) hat1 (by omega)
  · rw [if_neg hb]
    obtain ⟨msg, hmsg⟩ | ⟨rs, rest, s2, hrun, hrest, hat2⟩ := parseredirs_cases (n := m + 1) hat1 (by omega) (.exec [])
    · have hmsg' : parseredirs (line ++ [nul]) line.length (m + 1) execcmd s1 = .error (.panic msg) := hmsg
      rw [hmsg']
      exact .inl ⟨msg, rfl⟩
    have hrun' : parseredirs (line ++ [nul]) line.length (m + 1) execcmd s1 = .ok (((Tree.exec []).redirs rs).cmd, s2) :=
      hrun
    have hlen : rest.length < m + 1 := by
      rw [hrest, List.length_append] at hn'
      omega
    rw [hrun']
    simp only [ok_bind]
    obtain ⟨msg, hmsg⟩ | ⟨args, rest2, s3, hargs, hcount, hrest2, hat3⟩ := parseargs_cases [] rs hat2
      hlen (by decide)
    · have hmsg' : parseargs (line ++ [nul]) line.length (m + 1) 0 ((Tree.exec []).redirs rs).cmd s2 =
          .error (.panic msg) := hmsg
      rw [hmsg']
      exact .inl ⟨msg, rfl⟩
    have hargs' : parseargs (line ++ [nul]) line.length (m + 1) 0 ((Tree.exec []).redirs rs).cmd s2 = _ := hargs
    rw [List.length_nil, Nat.zero_add] at hcount
    have hset := setArg_none (args.map Prod.fst) (by rwa [List.length_map])
    rw [List.length_map] at hset
    rw [hargs', List.length_nil, Nat.zero_add, List.nil_append]
    simp only [ok_bind]
    rw [setArg_redirs hset]
    refine .inr ⟨_, _, rest2, s3, rfl, ?_, .args rs args hcount, hat3⟩
    rw [hrest, hrest2, List.append_assoc]

/-- With fuel for the tokens, the parser returns a tree or calls `panic`. -/
theorem parse_cases (hat : At line s toks) (hn : fuelFor nt toks.length ≤ n) :
    Outcome line nt toks (parse (line ++ [nul]) line.length nt n s) := by
  induction n using Nat.strongRecOn generalizing nt s toks with
  | ind n ih =>
  match nt, n, hn with
  | .line, n + 1, hn => exact parseline_cases (fun hat hn => ih n (Nat.lt_succ_self n) hat hn) hat hn
  | .pipe, n + 1, hn => exact parsepipe_cases (fun hat hn => ih n (Nat.lt_succ_self n) hat hn) hat hn
  | .exec, n, hn => exact parseexec_cases (fun m hm _ _ _ hat hn => ih m hm hat hn) hat hn

/-! ### What is derived is parsed -/

/-- The symbols that may come behind a nonterminal. -/
def follow : Nonterminal → List Char
  | .line => [')']
  | .pipe => ['&', ';', ')']
  | .exec => ['|', '&', ';', ')']

/-- The tokens behind a nonterminal. -/
def Follows (nt : Nonterminal) : List Token → Prop
  | [] => True
  | tok :: _ => ∃ c ∈ follow nt, tok = .symbol c

theorem Follows.startsWith_false {chars : List Char} (h : Follows nt rest)
    (hchars : (follow nt).all fun c => !strchr chars c) :
    startsWith chars rest = false := by
  match rest with
  | [] => rfl
  | tok :: rest =>
    obtain ⟨c, hc, rfl⟩ := h
    have hc' := List.all_eq_true.mp hchars c hc
    rwa [Bool.not_eq_true'] at hc'

theorem Follows.mono {nt' : Nonterminal} (h : Follows nt rest) (hsub : (follow nt).all (strchr (follow nt'))) :
    Follows nt' rest := by
  match rest with
  | [] => trivial
  | tok :: rest =>
    obtain ⟨c, hc, rfl⟩ := h
    exact ⟨c, of_decide_eq_true (List.all_eq_true.mp hsub c hc), rfl⟩

theorem follows_replicate {k : ℕ} (h : Follows .pipe rest) :
    Follows .pipe (List.replicate k (.symbol '&') ++ rest) := by
  cases k with
  | zero => exact h
  | succ k => exact ⟨'&', by decide, rfl⟩

/-- The head of the tokens that an `exec` of words begins with. -/
theorem startsWith_args {rs : List Redir} {args : List (Word × List Redir)} (h : Follows .exec rest) :
    startsWith ['('] (redirTokens rs ++ (argTokens args ++ rest)) = false := by
  match rs, args with
  | r :: _, _ =>
    obtain ⟨op, w⟩ := r
    cases op <;> rfl
  | [], _ :: _ => rfl
  | [], [] => exact h.startsWith_false (by decide)

theorem startsWith_redirs {args : List (Word × List Redir)} (h : Follows .exec rest) :
    startsWith ['<', '>'] (argTokens args ++ rest) = false := by
  cases args with
  | nil => exact h.startsWith_false (by decide)
  | cons _ _ => rfl

theorem Follows.stop (h : Follows .exec rest) : startsWith ['|', ')', '&', ';'] rest = true ∨ rest = [] := by
  match rest with
  | [] => exact .inr rfl
  | tok :: rest =>
    obtain ⟨c, hc, rfl⟩ := h
    have hall : (follow .exec).all (strchr ['|', ')', '&', ';']) := by decide
    exact .inl (List.all_eq_true.mp hall c hc)

/-- The parser returns the tree `t` for the tokens `pre`, whatever follows. -/
def Complete (line : List Char) (nt : Nonterminal) (pre : List Token) (t : Tree) : Prop :=
  ∀ {rest : List Token} {s n : ℕ}, At line s (pre ++ rest) → Follows nt rest → fuelFor nt pre.length ≤ n →
    ∃ s', parse (line ++ [nul]) line.length nt n s = .ok (t.cmd, s') ∧ At line s' rest

section

variable {p l e : List Token} {u : Tree}

/-- The beginning of a line, up to what comes behind its `&`s. -/
theorem Complete.backs {k : ℕ} (h : Complete line .pipe p t)
    (hat : At line s (p ++ (List.replicate k (.symbol '&') ++ rest))) (hfollow : Follows .pipe rest)
    (hamp : startsWith ['&'] rest = false) (hn : 4 * p.length + 3 ≤ n) (hk : k < n) :
    ∃ s1 s2, parsepipe (line ++ [nul]) line.length n s = .ok (t.cmd, s1) ∧
      parseback (line ++ [nul]) line.length n t.cmd s1 = .ok ((t.backs k).cmd, s2) ∧ At line s2 rest := by
  obtain ⟨s1, hrun, hat1⟩ := h hat (follows_replicate hfollow) hn
  obtain ⟨s2, hback, hat2⟩ := parseback_complete hat1 hamp hk t
  exact ⟨s1, s2, hrun, hback, hat2⟩

theorem complete_line (k : ℕ) (h : Complete line .pipe p t) :
    Complete line .line (p ++ List.replicate k (.symbol '&')) (t.backs k) := by
  intro rest s n hat hfollow hn
  have hlen : (p ++ List.replicate k (Token.symbol '&')).length = p.length + k := by
    rw [List.length_append, List.length_replicate]
  rw [hlen] at hn
  have hn' : 4 * (p.length + k) + 4 ≤ n := hn
  obtain ⟨m, rfl⟩ : ∃ m, n = m + 1 := ⟨n - 1, by omega⟩
  rw [List.append_assoc] at hat
  obtain ⟨s1, s2, hrun, hback, hat2⟩ := h.backs (n := m) hat (hfollow.mono (by decide))
    (hfollow.startsWith_false (by decide)) (by omega) (by omega)
  obtain ⟨s3, hpeek, hat3, -⟩ := peek_spec [';'] (by decide) hat2
  refine ⟨s3, ?_, hat3⟩
  show parseline _ _ (m + 1) s = _
  rw [parseline, hrun]
  simp only [ok_bind, hback, hpeek]
  exact if_neg (by rw [hfollow.startsWith_false (by decide)]; exact Bool.false_ne_true)

theorem complete_list (k : ℕ) (h : Complete line .pipe p t) (h' : Complete line .line l u) :
    Complete line .line (p ++ List.replicate k (.symbol '&') ++ .symbol ';' :: l) (.list (t.backs k) u) := by
  intro rest s n hat hfollow hn
  have hlen : (p ++ List.replicate k (Token.symbol '&') ++ .symbol ';' :: l).length =
      p.length + k + (l.length + 1) := by
    rw [List.length_append, List.length_append, List.length_replicate, List.length_cons]
  rw [hlen] at hn
  have hn' : 4 * (p.length + k + (l.length + 1)) + 4 ≤ n := hn
  obtain ⟨m, rfl⟩ : ∃ m, n = m + 1 := ⟨n - 1, by omega⟩
  rw [List.append_assoc, List.append_assoc, List.cons_append] at hat
  have hsemi : Follows .pipe (.symbol ';' :: (l ++ rest)) := ⟨';', by decide, rfl⟩
  obtain ⟨s1, s2, hrun, hback, hat2⟩ := h.backs (n := m) hat hsemi rfl (by omega) (by omega)
  obtain ⟨s3, hpeek, hat3, -⟩ := peek_spec [';'] (by decide) hat2
  obtain ⟨_, _, s4, htok, hat4, -⟩ := gettoken_spec hat3
  obtain ⟨s5, hrun2, hat5⟩ := h' (n := m) hat4 hfollow (show 4 * l.length + 4 ≤ m by omega)
  have hrun2' : parseline (line ++ [nul]) line.length m s4 = .ok (u.cmd, s5) := hrun2
  have hb : startsWith [';'] (.symbol ';' :: (l ++ rest)) = true := rfl
  refine ⟨s5, ?_, hat5⟩
  show parseline _ _ (m + 1) s = _
  rw [parseline, hrun]
  simp only [ok_bind, hback, hpeek]
  rw [if_pos hb, htok]
  simp only [ok_bind]
  rw [hrun2']
  rfl

theorem complete_exec (h : Complete line .exec e t) : Complete line .pipe e t := by
  intro rest s n hat hfollow hn
  have hn' : 4 * e.length + 3 ≤ n := hn
  obtain ⟨m, rfl⟩ : ∃ m, n = m + 1 := ⟨n - 1, by omega⟩
  obtain ⟨s1, hrun, hat1⟩ := h (n := m) hat (hfollow.mono (by decide)) (show 4 * e.length + 2 ≤ m by omega)
  have hrun' : parseexec (line ++ [nul]) line.length m s = .ok (t.cmd, s1) := hrun
  obtain ⟨s2, hpeek, hat2, -⟩ := peek_spec ['|'] (by decide) hat1
  refine ⟨s2, ?_, hat2⟩
  show parsepipe _ _ (m + 1) s = _
  rw [parsepipe, hrun']
  simp only [ok_bind, hpeek]
  exact if_neg (by rw [hfollow.startsWith_false (by decide)]; exact Bool.false_ne_true)

theorem complete_pipe (h : Complete line .exec e t) (h' : Complete line .pipe p u) :
    Complete line .pipe (e ++ .symbol '|' :: p) (.pipe t u) := by
  intro rest s n hat hfollow hn
  rw [List.length_append, List.length_cons] at hn
  have hn' : 4 * (e.length + (p.length + 1)) + 3 ≤ n := hn
  obtain ⟨m, rfl⟩ : ∃ m, n = m + 1 := ⟨n - 1, by omega⟩
  rw [List.append_assoc, List.cons_append] at hat
  have hbar : Follows .exec (.symbol '|' :: (p ++ rest)) := ⟨'|', by decide, rfl⟩
  obtain ⟨s1, hrun, hat1⟩ := h (n := m) hat hbar (show 4 * e.length + 2 ≤ m by omega)
  have hrun' : parseexec (line ++ [nul]) line.length m s = .ok (t.cmd, s1) := hrun
  obtain ⟨s2, hpeek, hat2, -⟩ := peek_spec ['|'] (by decide) hat1
  obtain ⟨_, _, s3, htok, hat3, -⟩ := gettoken_spec hat2
  obtain ⟨s4, hrun2, hat4⟩ := h' (n := m) hat3 hfollow (show 4 * p.length + 3 ≤ m by omega)
  have hrun2' : parsepipe (line ++ [nul]) line.length m s3 = .ok (u.cmd, s4) := hrun2
  have hb : startsWith ['|'] (.symbol '|' :: (p ++ rest)) = true := rfl
  refine ⟨s4, ?_, hat4⟩
  show parsepipe _ _ (m + 1) s = _
  rw [parsepipe, hrun']
  simp only [ok_bind, hpeek]
  rw [if_pos hb, htok]
  simp only [ok_bind]
  rw [hrun2']
  rfl

theorem complete_args (rs : List Redir) (args : List (Word × List Redir)) (hcount : args.length < MAXARGS) :
    Complete line .exec (redirTokens rs ++ argTokens args)
      ((Tree.exec (args.map Prod.fst)).redirs (rs ++ args.flatMap Prod.snd)) := by
  intro rest s n hat hfollow hn
  rw [List.length_append] at hn
  have hn' : 4 * ((redirTokens rs).length + (argTokens args).length) + 2 ≤ n := hn
  obtain ⟨m, rfl⟩ : ∃ m, n = m + 1 := ⟨n - 1, by omega⟩
  rw [List.append_assoc] at hat
  obtain ⟨s1, hpeek, hat1, -⟩ := peek_spec ['('] (by decide) hat
  obtain ⟨s2, hrun, hat2⟩ := parseredirs_complete (n := m) hat1 (startsWith_redirs hfollow) (by omega) (.exec [])
  have hrun' : parseredirs (line ++ [nul]) line.length m execcmd s1 = .ok (((Tree.exec []).redirs rs).cmd, s2) := hrun
  obtain ⟨s3, hargs, hat3⟩ := parseargs_complete (n := m) [] rs hat2 hfollow.stop (by omega)
    (by rwa [List.length_nil, Nat.zero_add])
  rw [List.length_nil, Nat.zero_add, List.nil_append] at hargs
  have hset := setArg_none (args.map Prod.fst) (by rwa [List.length_map])
  rw [List.length_map] at hset
  refine ⟨s3, ?_, hat3⟩
  show parseexec _ _ (m + 1) s = _
  rw [parseexec, hpeek]
  simp only [ok_bind]
  rw [if_neg (by rw [startsWith_args hfollow]; exact Bool.false_ne_true), hrun']
  simp only [ok_bind]
  rw [hargs]
  simp only [ok_bind]
  rw [setArg_redirs hset]
  rfl

theorem complete_block (rs : List Redir) (h : Complete line .line l t) :
    Complete line .exec (.symbol '(' :: (l ++ .symbol ')' :: redirTokens rs)) (t.redirs rs) := by
  intro rest s n hat hfollow hn
  rw [List.length_cons, List.length_append, List.length_cons] at hn
  have hn' : 4 * (l.length + ((redirTokens rs).length + 1) + 1) + 2 ≤ n := hn
  obtain ⟨m, rfl⟩ : ∃ m, n = m + 2 := ⟨n - 2, by omega⟩
  rw [List.cons_append, List.append_assoc, List.cons_append] at hat
  obtain ⟨s0, hpeek0, hat0, -⟩ := peek_spec ['('] (by decide) hat
  obtain ⟨s1, hpeek, hat1, -⟩ := peek_spec ['('] (by decide) hat0
  obtain ⟨_, _, s2, htok, hat2, -⟩ := gettoken_spec hat1
  obtain ⟨s3, hrun, hat3⟩ := h (n := m) hat2 ⟨')', by decide, rfl⟩ (show 4 * l.length + 4 ≤ m by omega)
  have hrun' : parseline (line ++ [nul]) line.length m s2 = .ok (t.cmd, s3) := hrun
  obtain ⟨s4, hpeek', hat4, -⟩ := peek_spec [')'] (by decide) hat3
  obtain ⟨_, _, s5, htok', hat5, -⟩ := gettoken_spec hat4
  obtain ⟨s6, hredirs, hat6⟩ := parseredirs_complete (n := m) hat5 (hfollow.startsWith_false (by decide)) (by omega) t
  have hb : startsWith ['('] (.symbol '(' :: (l ++ .symbol ')' :: (redirTokens rs ++ rest))) = true := rfl
  have hb' : startsWith [')'] (.symbol ')' :: (redirTokens rs ++ rest)) = true := rfl
  refine ⟨s6, ?_, hat6⟩
  show parseexec _ _ (m + 2) s = _
  rw [parseexec, hpeek0]
  simp only [ok_bind]
  rw [if_pos hb, parseblock, hpeek]
  simp only [ok_bind]
  rw [if_neg (not_not.mpr hb), htok]
  simp only [ok_bind]
  rw [hrun']
  simp only [ok_bind, hpeek']
  rw [if_neg (not_not.mpr hb'), htok']
  simp only [ok_bind]
  exact hredirs

end

/-- The parser returns the tree of a derivation. -/
theorem parse_complete (h : Derives nt pre t) : Complete line nt pre t := by
  induction h with
  | line k _ ih => exact complete_line k ih
  | list k _ _ ih ih' => exact complete_list k ih ih'
  | exec _ ih => exact complete_exec ih
  | pipe _ _ ih ih' => exact complete_pipe ih ih'
  | args rs args hcount => exact complete_args rs args hcount
  | block rs _ ih => exact complete_block rs ih

end OsSemester.Xv6.Shell
