import OsSemester.Xv6.Spec.ShellTokens

/-!
# The grammar of command lines (`sh.c`)

`Derives` is the grammar over tokens, with the tree of each derivation.  The lemmas about the loops of
the parser say what they do with the tokens in front of the cursor, once for any tokens (a result or a
call of `panic`) and once for tokens that the grammar has there.
-/

namespace OsSemester.Xv6.Shell

/-! ### Trees -/

inductive RedirOp
  | input
  | output
  | append

namespace RedirOp

def token : RedirOp → Token
  | input => .symbol '<'
  | output => .symbol '>'
  | append => .append

/-- The `mode` of the node. -/
def mode : RedirOp → ℕ
  | input => O_RDONLY
  | output => O_WRONLY ||| O_CREATE
  | append => O_WRONLY ||| O_CREATE

/-- The `fd` of the node. -/
def fd : RedirOp → ℕ
  | input => 0
  | output => 1
  | append => 1

end RedirOp

/-- `(< or > or >>) word` -/
structure Redir where
  op : RedirOp
  file : Word

/-- The trees of command lines. -/
inductive Tree
  | exec (words : List Word)
  | redir (t : Tree) (r : Redir)
  | pipe (left right : Tree)
  | list (left right : Tree)
  | back (t : Tree)

namespace Tree

/-- The nodes that the parser builds. -/
def cmd : Tree → Cmd
  | exec words => .exec (fun i => words[(i : ℕ)]?.map Word.start) fun i => words[(i : ℕ)]?.map Word.stop
  | redir t r => .redir t.cmd r.file.start r.file.stop r.op.mode r.op.fd
  | pipe left right => .pipe left.cmd right.cmd
  | list left right => .list left.cmd right.cmd
  | back t => .back t.cmd

/-- The words of the line that the tree refers to. -/
def words : Tree → List Word
  | exec ws => ws
  | redir t r => t.words ++ [r.file]
  | pipe left right => left.words ++ right.words
  | list left right => left.words ++ right.words
  | back t => t.words

/-- A tree with redirections around it, the first of them innermost. -/
def redirs (t : Tree) (rs : List Redir) : Tree := rs.foldl redir t

/-- A tree with a `&` for each time. -/
def backs (k : ℕ) (t : Tree) : Tree := back^[k] t

end Tree

/-! ### The grammar -/

/-- `{(< or > or >>) word}` -/
def redirTokens (rs : List Redir) : List Token := rs.flatMap fun r => [r.op.token, .word r.file]

/-- `{word redirs}` -/
def argTokens (args : List (Word × List Redir)) : List Token :=
  args.flatMap fun a => .word a.1 :: redirTokens a.2

inductive Nonterminal
  | line
  | pipe
  | exec

/-- The tokens that a nonterminal derives, and their tree. -/
inductive Derives : Nonterminal → List Token → Tree → Prop
  /-- `line ::= pipe {&}` -/
  | line {p : List Token} {t : Tree} (k : ℕ) : Derives .pipe p t →
    Derives .line (p ++ List.replicate k (.symbol '&')) (t.backs k)
  /-- `line ::= pipe {&} ; line` -/
  | list {p l : List Token} {t u : Tree} (k : ℕ) : Derives .pipe p t → Derives .line l u →
    Derives .line (p ++ List.replicate k (.symbol '&') ++ .symbol ';' :: l) (.list (t.backs k) u)
  /-- `pipe ::= exec` -/
  | exec {e : List Token} {t : Tree} : Derives .exec e t → Derives .pipe e t
  /-- `pipe ::= exec | pipe` -/
  | pipe {e p : List Token} {t u : Tree} : Derives .exec e t → Derives .pipe p u →
    Derives .pipe (e ++ .symbol '|' :: p) (.pipe t u)
  /-- `exec ::= redirs {word redirs}` -/
  | args (rs : List Redir) (args : List (Word × List Redir)) : args.length < MAXARGS →
    Derives .exec (redirTokens rs ++ argTokens args)
      ((Tree.exec (args.map Prod.fst)).redirs (rs ++ args.flatMap Prod.snd))
  /-- `exec ::= ( line ) redirs` -/
  | block {l : List Token} {t : Tree} (rs : List Redir) : Derives .line l t →
    Derives .exec (.symbol '(' :: (l ++ .symbol ')' :: redirTokens rs)) (t.redirs rs)

/-! ### Nodes -/

/-- Only the executed node behind redirections is changed by `setArg`. -/
theorem setArg_redirs {argc : ℕ} {q eq : Option ℕ} {t u : Tree} (h : t.cmd.setArg argc q eq = .ok u.cmd)
    (rs : List Redir) : (t.redirs rs).cmd.setArg argc q eq = .ok (u.redirs rs).cmd := by
  induction rs using List.reverseRecOn with
  | nil => exact h
  | append_singleton rs r ih =>
    rw [Tree.redirs, Tree.redirs, List.foldl_append, List.foldl_append]
    show (do
      let cmd ← (t.redirs rs).cmd.setArg argc q eq
      return Cmd.redir cmd r.file.start r.file.stop r.op.mode r.op.fd) = _
    rw [ih]
    rfl

theorem setArg_word {ws : List Word} (w : Word) (hlen : ws.length < MAXARGS) :
    (Tree.exec ws).cmd.setArg ws.length w.start w.stop = .ok (Tree.exec (ws ++ [w])).cmd := by
  have hupdate : ∀ f : Word → ℕ, Function.update (fun i : Fin MAXARGS => ws[(i : ℕ)]?.map f) ⟨ws.length, hlen⟩
      (some (f w)) = fun i : Fin MAXARGS => (ws ++ [w])[(i : ℕ)]?.map f := by
    intro f
    funext i
    by_cases hi : i = ⟨ws.length, hlen⟩
    · rw [hi, Function.update_self, List.getElem?_concat_length]
      rfl
    · have hne : (i : ℕ) ≠ ws.length := fun h => hi (Fin.ext h)
      rw [Function.update_of_ne hi]
      obtain hlt | hge := Nat.lt_or_ge (i : ℕ) ws.length
      · rw [List.getElem?_append_left hlt]
      · rw [List.getElem?_eq_none hge, List.getElem?_eq_none]
        rw [List.length_append, List.length_singleton]
        omega
  rw [Tree.cmd, Cmd.setArg, dif_pos hlen]
  show Except.ok (Cmd.exec (Function.update _ _ (some w.start)) (Function.update _ _ (some w.stop))) = _
  rw [hupdate, hupdate]
  rfl

/-- The null pointers at the end of `argv` and `eargv` are there already. -/
theorem setArg_none (ws : List Word) (hlen : ws.length < MAXARGS) :
    (Tree.exec ws).cmd.setArg ws.length none none = .ok (Tree.exec ws).cmd := by
  have hupdate : ∀ f : Word → ℕ, Function.update (fun i : Fin MAXARGS => ws[(i : ℕ)]?.map f) ⟨ws.length, hlen⟩
      none = fun i : Fin MAXARGS => ws[(i : ℕ)]?.map f := by
    intro f
    refine Function.update_eq_self_iff.mpr ?_
    show none = ws[ws.length]?.map f
    rw [List.getElem?_eq_none le_rfl]
    rfl
  rw [Tree.cmd, Cmd.setArg, dif_pos hlen, hupdate, hupdate]

theorem redirOf_code (t : Tree) (r : Redir) :
    redirOf t.cmd r.file.start r.file.stop r.op.token.code = (Tree.redir t r).cmd := by
  obtain ⟨op, file⟩ := r
  cases op <;> rfl

/-! ### The first token -/

variable {chars : List Char} {c : Char} {toks rest : List Token}

theorem startsWith_symbol (hc : c ≠ '>') (h : startsWith [c] toks = true) : ∃ rest, toks = .symbol c :: rest := by
  match toks with
  | .symbol d :: rest =>
    have hd : d = c := List.mem_singleton.mp (of_decide_eq_true h)
    exact ⟨rest, by rw [hd]⟩
  | .append :: rest => exact absurd (List.mem_singleton.mp (of_decide_eq_true h)).symm hc

theorem startsWith_redir (h : startsWith ['<', '>'] toks = true) : ∃ op rest, toks = RedirOp.token op :: rest := by
  match toks with
  | .symbol d :: rest =>
    have hd : d ∈ ['<', '>'] := of_decide_eq_true h
    rw [List.mem_cons, List.mem_singleton] at hd
    obtain rfl | rfl := hd
    · exact ⟨.input, rest, rfl⟩
    · exact ⟨.output, rest, rfl⟩
  | .append :: rest => exact ⟨.append, rest, rfl⟩

/-- A token that ends a list of arguments is no redirection. -/
theorem startsWith_false (h : startsWith ['|', ')', '&', ';'] toks = true) : startsWith ['<', '>'] toks = false := by
  match toks with
  | .symbol d :: rest =>
    have hd : d ∈ ['|', ')', '&', ';'] := of_decide_eq_true h
    refine decide_eq_false fun hd' => ?_
    simp only [List.mem_cons, List.not_mem_nil, or_false] at hd hd'
    obtain rfl | rfl := hd'
    · exact absurd hd (by decide)
    · exact absurd hd (by decide)
  | .append :: rest =>
    have hd : '>' ∈ ['|', ')', '&', ';'] := of_decide_eq_true h
    exact absurd hd (by decide)

theorem RedirOp.startsWith (op : RedirOp) : startsWith ['<', '>'] (op.token :: rest) = true := by
  cases op <;> rfl

/-! ### The loops -/

theorem ok_bind {α β : Type} (a : α) (f : α → Except Fault β) : (Except.ok a >>= f) = f a := rfl

section

variable {line : List Char} {s n : ℕ}

/-- `{(< or > or >>) word}`, or a token that is no word in place of the file. -/
theorem parseredirs_cases (hat : At line s toks) (hn : toks.length < n) (t : Tree) :
    (∃ msg, parseredirs (line ++ [nul]) line.length n t.cmd s = .error (.panic msg)) ∨
    ∃ rs rest s', parseredirs (line ++ [nul]) line.length n t.cmd s = .ok ((t.redirs rs).cmd, s') ∧
      toks = redirTokens rs ++ rest ∧ At line s' rest := by
  induction n generalizing s toks t with
  | zero => exact absurd hn (Nat.not_lt_zero _)
  | succ n ih =>
    obtain ⟨s1, hpeek, hat1, -⟩ := peek_spec ['<', '>'] (by decide) hat
    rw [parseredirs, hpeek]
    simp only [ok_bind]
    by_cases hb : startsWith ['<', '>'] toks = true
    · obtain ⟨op, rest1, rfl⟩ := startsWith_redir hb
      obtain ⟨_, _, s2, htok, hat2, -⟩ := gettoken_spec hat1
      rw [if_pos hb, htok]
      simp only [ok_bind]
      match rest1, hat2, hn with
      | [], hat2, hn =>
        refine .inl ⟨"missing file for redirection", ?_⟩
        rw [gettoken_nil hat2]
        simp only [ok_bind]
        exact if_pos (by decide)
      | tok :: rest, hat2, hn =>
        obtain ⟨q, eq, s3, htok', hat3, hvalid, hword⟩ := gettoken_spec hat2
        rw [htok']
        simp only [ok_bind]
        by_cases ha : tok.code = 'a'
        · obtain ⟨w, rfl⟩ := hvalid.code_eq_a.mp ha
          obtain ⟨rfl, rfl⟩ := hword w rfl
          rw [if_neg (not_not.mpr ha), redirOf_code t ⟨op, w⟩]
          obtain h | ⟨rs, rest', s', hrun, hrest, hat'⟩ := ih hat3 (by
            rw [List.length_cons, List.length_cons] at hn
            omega) (.redir t ⟨op, w⟩)
          · exact .inl h
          · refine .inr ⟨⟨op, w⟩ :: rs, rest', s', hrun, ?_, hat'⟩
            rw [hrest]
            rfl
        · exact .inl ⟨_, if_pos ha⟩
    · rw [if_neg hb]
      exact .inr ⟨[], toks, s1, rfl, rfl, hat1⟩

theorem parseredirs_complete {rs : List Redir} (hat : At line s (redirTokens rs ++ rest))
    (hend : startsWith ['<', '>'] rest = false) (hn : (redirTokens rs).length < n) (t : Tree) :
    ∃ s', parseredirs (line ++ [nul]) line.length n t.cmd s = .ok ((t.redirs rs).cmd, s') ∧ At line s' rest := by
  induction rs generalizing s n t with
  | nil =>
    obtain ⟨n, rfl⟩ := Nat.exists_eq_succ_of_ne_zero (Nat.ne_zero_of_lt hn)
    obtain ⟨s1, hpeek, hat1, -⟩ := peek_spec ['<', '>'] (by decide) hat
    rw [parseredirs, hpeek]
    simp only [ok_bind]
    exact ⟨s1, if_neg (by rw [redirTokens, List.flatMap_nil, List.nil_append, hend]; exact Bool.false_ne_true), hat1⟩
  | cons r rs ih =>
    obtain ⟨n, rfl⟩ := Nat.exists_eq_succ_of_ne_zero (Nat.ne_zero_of_lt hn)
    have hcons : redirTokens (r :: rs) ++ rest = r.op.token :: .word r.file :: (redirTokens rs ++ rest) := rfl
    rw [hcons] at hat
    obtain ⟨s1, hpeek, hat1, -⟩ := peek_spec ['<', '>'] (by decide) hat
    obtain ⟨_, _, s2, htok, hat2, -⟩ := gettoken_spec hat1
    obtain ⟨q, eq, s3, htok', hat3, -, hword⟩ := gettoken_spec hat2
    obtain ⟨rfl, rfl⟩ := hword r.file rfl
    rw [parseredirs, hpeek]
    simp only [ok_bind]
    rw [if_pos r.op.startsWith, htok]
    simp only [ok_bind]
    rw [htok']
    simp only [ok_bind]
    rw [if_neg (show ¬Token.code (.word r.file) ≠ 'a' from not_not.mpr rfl), redirOf_code]
    have hlen : (redirTokens (r :: rs)).length = (redirTokens rs).length + 2 := rfl
    exact ih hat3 (by omega) _

/-- `{&}` -/
theorem parseback_cases (hat : At line s toks) (hn : toks.length < n) (t : Tree) :
    ∃ k rest s', parseback (line ++ [nul]) line.length n t.cmd s = .ok ((t.backs k).cmd, s') ∧
      toks = List.replicate k (.symbol '&') ++ rest ∧ At line s' rest := by
  induction n generalizing s toks t with
  | zero => exact absurd hn (Nat.not_lt_zero _)
  | succ n ih =>
    obtain ⟨s1, hpeek, hat1, -⟩ := peek_spec ['&'] (by decide) hat
    rw [parseback, hpeek]
    simp only [ok_bind]
    by_cases hb : startsWith ['&'] toks = true
    · obtain ⟨rest, rfl⟩ := startsWith_symbol (by decide) hb
      obtain ⟨_, _, s2, htok, hat2, -⟩ := gettoken_spec hat1
      obtain ⟨k, rest', s', hrun, hrest, hat'⟩ := ih hat2 (Nat.lt_of_succ_lt_succ hn) (.back t)
      rw [if_pos hb, htok]
      simp only [ok_bind]
      refine ⟨k + 1, rest', s', hrun, ?_, hat'⟩
      rw [hrest]
      rfl
    · rw [if_neg hb]
      exact ⟨0, toks, s1, rfl, rfl, hat1⟩

theorem parseback_complete {k : ℕ} (hat : At line s (List.replicate k (.symbol '&') ++ rest))
    (hend : startsWith ['&'] rest = false) (hn : k < n) (t : Tree) :
    ∃ s', parseback (line ++ [nul]) line.length n t.cmd s = .ok ((t.backs k).cmd, s') ∧ At line s' rest := by
  induction k generalizing s n t with
  | zero =>
    obtain ⟨n, rfl⟩ := Nat.exists_eq_succ_of_ne_zero (Nat.ne_zero_of_lt hn)
    obtain ⟨s1, hpeek, hat1, -⟩ := peek_spec ['&'] (by decide) hat
    rw [parseback, hpeek]
    simp only [ok_bind]
    exact ⟨s1, if_neg (by rw [List.replicate_zero, List.nil_append, hend]; exact Bool.false_ne_true), hat1⟩
  | succ k ih =>
    obtain ⟨n, rfl⟩ := Nat.exists_eq_succ_of_ne_zero (Nat.ne_zero_of_lt hn)
    rw [List.replicate_succ, List.cons_append] at hat
    obtain ⟨s1, hpeek, hat1, -⟩ := peek_spec ['&'] (by decide) hat
    obtain ⟨_, _, s2, htok, hat2, -⟩ := gettoken_spec hat1
    rw [parseback, hpeek]
    simp only [ok_bind]
    have hb : startsWith ['&'] (.symbol '&' :: (List.replicate k (.symbol '&') ++ rest)) = true := rfl
    rw [if_pos hb, htok]
    simp only [ok_bind]
    exact ih hat2 (Nat.lt_of_succ_lt_succ hn) (.back t)

/-- `{word redirs}`; a word too many or another token is a call of `panic`. -/
theorem parseargs_cases (ws : List Word) (rs : List Redir) (hat : At line s toks) (hn : toks.length < n)
    (hws : ws.length < MAXARGS) :
    (∃ msg, parseargs (line ++ [nul]) line.length n ws.length ((Tree.exec ws).redirs rs).cmd s =
      .error (.panic msg)) ∨
    ∃ args rest s', parseargs (line ++ [nul]) line.length n ws.length ((Tree.exec ws).redirs rs).cmd s =
      .ok (ws.length + args.length,
        ((Tree.exec (ws ++ args.map Prod.fst)).redirs (rs ++ args.flatMap Prod.snd)).cmd, s') ∧
      ws.length + args.length < MAXARGS ∧ toks = argTokens args ++ rest ∧ At line s' rest := by
  induction n generalizing s toks ws rs with
  | zero => exact absurd hn (Nat.not_lt_zero _)
  | succ n ih =>
    obtain ⟨s1, hpeek, hat1, -⟩ := peek_spec ['|', ')', '&', ';'] (by decide) hat
    -- the loop ends here with the arguments read so far
    have hstop : ∀ s', At line s' toks → ∃ args rest s'', Except.ok (ε := Fault) (ws.length,
        ((Tree.exec ws).redirs rs).cmd, s') = .ok (ws.length + args.length,
        ((Tree.exec (ws ++ args.map Prod.fst)).redirs (rs ++ args.flatMap Prod.snd)).cmd, s'') ∧
        ws.length + args.length < MAXARGS ∧ toks = argTokens args ++ rest ∧ At line s'' rest := by
      intro s' hat'
      refine ⟨[], toks, s', ?_, hws, rfl, hat'⟩
      rw [List.map_nil, List.append_nil, List.flatMap_nil, List.append_nil]
      rfl
    rw [parseargs, hpeek]
    simp only [ok_bind]
    by_cases hb : startsWith ['|', ')', '&', ';'] toks = true
    · rw [if_pos hb]
      exact .inr (hstop s1 hat1)
    rw [if_neg hb]
    cases toks with
    | nil =>
      have hend : At line line.length [] := ⟨hat1.nul_notMem, le_rfl, by rw [List.drop_length]; exact .nil⟩
      rw [gettoken_nil hat1]
      simp only [ok_bind]
      exact .inr (hstop _ hend)
    | cons tok toks =>
      obtain ⟨q, eq, s2, htok, hat2, hvalid, hword⟩ := gettoken_spec hat1
      rw [htok]
      simp only [ok_bind]
      rw [if_neg hvalid.code_ne_nul]
      by_cases ha : tok.code = 'a'
      · obtain ⟨w, rfl⟩ := hvalid.code_eq_a.mp ha
        -- a word, its redirections, and the rest by the induction hypothesis
        obtain ⟨rfl, rfl⟩ := hword w rfl
        rw [if_neg (not_not.mpr ha), setArg_redirs (setArg_word w hws) rs]
        simp only [ok_bind]
        by_cases hmax : ws.length + 1 ≥ MAXARGS
        · exact .inl ⟨_, if_pos hmax⟩
        rw [if_neg hmax]
        rw [List.length_cons] at hn
        obtain ⟨msg, hmsg⟩ | ⟨rs1, rest1, s3, hrun1, hrest1, hat3⟩ := parseredirs_cases hat2
          (Nat.lt_of_succ_lt_succ hn) ((Tree.exec (ws ++ [w])).redirs rs)
        · rw [hmsg]
          exact .inl ⟨msg, rfl⟩
        rw [hrun1]
        simp only [ok_bind]
        have hlen : rest1.length ≤ toks.length := by
          rw [hrest1, List.length_append]
          omega
        have hws' : (ws ++ [w]).length = ws.length + 1 := by rw [List.length_append, List.length_singleton]
        have hredirs : ((Tree.exec (ws ++ [w])).redirs rs).redirs rs1 = (Tree.exec (ws ++ [w])).redirs (rs ++ rs1) :=
          (List.foldl_append ..).symm
        rw [hredirs, ← hws']
        obtain h | ⟨args, rest, s', hrun, hcount, hrest, hat'⟩ := ih (ws ++ [w]) (rs ++ rs1) hat3
          (by omega) (by omega)
        · exact .inl h
        · refine .inr ⟨(w, rs1) :: args, rest, s', ?_, ?_, ?_, hat'⟩
          · rw [hrun, hws', List.map_cons, List.flatMap_cons, List.length_cons, List.append_assoc, List.append_assoc,
              List.singleton_append, Nat.add_assoc, Nat.add_comm 1]
          · rw [List.length_cons]
            omega
          · rw [hrest1, hrest]
            simp [argTokens]
      · exact .inl ⟨_, if_pos ha⟩

theorem parseargs_complete (ws : List Word) (rs : List Redir) {args : List (Word × List Redir)}
    (hat : At line s (argTokens args ++ rest)) (hend : startsWith ['|', ')', '&', ';'] rest = true ∨ rest = [])
    (hn : (argTokens args).length < n) (hcount : ws.length + args.length < MAXARGS) :
    ∃ s', parseargs (line ++ [nul]) line.length n ws.length ((Tree.exec ws).redirs rs).cmd s =
      .ok (ws.length + args.length,
        ((Tree.exec (ws ++ args.map Prod.fst)).redirs (rs ++ args.flatMap Prod.snd)).cmd, s') ∧
      At line s' rest := by
  induction args generalizing s n ws rs with
  | nil =>
    obtain ⟨n, rfl⟩ := Nat.exists_eq_succ_of_ne_zero (Nat.ne_zero_of_lt hn)
    have hat' : At line s rest := hat
    obtain ⟨s1, hpeek, hat1, -⟩ := peek_spec ['|', ')', '&', ';'] (by decide) hat'
    rw [parseargs, hpeek, List.map_nil, List.append_nil, List.flatMap_nil, List.append_nil]
    simp only [ok_bind]
    obtain hb | rfl := hend
    · exact ⟨s1, if_pos hb, hat1⟩
    · have hend : At line line.length [] := ⟨hat1.nul_notMem, le_rfl, by rw [List.drop_length]; exact .nil⟩
      rw [if_neg (show ¬startsWith ['|', ')', '&', ';'] [] = true from Bool.false_ne_true), gettoken_nil hat1]
      exact ⟨_, rfl, hend⟩
  | cons arg args ih =>
    obtain ⟨n, rfl⟩ := Nat.exists_eq_succ_of_ne_zero (Nat.ne_zero_of_lt hn)
    obtain ⟨w, rs1⟩ := arg
    have hcons : argTokens ((w, rs1) :: args) ++ rest = .word w :: (redirTokens rs1 ++ (argTokens args ++ rest)) := by
      simp [argTokens]
    have hlen : (argTokens ((w, rs1) :: args)).length = (redirTokens rs1).length + (argTokens args).length + 1 := by
      simp [argTokens]
    rw [List.length_cons] at hcount
    rw [hcons] at hat
    obtain ⟨s1, hpeek, hat1, -⟩ := peek_spec ['|', ')', '&', ';'] (by decide) hat
    obtain ⟨q, eq, s2, htok, hat2, -, hword⟩ := gettoken_spec hat1
    obtain ⟨rfl, rfl⟩ := hword w rfl
    -- behind the redirections of this word comes the next word, or the end
    have hnext : startsWith ['<', '>'] (argTokens args ++ rest) = false := by
      cases args with
      | cons arg args => rfl
      | nil =>
        obtain hb | rfl := hend
        · exact startsWith_false hb
        · rfl
    obtain ⟨s3, hrun1, hat3⟩ := parseredirs_complete (n := n) hat2 hnext (by omega)
      ((Tree.exec (ws ++ [w])).redirs rs)
    have hws' : (ws ++ [w]).length = ws.length + 1 := by rw [List.length_append, List.length_singleton]
    have hredirs : ((Tree.exec (ws ++ [w])).redirs rs).redirs rs1 = (Tree.exec (ws ++ [w])).redirs (rs ++ rs1) :=
      (List.foldl_append ..).symm
    obtain ⟨s', hrun, hat'⟩ := ih (n := n) (ws ++ [w]) (rs ++ rs1) hat3 (by omega) (by omega)
    refine ⟨s', ?_, hat'⟩
    rw [parseargs, hpeek]
    simp only [ok_bind]
    rw [if_neg (show ¬startsWith ['|', ')', '&', ';'] (.word w :: _) = true from Bool.false_ne_true), htok]
    simp only [ok_bind]
    rw [if_neg (show ¬Token.code (.word w) = nul from (by decide : 'a' ≠ nul)),
      if_neg (show ¬Token.code (.word w) ≠ 'a' from not_not.mpr rfl),
      setArg_redirs (setArg_word w (by omega)) rs]
    simp only [ok_bind]
    rw [if_neg (by omega), hrun1]
    simp only [ok_bind]
    rw [hredirs, ← hws', hrun, hws', List.map_cons, List.flatMap_cons, List.length_cons, List.append_assoc,
      List.append_assoc, List.singleton_append, Nat.add_assoc, Nat.add_comm 1]

end

end OsSemester.Xv6.Shell
