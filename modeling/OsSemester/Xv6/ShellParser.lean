import Mathlib

/-!
# Parsing a command line (`sh.c`)

The functions share a cursor into the line, a position here.  Reading beyond the terminator, and the
elements of `argv` and `eargv` beyond `MAXARGS`, are faults of their own, so is a call of `panic`.  The
nodes of the tree hold positions of the line; `nulterminate` at the end writes the terminators of their
strings.
-/

namespace OsSemester.Xv6.Shell

abbrev MAXARGS : ℕ := 10

abbrev O_RDONLY : ℕ := 0x000
abbrev O_WRONLY : ℕ := 0x001
abbrev O_CREATE : ℕ := 0x200

/-- The terminator of a string. -/
def nul : Char := Char.ofNat 0

inductive Fault
  | panic (msg : String)
  | outOfBounds
  /-- A null pointer is followed. -/
  | null
  /-- The bound on the depth of the calls has been reached. -/
  | outOfFuel

/-- `struct cmd`; the arrays of `struct execcmd` hold pointers, which may be null. -/
inductive Cmd
  | exec (argv eargv : Fin MAXARGS → Option ℕ)
  | redir (cmd : Cmd) (file efile : ℕ) (mode fd : ℕ)
  | pipe (left right : Cmd)
  | list (left right : Cmd)
  | back (cmd : Cmd)

/-- `execcmd` -/
def execcmd : Cmd := .exec (fun _ => none) fun _ => none

/-- `cmd->argv[argc] = q; cmd->eargv[argc] = eq;` where `cmd` is the node behind the redirections. -/
def Cmd.setArg (argc : ℕ) (q eq : Option ℕ) : Cmd → Except Fault Cmd
  | .exec argv eargv =>
    if h : argc < MAXARGS then
      .ok (.exec (Function.update argv ⟨argc, h⟩ q) (Function.update eargv ⟨argc, h⟩ eq))
    else .error .outOfBounds
  | .redir cmd file efile mode fd => do
    let cmd ← cmd.setArg argc q eq
    return .redir cmd file efile mode fd
  | cmd => .ok cmd

def whitespace : List Char := [' ', '\t', '\r', '\n', Char.ofNat 11]

def symbols : List Char := ['<', '|', '>', '&', ';', '(', ')']

/-- `strchr` -/
def strchr (s : List Char) (c : Char) : Bool := decide (c ∈ s)

/-- `*s`; only the bytes up to the terminator may be read. -/
def load (buf : List Char) (s : ℕ) : Except Fault Char :=
  match buf[s]? with
  | some c => .ok c
  | none => .error .outOfBounds

/-- `*s = 0;` -/
def storeNul (buf : List Char) (s : ℕ) : Except Fault (List Char) :=
  if s < buf.length then .ok (buf.set s nul) else .error .outOfBounds

/-- `strlen` -/
def strlen : List Char → Except Fault ℕ
  | [] => .error .outOfBounds
  | c :: s => if c = nul then .ok 0 else (strlen s).map (· + 1)

section

variable (buf : List Char) (es : ℕ)

/-- `while(s < es && ...) s++;` -/
def skip (p : Char → Bool) (s : ℕ) : Except Fault ℕ :=
  if s < es then do
    let c ← load buf s
    if p c then skip p (s + 1) else return s
  else return s
termination_by es - s

/-- The characters of words. -/
def wordChar (c : Char) : Bool := !strchr whitespace c && !strchr symbols c

/-- The `switch` of `gettoken`: the token, and where it ends. -/
def scanToken (s : ℕ) : Except Fault (Char × ℕ) := do
  let c ← load buf s
  if c = nul then return (c, s)
  else if c ∈ ['|', '(', ')', ';', '&', '<'] then return (c, s + 1)
  else if c = '>' then
    let c' ← load buf (s + 1)
    return if c' = '>' then ('+', s + 2) else (c, s + 1)
  else
    let s' ← skip buf es wordChar s
    return ('a', s')

/-- `gettoken`: the token, where it begins and ends, and the cursor. -/
def gettoken (s : ℕ) : Except Fault (Char × ℕ × ℕ × ℕ) := do
  let q ← skip buf es (strchr whitespace) s
  let (ret, eq) ← scanToken buf es q
  let s' ← skip buf es (strchr whitespace) eq
  return (ret, q, eq, s')

/-- `peek`, and the cursor. -/
def peek (toks : List Char) (s : ℕ) : Except Fault (Bool × ℕ) := do
  let s' ← skip buf es (strchr whitespace) s
  let c ← load buf s'
  return (c ≠ nul && strchr toks c, s')

/-- The `switch` of `parseredirs`. -/
def redirOf (cmd : Cmd) (q eq : ℕ) (tok : Char) : Cmd :=
  if tok = '<' then .redir cmd q eq O_RDONLY 0
  else if tok = '>' then .redir cmd q eq (O_WRONLY ||| O_CREATE) 1
  else if tok = '+' then .redir cmd q eq (O_WRONLY ||| O_CREATE) 1
  else cmd

/-- `parseredirs` -/
def parseredirs : ℕ → Cmd → ℕ → Except Fault (Cmd × ℕ)
  | 0, _, _ => .error .outOfFuel
  | n + 1, cmd, s => do
    let (b, s) ← peek buf es ['<', '>'] s
    if b then
      let (tok, _, _, s) ← gettoken buf es s
      let (tok', q, eq, s) ← gettoken buf es s
      if tok' ≠ 'a' then .error (.panic "missing file for redirection")
      else parseredirs n (redirOf cmd q eq tok) s
    else return (cmd, s)

/-- The loop of `parseexec`; `ret` is `cmd` with its redirections. -/
def parseargs : ℕ → ℕ → Cmd → ℕ → Except Fault (ℕ × Cmd × ℕ)
  | 0, _, _, _ => .error .outOfFuel
  | n + 1, argc, ret, s => do
    let (b, s) ← peek buf es ['|', ')', '&', ';'] s
    if b then return (argc, ret, s)
    else
      let (tok, q, eq, s) ← gettoken buf es s
      if tok = nul then return (argc, ret, s)
      else if tok ≠ 'a' then .error (.panic "syntax")
      else
        let ret ← ret.setArg argc q eq
        if argc + 1 ≥ MAXARGS then .error (.panic "too many args")
        else
          let (ret, s) ← parseredirs buf es n ret s
          parseargs n (argc + 1) ret s

/-- The loop of `parseline`. -/
def parseback : ℕ → Cmd → ℕ → Except Fault (Cmd × ℕ)
  | 0, _, _ => .error .outOfFuel
  | n + 1, cmd, s => do
    let (b, s) ← peek buf es ['&'] s
    if b then
      let (_, _, _, s) ← gettoken buf es s
      parseback n (.back cmd) s
    else return (cmd, s)

mutual

/-- `parseline` -/
def parseline : ℕ → ℕ → Except Fault (Cmd × ℕ)
  | 0, _ => .error .outOfFuel
  | n + 1, s => do
    let (cmd, s) ← parsepipe n s
    let (cmd, s) ← parseback buf es n cmd s
    let (b, s) ← peek buf es [';'] s
    if b then
      let (_, _, _, s) ← gettoken buf es s
      let (right, s) ← parseline n s
      return (.list cmd right, s)
    else return (cmd, s)

/-- `parsepipe` -/
def parsepipe : ℕ → ℕ → Except Fault (Cmd × ℕ)
  | 0, _ => .error .outOfFuel
  | n + 1, s => do
    let (cmd, s) ← parseexec n s
    let (b, s) ← peek buf es ['|'] s
    if b then
      let (_, _, _, s) ← gettoken buf es s
      let (right, s) ← parsepipe n s
      return (.pipe cmd right, s)
    else return (cmd, s)

/-- `parseexec` -/
def parseexec : ℕ → ℕ → Except Fault (Cmd × ℕ)
  | 0, _ => .error .outOfFuel
  | n + 1, s => do
    let (b, s) ← peek buf es ['('] s
    if b then parseblock n s
    else
      let (ret, s) ← parseredirs buf es n execcmd s
      let (argc, ret, s) ← parseargs buf es n 0 ret s
      let ret ← ret.setArg argc none none
      return (ret, s)

/-- `parseblock` -/
def parseblock : ℕ → ℕ → Except Fault (Cmd × ℕ)
  | 0, _ => .error .outOfFuel
  | n + 1, s => do
    let (b, s) ← peek buf es ['('] s
    if ¬b then .error (.panic "parseblock")
    else
      let (_, _, _, s) ← gettoken buf es s
      let (cmd, s) ← parseline n s
      let (b, s) ← peek buf es [')'] s
      if ¬b then .error (.panic "syntax - missing )")
      else
        let (_, _, _, s) ← gettoken buf es s
        parseredirs buf es n cmd s

end

end

/-- The loop of `nulterminate` over the arguments from `i` on. -/
def nulterminateArgs (argv eargv : Fin MAXARGS → Option ℕ) (i : ℕ) (buf : List Char) :
    Except Fault (List Char) :=
  if h : i < MAXARGS then
    match argv ⟨i, h⟩, eargv ⟨i, h⟩ with
    | none, _ => .ok buf
    | some _, some e => do
      let buf ← storeNul buf e
      nulterminateArgs argv eargv (i + 1) buf
    | some _, none => .error .null
  else .error .outOfBounds
termination_by MAXARGS - i

/-- `nulterminate` -/
def nulterminate : Cmd → List Char → Except Fault (List Char)
  | .exec argv eargv, buf => nulterminateArgs argv eargv 0 buf
  | .redir cmd _ efile _ _, buf => do
    let buf ← nulterminate cmd buf
    storeNul buf efile
  | .pipe left right, buf => do
    let buf ← nulterminate left buf
    nulterminate right buf
  | .list left right, buf => do
    let buf ← nulterminate left buf
    nulterminate right buf
  | .back cmd, buf => nulterminate cmd buf

/-- `parsecmd` of the string in `buf`, with `n` for the depth of the calls: the tree, and the string
afterwards. -/
def parsecmd (n : ℕ) (buf : List Char) : Except Fault (Cmd × List Char) := do
  let es ← strlen buf
  let (cmd, s) ← parseline buf es n 0
  let (_, s) ← peek buf es [] s
  if s ≠ es then .error (.panic "syntax")
  else
    let buf ← nulterminate cmd buf
    return (cmd, buf)

end OsSemester.Xv6.Shell
