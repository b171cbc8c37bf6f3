import OsSemester.Xv6.ShellParser

/-!
# The tokens of a command line (`gettoken`, `peek` in `sh.c`)

`Lexes off cs toks` cuts the text `cs` at the position `off` into tokens, with any white space around
them; a word is as long as it can be, and `>>` is one token.  White space that is skipped early changes
nothing, so `peek` leaves the tokens as they are (`peek_spec`) and `gettoken` takes the first of them
(`gettoken_spec`), wherever the cursor stands between two tokens.
-/

namespace OsSemester.Xv6.Shell

/-! ### Tokens -/

/-- A word, and where it begins. -/
structure Word where
  start : ℕ
  text : List Char
  deriving DecidableEq

def Word.stop (w : Word) : ℕ := w.start + w.text.length

inductive Token
  | symbol (c : Char)
  /-- `>>` -/
  | append
  | word (w : Word)

/-- What `gettoken` returns. -/
def Token.code : Token → Char
  | symbol c => c
  | append => '+'
  | word _ => 'a'

/-- The tokens of the text `cs`, which begins at the position `off`. -/
inductive Lexes : ℕ → List Char → List Token → Prop
  | nil {off : ℕ} : Lexes off [] []
  | space {off : ℕ} {c : Char} {cs : List Char} {toks : List Token} :
    c ∈ whitespace → Lexes (off + 1) cs toks → Lexes off (c :: cs) toks
  | symbol {off : ℕ} {c : Char} {cs : List Char} {toks : List Token} :
    c ∈ ['|', '(', ')', ';', '&', '<'] → Lexes (off + 1) cs toks → Lexes off (c :: cs) (.symbol c :: toks)
  | append {off : ℕ} {cs : List Char} {toks : List Token} :
    Lexes (off + 2) cs toks → Lexes off ('>' :: '>' :: cs) (.append :: toks)
  | greater {off : ℕ} {cs : List Char} {toks : List Token} :
    cs.head? ≠ some '>' → Lexes (off + 1) cs toks → Lexes off ('>' :: cs) (.symbol '>' :: toks)
  | word {off : ℕ} {w cs : List Char} {toks : List Token} :
    w ≠ [] → (∀ c ∈ w, wordChar c) → (∀ c ∈ cs.head?, wordChar c = false) →
    Lexes (off + w.length) cs toks → Lexes off (w ++ cs) (.word ⟨off, w⟩ :: toks)

variable {off : ℕ} {c : Char} {cs w : List Char} {toks : List Token}

/-- The first character of a token is one of `chars`, none of which occurs in words. -/
def startsWith (chars : List Char) : List Token → Bool
  | [] => false
  | .symbol c :: _ => decide (c ∈ chars)
  | .append :: _ => decide ('>' ∈ chars)
  | .word _ :: _ => false

theorem wordChar_iff : wordChar c = true ↔ c ∉ whitespace ∧ c ∉ symbols := by
  rw [wordChar, strchr, strchr, Bool.and_eq_true, Bool.not_eq_true', Bool.not_eq_true', decide_eq_false_iff_not,
    decide_eq_false_iff_not]

/-- A text can be cut into tokens. -/
theorem Lexes.total (off : ℕ) (cs : List Char) : ∃ toks, Lexes off cs toks := by
  induction hn : cs.length using Nat.strongRecOn generalizing off cs with
  | _ n ih =>
  subst hn
  match cs with
  | [] => exact ⟨[], .nil⟩
  | c :: cs =>
    by_cases hspace : c ∈ whitespace
    · obtain ⟨toks, h⟩ := ih cs.length (Nat.lt_succ_self _) (off + 1) cs rfl
      exact ⟨toks, .space hspace h⟩
    by_cases hsym : c ∈ ['|', '(', ')', ';', '&', '<']
    · obtain ⟨toks, h⟩ := ih cs.length (Nat.lt_succ_self _) (off + 1) cs rfl
      exact ⟨_, .symbol hsym h⟩
    by_cases hgt : c = '>'
    · subst hgt
      by_cases hhead : cs.head? = some '>'
      · obtain ⟨cs', rfl⟩ : ∃ cs', cs = '>' :: cs' := List.head?_eq_some_iff.mp hhead
        obtain ⟨toks, h⟩ := ih cs'.length (by rw [List.length_cons, List.length_cons]; omega) (off + 2) cs' rfl
        exact ⟨_, .append h⟩
      · obtain ⟨toks, h⟩ := ih cs.length (Nat.lt_succ_self _) (off + 1) cs rfl
        exact ⟨_, .greater hhead h⟩
    -- a word, up to the first character that is not one of words
    have hword : wordChar c = true := by
      rw [wordChar_iff]
      refine ⟨hspace, fun h => ?_⟩
      simp only [symbols, List.mem_cons, List.not_mem_nil] at h hsym
      tauto
    have htake : ((c :: cs).takeWhile wordChar) = c :: cs.takeWhile wordChar := List.takeWhile_cons_of_pos hword
    have hlen : ((c :: cs).dropWhile wordChar).length < (c :: cs).length := by
      rw [List.dropWhile_cons_of_pos hword]
      exact Nat.lt_succ_of_le (List.dropWhile_suffix _).length_le
    obtain ⟨toks, h⟩ := ih _ hlen (off + ((c :: cs).takeWhile wordChar).length) _ rfl
    have hstop : ∀ d ∈ ((c :: cs).dropWhile wordChar).head?, wordChar d = false := by
      intro d hd
      have hnot := List.head?_dropWhile_not wordChar (c :: cs)
      rw [Option.mem_def.mp hd] at hnot
      exact hnot
    have hne : (c :: cs).takeWhile wordChar ≠ [] := by
      rw [htake]
      exact List.cons_ne_nil _ _
    have hlex := Lexes.word hne (fun _ hc => List.mem_takeWhile_imp hc) hstop h
    rw [List.takeWhile_append_dropWhile] at hlex
    exact ⟨_, hlex⟩

/-- A token as `gettoken` finds it. -/
def Token.Valid : Token → Prop
  | symbol c => c ∈ symbols
  | append => True
  | word w => ∀ c ∈ w.text, wordChar c

theorem Lexes.valid (h : Lexes off cs toks) : ∀ tok ∈ toks, tok.Valid := by
  induction h with
  | nil => exact nofun
  | space _ _ ih => exact ih
  | symbol hc _ ih =>
    refine List.forall_mem_cons.mpr ⟨?_, ih⟩
    simp only [Token.Valid, symbols, List.mem_cons, List.not_mem_nil] at hc ⊢
    tauto
  | append _ ih => exact List.forall_mem_cons.mpr ⟨trivial, ih⟩
  | greater _ _ ih => exact List.forall_mem_cons.mpr ⟨show '>' ∈ symbols by decide, ih⟩
  | word _ hw _ _ ih => exact List.forall_mem_cons.mpr ⟨hw, ih⟩

theorem Token.Valid.code_ne_nul {tok : Token} (h : tok.Valid) : tok.code ≠ nul := by
  cases tok with
  | symbol c =>
    rintro rfl
    exact absurd h (show nul ∉ symbols by decide)
  | append => exact show '+' ≠ nul by decide
  | word w => exact show 'a' ≠ nul by decide

theorem Token.Valid.code_eq_a {tok : Token} (h : tok.Valid) : tok.code = 'a' ↔ ∃ w, tok = .word w := by
  cases tok with
  | symbol c =>
    refine iff_of_false (fun hc => ?_) nofun
    have hc' : c = 'a' := hc
    subst hc'
    exact absurd h (show 'a' ∉ symbols by decide)
  | append => exact iff_of_false (show '+' ≠ 'a' by decide) nofun
  | word w => exact iff_of_true rfl ⟨w, rfl⟩

/-! ### The cursor -/

theorem strchr_whitespace {chars : List Char} (hchars : chars.all fun c => !strchr whitespace c) (hc : c ∈ chars) :
    strchr whitespace c = false := by
  rw [← Bool.not_eq_true']
  exact List.all_eq_true.mp hchars c hc

/-- White space in front of the first token can be left out. -/
theorem Lexes.skip (h : Lexes off cs toks) :
    Lexes (off + (cs.takeWhile (strchr whitespace)).length) (cs.dropWhile (strchr whitespace)) toks := by
  have stay : ∀ {off : ℕ} {c : Char} {cs : List Char} {toks : List Token}, strchr whitespace c = false →
      Lexes off (c :: cs) toks → Lexes (off + ((c :: cs).takeWhile (strchr whitespace)).length)
        ((c :: cs).dropWhile (strchr whitespace)) toks := by
    intro off c cs toks hc h
    rwa [List.takeWhile_cons_of_neg (by rw [hc]; exact Bool.false_ne_true),
      List.dropWhile_cons_of_neg (by rw [hc]; exact Bool.false_ne_true)]
  induction h with
  | nil => exact .nil
  | space hc _ ih =>
    have hc' : strchr whitespace _ = true := decide_eq_true hc
    rw [List.takeWhile_cons_of_pos hc', List.dropWhile_cons_of_pos hc', List.length_cons, ← Nat.add_assoc,
      Nat.add_right_comm]
    exact ih
  | symbol hc h => exact stay (strchr_whitespace (by decide) hc) (.symbol hc h)
  | append h => exact stay (by decide) (.append h)
  | greater hhead h => exact stay (by decide) (.greater hhead h)
  | @word _ w cs _ hne hw hcs h =>
    obtain ⟨c, w', rfl⟩ := List.exists_cons_of_ne_nil hne
    have hc := (wordChar_iff.mp (hw c (List.mem_cons_self ..))).1
    exact stay (decide_eq_false hc) (.word hne hw hcs h)

section

variable {line : List Char} {s : ℕ} {p : Char → Bool}

/-- The tokens from the cursor on. -/
structure At (line : List Char) (s : ℕ) (toks : List Token) : Prop where
  nul_notMem : nul ∉ line
  le : s ≤ line.length
  lexes : Lexes s (line.drop s) toks

theorem drop_eq_cons (h : line.drop s = c :: cs) :
    s < line.length ∧ load (line ++ [nul]) s = .ok c ∧ line.drop (s + 1) = cs := by
  have hlt : s < line.length := by
    rw [← Nat.not_le, ← List.drop_eq_nil_iff, h]
    exact List.cons_ne_nil _ _
  rw [List.drop_eq_getElem_cons hlt, List.cons.injEq] at h
  refine ⟨hlt, ?_, h.2⟩
  rw [load, List.getElem?_append_left hlt, List.getElem?_eq_getElem hlt, h.1]

theorem load_eq (hs : s ≤ line.length) : load (line ++ [nul]) s = .ok ((line.drop s).head?.getD nul) := by
  cases hcs : line.drop s with
  | nil =>
    have hlen : s = line.length := Nat.le_antisymm hs (List.drop_eq_nil_iff.mp hcs)
    rw [hlen, load, List.getElem?_append_right le_rfl, Nat.sub_self]
    rfl
  | cons c cs => exact (drop_eq_cons hcs).2.1

/-- The loops that advance the cursor. -/
theorem skip_eq (hs : s ≤ line.length) :
    Shell.skip (line ++ [nul]) line.length p s = .ok (s + ((line.drop s).takeWhile p).length) := by
  induction hcs : line.drop s generalizing s with
  | nil =>
    rw [Shell.skip, if_neg (Nat.not_lt.mpr (List.drop_eq_nil_iff.mp hcs))]
    rfl
  | cons c cs ih =>
    obtain ⟨hlt, hload, hrest⟩ := drop_eq_cons hcs
    rw [Shell.skip, if_pos hlt, hload]
    by_cases hp : p c = true
    · show (if p c then Shell.skip _ _ p (s + 1) else _) = _
      rw [if_pos hp, ih hlt hrest, List.takeWhile_cons_of_pos hp, List.length_cons, Nat.succ_add]
      rfl
    · show (if p c then Shell.skip _ _ p (s + 1) else Except.ok s) = _
      rw [if_neg hp, List.takeWhile_cons_of_neg hp]
      rfl

theorem drop_takeWhile (cs : List Char) (p : Char → Bool) : cs.drop (cs.takeWhile p).length = cs.dropWhile p := by
  calc cs.drop (cs.takeWhile p).length = (cs.takeWhile p ++ cs.dropWhile p).drop (cs.takeWhile p).length := by
        rw [List.takeWhile_append_dropWhile]
    _ = cs.dropWhile p := List.drop_left

/-- The white space in front of the next token is skipped. -/
theorem At.skip (h : At line s toks) : ∃ s', Shell.skip (line ++ [nul]) line.length (strchr whitespace) s = .ok s' ∧
    At line s' toks ∧ ∀ c ∈ (line.drop s').head?, c ∉ whitespace := by
  have hdrop : line.drop (s + ((line.drop s).takeWhile (strchr whitespace)).length) =
      (line.drop s).dropWhile (strchr whitespace) := by
    rw [← List.drop_drop, drop_takeWhile]
  refine ⟨_, skip_eq h.le, ⟨h.nul_notMem, ?_, ?_⟩, fun c hc => ?_⟩
  · have hle := (List.takeWhile_prefix (l := line.drop s) (strchr whitespace)).length_le
    rw [List.length_drop] at hle
    have := h.le
    omega
  · rw [hdrop]
    exact h.lexes.skip
  · have hnot := List.head?_dropWhile_not (strchr whitespace) (line.drop s)
    rw [hdrop, Option.mem_def] at hc
    rw [hc] at hnot
    exact of_decide_eq_false hnot

/-- Without white space in front, the text ends where the tokens do. -/
theorem At.eq_nil_iff (h : At line s toks) (hhead : ∀ c ∈ (line.drop s).head?, c ∉ whitespace) :
    line.drop s = [] ↔ toks = [] := by
  obtain ⟨hnul, hle, hlex⟩ := h
  generalize line.drop s = cs at hlex hhead
  cases hlex with
  | nil => exact iff_of_true rfl rfl
  | space hc _ => exact absurd hc (hhead _ rfl)
  | word hne _ _ _ => exact iff_of_false (List.append_ne_nil_of_left_ne_nil hne _) (List.cons_ne_nil _ _)
  | _ => exact iff_of_false (List.cons_ne_nil _ _) (List.cons_ne_nil _ _)

/-- The token at the cursor, where there is no white space. -/
theorem At.scanToken {tok : Token} (h : At line s (tok :: toks))
    (hhead : ∀ c ∈ (line.drop s).head?, c ∉ whitespace) :
    ∃ s', Shell.scanToken (line ++ [nul]) line.length s = .ok (tok.code, s') ∧ At line s' toks ∧
      ∀ w, tok = .word w → s = w.start ∧ s' = w.stop := by
  obtain ⟨hnul, hle, hlex⟩ := h
  generalize hcs : line.drop s = cs at hlex hhead
  cases hlex with
  | space hc _ => exact absurd hc (hhead _ rfl)
  | @symbol _ c cs _ hc h =>
    obtain ⟨hlt, hload, hrest⟩ := drop_eq_cons hcs
    have hc0 : c ≠ nul := by
      rintro rfl
      exact absurd hc (by decide)
    refine ⟨s + 1, ?_, ⟨hnul, hlt, hrest.symm ▸ h⟩, nofun⟩
    rw [Shell.scanToken, hload]
    show (if c = nul then _ else if c ∈ _ then _ else _) = _
    rw [if_neg hc0, if_pos hc]
    rfl
  | append h =>
    obtain ⟨hlt, hload, hrest⟩ := drop_eq_cons hcs
    obtain ⟨hlt', hload', hrest'⟩ := drop_eq_cons hrest
    refine ⟨s + 2, ?_, ⟨hnul, hlt', hrest'.symm ▸ h⟩, nofun⟩
    rw [Shell.scanToken, hload]
    show (do
      let c' ← load (line ++ [nul]) (s + 1)
      return if c' = '>' then ('+', s + 2) else ('>', s + 1)) = _
    rw [hload']
    rfl
  | @greater _ cs _ hne h =>
    obtain ⟨hlt, hload, hrest⟩ := drop_eq_cons hcs
    have hnext : cs.head?.getD nul ≠ '>' := by
      cases cs with
      | nil => exact show nul ≠ '>' by decide
      | cons c cs => exact fun hc => hne (congrArg some hc)
    refine ⟨s + 1, ?_, ⟨hnul, hlt, hrest.symm ▸ h⟩, nofun⟩
    rw [Shell.scanToken, hload]
    show (do
      let c' ← load (line ++ [nul]) (s + 1)
      return if c' = '>' then ('+', s + 2) else ('>', s + 1)) = _
    rw [load_eq hlt, hrest]
    show Except.ok (if cs.head?.getD nul = '>' then ('+', s + 2) else ('>', s + 1)) = _
    rw [if_neg hnext]
    rfl
  | @word _ w cs _ hne hw hcs' h =>
    obtain ⟨c, w', rfl⟩ := List.exists_cons_of_ne_nil hne
    obtain ⟨hlt, hload, -⟩ := drop_eq_cons hcs
    have hc := (wordChar_iff.mp (hw c (List.mem_cons_self ..))).2
    have hc0 : c ≠ nul := by
      rintro rfl
      have hmem : nul ∈ line.drop s := hcs ▸ List.mem_cons_self ..
      exact hnul (List.mem_of_mem_drop hmem)
    -- the word is all that the loop passes
    have htake : (line.drop s).takeWhile wordChar = c :: w' := by
      rw [hcs, List.takeWhile_append_of_pos hw]
      cases cs with
      | nil => rw [List.takeWhile_nil, List.append_nil]
      | cons d cs => rw [List.takeWhile_cons_of_neg (by rw [hcs' d rfl]; exact Bool.false_ne_true), List.append_nil]
    have hsym : c ∉ ['|', '(', ')', ';', '&', '<'] ∧ c ≠ '>' := by
      simp only [symbols, List.mem_cons, List.not_mem_nil] at hc ⊢
      tauto
    refine ⟨s + (c :: w').length, ?_, ⟨hnul, ?_, ?_⟩, fun w hw' => ?_⟩
    · rw [Shell.scanToken, hload]
      show (if c = nul then _ else if c ∈ _ then _ else if c = '>' then _ else _) = _
      rw [if_neg hc0, if_neg hsym.1, if_neg hsym.2, skip_eq hle, htake]
      rfl
    · have hlen := congrArg List.length hcs
      rw [List.length_drop, List.length_append] at hlen
      omega
    · rw [← List.drop_drop, hcs, List.drop_left]
      exact h
    · cases hw'
      exact ⟨rfl, rfl⟩

/-- `gettoken` takes the first token. -/
theorem gettoken_spec {tok : Token} (h : At line s (tok :: toks)) :
    ∃ q eq s', gettoken (line ++ [nul]) line.length s = .ok (tok.code, q, eq, s') ∧ At line s' toks ∧ tok.Valid ∧
      ∀ w, tok = .word w → q = w.start ∧ eq = w.stop := by
  have hvalid := h.lexes.valid tok (List.mem_cons_self ..)
  obtain ⟨q, hskip, hat, hhead⟩ := h.skip
  obtain ⟨eq, hscan, hat', hword⟩ := hat.scanToken hhead
  obtain ⟨s', hskip', hat'', -⟩ := hat'.skip
  refine ⟨q, eq, s', ?_, hat'', hvalid, hword⟩
  rw [gettoken, hskip]
  show (do
    let r ← Shell.scanToken (line ++ [nul]) line.length q
    let s' ← Shell.skip (line ++ [nul]) line.length (strchr whitespace) r.2
    return (r.1, q, r.2, s')) = _
  rw [hscan]
  show (do
    let s' ← Shell.skip (line ++ [nul]) line.length (strchr whitespace) eq
    return (tok.code, q, eq, s')) = _
  rw [hskip']
  rfl

/-- At the end of the line there is no token. -/
theorem gettoken_nil (h : At line s []) :
    gettoken (line ++ [nul]) line.length s = .ok (nul, line.length, line.length, line.length) := by
  obtain ⟨q, hskip, hat, hhead⟩ := h.skip
  have hlen : q = line.length :=
    Nat.le_antisymm hat.le (List.drop_eq_nil_iff.mp ((hat.eq_nil_iff hhead).mpr rfl))
  rw [gettoken, hskip, hlen]
  show (do
    let r ← Shell.scanToken (line ++ [nul]) line.length line.length
    let s' ← Shell.skip (line ++ [nul]) line.length (strchr whitespace) r.2
    return (r.1, line.length, r.2, s')) = _
  rw [Shell.scanToken, load_eq le_rfl, List.drop_length]
  show (do
    let s' ← Shell.skip (line ++ [nul]) line.length (strchr whitespace) line.length
    return (nul, line.length, line.length, s')) = _
  rw [skip_eq le_rfl, List.drop_length]
  rfl

/-- `peek` looks at the first token, and leaves it there. -/
theorem peek_spec (chars : List Char) (hchars : chars.all (strchr symbols)) (h : At line s toks) :
    ∃ s', peek (line ++ [nul]) line.length chars s = .ok (startsWith chars toks, s') ∧ At line s' toks ∧
      (s' = line.length ↔ toks = []) := by
  obtain ⟨s', hskip, hat, hhead⟩ := h.skip
  refine ⟨s', ?_, hat, ?_⟩
  · rw [peek, hskip]
    show (do
      let c ← load (line ++ [nul]) s'
      return (c ≠ nul && strchr chars c, s')) = _
    rw [load_eq hat.le]
    show Except.ok ((line.drop s').head?.getD nul ≠ nul && strchr chars ((line.drop s').head?.getD nul), s') = _
    have hmem : ∀ c ∈ line.drop s', c ≠ nul := by
      rintro c hc rfl
      exact hat.nul_notMem (List.mem_of_mem_drop hc)
    obtain ⟨hnul, hle, hlex⟩ := hat
    generalize line.drop s' = cs at hlex hhead hmem
    congr 2
    have hfirst : ∀ c cs', cs = c :: cs' →
        (decide (cs.head?.getD nul ≠ nul) && strchr chars (cs.head?.getD nul)) = decide (c ∈ chars) := by
      rintro c cs' rfl
      have hc0 := hmem c (List.mem_cons_self ..)
      show (decide (c ≠ nul) && strchr chars c) = _
      rw [decide_eq_true hc0, Bool.true_and]
      rfl
    cases hlex with
    | nil => rfl
    | space hc _ => exact absurd hc (hhead _ rfl)
    | symbol hc _ => exact hfirst _ _ rfl
    | append _ => exact hfirst _ _ rfl
    | greater _ _ => exact hfirst _ _ rfl
    | word hne hw _ _ =>
      obtain ⟨c, w', rfl⟩ := List.exists_cons_of_ne_nil hne
      rw [hfirst c _ rfl]
      exact decide_eq_false fun hc => (wordChar_iff.mp (hw c (List.mem_cons_self ..))).2 (of_decide_eq_true (List.all_eq_true.mp hchars c hc))
  · rw [← hat.eq_nil_iff hhead, List.drop_eq_nil_iff]
    have := hat.le
    omega

end

end OsSemester.Xv6.Shell
